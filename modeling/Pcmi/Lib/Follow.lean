import Pcmi.Lib.Paging

/-!
# Following a list from page to page

A page says where the next one begins, or that there is none (`fetch`). `Follows fetch c l`: the
pages from `c` to the last one hold `l`. `PagesOf`: the pages of a list with strictly ascending
keys, read with one element more than they show.
-/

namespace Pcmi.Lib

open List

variable {α β γ κ : Type}

/-- The pages from one on, up to the last. -/
inductive Follows (fetch : γ → List α → Option γ → Prop) : γ → List α → Prop where
  | last {c : γ} {items : List α} : fetch c items none → Follows fetch c items
  | more {c c' : γ} {items rest : List α} : fetch c items (some c') → Follows fetch c' rest →
      Follows fetch c (items ++ rest)

variable [LinearOrder κ]

/-- The pages of `l`: `R` says where a continuation begins, `Q` what is shown. -/
structure PagesOf (fetch : γ → List α → Option γ → Prop) (key : β → κ) (l : List β) (n : Nat)
    (Q : β → α → Prop) (R : γ → κ → Prop) : Prop where
  last : ∀ {c after}, R c after → (above key after l).length ≤ n → ∀ items next,
    fetch c items next ↔ List.Forall₂ Q (above key after l) items ∧ next = none
  more : ∀ {c after}, R c after → n < (above key after l).length →
    ∃ c', R c' (lastKey key after (page key after n l)) ∧ ∀ items next,
      fetch c items next ↔
        (∃ shown, List.Forall₂ Q (page key after (n + 1) l) shown ∧ items = shown.take n) ∧
          next = some c'

variable {fetch : γ → List α → Option γ → Prop} {key : β → κ} {l : List β} {n : Nat}
  {Q : β → α → Prop} {R : γ → κ → Prop}

theorem above_lastKey_page (hl : Ascending key l) (after : κ) (n : Nat) :
    above key (lastKey key after (page key after n l)) l = (above key after l).drop n := by
  have hsplit : page key after n l ++ (above key after l).drop n = above key after l :=
    take_append_drop n _
  exact append_cancel_left ((page_append_above hl after n).trans hsplit.symm)

namespace PagesOf

variable {c : γ} {entries : List α} {after : κ}

theorem forall₂_of_follows (h : PagesOf fetch key l n Q R) (hl : Ascending key l)
    (hfollows : Follows fetch c entries) :
    ∀ {after : κ}, R c after → List.Forall₂ Q (above key after l) entries := by
  induction hfollows with
  | @last c items hfetch =>
    intro after hR
    rcases Nat.lt_or_ge n (above key after l).length with hmore | hlast
    · obtain ⟨c', -, hiff⟩ := h.more hR hmore
      nomatch ((hiff items none).mp hfetch).2
    · exact ((h.last hR hlast items none).mp hfetch).1
  | @more c c' items rest hfetch _ ih =>
    intro after hR
    rcases Nat.lt_or_ge n (above key after l).length with hmore | hlast
    · obtain ⟨c'', hR', hiff⟩ := h.more hR hmore
      obtain ⟨⟨shown, hshown, rfl⟩, hc⟩ := (hiff items (some c')).mp hfetch
      obtain rfl := Option.some.inj hc
      have hpage : List.Forall₂ Q (page key after n l) (shown.take n) := by
        have hpage := forall₂_take n hshown
        rwa [take_page_succ] at hpage
      rw [← page_append_above hl after n]
      exact rel_append hpage (ih hR')
    · nomatch ((h.last hR hlast items (some c')).mp hfetch).2

theorem follows_of_forall₂ (h : PagesOf fetch key l n Q R) (hl : Ascending key l) (hn : 0 < n)
    (hR : R c after) (hentries : List.Forall₂ Q (above key after l) entries) :
    Follows fetch c entries := by
  -- by the number of elements that are left
  induction hlength : entries.length using Nat.strong_induction_on
    generalizing c after entries with
  | _ length ih =>
    subst hlength
    have heq := hentries.length_eq
    rcases Nat.lt_or_ge n (above key after l).length with hmore | hlast
    · obtain ⟨c', hR', hiff⟩ := h.more hR hmore
      have hfetch : fetch c (entries.take n) (some c') := by
        refine (hiff _ _).mpr ⟨⟨_, forall₂_take (n + 1) hentries, ?_⟩, rfl⟩
        rw [take_take, Nat.min_eq_left (Nat.le_succ n)]
      have hrest : List.Forall₂ Q (above key (lastKey key after (page key after n l)) l)
          (entries.drop n) := by
        rw [above_lastKey_page hl]
        exact forall₂_drop n hentries
      have hless : (entries.drop n).length < entries.length := by
        rw [length_drop]
        omega
      have hfollows := Follows.more hfetch (ih _ hless hR' hrest rfl)
      rwa [take_append_drop] at hfollows
    · exact .last ((h.last hR hlast _ _).mpr ⟨hentries, rfl⟩)

/-- **Following the pages of a list yields the list.** -/
theorem follows_iff (h : PagesOf fetch key l n Q R) (hl : Ascending key l) (hn : 0 < n)
    (hR : R c after) :
    Follows fetch c entries ↔ List.Forall₂ Q (above key after l) entries :=
  ⟨fun hfollows => h.forall₂_of_follows hl hfollows hR, h.follows_of_forall₂ hl hn hR⟩

end PagesOf

end Pcmi.Lib
