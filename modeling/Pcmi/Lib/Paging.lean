import Mathlib.Data.List.Induction
import Mathlib.Data.List.Nodup
import Mathlib.Order.Lattice
import Mathlib.Algebra.Order.Ring.Int

/-!
# Reading an ordered list page by page

A reader asks for the first `n` elements with a greater key (`page`) and continues behind the last
key it got. With strictly ascending keys the pages are consecutive pieces.
-/

namespace Pcmi.Lib

open List

variable {α κ : Type} [LinearOrder κ] (key : α → κ)

def Ascending (l : List α) : Prop := l.Pairwise fun a b => key a < key b

def above (after : κ) (l : List α) : List α := l.filter fun a => decide (after < key a)

def page (after : κ) (n : Nat) (l : List α) : List α := (above key after l).take n

def lastKey (after : κ) (l : List α) : κ := (l.getLast?.map key).getD after

variable {key} {l : List α} {after : κ} {a b : α} {n : Nat}

/-- A condition that only the later elements fail cuts the list. -/
theorem filter_isPrefix {p : α → Bool} (h : l.Pairwise fun a b => p b = true → p a = true) :
    l.filter p <+: l := by
  induction l with
  | nil => exact nil_prefix
  | cons a l ih =>
    obtain ⟨ha, hl⟩ := pairwise_cons.mp h
    by_cases hp : p a = true
    · rw [filter_cons_of_pos hp]
      exact (prefix_cons_inj a).mpr (ih hl)
    · rw [filter_cons_of_neg hp, filter_eq_nil_iff.mpr fun b hb hpb => hp (ha b hb hpb)]
      exact nil_prefix

theorem Ascending.eq_of_key (h : Ascending key l) (ha : a ∈ l) (hb : b ∈ l) (hkey : key a = key b) :
    a = b :=
  inj_on_of_nodup_map (pairwise_map.mpr (h.imp fun hab => hab.ne)) ha hb hkey

theorem mem_above : a ∈ above key after l ↔ a ∈ l ∧ after < key a := by
  rw [above, mem_filter, decide_eq_true_eq]

theorem above_above {after' : κ} (h : after ≤ after') (l : List α) :
    above key after' (above key after l) = above key after' l := by
  unfold above
  rw [filter_filter]
  refine filter_congr fun a _ => ?_
  by_cases ha : after' < key a
  · simp [ha, lt_of_le_of_lt h ha]
  · simp [ha]

theorem take_page_succ (after : κ) (n : Nat) (l : List α) :
    (page key after (n + 1) l).take n = page key after n l := by
  rw [page, take_take, Nat.min_eq_left (Nat.le_succ n), page]

omit [LinearOrder κ] in
theorem lastKey_of_getLast? (h : l.getLast? = some a) (after : κ) :
    lastKey key after l = key a := by
  rw [lastKey, h]
  rfl

theorem lt_lastKey (h : ∀ a ∈ l, after < key a) (hne : l ≠ []) : after < lastKey key after l := by
  rw [lastKey, getLast?_eq_some_getLast hne]
  exact h _ (getLast_mem hne)

theorem le_lastKey_page (after : κ) (n : Nat) (l : List α) :
    after ≤ lastKey key after (page key after n l) := by
  by_cases hne : page key after n l = []
  · rw [hne]
    exact le_refl after
  · exact (lt_lastKey (fun a ha => (mem_above.mp (mem_of_mem_take ha)).2) hne).le

/-- What ascends behind a last element is above its key. -/
theorem above_lastKey {front back : List α} (h : Ascending key (front ++ back)) (hne : front ≠ [])
    (after : κ) : above key (lastKey key after front) (front ++ back) = back := by
  obtain ⟨hfront, -, hback⟩ := pairwise_append.mp h
  cases front using List.reverseRecOn with
  | nil => exact absurd rfl hne
  | append_singleton front last =>
    have hlast : lastKey key after (front ++ [last]) = key last := by simp [lastKey]
    have hbefore : ∀ a ∈ front ++ [last], ¬ key last < key a := by
      refine forall_mem_append.mpr ⟨fun a ha => ?_, ?_⟩
      · exact not_lt_of_ge ((pairwise_append.mp hfront).2.2 a ha last mem_cons_self).le
      · exact forall_mem_singleton.mpr (lt_irrefl _)
    rw [hlast, above, filter_append, filter_eq_nil_iff.mpr fun a ha => by
      simpa using hbefore a ha, nil_append, filter_eq_self]
    intro a ha
    exact decide_eq_true (hback last (mem_append_right _ mem_cons_self) a ha)

/-- **Pages are consecutive.** -/
theorem page_append_above (h : Ascending key l) (after : κ) (n : Nat) :
    page key after n l ++ above key (lastKey key after (page key after n l)) l
      = above key after l := by
  by_cases hnil : page key after n l = []
  · rw [hnil]
    rfl
  have hsplit : page key after n l ++ (above key after l).drop n = above key after l :=
    take_append_drop n _
  have hpage : ∀ a ∈ page key after n l, after < key a := fun a ha =>
    (mem_above.mp (mem_of_mem_take ha)).2
  have hasc : Ascending key (page key after n l ++ (above key after l).drop n) := by
    rw [hsplit]
    exact h.filter _
  have hrest := above_lastKey hasc hnil after
  rw [hsplit, above_above (lt_lastKey hpage hnil).le] at hrest
  rw [hrest, hsplit]

theorem page_eq_above (h : (page key after n l).length < n) :
    page key after n l = above key after l := by
  unfold page at h ⊢
  rw [length_take] at h
  exact take_of_length_le (by omega)

theorem page_add (h : Ascending key l) (hfull : (page key after n l).length = n) (m : Nat) :
    page key after (n + m) l =
      page key after n l ++ page key (lastKey key after (page key after n l)) m l := by
  calc page key after (n + m) l
      = (page key after n l ++ above key (lastKey key after (page key after n l)) l).take
        (n + m) := by
        rw [page_append_above h]
        rfl
    _ = page key after n l ++ page key (lastKey key after (page key after n l)) m l := by
        rw [take_append, hfull, Nat.add_sub_cancel_left,
          take_of_length_le (hfull.le.trans (Nat.le_add_right n m))]
        rfl

omit [LinearOrder κ] in
theorem lastKey_append (after : κ) (l l' : List α) :
    lastKey key after (l ++ l') = lastKey key (lastKey key after l) l' := by
  cases l' using List.reverseRecOn with
  | nil => rw [append_nil]; rfl
  | append_singleton l' a => simp [lastKey, ← append_assoc]

theorem length_above_lt (h : Ascending key l) (hne : page key after n l ≠ []) :
    (above key (lastKey key after (page key after n l)) l).length
      < (above key after l).length := by
  have hlength := congrArg List.length (page_append_above h after n)
  have := length_pos_iff.mpr hne
  rw [length_append] at hlength
  omega

/-! ## Keys without gaps -/

/-- Where keys are consecutive, every number between two keys is one. -/
theorem exists_key_eq_of_isChain {key : α → Int} (h : (a :: l).IsChain fun x y => key y = key x + 1)
    (hb : b ∈ a :: l) {z : Int} (hle : key a ≤ z) (hle' : z ≤ key b) : ∃ w ∈ a :: l, key w = z := by
  induction l generalizing a with
  | nil =>
    obtain rfl := mem_singleton.mp hb
    exact ⟨b, mem_cons_self, le_antisymm hle hle'⟩
  | cons c l ih =>
    by_cases hz : key a = z
    · exact ⟨a, mem_cons_self, hz⟩
    obtain ⟨hac, hrest⟩ := isChain_cons_cons.mp h
    have hb : b ∈ c :: l := by
      rcases mem_cons.mp hb with rfl | hb
      · exact absurd (le_antisymm hle hle') hz
      · exact hb
    have hcz : key c ≤ z := by omega
    obtain ⟨w, hw, hkey⟩ := ih hrest hb hcz
    exact ⟨w, mem_cons_of_mem _ hw, hkey⟩

end Pcmi.Lib
