import Mathlib.Data.List.Sort
import Pcmi.Lib.Follow

/-!
# The best candidate for each key, page by page

Candidates are offered to a map one after the other, and a better one takes the place of the one
with its key. What is left (`best`) has each key once, with a candidate that none is better than.
-/

namespace Pcmi.Lib

open List

variable {α β κ : Type}

section

variable [DecidableEq κ] (key : α → κ) (better : α → α → Bool)

def offer (seen : List α) (a : α) : List α :=
  if seen.any fun b => key b = key a && !better a b then seen
  else a :: seen.filter (key · ≠ key a)

def best (l : List α) : List α := l.foldl (offer key better) []

variable {key better} {l seen : List α}

/-- What the map has behind the candidates `l`. -/
structure BestOf (key : α → κ) (better : α → α → Bool) (l seen : List α) : Prop where
  nodup : (seen.map key).Nodup
  mem : ∀ b ∈ seen, b ∈ l
  best : ∀ a ∈ l, ∃ b ∈ seen, key b = key a ∧ better a b = false

theorem best_concat (l : List α) (a : α) :
    best key better (l ++ [a]) = offer key better (best key better l) a := by
  rw [best, foldl_append]
  rfl

variable (hirrefl : ∀ a, better a a = false)
  (htrans : ∀ a b c, better a b = true → better b c = true → better a c = true)

include hirrefl htrans

theorem BestOf.offer (h : BestOf key better l seen) (a : α) :
    BestOf key better (l ++ [a]) (offer key better seen a) := by
  unfold Lib.offer
  split
  · next hany =>
    obtain ⟨b, hb, hkey⟩ := any_eq_true.mp hany
    refine ⟨h.nodup, fun b hb => mem_append_left _ (h.mem b hb), ?_⟩
    exact forall_mem_append.mpr ⟨h.best, forall_mem_singleton.mpr ⟨b, hb, by simpa using hkey⟩⟩
  · next hany =>
    refine ⟨?_, ?_, forall_mem_append.mpr ⟨fun a' ha' => ?_, forall_mem_singleton.mpr
      ⟨a, mem_cons_self, rfl, hirrefl a⟩⟩⟩
    · refine nodup_cons.mpr ⟨?_, h.nodup.sublist (filter_sublist.map key)⟩
      simp
    · refine forall_mem_cons.mpr ⟨mem_append_right _ mem_cons_self, fun b hb => ?_⟩
      exact mem_append_left _ (h.mem b (mem_of_mem_filter hb))
    · obtain ⟨b, hb, hkey, hbest⟩ := h.best a' ha'
      by_cases hsame : key b = key a
      · have hbetter : better a b = true := by
          by_contra hnot
          exact hany (any_eq_true.mpr ⟨b, hb, by simp [hsame, hnot]⟩)
        refine ⟨a, mem_cons_self, hsame ▸ hkey, Bool.eq_false_iff.mpr fun ha => ?_⟩
        rw [htrans a' a b ha hbetter] at hbest
        cases hbest
      · exact ⟨b, mem_cons_of_mem a (mem_filter.mpr ⟨hb, by simpa using hsame⟩), hkey, hbest⟩

theorem bestOf (l : List α) : BestOf key better l (best key better l) := by
  induction l using List.reverseRecOn with
  | nil => exact ⟨nodup_nil, nofun, nofun⟩
  | append_singleton l a ih =>
    rw [best_concat]
    exact ih.offer hirrefl htrans a

omit hirrefl htrans

omit [DecidableEq κ] in
theorem BestOf.least (h : BestOf key better l seen) {a b : α} (ha : a ∈ l) (hb : b ∈ seen)
    (hkey : key a = key b) : better a b = false := by
  obtain ⟨b', hb', hkey', hbest⟩ := h.best a ha
  rwa [inj_on_of_nodup_map h.nodup hb' hb (hkey'.trans hkey)] at hbest

/-- The choice depends on nothing but keys and comparisons. -/
theorem best_map {key' : β → κ} {better' : β → β → Bool} {f : β → α}
    (hkey : ∀ b, key (f b) = key' b) (hbetter : ∀ b c, better (f b) (f c) = better' b c)
    (l : List β) : best key better (l.map f) = (best key' better' l).map f := by
  induction l using List.reverseRecOn with
  | nil => rfl
  | append_singleton l b ih =>
    have hoffer : ∀ seen : List β, offer key better (seen.map f) (f b) =
        (offer key' better' seen b).map f := by
      intro seen
      unfold offer
      simp only [any_map, filter_map, Function.comp_def, hkey, hbetter]
      split <;> rfl
    rw [map_append, map_singleton, best_concat, ih, hoffer, best_concat]

end

/-! ## Pages -/

section

variable [LinearOrder κ] (key : α → κ)

def sortedBy (l : List α) : List α := l.insertionSort (key · ≤ key ·)

/-- The first `n` elements behind `cursor`, and a key if there are more. -/
def pageBehind (stop cursor : κ) (n : Nat) (l : List α) : List α × κ :=
  let all := sortedBy key (l.filter (cursor < key ·))
  if n < all.length then (all.take n, lastKey key stop (all.take n)) else (all, stop)

/-- What a reader has of a page; `stop` says that it is the last. -/
def ReadsPage (stop : κ) (page : List α × κ) (items : List α) (next : Option κ) : Prop :=
  items = page.1 ∧ next = if page.2 = stop then none else some page.2

variable {key} {l : List α}

theorem ascending_sortedBy (h : (l.map key).Nodup) : Ascending key (sortedBy key l) := by
  have hnodup : ((sortedBy key l).map key).Nodup :=
    ((perm_insertionSort _ l).map key).nodup_iff.mpr h
  exact (pairwise_insertionSort (key · ≤ key ·) l).imp₂ (fun _ _ => lt_of_le_of_ne)
    (pairwise_map.mp hnodup)

theorem sortedBy_filter (h : (l.map key).Nodup) (cursor : κ) :
    sortedBy key (l.filter (cursor < key ·)) = above key cursor (sortedBy key l) := by
  have hperm : (sortedBy key (l.filter (cursor < key ·))).Perm (above key cursor
      (sortedBy key l)) :=
    (perm_insertionSort _ _).trans ((perm_insertionSort _ l).symm.filter _)
  refine hperm.eq_of_pairwise (fun a b _ _ hab hba => absurd hab (lt_asymm hba)) ?_
    ((ascending_sortedBy h).filter _)
  exact ascending_sortedBy (h.sublist (filter_sublist.map key))

/-- **The pages hold what is behind the first cursor.** -/
theorem follows_pageBehind_iff (h : (l.map key).Nodup) {n : Nat} (hn : 0 < n) {stop : κ}
    {fetch : κ → List α → Option κ → Prop}
    (hfetch : ∀ c, stop ≤ c → fetch c = ReadsPage stop (pageBehind key stop c n l))
    {entries : List α} :
    Follows fetch stop entries ↔ entries = above key stop (sortedBy key l) := by
  have hpages : PagesOf fetch key (sortedBy key l) n Eq fun c after => c = after ∧ stop ≤ c := by
    constructor
    · rintro c _ ⟨rfl, hc⟩ hlength items next
      rw [hfetch c hc, pageBehind, sortedBy_filter h, if_neg (Nat.not_lt.mpr hlength),
        forall₂_eq_eq_eq,
        ReadsPage, if_pos rfl, eq_comm]
    · rintro c _ ⟨rfl, hc⟩ hlength
      have hne : page key c n (sortedBy key l) ≠ [] := by
        rw [page, Ne, take_eq_nil_iff, not_or]
        exact ⟨hn.ne', ne_nil_of_length_pos (Nat.lt_of_le_of_lt (Nat.zero_le n) hlength)⟩
      have hlast : ∀ after, lastKey key after (page key c n (sortedBy key l)) =
          key ((page key c n (sortedBy key l)).getLast hne) := fun after =>
        lastKey_of_getLast? (getLast?_eq_some_getLast hne) after
      have hlt : c < lastKey key c (page key c n (sortedBy key l)) :=
        lt_lastKey (fun a ha => (mem_above.mp (mem_of_mem_take ha)).2) hne
      refine ⟨_, ⟨rfl, hc.trans hlt.le⟩, fun items next => ?_⟩
      rw [hfetch c hc, pageBehind, sortedBy_filter h, if_pos hlength, ReadsPage]
      change items = page key c n _ ∧ next = (if lastKey key stop (page key c n _) = stop then none
        else some (lastKey key stop (page key c n _))) ↔ _
      rw [hlast stop, ← hlast c, if_neg (hc.trans_lt hlt).ne', forall₂_eq_eq_eq]
      simp only [exists_eq_left', take_page_succ]
  rw [hpages.follows_iff (ascending_sortedBy h) hn ⟨rfl, le_refl stop⟩, forall₂_eq_eq_eq, eq_comm]

theorem pageBehind_map {key' : β → κ} {f : β → α} (hkey : ∀ b, key (f b) = key' b)
    (stop cursor : κ) (n : Nat) (l : List β) : pageBehind key stop cursor n (l.map f) =
      ((pageBehind key' stop cursor n l).1.map f, (pageBehind key' stop cursor n l).2) := by
  have hsort : sortedBy key ((l.map f).filter (cursor < key ·)) =
      (sortedBy key' (l.filter (cursor < key' ·))).map f := by
    have hle : ∀ m : List β, (sortedBy key' m).map f = sortedBy key (m.map f) := fun m =>
      map_insertionSort (key' · ≤ key' ·) (key · ≤ key ·) f m fun a _ b _ => by rw [hkey, hkey]
    rw [filter_map, hle]
    simp only [Function.comp_def, hkey]
  unfold pageBehind
  dsimp only
  rw [hsort, length_map]
  split
  · simp only [← map_take, lastKey, getLast?_map, Option.map_map, Function.comp_def, hkey]
  · rfl

end

end Pcmi.Lib
