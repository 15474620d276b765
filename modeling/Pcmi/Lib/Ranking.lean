import Mathlib.Data.Prod.Lex
import Pcmi.Lib.Ties

/-!
# Cutting a ranked list

A list is ranked by a key, elements of one key in any order, and cut behind its first `n` elements.
-/

namespace Pcmi.Lib

open List

variable {α κ : Type} [LinearOrder κ] {key : α → κ}

/-! ## Positions in a sorted list -/

section

variable {l front back : List α} {x : α}

theorem countP_lt_le (h : (front ++ x :: back).Pairwise fun a b => key a ≤ key b) :
    (front ++ x :: back).countP (fun y => key y < key x) ≤ front.length := by
  have hback : (x :: back).countP (fun y => key y < key x) = 0 := by
    rw [countP_eq_zero]
    intro y hy
    have hle : key x ≤ key y := by
      rcases mem_cons.mp hy with rfl | hy
      · exact le_rfl
      · exact rel_of_pairwise_cons (pairwise_append.mp h).2.1 hy
    simpa using hle
  rw [countP_append, hback]
  exact countP_le_length

theorem lt_countP_le (h : (front ++ x :: back).Pairwise fun a b => key a ≤ key b) :
    front.length < (front ++ x :: back).countP fun y => key y ≤ key x := by
  have hfront : front.countP (fun y => key y ≤ key x) = front.length := by
    rw [countP_eq_length]
    intro y hy
    have hle : key y ≤ key x := (pairwise_append.mp h).2.2 y hy x mem_cons_self
    simpa using hle
  rw [countP_append, hfront, countP_cons_of_pos (by simp)]
  omega

end

variable {l : List α} {n : Nat} {x : α}

theorem mem_take_iff_exists :
    x ∈ l.take n ↔ ∃ front back, l = front ++ x :: back ∧ front.length < n := by
  constructor
  · intro hx
    obtain ⟨front, back, hsplit⟩ := append_of_mem hx
    refine ⟨front, back ++ l.drop n, ?_, ?_⟩
    · rw [← cons_append, ← append_assoc, ← hsplit, take_append_drop]
    · have hlength := length_take_le n l
      rw [hsplit, length_append, length_cons] at hlength
      omega
  · rintro ⟨front, back, rfl, hlt⟩
    obtain ⟨k, hk⟩ := Nat.exists_eq_add_of_lt hlt
    rw [take_append, show n - front.length = k + 1 by omega, take_succ_cons]
    exact mem_append_right _ mem_cons_self

theorem mem_drop_iff_exists :
    x ∈ l.drop n ↔ ∃ front back, l = front ++ x :: back ∧ n ≤ front.length := by
  constructor
  · intro hx
    obtain ⟨front, back, hsplit⟩ := append_of_mem hx
    refine ⟨l.take n ++ front, back, ?_, ?_⟩
    · rw [append_assoc, ← hsplit, take_append_drop]
    · have hne : l.drop n ≠ [] := ne_nil_of_mem hx
      rw [ne_eq, drop_eq_nil_iff] at hne
      rw [length_append, length_take]
      omega
  · rintro ⟨front, back, rfl, hle⟩
    rw [drop_append, show n - front.length = 0 by omega, drop_zero]
    exact mem_append_right _ mem_cons_self

/-! ## The cut -/

section

variable {l arranged : List α} {n : Nat} {a b : α}

/-- Where an arrangement keeps `b` and drops `a`. -/
theorem Arranges.of_cut (h : Arranges key l arranged) (hb : b ∈ arranged.take n)
    (ha : a ∈ arranged.drop n) :
    l.countP (fun x => key x < key b) < n ∧ n < l.countP fun x => key x ≤ key a := by
  obtain ⟨hperm, hsorted⟩ := h
  constructor
  · obtain ⟨front, back, rfl, hlt⟩ := mem_take_iff_exists.mp hb
    rw [← hperm.countP_eq]
    exact (countP_lt_le hsorted).trans_lt hlt
  · obtain ⟨front, back, rfl, hle⟩ := mem_drop_iff_exists.mp ha
    rw [← hperm.countP_eq]
    exact hle.trans_lt (lt_countP_le hsorted)

/-- `b` comes first and `a` last among the elements of their keys. -/
def refined [DecidableEq α] (key : α → κ) (a b x : α) : κ ×ₗ Nat :=
  toLex (key x, if x = b then 0 else if x = a then 2 else 1)

theorem refined_le_iff [DecidableEq α] {x : α} (hx : x ≠ b) :
    refined key a b x ≤ refined key a b b ↔ key x < key b := by
  rw [refined, refined, Prod.Lex.toLex_le_toLex]
  simp only [if_neg hx, if_true]
  split <;> simp

theorem refined_lt_iff [DecidableEq α] {x : α} (hx : x ≠ a) (hne : b ≠ a) :
    refined key a b x < refined key a b a ↔ key x ≤ key a := by
  rw [refined, refined, Prod.Lex.toLex_lt_toLex, le_iff_lt_or_eq]
  simp only [if_neg hx, if_neg hne.symm, if_true]
  split <;> simp

theorem countP_refined_le [DecidableEq α] (hnodup : l.Nodup) (hb : b ∈ l) :
    l.countP (fun x => refined key a b x ≤ refined key a b b) =
      l.countP (fun x => key x < key b) + 1 := by
  have hperm := perm_cons_erase hb
  have hrest : ∀ x ∈ l.erase b, (decide (refined key a b x ≤ refined key a b b) = true ↔
      decide (key x < key b) = true) := by
    intro x hx
    rw [decide_eq_true_iff, decide_eq_true_iff]
    exact refined_le_iff (Nodup.mem_erase_iff hnodup |>.mp hx).1
  rw [hperm.countP_eq, hperm.countP_eq, countP_cons_of_pos (by simp),
    countP_cons_of_neg (by simp), countP_congr hrest]

theorem countP_refined_lt [DecidableEq α] (hnodup : l.Nodup) (ha : a ∈ l) (hne : b ≠ a) :
    l.countP (fun x => refined key a b x < refined key a b a) + 1 =
      l.countP (fun x => key x ≤ key a) := by
  have hperm := perm_cons_erase ha
  have hrest : ∀ x ∈ l.erase a, (decide (refined key a b x < refined key a b a) = true ↔
      decide (key x ≤ key a) = true) := by
    intro x hx
    rw [decide_eq_true_iff, decide_eq_true_iff]
    exact refined_lt_iff (Nodup.mem_erase_iff hnodup |>.mp hx).1 hne
  rw [hperm.countP_eq, hperm.countP_eq, countP_cons_of_neg (by simp),
    countP_cons_of_pos (by simp), countP_congr hrest]

/-- **Some arrangement keeps `b` and drops `a`.** -/
theorem exists_cut_iff (hnodup : l.Nodup) (ha : a ∈ l) (hb : b ∈ l) (hne : b ≠ a) :
    (∃ arranged, Arranges key l arranged ∧ b ∈ arranged.take n ∧ a ∈ arranged.drop n) ↔
      l.countP (fun x => key x < key b) < n ∧ n < l.countP fun x => key x ≤ key a := by
  classical
  constructor
  · rintro ⟨arranged, harranged, hkept, hdropped⟩
    exact harranged.of_cut hkept hdropped
  · rintro ⟨hbefore, hbehind⟩
    have hperm := perm_insertionSort (fun x y => refined key a b x ≤ refined key a b y) l
    have hsorted := pairwise_insertionSort (fun x y => refined key a b x ≤ refined key a b y) l
    refine ⟨_, ⟨hperm, hsorted.imp ?_⟩, mem_take_iff_exists.mpr ?_, mem_drop_iff_exists.mpr ?_⟩
    · intro x y hxy
      exact (Prod.Lex.toLex_le_toLex.mp hxy).elim le_of_lt (fun h => h.1.le)
    · obtain ⟨front, back, hsplit⟩ := append_of_mem (hperm.mem_iff.mpr hb)
      rw [hsplit] at hperm hsorted
      have hlt := lt_countP_le hsorted
      rw [hperm.countP_eq, countP_refined_le hnodup hb] at hlt
      exact ⟨front, back, hsplit, by omega⟩
    · obtain ⟨front, back, hsplit⟩ := append_of_mem (hperm.mem_iff.mpr ha)
      rw [hsplit] at hperm hsorted
      have hle := countP_lt_le hsorted
      rw [hperm.countP_eq] at hle
      have hcount : l.countP (fun x => refined key a b x < refined key a b a) + 1 =
          l.countP (fun x => key x ≤ key a) := countP_refined_lt hnodup ha hne
      exact ⟨front, back, hsplit, by omega⟩

/-- An arrangement of a list is made by some way of arranging. -/
theorem Arranges.exists_arranger (h : Arranges key l arranged) :
    ∃ arrange : List α → List α, (∀ m, Arranges key m (arrange m)) ∧ arrange l = arranged := by
  classical
  let sorted (m : List α) : List α := m.insertionSort fun x y => key x ≤ key y
  refine ⟨Function.update sorted l arranged, ?_, Function.update_self ..⟩
  intro m
  by_cases hm : m = l
  · rw [hm, Function.update_self]
    exact h
  · rw [Function.update_of_ne hm]
    exact ⟨perm_insertionSort _ m, pairwise_insertionSort _ m⟩

end

end Pcmi.Lib
