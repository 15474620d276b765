import Mathlib.Data.List.Induction
import Mathlib.Order.Lattice

/-!
# Admission over a sliding window

If each event of a log is admitted only while at most `n` events lie in the window of length `w`
that ends with it, then at most `n` admitted events have times less than `w` apart.
-/

namespace Pcmi.Lib

open List

variable {α T : Type} {l : List α}

/-- What holds of each element and those before it, one element on. -/
theorem forall_before_snoc {P : List α → α → Prop} {a : α} :
    (∀ pre x post, l ++ [a] = pre ++ x :: post → P pre x) ↔
      (∀ pre x post, l = pre ++ x :: post → P pre x) ∧ P l a := by
  constructor
  · intro h
    refine ⟨fun pre x post hl => h pre x (post ++ [a]) ?_, h l a [] rfl⟩
    rw [hl, append_assoc, cons_append]
  · rintro ⟨hl, ha⟩ pre x post hsplit
    cases post using List.reverseRecOn with
    | nil =>
      obtain ⟨rfl, hx⟩ := append_inj' hsplit rfl
      rwa [← cons.inj hx |>.1]
    | append_singleton post b =>
      rw [← cons_append, ← append_assoc] at hsplit
      exact hl pre x post (append_inj' hsplit rfl).1

variable [Sub T] [LinearOrder T]

/-- The events of `l` in the window of length `w` that ends at `t`. -/
def windowCount (time : α → T) (w t : T) (l : List α) : Nat :=
  l.countP fun a => decide (t - w < time a ∧ time a ≤ t)

/-- **The bound of a window.** -/
theorem countP_admitted_le {time : α → T} {admitted : α → Bool} {w : T} {n : Nat}
    (hsorted : l.Pairwise fun a b => time a ≤ time b)
    (hwithin : ∀ pre a post, l = pre ++ a :: post → admitted a = true → windowCount time w (time a)
      (pre ++ [a]) ≤ n)
    {I : T → Prop} [DecidablePred I] (hI : ∀ s t, I s → I t → t - w < s) :
    l.countP (fun a => admitted a && decide (I (time a))) ≤ n := by
  induction l using List.reverseRecOn with
  | nil => exact Nat.zero_le n
  | append_singleton l a ih =>
    obtain ⟨hl, -, hbefore⟩ := pairwise_append.mp hsorted
    by_cases ha : (admitted a && decide (I (time a))) = true
    · obtain ⟨hadm, hIa⟩ := Bool.and_eq_true_iff.mp ha
      -- The last admitted event in `I` counted all the others in its own window.
      refine Nat.le_trans (countP_mono_left fun b hb hbI => ?_) (hwithin l a [] rfl hadm)
      have hIb := of_decide_eq_true (Bool.and_eq_true_iff.mp hbI).2
      have hle : time b ≤ time a := by
        rcases mem_append.mp hb with hb | hb
        · exact hbefore b hb a mem_cons_self
        · rw [mem_singleton.mp hb]
      exact decide_eq_true ⟨hI _ _ hIb (of_decide_eq_true hIa), hle⟩
    · rw [countP_append, countP_singleton, if_neg ha, Nat.add_zero]
      exact ih hl (forall_before_snoc.mp hwithin).1

end Pcmi.Lib
