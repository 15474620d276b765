import Mathlib.Data.List.Basic

/-!
# Selecting from an enumeration

An enumeration by steps is a fold of `flatMap`. When a candidate outside a selection leads to none
inside it, selecting at the end is selecting at every step.
-/

namespace Pcmi.Lib

open List

variable {α β σ : Type}

theorem filter_flatMap_filter {p : β → Bool} {q : α → Bool} {f g : α → List β} :
    ∀ {l : List α}, (∀ a ∈ l, q a = false → ∀ b ∈ f a, p b = false) →
      (∀ a ∈ l, q a = true → (f a).filter p = g a) →
        (l.flatMap f).filter p = (l.filter q).flatMap g
  | [], _, _ => rfl
  | a :: l, hdrop, hkeep => by
    have ih := filter_flatMap_filter (p := p) (q := q) (f := f) (g := g) (l := l)
      (fun x hx => hdrop x (mem_cons_of_mem _ hx))
      (fun x hx => hkeep x (mem_cons_of_mem _ hx))
    rw [flatMap_cons, filter_append, ih]
    cases hq : q a with
    | true =>
      rw [filter_cons_of_pos hq, flatMap_cons, hkeep a mem_cons_self hq]
    | false =>
      have hnil : (f a).filter p = [] := filter_eq_nil_iff.mpr fun b hb =>
        Bool.eq_false_iff.mp (hdrop a mem_cons_self hq b hb)
      rw [filter_cons_of_neg (by simp [hq]), hnil, nil_append]

variable (steps : List σ) {f g : σ → α → List α} {p : α → Bool} {I : α → Prop} {l : List α}

theorem forall_mem_foldl_flatMap (hinv : ∀ s ∈ steps, ∀ a, I a → ∀ b ∈ f s a, I b)
    (hl : ∀ a ∈ l, I a) : ∀ b ∈ steps.foldl (fun l s => l.flatMap (f s)) l, I b := by
  induction steps generalizing l with
  | nil => exact hl
  | cons s steps ih =>
    refine ih (fun s' hs' => hinv s' (mem_cons_of_mem _ hs')) fun b hb => ?_
    obtain ⟨a, ha, hb⟩ := mem_flatMap.mp hb
    exact hinv s mem_cons_self a (hl a ha) b hb

/-- **Selecting at the end is selecting at every step.** -/
theorem filter_foldl_flatMap (hinv : ∀ s ∈ steps, ∀ a, I a → ∀ b ∈ f s a, I b)
    (hdrop : ∀ s ∈ steps, ∀ a, I a → p a = false → ∀ b ∈ f s a, p b = false)
    (hkeep : ∀ s ∈ steps, ∀ a, I a → p a = true → (f s a).filter p = g s a) (hl : ∀ a ∈ l, I a) :
    (steps.foldl (fun l s => l.flatMap (f s)) l).filter p =
      steps.foldl (fun l s => l.flatMap (g s)) (l.filter p) := by
  induction steps generalizing l with
  | nil => rfl
  | cons s steps ih =>
    have hnext : ∀ b ∈ l.flatMap (f s), I b := fun b hb => by
      obtain ⟨a, ha, hb⟩ := mem_flatMap.mp hb
      exact hinv s mem_cons_self a (hl a ha) b hb
    rw [foldl_cons, foldl_cons,
      ih (fun s' hs' => hinv s' (mem_cons_of_mem _ hs'))
        (fun s' hs' => hdrop s' (mem_cons_of_mem _ hs'))
        (fun s' hs' => hkeep s' (mem_cons_of_mem _ hs')) hnext,
      filter_flatMap_filter (fun a ha => hdrop s mem_cons_self a (hl a ha))
        (fun a ha => hkeep s mem_cons_self a (hl a ha))]

end Pcmi.Lib
