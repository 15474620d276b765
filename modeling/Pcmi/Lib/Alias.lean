import Mathlib.Logic.Function.Basic

/-!
# Aliases without chains

A partial map sends an alias to the name it stands for. When no name is an alias of another (the map
is flat), resolving twice is resolving once.
-/

namespace Pcmi.Lib.Alias

variable {κ : Type}

/-- What a key is resolved to: itself where it is no alias. -/
def root (f : κ → Option κ) (k : κ) : κ := (f k).getD k

/-- No alias stands for an alias of another name. -/
def Flat (f : κ → Option κ) : Prop := ∀ a c, f a = some c → f c = none ∨ f c = some c

variable {f : κ → Option κ} {c : κ}

theorem root_of_some {a : κ} (h : f a = some c) : root f a = c := by
  rw [root, h, Option.getD_some]

theorem root_of_name (h : f c = none ∨ f c = some c) : root f c = c := by
  rcases h with h | h
  · rw [root, h, Option.getD_none]
  · exact root_of_some h

theorem Flat.root_root (hf : Flat f) (k : κ) : root f (root f k) = root f k := by
  cases h : f k with
  | none => rw [root_of_name (Or.inl h), root_of_name (Or.inl h)]
  | some c =>
    rw [root_of_some h]
    exact root_of_name (hf k c h)

variable [DecidableEq κ]

/-- A new alias keeps the map flat if it is no name, and its name no alias. -/
theorem Flat.update (hf : Flat f) {a c : κ}
    (h : c = a ∨ (f c = none ∨ f c = some c) ∧ ∀ b, f b = some a → b = a) :
    Flat (Function.update f a (some c)) := by
  intro x y hxy
  by_cases hya : y = a
  · subst hya
    by_cases hc : c = y
    · rw [hc, Function.update_self]
      exact Or.inr rfl
    -- the name of `x` is the new alias
    obtain ⟨-, hnone⟩ := h.resolve_left hc
    rw [Function.update_apply] at hxy
    split at hxy
    · exact absurd (Option.some.inj hxy) hc
    · next hx => exact absurd (hnone x hxy) hx
  · rw [Function.update_of_ne hya]
    rw [Function.update_apply] at hxy
    split at hxy
    · cases hxy
      exact (h.resolve_left hya).1
    · exact hf x y hxy

end Pcmi.Lib.Alias
