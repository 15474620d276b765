import Mathlib.Data.List.Basic

/-!
# Three truth values

Kleene's strong connectives over `Option Bool`, where `none` is the unknown value.
-/

namespace Pcmi.Lib.Kleene

abbrev Truth := Option Bool

def and : Truth → Truth → Truth
  | some false, _ => some false
  | _, some false => some false
  | some true, some true => some true
  | _, _ => none

def or : Truth → Truth → Truth
  | some true, _ => some true
  | _, some true => some true
  | some false, some false => some false
  | _, _ => none

def xor : Truth → Truth → Truth
  | some a, some b => some (a.xor b)
  | _, _ => none

def all (l : List Truth) : Truth := l.foldr and (some true)

def any (l : List Truth) : Truth := l.foldr or (some false)

def odd (l : List Truth) : Truth := l.foldr xor (some false)

theorem and_eq_true_iff {a b : Truth} : and a b = some true ↔ a = some true ∧ b = some true := by
  rcases a with _ | _ | _ <;> rcases b with _ | _ | _ <;> decide

theorem and_assoc (a b c : Truth) : and (and a b) c = and a (and b c) := by
  rcases a with _ | _ | _ <;> rcases b with _ | _ | _ <;> rcases c with _ | _ | _ <;> rfl

theorem all_append_singleton (a : Truth) : ∀ l : List Truth, all (l ++ [a]) = and (all l) a
  | [] => by rcases a with _ | _ | _ <;> rfl
  | b :: l => by
    have ih := all_append_singleton a l
    unfold all at ih ⊢
    rw [List.cons_append, List.foldr_cons, ih, List.foldr_cons, and_assoc]

@[simp] theorem any_singleton (a : Truth) : any [a] = a := by
  rcases a with _ | _ | _ <;> rfl

@[simp] theorem odd_singleton (a : Truth) : odd [a] = a := by
  rcases a with _ | _ | _ <;> rfl

/-- **A conjunction is true when all its members are.** -/
theorem all_eq_true_iff : ∀ {l : List Truth}, all l = some true ↔ ∀ a ∈ l, a = some true
  | [] => by simp [all]
  | a :: l => by
    rw [List.forall_mem_cons, ← all_eq_true_iff (l := l)]
    exact and_eq_true_iff

end Pcmi.Lib.Kleene
