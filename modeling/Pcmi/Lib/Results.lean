import Mathlib.Logic.Basic

/-!
# Results of fallible functions

What a result that is no error says of the results it is made from.
-/

namespace Pcmi.Lib

variable {ε α β : Type} {x : Except ε α} {b : β}

theorem ok_bind (a : α) (f : α → Except ε β) : (Except.ok a >>= f) = f a := rfl

theorem error_bind (e : ε) (f : α → Except ε β) : (Except.error e >>= f) = Except.error e := rfl

theorem bind_eq_ok {f : α → Except ε β} (h : x.bind f = .ok b) : ∃ a, x = .ok a ∧ f a = .ok b := by
  cases x with
  | error e => cases h
  | ok a => exact ⟨a, rfl, h⟩

variable {f : α → β}

theorem map_eq_ok (h : x.map f = .ok b) : ∃ a, x = .ok a ∧ f a = b := by
  cases x with
  | error e => cases h
  | ok a => exact ⟨a, rfl, Except.ok.inj h⟩

theorem mapError_eq_ok {f : ε → β} {a : α} (h : x.mapError f = .ok a) : x = .ok a := by
  cases x with
  | error e => cases h
  | ok a' => exact congrArg Except.ok (Except.ok.inj h)

theorem eq_ok_of_mem {a : α} (h : a ∈ x.toOption) : x = .ok a := by
  cases x with
  | error e => cases h
  | ok a' => exact congrArg Except.ok (Option.some.inj h)

/-- A result that is evaluated. -/
theorem exists_ok {P : α → Prop} (h : ∃ a ∈ x.toOption, P a) : ∃ a, x = .ok a ∧ P a :=
  h.imp fun _ h => ⟨eq_ok_of_mem h.1, h.2⟩

theorem exists_ok_pair {x : Except ε (α × β)} {P : α → β → Prop}
    (h : ∃ p ∈ x.toOption, P p.1 p.2) : ∃ a b, x = .ok (a, b) ∧ P a b :=
  let ⟨p, hp, hP⟩ := h
  ⟨p.1, p.2, eq_ok_of_mem hp, hP⟩

end Pcmi.Lib
