import Mathlib.Data.List.Basic

/-!
# Serial numbers with an owner

A counter numbers new elements; they come at the end and may go at any time. A number that was given
out belongs to one owner (`Owns`).
-/

namespace Pcmi.Lib

variable {β : Type} {next next' : Nat} {owners : List (Nat × β)} {o : β} {n : Nat}

/-- The number was given out, and if its element is there it is `o`'s. -/
def Owns (next : Nat) (owners : List (Nat × β)) (o : β) (n : Nat) : Prop :=
  n < next ∧ ∀ p ∈ owners, p.1 = n → p.2 = o

instance [DecidableEq β] : Decidable (Owns next owners o n) := inferInstanceAs (Decidable (_ ∧ _))

/-- Every element that is there has a number of its own owner. -/
def Consistent (next : Nat) (owners : List (Nat × β)) : Prop :=
  ∀ p ∈ owners, Owns next owners p.2 p.1

/-- What can happen: elements go, or one comes with the next number. -/
inductive Grows (next : Nat) (owners : List (Nat × β)) : Nat → List (Nat × β) → Prop where
  | shrink {owners' : List (Nat × β)} (h : owners' ⊆ owners) : Grows next owners next owners'
  | fresh (o : β) : Grows next owners (next + 1) (owners ++ [(next, o)])

variable {owners' : List (Nat × β)}

theorem Grows.refl (next : Nat) (owners : List (Nat × β)) : Grows next owners next owners :=
  .shrink (List.Subset.refl _)

theorem Owns.grows (h : Owns next owners o n) (hg : Grows next owners next' owners') :
    Owns next' owners' o n := by
  cases hg with
  | shrink hsub => exact ⟨h.1, fun p hp => h.2 p (hsub hp)⟩
  | fresh o' =>
    refine ⟨Nat.lt_succ_of_lt h.1, List.forall_mem_append.mpr ⟨h.2, ?_⟩⟩
    rintro p hp rfl
    rw [List.mem_singleton.mp hp] at h
    exact absurd h.1 (Nat.lt_irrefl _)

theorem Consistent.owns_fresh (h : Consistent next owners) (o : β) :
    Owns (next + 1) (owners ++ [(next, o)]) o next := by
  refine ⟨Nat.lt_succ_self next, List.forall_mem_append.mpr ⟨fun p hp hn => ?_, ?_⟩⟩
  · exact absurd (hn ▸ (h p hp).1) (Nat.lt_irrefl _)
  · exact fun p hp _ => by rw [List.mem_singleton.mp hp]

theorem Consistent.grows (h : Consistent next owners) (hg : Grows next owners next' owners') :
    Consistent next' owners' := by
  cases hg with
  | shrink hsub => exact fun p hp => (h p (hsub hp)).grows (.shrink hsub)
  | fresh o =>
    refine List.forall_mem_append.mpr ⟨fun p hp => (h p hp).grows (.fresh o), fun p hp => ?_⟩
    rw [List.mem_singleton.mp hp]
    exact h.owns_fresh o

end Pcmi.Lib
