import Mathlib.Order.Lattice
import Mathlib.Data.List.Pairwise

/-!
# Validity periods

A half-open period `[start, stop)`, open-ended when `stop` is `none`. In a history no two periods
contain the same instant. It stays one when the open period is closed and a new one opened there.
-/

namespace Pcmi.Lib

/-- A half-open period, without end when `stop = none`. -/
structure Period (τ : Type) where
  start : τ
  stop : Option τ
  deriving DecidableEq, Repr

namespace Period

variable {τ : Type} [LinearOrder τ]

def Contains (p : Period τ) (t : τ) : Prop :=
  p.start ≤ t ∧ ∀ e, p.stop = some e → t < e

instance (p : Period τ) (t : τ) : Decidable (p.Contains t) :=
  match h : p.stop with
  | none => decidable_of_iff (p.start ≤ t) (by simp [Contains, h])
  | some e => decidable_of_iff (p.start ≤ t ∧ t < e) (by simp [Contains, h])

def Disjoint (p q : Period τ) : Prop := ∀ t, p.Contains t → ¬ q.Contains t

/-- A closed period does not end before it starts. -/
def Ordered (p : Period τ) : Prop := ∀ e, p.stop = some e → p.start ≤ e

def closeAt (p : Period τ) (t : τ) : Period τ := { p with stop := some t }

variable {p q : Period τ}

theorem Disjoint.symm (h : p.Disjoint q) : q.Disjoint p :=
  fun t hq hp => h t hp hq

variable {t : τ}

theorem contains_of_closeAt {u : τ} (hopen : p.stop = none) (h : (p.closeAt t).Contains u) :
    p.Contains u :=
  ⟨h.1, by simp [hopen]⟩

theorem not_disjoint_of_open (hp : p.stop = none) (hq : q.stop = none) : ¬ p.Disjoint q := by
  intro h
  refine h (max p.start q.start) ⟨le_max_left _ _, by simp [hp]⟩ ⟨le_max_right _ _, by simp [hq]⟩

theorem closeAt_disjoint_opened : (p.closeAt t).Disjoint ⟨t, none⟩ :=
  fun _ hu hn => absurd (hu.2 t rfl) (not_lt.mpr hn.1)

/-- A period disjoint from an open one ends before later starts. -/
theorem Disjoint.opened_of_le (hopen : p.stop = none) (hle : p.start ≤ t) (h : p.Disjoint q) :
    q.Disjoint ⟨t, none⟩ :=
  fun u hq hu => h u ⟨le_trans hle hu.1, by simp [hopen]⟩ hq

theorem disjoint_opened_of_stop_le {e : τ} (hq : q.stop = some e) (hle : e ≤ t) :
    q.Disjoint ⟨t, none⟩ :=
  fun _ hu hn => absurd (lt_of_lt_of_le (hu.2 e hq) hle) (not_lt.mpr hn.1)

theorem length_filter_contains_le {ps : List (Period τ)} (h : ps.Pairwise Disjoint) (t : τ) :
    (ps.filter (fun p => p.Contains t)).length ≤ 1 := by
  induction ps with
  | nil => simp
  | cons p rest ih =>
    obtain ⟨hp, hrest⟩ := List.pairwise_cons.mp h
    by_cases hc : p.Contains t
    · have hnone : rest.filter (fun q => q.Contains t) = [] := by
        refine List.filter_eq_nil_iff.mpr fun q hq => ?_
        simpa using hp q hq t hc
      simp [hc, hnone]
    · simpa [hc] using ih hrest

end Period

end Pcmi.Lib
