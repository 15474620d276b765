import Mathlib.Algebra.Order.Ring.Rat
import Pcmi.Lib.Validity
import Pcmi.Values

/-!
# Rows of `memory_entries`

The columns that the store, the history reads and the workers use; a row carries the label list of
its path. `temporalClause` and the row predicates are the `WHERE` clauses of the repository.
-/

namespace Pcmi.Memory

open Pcmi.Lib

/-- An `ltree` value: its labels from the root. -/
structure Ltree where
  labels : List String
  deriving DecidableEq, Repr

/-- `path <@ anc`: equal to it or below it. -/
def Ltree.under (path anc : Ltree) : Bool := anc.labels.isPrefixOf path.labels

/-- `nlevel(path)`. -/
def Ltree.nlevel (path : Ltree) : Nat := path.labels.length

/-- The columns a store request fills, floats as rationals. -/
structure Columns where
  path : Ltree
  content : String
  metadata : JsonMap
  tags : List String
  embedding : Option (List ℚ)
  embeddingModel : String
  embeddingSpace : String
  sourceAgentId : Option String
  contentEncrypted : Bool
  expiresAt : Option Time
  importance : ℚ
  contentHash : Option String

structure Row extends Columns where
  id : Nat
  tenantId : String
  version : Int
  validFrom : Time
  validTo : Option Time
  createdAt : Time

/-- `tenant_id = $1 AND path = $2`. -/
def Row.at (tenantId : String) (path : Ltree) (r : Row) : Bool :=
  r.tenantId == tenantId && r.path == path

/-- `valid_to IS NULL`. -/
def Row.isOpen (r : Row) : Bool := r.validTo.isNone

/-- `tenant_id = $1 AND path = $2 AND valid_to IS NULL`. -/
def Row.current (tenantId : String) (path : Ltree) (r : Row) : Bool :=
  r.at tenantId path && r.isOpen

/-- The validity period `[valid_from, valid_to)`. -/
def Row.period (r : Row) : Period Time := ⟨r.validFrom, r.validTo⟩

/-- `SET valid_to = now`. -/
def Row.close (now : Time) (r : Row) : Row := { r with validTo := some now }

/-- `temporalClause`: the current slice, or the rows valid at an instant. -/
def temporalClause (asOf : Option Time) (r : Row) : Bool :=
  match asOf with
  | none => r.validTo.isNone
  | some t => decide (r.validFrom ≤ t) &&
      match r.validTo with
      | none => true
      | some e => decide (t < e)

@[simp] theorem Row.close_isOpen (now : Time) (r : Row) : (r.close now).isOpen = false := rfl
@[simp] theorem Row.close_at (now : Time) (r : Row) (tenantId : String) (path : Ltree) :
    (r.close now).at tenantId path = r.at tenantId path := rfl
@[simp] theorem Row.close_current (now : Time) (r : Row) (tenantId : String) (path : Ltree) :
    (r.close now).current tenantId path = false := by simp [Row.current]

theorem Row.isOpen_iff {r : Row} : r.isOpen = true ↔ r.validTo = none := by
  simp [Row.isOpen]

theorem Row.close_period (now : Time) (r : Row) : (r.close now).period = r.period.closeAt now := rfl

theorem temporalClause_some_iff (t : Time) (r : Row) :
    temporalClause (some t) r = true ↔ r.period.Contains t := by
  cases h : r.validTo with
  | none | some e => simp [temporalClause, Row.period, Period.Contains, h]

end Pcmi.Memory
