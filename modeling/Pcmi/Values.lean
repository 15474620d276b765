import Mathlib.Algebra.Order.Ring.Int
import Mathlib.Data.List.AList

/-!
# Values of columns and payloads

Timestamps, and what `encoding/json` decodes into `any` (or a `jsonb` column holds). A number is the
decimal `mantissa · 10^(-scale)`, as every finite `float64` is. A top-level object is a Go map, so
its keys are distinct.
-/

namespace Pcmi

/-- `timestamptz`, in microseconds since 1970 in UTC, and `interval`. -/
abbrev Time := Int

def second : Time := 1000000

def hour : Time := 3600 * second

/-- One day of `make_interval(days => …)`, in UTC. -/
def day : Time := 24 * hour

inductive Json where
  | null
  | bool (b : Bool)
  | num (mantissa : Int) (scale : Nat)
  | str (s : String)
  | arr (items : List Json)
  | obj (fields : List (String × Json))

/-- `map[string]any`: no key twice. -/
abbrev JsonMap := AList (fun _ : String => Json)

/-- The Go type assertion `v.(string)` with its zero value when it fails. -/
def Json.asString : Option Json → String
  | some (.str s) => s
  | _ => ""

end Pcmi
