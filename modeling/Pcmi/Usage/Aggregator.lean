import Pcmi.Lib.Ledger
import Pcmi.Lib.Slots
import Pcmi.Lib.Steps
import Pcmi.Values

/-!
# The usage aggregator

`Record` adds an event to the bucket of its key, `Flush` takes all buckets away and writes them to
`llm_usage_daily`: in one batch and, if that fails, row by row. A row that is refused for good is
dropped, any other merged back. Records and flushes overlap. Statements are all or nothing.

Amounts dropped and recorded are in no variable of the code; here they are logged.
-/

namespace Pcmi.Usage

open Pcmi.Lib

/-! ## Buckets -/

structure BucketKey where
  tenantId : String
  /-- The UTC day. -/
  day : Int
  operation : String
  provider : String
  model : String
  deriving DecidableEq

@[ext]
structure Bucket where
  requests : Int64
  inputTokens : Int64
  outputTokens : Int64
  deriving DecidableEq

namespace Bucket

instance : Zero Bucket := ⟨0, 0, 0⟩

instance : Add Bucket :=
  ⟨fun a b =>
    ⟨a.requests + b.requests, a.inputTokens + b.inputTokens, a.outputTokens + b.outputTokens⟩⟩

instance : AddCommMonoid Bucket where
  add_assoc a b c :=
    Bucket.ext (Int64.add_assoc _ _ _) (Int64.add_assoc _ _ _) (Int64.add_assoc _ _ _)
  zero_add a := Bucket.ext (Int64.zero_add _) (Int64.zero_add _) (Int64.zero_add _)
  add_zero a := Bucket.ext (Int64.add_zero _) (Int64.add_zero _) (Int64.add_zero _)
  add_comm a b := Bucket.ext (Int64.add_comm _ _) (Int64.add_comm _ _) (Int64.add_comm _ _)
  nsmul := nsmulRec

end Bucket

inductive Counter where
  | requests
  | inputTokens
  | outputTokens

def Bucket.get (c : Counter) (b : Bucket) : Int :=
  match c with
  | .requests => b.requests.toInt
  | .inputTokens => b.inputTokens.toInt
  | .outputTokens => b.outputTokens.toInt

abbrev Buckets := AList fun _ : BucketKey => Bucket

/-- A metered call; `atTime` is `none` for the zero time. -/
structure Event where
  tenantId : String
  operation : String
  provider : String
  model : String
  inputTokens : Int64
  outputTokens : Int64
  atTime : Option Time

def Event.key (ev : Event) (now : Time) : BucketKey where
  tenantId := ev.tenantId
  day := ev.atTime.getD now / day
  operation := ev.operation
  provider := ev.provider
  model := ev.model

def Event.bucket (ev : Event) : Bucket := ⟨1, ev.inputTokens, ev.outputTokens⟩

def maxPendingBuckets : Nat := 100000

/-! ## The database -/

/-- `int64` and `BIGINT` go up to here. -/
def maxInt64 : Int := 9223372036854775807

/-- The upsert of one counter passes its `CHECK` and does not overflow. -/
def fits (row x : Int64) : Bool := 0 ≤ x.toInt ∧ row.toInt + x.toInt ≤ maxInt64

/-- Whether `upsertSQL` can add a bucket to a row. -/
def accepts (row b : Bucket) : Bool :=
  fits row.requests b.requests && fits row.inputTokens b.inputTokens &&
    fits row.outputTokens b.outputTokens

inductive DbError where
  /-- `*pgconn.PgError`. -/
  | pg (code : String)
  | other
  deriving DecidableEq

/-- `isPermanent`: SQLSTATE class 22 or 23. -/
def isPermanent : DbError → Bool
  | .pg code => code.toList.take 2 = ['2', '2'] ∨ code.toList.take 2 = ['2', '3']
  | .other => false

/-! ## The aggregator -/

variable {rest requeue : Buckets} {k : BucketKey}

theorem apart_erase (h : ∀ k ∈ rest, k ∉ requeue) :
    ∀ k' ∈ rest.erase k, k' ∉ requeue :=
  fun k' hk => h k' (AList.mem_erase.mp hk).2

theorem apart_insert {v : Bucket} (h : ∀ k ∈ rest, k ∉ requeue) :
    ∀ k' ∈ rest.erase k, k' ∉ requeue.insert k v := by
  intro k' hk hin
  obtain ⟨hne, hrest⟩ := AList.mem_erase.mp hk
  rcases AList.mem_insert _ |>.mp hin with heq | hin
  · exact hne heq
  · exact h k' hrest hin

/-- A call of `Flush` behind its first lock. -/
inductive Flush where
  | sent (batch : Buckets)
  /-- The batch has failed: what to write, and what to merge back. -/
  | rows (rest requeue : Buckets) (apart : ∀ k ∈ rest, k ∉ requeue)
  | done

structure State where
  pending : Buckets
  dropped : Int64
  flushes : List Flush
  /-- What `llm_usage_daily` has taken for a key. -/
  table : BucketKey → Bucket
  rejected : BucketKey → Bucket
  /-- Dropped because the buffer was full. -/
  overflowed : BucketKey → Bucket
  recorded : List (BucketKey × Bucket)

def State.start : State := ⟨∅, 0, [], 0, 0, 0, []⟩

inductive Action where
  | record (ev : Event) (now : Time)
  | flush
  | batch (i : Nat) (err : Option DbError)
  | row (i : Nat) (k : BucketKey) (err : Option DbError)
  /-- The end of a flush whose batch has failed. -/
  | merge (i : Nat)

def addAt (f : BucketKey → Bucket) (k : BucketKey) (b : Bucket) : BucketKey → Bucket :=
  fun k' => if k' = k then f k' + b else f k'

theorem addAt_self (f : BucketKey → Bucket) (k : BucketKey) (b : Bucket) :
    addAt f k b k = f k + b :=
  if_pos rfl

theorem addAt_of_ne {k' : BucketKey} (h : k' ≠ k) (f : BucketKey → Bucket) (b : Bucket) :
    addAt f k b k' = f k' :=
  if_neg h

namespace State

def setFlush (s : State) (i : Nat) (f : Flush) : State := { s with flushes := s.flushes.set i f }

def log (s : State) (k : BucketKey) (b : Bucket) : State :=
  { s with recorded := s.recorded ++ [(k, b)] }

def record (s : State) (ev : Event) (now : Time) : State :=
  if ev.tenantId = "" then s
  else
    let k := ev.key now
    match s.pending.lookup k with
    | some b => { s.log k ev.bucket with pending := s.pending.insert k (b + ev.bucket) }
    | none =>
      if maxPendingBuckets ≤ s.pending.entries.length then
        { s.log k ev.bucket with
          dropped := s.dropped + 1
          overflowed := addAt s.overflowed k ev.bucket }
      else { s.log k ev.bucket with pending := s.pending.insert k (0 + ev.bucket) }

/-- `Flush` up to `SendBatch`. -/
def flush (s : State) : State :=
  { s with
    pending := ∅
    dropped := 0
    flushes := s.flushes ++ [if s.pending.entries = [] then .done else .sent s.pending] }

def batch (s : State) (i : Nat) (b : Buckets) : Option DbError → Option State
  | none =>
    if b.entries.all fun e => accepts (s.table e.1) e.2 then
      some { s.setFlush i .done with table := fun k => s.table k + amount b k }
    else none
  | some _ => some (s.setFlush i (.rows b ∅ fun _ _ => AList.notMem_empty _))

/-- The result of the upsert of one row, from the loop over `pending`. -/
def row (s : State) (i : Nat) (rest requeue : Buckets) (apart : ∀ k ∈ rest, k ∉ requeue)
    (k : BucketKey) (v : Bucket) : Option DbError → Option State
  | none =>
    if accepts (s.table k) v then
      some { s.setFlush i (.rows (rest.erase k) requeue (apart_erase apart)) with
        table := addAt s.table k v }
    else none
  | some err =>
    if isPermanent err then
      some { s.setFlush i (.rows (rest.erase k) requeue (apart_erase apart)) with
        rejected := addAt s.rejected k v }
    else some (s.setFlush i (.rows (rest.erase k) (requeue.insert k v) (apart_insert apart)))

/-- `requeue` into `pending`, whatever the capacity. -/
def merge (s : State) (i : Nat) (requeue : Buckets) : State :=
  { s.setFlush i .done with pending := creditAll s.pending requeue }

def step (s : State) : Action → Option State
  | .record ev now => some (s.record ev now)
  | .flush => some s.flush
  | .batch i err =>
    match s.flushes[i]? with
    | some (.sent b) => s.batch i b err
    | _ => none
  | .row i k err =>
    match s.flushes[i]? with
    | some (.rows rest requeue apart) =>
      (rest.lookup k).bind fun v => s.row i rest requeue apart k v err
    | _ => none
  | .merge i =>
    match s.flushes[i]? with
    | some (.rows rest requeue _) => if rest.entries = [] then some (s.merge i requeue) else none
    | _ => none

end State

end Pcmi.Usage
