import Mathlib.Data.List.Sort
import Pcmi.Lib.Slots
import Pcmi.Lib.Steps
import Pcmi.Values

/-!
# The webhook dispatcher

`enqueue` inserts a delivery with the limit of its dispatcher; `processPending` takes a batch of due
deliveries and for each makes a `POST`, then an `UPDATE` computed from the attempts read with the
batch. Runs overlap; the row locks end with the selecting query. A dispatcher is its configuration,
and a restart the use of another one.

The `UPDATE`s ignore their errors. The context of a run expires after 30 seconds, and then every
statement of the run fails.
-/

namespace Pcmi.Webhook

open List Pcmi.Lib

inductive Status where
  | pending
  | delivered
  | deadLetter
  deriving DecidableEq

/-- A row of `webhook_deliveries`, without the payload and the endpoint. -/
structure Delivery where
  id : Nat
  status : Status := .pending
  attempts : Int := 0
  maxAttempts : Int
  lastError : Option String := none
  nextRetryAt : Time
  deliveredAt : Option Time := none
  deriving DecidableEq

structure Dispatcher where
  maxAttempts : Int
  /-- `time.Duration`, in nanoseconds. -/
  retryBase : Int

def newDispatcher (maxAttempts : Int) : Dispatcher where
  maxAttempts := if maxAttempts < 1 then 5 else maxAttempts
  retryBase := 2000000000

/-- What a batch carries of a row. -/
structure PendingDelivery where
  id : Nat
  attempts : Int
  deriving DecidableEq

def Delivery.toPending (row : Delivery) : PendingDelivery := ⟨row.id, row.attempts⟩

/-- One `processPending` behind its query. -/
structure Run where
  dispatcher : Dispatcher
  /-- Not attempted yet. -/
  batch : List PendingDelivery
  /-- Posted with this error, if any, and not yet written back. -/
  posted : Option (PendingDelivery × Option String) := none
  /-- The context of the run is done. -/
  expired : Bool := false

/-- What the run still has to do with the row. -/
def Run.held (run : Run) : List PendingDelivery :=
  match run.posted with
  | some (pd, _) => pd :: run.batch
  | none => run.batch

/-! ## The statements -/

/-- The largest `INT` of Postgres. -/
def int4Max : Int := 2147483647

/-- The `WHERE` clause of the pending query. -/
def Delivery.Due (now : Time) (row : Delivery) : Prop :=
  row.status = .pending ∧ row.nextRetryAt ≤ now ∧ row.attempts < row.maxAttempts

instance (now : Time) (row : Delivery) : Decidable (row.Due now) :=
  inferInstanceAs (Decidable (_ ∧ _ ∧ _))

/-- The pending query; `skipped` rows are locked or hidden. -/
def selectPending (now : Time) (skipped : List Nat) (rows : List Delivery) : List Delivery :=
  ((rows.filter fun row => row.Due now ∧ row.id ∉ skipped).insertionSort
    fun row row' => row.nextRetryAt ≤ row'.nextRetryAt).take 20

variable {now : Time} {castInterval : Int → Time} {skipped : List Nat} {rows : List Delivery}
  {run : Run} {s s' : State}

theorem mem_of_mem_selectPending {row : Delivery} (h : row ∈ selectPending now skipped rows) :
    row ∈ rows ∧ row.Due now := by
  have hfilter := (mem_insertionSort _).mp (mem_of_mem_take h)
  obtain ⟨hrow, hdue⟩ := mem_filter.mp hfilter
  exact ⟨hrow, (of_decide_eq_true hdue).1⟩

theorem nodup_selectPending (h : (rows.map Delivery.id).Nodup) :
    ((selectPending now skipped rows).map Delivery.id).Nodup := by
  refine Nodup.sublist ((take_sublist 20 _).map _) ?_
  refine ((perm_insertionSort _ _).map _).nodup_iff.mpr ?_
  exact Nodup.sublist (filter_sublist.map _) h

/-- The values of `int64`, around zero. -/
def wrap64 (n : Int) : Int := n.bmod 18446744073709551616

/-- `d.retryBase * time.Duration(1<<uint(attempts-1))`, at most two minutes. -/
def Dispatcher.backoff (d : Dispatcher) (attempts : Int) : Int :=
  let shifted : Int :=
    if 1 ≤ attempts ∧ attempts ≤ 64 then wrap64 ((1 <<< (attempts - 1).toNat : Nat) : Int) else 0
  let backoff := wrap64 (d.retryBase * shifted)
  if backoff > 120000000000 then 120000000000 else backoff

/-- The row behind the `UPDATE`; `castInterval` reads a `time.Duration`. -/
def attemptDelivery (castInterval : Int → Time) (d : Dispatcher) (pd : PendingDelivery)
    (err : Option String) (now : Time) (row : Delivery) : Delivery :=
  let attempts := pd.attempts + 1
  match err with
  | none => { row with status := .delivered, attempts, deliveredAt := some now, lastError := none }
  | some errMsg =>
    if attempts ≥ d.maxAttempts then
      { row with status := .deadLetter, attempts, lastError := some errMsg }
    else
      { row with
        attempts, lastError := some errMsg, nextRetryAt := now + castInterval (d.backoff attempts) }

/-- What every outcome of an attempt has in common. -/
structure Attempted (d : Dispatcher) (pd : PendingDelivery) (row row' : Delivery) : Prop where
  id : row'.id = row.id
  maxAttempts : row'.maxAttempts = row.maxAttempts
  /-- The attempt is counted from what the batch has read. -/
  attempts : row'.attempts = pd.attempts + 1
  /-- Only a failure below the dispatcher's limit leaves it pending. -/
  pending : row'.status = .pending → pd.attempts + 1 < d.maxAttempts

theorem attempted_attemptDelivery (castInterval : Int → Time) (d : Dispatcher)
    (pd : PendingDelivery) (err : Option String) (now : Time) (row : Delivery) :
    Attempted d pd row (attemptDelivery castInterval d pd err now row) := by
  unfold attemptDelivery
  dsimp only
  split
  · exact ⟨rfl, rfl, rfl, nofun⟩
  split
  · exact ⟨rfl, rfl, rfl, nofun⟩
  · next hlt => exact ⟨rfl, rfl, rfl, fun _ => Int.not_le.mp hlt⟩

/-! ## The table -/

/-- `webhook_deliveries`: the ids are distinct and those to come are new. -/
structure Deliveries where
  rows : List Delivery
  nextId : Nat
  unique : (rows.map Delivery.id).Nodup
  fresh : ∀ row ∈ rows, row.id < nextId

namespace Deliveries

theorem eq_of_id_eq (t : Deliveries) {row row' : Delivery} (h : row ∈ t.rows) (h' : row' ∈ t.rows)
    (hid : row.id = row'.id) : row = row' :=
  inj_on_of_nodup_map t.unique h h' hid

def insert (t : Deliveries) (maxAttempts : Int) (now : Time) : Deliveries where
  rows := t.rows ++ [{ id := t.nextId, maxAttempts, nextRetryAt := now }]
  nextId := t.nextId + 1
  unique := by
    rw [map_append]
    refine nodup_append'.mpr ⟨t.unique, nodup_singleton _, ?_⟩
    rintro _ hid hnew
    obtain ⟨row, hrow, rfl⟩ := mem_map.mp hid
    exact (t.fresh row hrow).ne (mem_singleton.mp hnew)
  fresh := by
    refine forall_mem_append.mpr ⟨fun row hrow => ?_, fun row hrow => ?_⟩
    · exact (t.fresh row hrow).trans (Nat.lt_succ_self _)
    · rw [mem_singleton.mp hrow]
      exact Nat.lt_succ_self _

def update (t : Deliveries) (id : Nat) (f : Delivery → Delivery) (hf : ∀ row, (f row).id = row.id) :
    Deliveries where
  rows := t.rows.map fun row => if row.id = id then f row else row
  nextId := t.nextId
  unique := by
    rw [map_map]
    refine (congrArg List.Nodup (map_congr_left fun row _ => ?_)).mpr t.unique
    simp only [Function.comp_apply]
    split
    · exact hf row
    · rfl
  fresh := by
    refine forall_mem_map.mpr fun row hrow => ?_
    split
    · exact hf row ▸ t.fresh row hrow
    · exact t.fresh row hrow

/-- **A row behind an update** is a changed one or another one. -/
theorem mem_update {t : Deliveries} {id : Nat} {f : Delivery → Delivery}
    {hf : ∀ row, (f row).id = row.id} {row' : Delivery} :
    row' ∈ (t.update id f hf).rows ↔
      (∃ row ∈ t.rows, row.id = id ∧ row' = f row) ∨ (row' ∈ t.rows ∧ row'.id ≠ id) := by
  constructor
  · intro h
    obtain ⟨row, hrow, rfl⟩ := mem_map.mp h
    split
    · next hid => exact Or.inl ⟨row, hrow, hid, rfl⟩
    · next hid => exact Or.inr ⟨hrow, hid⟩
  · rintro (⟨row, hrow, hid, rfl⟩ | ⟨hrow, hid⟩)
    · exact mem_map.mpr ⟨row, hrow, if_pos hid⟩
    · exact mem_map.mpr ⟨row', hrow, if_neg hid⟩

end Deliveries

/-! ## The system -/

/-- The table, the runs, and the calls of `Post` with their requests. -/
structure State where
  table : Deliveries
  runs : List Run
  posts : List (Nat × Nat)

def State.start : State := ⟨⟨[], 1, nodup_nil, nofun⟩, [], []⟩

/-- What a run does behind its query. -/
inductive RunAction where
  /-- `set_tenant_context` fails, or the row did not scan. -/
  | skip
  /-- `Post` sends some requests, and fails with an error or succeeds. -/
  | post (requests : Nat) (err : Option String)
  /-- The `UPDATE`, which the database may fail. -/
  | update (now : Time) (ok : Bool)
  /-- The 30 seconds are over. -/
  | expire
  /-- The run returns, or its process is gone. -/
  | stop
  deriving DecidableEq

inductive Action where
  /-- `enqueue` of a dispatcher with this limit. -/
  | enqueue (maxAttempts : Int) (now : Time)
  /-- The query of a new run. -/
  | query (maxAttempts : Int) (now : Time) (skipped : List Nat)
  | run (i : Nat) (a : RunAction)

/-- A redirect may repeat the `POST`, up to the fifth request. -/
def Plausible (requests : Nat) (err : Option String) : Prop :=
  requests ≤ 5 ∧ (err = none → 1 ≤ requests)

instance (requests : Nat) (err : Option String) : Decidable (Plausible requests err) :=
  inferInstanceAs (Decidable (_ ∧ _))

def State.setRun (s : State) (i : Nat) (run : Run) : State := { s with runs := s.runs.set i run }

def State.logPost (s : State) (id requests : Nat) : State :=
  { s with posts := s.posts ++ [(id, requests)] }

def State.setTable (s : State) (t : Deliveries) : State := { s with table := t }

/-- The table behind the `UPDATE` of a run. -/
def Run.writeBack (castInterval : Int → Time) (run : Run) (pd : PendingDelivery)
    (err : Option String) (now : Time) (t : Deliveries) : Deliveries :=
  t.update pd.id (attemptDelivery castInterval run.dispatcher pd err now)
    fun row => (attempted_attemptDelivery castInterval run.dispatcher pd err now row).id

theorem Run.mem_writeBack {pd : PendingDelivery} {err : Option String} {t : Deliveries}
    {row' : Delivery} :
    row' ∈ (run.writeBack castInterval pd err now t).rows ↔
      (∃ row ∈ t.rows, row.id = pd.id ∧
        row' = attemptDelivery castInterval run.dispatcher pd err now row) ∨
      (row' ∈ t.rows ∧ row'.id ≠ pd.id) :=
  Deliveries.mem_update

def Run.step (castInterval : Int → Time) (s : State) (i : Nat) (run : Run) :
    RunAction → Option State
  | .skip =>
    match run.posted, run.batch with
    | none, _ :: rest => some (s.setRun i { run with batch := rest })
    | _, _ => none
  | .post requests err =>
    match run.posted, run.batch with
    | none, pd :: rest =>
      if run.expired = false ∧ Plausible requests err then
        let s' := s.setRun i { run with batch := rest, posted := some (pd, err) }
        some (s'.logPost pd.id requests)
      else none
    | _, _ => none
  | .update now ok =>
    match run.posted with
    | some (pd, err) =>
      let s' := s.setRun i { run with posted := none }
      if ok = true ∧ run.expired = false then
        some (s'.setTable (run.writeBack castInterval pd err now s.table))
      else some s'
    | none => none
  | .expire => some (s.setRun i { run with expired := true })
  | .stop => some (s.setRun i { run with batch := [], posted := none })

def queryRun (maxAttempts : Int) (now : Time) (skipped : List Nat) (rows : List Delivery) :
    Run where
  dispatcher := newDispatcher maxAttempts
  batch := (selectPending now skipped rows).map Delivery.toPending

def State.step (castInterval : Int → Time) (s : State) : Action → Option State
  | .enqueue maxAttempts now =>
    let limit := (newDispatcher maxAttempts).maxAttempts
    if limit ≤ int4Max then some (s.setTable (s.table.insert limit now)) else none
  | .query maxAttempts now skipped =>
    some { s with runs := s.runs ++ [queryRun maxAttempts now skipped s.table.rows] }
  | .run i a => (s.runs[i]?).bind fun run => run.step castInterval s i a

theorem enqueue_eq_some {maxAttempts : Int}
    (h : s.step castInterval (.enqueue maxAttempts now) = some s') :
    s' = s.setTable (s.table.insert (newDispatcher maxAttempts).maxAttempts now) := by
  unfold State.step at h
  dsimp only at h
  split at h
  · exact (Option.some.inj h).symm
  · cases h

/-! ## What a step of a run can do -/

inductive RunEffect (castInterval : Int → Time) (s : State) (i : Nat) (run : Run) :
    RunAction → State → Prop where
  /-- The run lets go of deliveries, without writing anything. -/
  | released {a : RunAction} {run' : Run} (hdispatcher : run'.dispatcher = run.dispatcher)
      (hheld : run'.held.Sublist run.held)
      (hposted : run'.posted = run.posted ∨ a = .stop ∧ run'.posted = none) :
      RunEffect castInterval s i run a (s.setRun i run')
  | posted {pd : PendingDelivery} {rest : List PendingDelivery} {requests : Nat}
      {err : Option String} (hposted : run.posted = none) (hbatch : run.batch = pd :: rest) :
      RunEffect castInterval s i run (.post requests err)
        ((s.setRun i { run with batch := rest, posted := some (pd, err) }).logPost pd.id requests)
  | updated {pd : PendingDelivery} {now : Time} {err : Option String}
      (hposted : run.posted = some (pd, err)) :
      RunEffect castInterval s i run (.update now true)
        ((s.setRun i { run with posted := none }).setTable
          (run.writeBack castInterval pd err now s.table))
  | lost {pd : PendingDelivery} {now : Time} {err : Option String} {ok : Bool}
      (hposted : run.posted = some (pd, err)) (hfailed : ¬ (ok = true ∧ run.expired = false)) :
      RunEffect castInterval s i run (.update now ok) (s.setRun i { run with posted := none })

theorem runEffect_of_step {i : Nat} {a : RunAction} (h : run.step castInterval s i a = some s') :
    RunEffect castInterval s i run a s' := by
  cases a with
  | skip =>
    unfold Run.step at h
    dsimp only at h
    split at h <;> cases h
    next hposted hbatch =>
    refine .released rfl ?_ (Or.inl rfl)
    simp [Run.held, hposted, hbatch]
  | post requests err =>
    unfold Run.step at h
    dsimp only at h
    split at h
    · next hposted hbatch =>
      split at h <;> cases h
      exact .posted hposted hbatch
    · cases h
  | update now ok =>
    unfold Run.step at h
    dsimp only at h
    split at h
    · next hposted =>
      split at h
      · next happlied =>
        obtain ⟨rfl, -⟩ := happlied
        cases h
        exact .updated hposted
      · next hfailed =>
        cases h
        exact .lost hposted hfailed
    · cases h
  | expire =>
    cases h
    exact .released rfl (.refl _) (Or.inl rfl)
  | stop =>
    cases h
    exact .released rfl (nil_sublist _) (Or.inr ⟨rfl, rfl⟩)

end Pcmi.Webhook
