import Mathlib.Data.Fintype.Basic
import Mathlib.Logic.Function.Basic
import Pcmi.Lib.Steps
import Pcmi.Memory.Store

/-!
# Concurrent `Store` calls on one path

`n` calls of `MemoryRepository.Store` on one `(tenant, path)`, statement by statement, under READ
COMMITTED:

* `NOW()` is the time at which the transaction began.
* The closing `UPDATE` takes a snapshot when it starts, waits for the holder of the lock of the row
  it found, and checks its `WHERE` clause again on the committed row.
* The `INSERT` draws its id from the sequence and checks `uq_memory_entries_open_version`. It waits
  for a transaction that has inserted or is closing an open row of the path, and fails with a
  `unique_violation` when a committed open row remains.

A statement that has to wait is not enabled. `fail` stands for every other error. The log records
the commits in order; no step reads it.
-/

namespace Pcmi.Memory

open Pcmi.Lib

def maxStoreAttempts : Nat := 8

/-- `n` calls on one path. -/
structure Contention (n : Nat) where
  tenantId : String
  path : Ltree
  columns : Fin n → Columns
  samePath : ∀ i, (columns i).path = path

/-- Where a call stands; `victim` is what its `UPDATE` returned. -/
inductive Phase where
  /-- About to begin a transaction. -/
  | idle
  | begun (now : Time)
  /-- The closing statement has its snapshot: the open row it saw. -/
  | closing (now : Time) (target : Option Nat)
  | closed (now : Time) (victim : Option (Nat × Int))
  /-- The insert has drawn its id. -/
  | inserting (now : Time) (victim : Option (Nat × Int)) (id : Nat)
  | inserted (now : Time) (victim : Option (Nat × Int)) (row : Row)
  /-- `none` is an error return. -/
  | returned (result : Option StoreOutcome)

structure Call where
  attempt : Nat
  phase : Phase

/-- One commit, for the history. -/
structure Commit (n : Nat) where
  call : Fin n
  now : Time
  closed : Option Nat
  row : Row

structure Sys (n : Nat) where
  rows : List Row
  nextId : Nat
  clock : Time
  calls : Fin n → Call
  log : List (Commit n)

/-- The row whose lock the transaction holds. -/
def Phase.victim : Phase → Option (Nat × Int)
  | .closed _ v | .inserting _ v _ | .inserted _ v _ => v
  | _ => none

/-- The uncommitted row of the transaction. -/
def Phase.pending : Phase → Option Row
  | .inserted _ _ row => some row
  | _ => none

/-- The id drawn from the sequence by a transaction that is still running. -/
def Phase.drawn : Phase → Option Nat
  | .inserting _ _ id => some id
  | .inserted _ _ row => some row.id
  | _ => none

def Phase.result : Phase → Option StoreOutcome
  | .returned r => r
  | _ => none

def Phase.isReturned : Phase → Bool
  | .returned _ => true
  | _ => false

def Commit.outcome {n : Nat} (c : Commit n) : StoreOutcome := ⟨c.row.id, c.row.version, c.closed⟩

inductive Action (n : Nat) where
  | begin (i : Fin n) (t : Time)
  | closeStart (i : Fin n)
  | closeRun (i : Fin n)
  | insertStart (i : Fin n)
  | insertRun (i : Fin n)
  | commit (i : Fin n)
  | fail (i : Fin n)

namespace Contention

variable {n : Nat} (k : Contention n)

def openRow (rows : List Row) : Option Row := rows.find? (Row.current k.tenantId k.path)

/-- Another transaction holds the lock of row `id`. -/
def lockedByOther (s : Sys n) (i : Fin n) (id : Nat) : Prop :=
  ∃ j, j ≠ i ∧ ((s.calls j).phase.victim.map Prod.fst) = some id

/-- Another transaction has an uncommitted open row in the index. -/
def insertPending (s : Sys n) (i : Fin n) : Prop :=
  ∃ j, j ≠ i ∧ ((s.calls j).phase.pending.isSome)

instance (s : Sys n) (i : Fin n) (id : Nat) : Decidable (lockedByOther s i id) :=
  inferInstanceAs (Decidable (∃ j, j ≠ i ∧ ((s.calls j).phase.victim.map Prod.fst) = some id))

instance (s : Sys n) (i : Fin n) : Decidable (insertPending s i) :=
  inferInstanceAs (Decidable (∃ j, j ≠ i ∧ ((s.calls j).phase.pending.isSome)))

def setCall (s : Sys n) (i : Fin n) (c : Call) : Sys n :=
  { s with calls := Function.update s.calls i c }

def setPhase (s : Sys n) (i : Fin n) (phase : Phase) : Sys n :=
  setCall s i { s.calls i with phase := phase }

/-- A conflict on the open-version index: retry, or give up. -/
def retry (s : Sys n) (i : Fin n) : Sys n :=
  if maxStoreAttempts ≤ (s.calls i).attempt then setPhase s i (.returned none)
  else setCall s i ⟨(s.calls i).attempt + 1, .idle⟩

def versionAfter : Option (Nat × Int) → Int
  | some (_, v) => v + 1
  | none => 1

/-- The committed effect on the closed row. -/
def closeRow (id : Nat) (now : Time) (rows : List Row) : List Row :=
  rows.map fun r => if r.id == id && r.current k.tenantId k.path then r.close now else r

/-- The committed effect of a transaction. -/
def applyCommit (rows : List Row) (c : Commit n) : List Row :=
  (match c.closed with
    | some id => k.closeRow id c.now rows
    | none => rows) ++ [c.row]

/-- After its wait: the row of the snapshot if it is still open. -/
def closeTarget (rows : List Row) : Option Nat → Option (Nat × Int)
  | none => none
  | some id =>
    (rows.find? fun r => r.id == id && r.current k.tenantId k.path).map fun r => (r.id, r.version)

/-- The insert once no other open row is left. -/
def insertRow (s : Sys n) (i : Fin n) (now : Time) (victim : Option (Nat × Int)) (id : Nat) :
    Sys n :=
  if maxInt4 < versionAfter victim || s.rows.any (fun r => r.id == id) then
    -- out of the column's range, or a duplicate primary key: not a conflict that is retried
    setPhase s i (.returned none)
  else
    setPhase s i (.inserted now victim
      ((k.columns i).toRow k.tenantId id (versionAfter victim) now))

/-- One statement of one call; `none` when the action is not enabled. -/
def step (s : Sys n) : Action n → Option (Sys n)
  | .begin i t =>
    match (s.calls i).phase with
    | .idle => if s.clock ≤ t then some { setPhase s i (.begun t) with clock := t } else none
    | _ => none
  | .closeStart i =>
    match (s.calls i).phase with
    | .begun now => some (setPhase s i (.closing now ((k.openRow s.rows).map (·.id))))
    | _ => none
  | .closeRun i =>
    match (s.calls i).phase with
    | .closing now target =>
      if ∃ id ∈ target, lockedByOther s i id then none
      else some (setPhase s i (.closed now (k.closeTarget s.rows target)))
    | _ => none
  | .insertStart i =>
    match (s.calls i).phase with
    | .closed now victim =>
      some { setPhase s i (.inserting now victim s.nextId) with nextId := s.nextId + 1 }
    | _ => none
  | .insertRun i =>
    match (s.calls i).phase with
    | .inserting now victim id =>
      if insertPending s i then none
      else
        match k.openRow s.rows with
        | none => some (k.insertRow s i now victim id)
        | some r =>
          if victim.map Prod.fst = some r.id then some (k.insertRow s i now victim id)
          else if lockedByOther s i r.id then none
          else some (retry s i)
    | _ => none
  | .commit i =>
    match (s.calls i).phase with
    | .inserted now victim row =>
      let c : Commit n := ⟨i, now, victim.map Prod.fst, row⟩
      some { setPhase s i (.returned (some c.outcome)) with
        rows := k.applyCommit s.rows c, log := s.log ++ [c] }
    | _ => none
  | .fail i =>
    if (s.calls i).phase.isReturned then none else some (setPhase s i (.returned none))

def start (rows : List Row) (nextId : Nat) (clock : Time) : Sys n :=
  ⟨rows, nextId, clock, fun _ => ⟨1, .idle⟩, []⟩

/-- At most one open row, as the partial unique index promises. -/
def OneOpen (rows : List Row) : Prop :=
  (rows.filter (Row.current k.tenantId k.path)).length ≤ 1

instance (rows : List Row) : Decidable (k.OneOpen rows) :=
  inferInstanceAs (Decidable ((rows.filter (Row.current k.tenantId k.path)).length ≤ 1))

/-! ## What a step can do -/

/-- Every way in which an action fires, with what it checked. -/
inductive Fires (s : Sys n) : Action n → Sys n → Prop where
  | begin {i : Fin n} {t : Time} (hp : (s.calls i).phase = .idle) (ht : s.clock ≤ t) :
      Fires s (.begin i t) { setPhase s i (.begun t) with clock := t }
  | closeStart {i : Fin n} {now : Time} (hp : (s.calls i).phase = .begun now) :
      Fires s (.closeStart i) (setPhase s i (.closing now ((k.openRow s.rows).map (·.id))))
  | closeRun {i : Fin n} {now : Time} {target : Option Nat}
      (hp : (s.calls i).phase = .closing now target)
      (hfree : ∀ id ∈ target, ¬ lockedByOther s i id) :
      Fires s (.closeRun i) (setPhase s i (.closed now (k.closeTarget s.rows target)))
  | insertStart {i : Fin n} {now : Time} {victim : Option (Nat × Int)}
      (hp : (s.calls i).phase = .closed now victim) :
      Fires s (.insertStart i)
        { setPhase s i (.inserting now victim s.nextId) with nextId := s.nextId + 1 }
  | inserted {i : Fin n} {now : Time} {victim : Option (Nat × Int)} {id : Nat}
      (hp : (s.calls i).phase = .inserting now victim id)
      (hfree : ¬ insertPending s i)
      (hidx : ∀ r, k.openRow s.rows = some r → victim.map Prod.fst = some r.id) :
      Fires s (.insertRun i) (setPhase s i (.inserted now victim
        ((k.columns i).toRow k.tenantId id (versionAfter victim) now)))
  | rejected {i : Fin n} {now : Time} {victim : Option (Nat × Int)} {id : Nat}
      (hp : (s.calls i).phase = .inserting now victim id) :
      Fires s (.insertRun i) (setPhase s i (.returned none))
  | conflict {i : Fin n} {now : Time} {victim : Option (Nat × Int)} {id : Nat}
      (hp : (s.calls i).phase = .inserting now victim id) :
      Fires s (.insertRun i) (setCall s i ⟨(s.calls i).attempt + 1, .idle⟩)
  | commit {i : Fin n} {now : Time} {victim : Option (Nat × Int)} {row : Row}
      (hp : (s.calls i).phase = .inserted now victim row) :
      Fires s (.commit i)
        { setPhase s i (.returned (some ⟨row.id, row.version, victim.map Prod.fst⟩)) with
          rows := k.applyCommit s.rows ⟨i, now, victim.map Prod.fst, row⟩
          log := s.log ++ [⟨i, now, victim.map Prod.fst, row⟩] }
  | fail {i : Fin n} (hp : (s.calls i).phase.isReturned = false) :
      Fires s (.fail i) (setPhase s i (.returned none))

variable {s : Sys n} {i : Fin n} {now : Time} {victim : Option (Nat × Int)} {id : Nat}

theorem fires_insertRow (hp : (s.calls i).phase = .inserting now victim id)
    (hfree : ¬ insertPending s i)
    (hidx : ∀ r, k.openRow s.rows = some r → victim.map Prod.fst = some r.id) :
    k.Fires s (.insertRun i) (k.insertRow s i now victim id) := by
  unfold insertRow
  split
  · exact .rejected hp
  · exact .inserted hp hfree hidx

theorem fires_retry (hp : (s.calls i).phase = .inserting now victim id) :
    k.Fires s (.insertRun i) (retry s i) := by
  unfold retry
  split
  · exact .rejected hp
  · exact .conflict hp

/-- **Inversion.** A step fires in one of the listed ways. -/
theorem fires_of_step {s' : Sys n} {a : Action n} (h : k.step s a = some s') :
    k.Fires s a s' := by
  cases a with
  | begin i t =>
    simp only [step] at h
    split at h
    · next hp =>
      split at h <;> cases h
      next ht => exact .begin hp ht
    · cases h
  | closeStart i =>
    simp only [step] at h
    split at h <;> cases h
    next hp => exact .closeStart hp
  | closeRun i =>
    simp only [step] at h
    split at h
    · next hp =>
      split at h <;> cases h
      next hfree => exact .closeRun hp fun id hid hl => hfree ⟨id, hid, hl⟩
    · cases h
  | insertStart i =>
    simp only [step] at h
    split at h <;> cases h
    next hp => exact .insertStart hp
  | insertRun i =>
    simp only [step] at h
    split at h
    · next now victim id hp =>
      split at h
      · cases h
      next hfree =>
      split at h
      · next ho => cases h; exact k.fires_insertRow hp hfree (by simp [ho])
      next r ho =>
      split at h
      · next hv =>
        cases h
        refine k.fires_insertRow hp hfree fun r' hr' => ?_
        rw [ho] at hr'
        cases hr'
        exact hv
      · split at h <;> cases h
        exact k.fires_retry hp
    · cases h
  | commit i =>
    simp only [step] at h
    split at h <;> cases h
    next hp => exact .commit hp
  | fail i =>
    simp only [step] at h
    split at h <;> cases h
    next hp => exact .fail (by simpa using hp)

theorem setCall_phase (s : Sys n) (i j : Fin n) (c : Call) :
    ((setCall s i c).calls j).phase = if j = i then c.phase else (s.calls j).phase := by
  unfold setCall
  by_cases h : j = i
  · subst h; simp
  · simp [h]

theorem setPhase_phase (s : Sys n) (i j : Fin n) (p : Phase) :
    ((setPhase s i p).calls j).phase = if j = i then p else (s.calls j).phase :=
  setCall_phase s i j _

end Contention

end Pcmi.Memory
