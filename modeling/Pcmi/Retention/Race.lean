import Pcmi.Retention.Erasure

/-!
# Erasing while others write

Under `READ COMMITTED` every statement of `Erase` sees what was committed when it began, and the
rows it deletes stay visible until the commit. Here one such transaction interleaves with commits of
stores and inserts of derived rows; only the order of snapshots and commits matters. Links between
paths cite no memory and are left out.

A derived row escapes when it is committed behind the `DELETE` of its table, or cites a memory that
was stored behind the collecting query.
-/

namespace Pcmi.Retention

open List Pcmi.Lib Pcmi.Memory

/-- A committed row, and whether the erasing transaction has deleted it. -/
structure Version (α : Type) where
  row : α
  deleted : Bool := false

/-- Where the erasing transaction is. -/
inductive Phase where
  | idle
  /-- With the ids it collected and the statements to come. -/
  | running (erased : List Nat) (todo : List EraseStmt)
  /-- With the ids of the memories it deleted and the derived rows it left. -/
  | committed (deleted : List Nat) (left : List Derived)
  | rolledBack

structure Race where
  memories : List (Version Row)
  nextId : Nat
  derived : List (Version Derived)
  phase : Phase

def Race.start (db : Db) : Race where
  memories := db.memories.rows.map fun r => { row := r }
  nextId := db.memories.nextId
  derived := db.derived.map fun d => { row := d }
  phase := .idle

inductive RaceAction where
  | store (tenantId : String) (c : Columns) (now : Time)
  /-- A derived row is inserted, of memories that were read. -/
  | insert (d : Derived)
  /-- `UPDATE consolidation_runs` at the end of a consolidation. -/
  | completeRun (runId : Nat) (sourceIds : List Nat) (entryId : Nat)
  | collect
  | delete
  | commit
  | rollback

def Race.owners (s : Race) : List (Nat × String) :=
  s.memories.map fun v => (v.row.id, v.row.tenantId)

/-- The ids of one tenant, as far as they were given out. -/
def Race.Knows (s : Race) (tenantId : String) (id : Nat) : Prop :=
  Owns s.nextId s.owners tenantId id

instance (s : Race) (tenantId : String) (id : Nat) : Decidable (s.Knows tenantId id) :=
  inferInstanceAs (Decidable (Owns _ _ _ _))

def ConsolidationRun.complete (sourceIds : List Nat) (entryId : Nat) (r : ConsolidationRun) :
    ConsolidationRun :=
  { r with status := .completed, sourceEntryIds := sourceIds, consolidatedEntryId := some entryId }

/-- The rows of a run that the update finds. -/
def completes (runId : Nat) (v : Version Derived) : Bool :=
  match v.row with
  | .run r => r.id == runId && !v.deleted
  | _ => false

def completeVersion (runId : Nat) (sourceIds : List Nat) (entryId : Nat) (v : Version Derived) :
    Version Derived :=
  if completes runId v then
    { v with row := updateRun runId (ConsolidationRun.complete sourceIds entryId) v.row }
  else v

def markWhere {α : Type} (p : α → Bool) (vs : List (Version α)) : List (Version α) :=
  vs.map fun v => { v with deleted := v.deleted || p v.row }

def kept {α : Type} (vs : List (Version α)) : List (Version α) := vs.filter fun v => !v.deleted

def unmark {α : Type} (vs : List (Version α)) : List (Version α) :=
  vs.map fun v => { v with deleted := false }

/-- `closeCurrent` and the insert of a store, with its row locks granted. -/
def Race.storeVersion (s : Race) (tenantId : String) (c : Columns) (version : Int) (now : Time) :
    Race :=
  { s with
    memories := s.memories.map (fun v =>
        { v with row := if v.row.current tenantId c.path then v.row.close now else v.row }) ++
      [{ row := c.toRow tenantId s.nextId version now }]
    nextId := s.nextId + 1 }

section

variable (x : EraseTarget)

/-- The ids that the collecting query finds. -/
def Race.collect (s : Race) : List Nat :=
  (s.memories.filter fun v => erasesMemory x v.row).map fun v => v.row.id

/-- One statement on its snapshot. -/
def Race.exec (s : Race) (erased : List Nat) : EraseStmt → Race
  | .links => s
  | .derived t => { s with derived := markWhere (doomed x erased t) s.derived }
  | .memories => { s with memories := markWhere (erasesMemory x) s.memories }

def Race.close (s : Race) : Race where
  memories := kept s.memories
  nextId := s.nextId
  derived := kept s.derived
  phase := .committed ((s.memories.filter (·.deleted)).map fun v => v.row.id)
    ((kept s.derived).map (·.row))

def Race.step (s : Race) : RaceAction → Option Race
  | .store tenantId c now =>
    -- rows that the open transaction has deleted are still visible
    let version := nextVersion ((s.memories.map (·.row)).find? (Row.current tenantId c.path))
    if maxInt4 < version then none else some (s.storeVersion tenantId c version now)
  | .insert d =>
    if ∀ id ∈ d.refs, s.Knows d.tenantId id then
      some { s with derived := s.derived ++ [{ row := d }] }
    else none
  | .completeRun runId sourceIds entryId =>
    if ∀ v ∈ s.derived, completes runId v = true →
        ∀ id ∈ sourceIds ++ [entryId], s.Knows v.row.tenantId id then
      some { s with derived := s.derived.map (completeVersion runId sourceIds entryId) }
    else none
  | .collect =>
    match s.phase with
    | .idle => some { s with phase := .running (s.collect x) eraseStmts }
    | _ => none
  | .delete =>
    match s.phase with
    | .running erased (stmt :: todo) =>
      some { s.exec x erased stmt with phase := .running erased todo }
    | _ => none
  | .commit =>
    match s.phase with
    | .running _ [] => some s.close
    | _ => none
  | .rollback =>
    match s.phase with
    | .running _ _ => some ⟨unmark s.memories, s.nextId, unmark s.derived, .rolledBack⟩
    | _ => none

/-! ## Writes in time -/

/-- A memory that the transaction has deleted or will. -/
def Exposed (todo : List EraseStmt) (m : Version Row) : Prop :=
  erasesMemory x m.row = true ∧ (.memories ∈ todo ∨ m.deleted = true)

/-- A row that the `DELETE` of its table will find. -/
def WillMatch (erased : List Nat) (todo : List EraseStmt) (d : Derived) : Prop :=
  .derived d.table ∈ todo ∧ erasesDerived x erased d = true

instance (todo : List EraseStmt) (m : Version Row) : Decidable (Exposed x todo m) :=
  inferInstanceAs (Decidable (_ ∧ _))

instance (erased : List Nat) (todo : List EraseStmt) (d : Derived) :
    Decidable (WillMatch x erased todo d) := inferInstanceAs (Decidable (_ ∧ _))

/-- While the transaction is open, citing rows will be found. -/
def Caught (memories : List (Version Row)) (d : Derived) : Phase → Prop
  | .running erased todo =>
    ∀ m ∈ memories, m.row.id ∈ d.refs → Exposed x todo m → WillMatch x erased todo d
  | _ => True

instance (memories : List (Version Row)) (d : Derived) : (p : Phase) →
    Decidable (Caught x memories d p)
  | .running _ _ => inferInstanceAs (Decidable (∀ m ∈ memories, _ → _ → _))
  | .idle => inferInstanceAs (Decidable True)
  | .committed _ _ => inferInstanceAs (Decidable True)
  | .rolledBack => inferInstanceAs (Decidable True)

/-- The writes of derived rows that the transaction does not miss. -/
def Race.InTime (s : Race) : RaceAction → Prop
  | .insert d => Caught x s.memories d s.phase
  | .completeRun runId sourceIds entryId =>
    ∀ v ∈ s.derived, completes runId v = true →
      Caught x s.memories (completeVersion runId sourceIds entryId v).row s.phase
  | _ => True

instance (s : Race) : (a : RaceAction) → Decidable (s.InTime x a)
  | .insert d => inferInstanceAs (Decidable (Caught x s.memories d s.phase))
  | .completeRun _ _ _ => inferInstanceAs (Decidable (∀ v ∈ s.derived, _ → _))
  | .store _ _ _ | .collect | .delete | .commit | .rollback => inferInstanceAs (Decidable True)

end

/-! ## The invariant -/

section

variable {x : EraseTarget} {s s' : Race} {erased : List Nat} {todo : List EraseStmt}

/-- What is still to do about the rows that cite what is deleted. -/
def Pending (x : EraseTarget) (memories : List (Version Row)) (derived : List (Version Derived)) :
    Phase → Prop
  | .running erased todo =>
    ∀ v ∈ derived, ∀ m ∈ memories, m.row.id ∈ v.row.refs → Exposed x todo m →
      v.deleted = true ∨ WillMatch x erased todo v.row
  | .committed deleted left => ∀ d ∈ left, ∀ id ∈ d.refs, id ∉ deleted
  | _ => True

/-- Writes of others matter while the transaction is open only. -/
theorem Pending.of_running {memories memories' : List (Version Row)}
    {derived derived' : List (Version Derived)} {p : Phase} (h : Pending x memories derived p)
    (hrun : ∀ erased todo, p = .running erased todo →
      Pending x memories derived (.running erased todo) →
      Pending x memories' derived' (.running erased todo)) :
    Pending x memories' derived' p := by
  cases p with
  | running erased todo => exact hrun erased todo rfl h
  | committed deleted left => exact h
  | idle => trivial
  | rolledBack => trivial

structure Race.Sound (x : EraseTarget) (s : Race) : Prop where
  memories : Consistent s.nextId s.owners
  derived : ∀ v ∈ s.derived, ∀ id ∈ v.row.refs, s.Knows v.row.tenantId id
  marked : ∀ m ∈ s.memories, m.deleted = true → erasesMemory x m.row = true
  pending : Pending x s.memories s.derived s.phase

/-- Ids are given out in order, and what is new cites what is known. -/
theorem Race.Sound.of_grows (h : s.Sound x) (hm : Grows s.nextId s.owners s'.nextId s'.owners)
    (hd : ∀ v ∈ s'.derived, (∃ u ∈ s.derived, u.row = v.row) ∨
      ∀ id ∈ v.row.refs, s'.Knows v.row.tenantId id)
    (hmarked : ∀ m ∈ s'.memories, m.deleted = true → erasesMemory x m.row = true)
    (hpending : Pending x s'.memories s'.derived s'.phase) : s'.Sound x where
  memories := h.memories.grows hm
  derived v hv := by
    rcases hd v hv with ⟨u, hu, hrow⟩ | hnew
    · rw [← hrow]
      exact fun id hid => (h.derived u hu id hid).grows hm
    · exact hnew
  marked := hmarked
  pending := hpending

variable {v : Version Derived} {m : Version Row} {d : Derived} {runId : Nat} {db : Db}

theorem Race.Sound.tenantId_eq (h : s.Sound x) (hv : v ∈ s.derived) (hm : m ∈ s.memories)
    (hid : m.row.id ∈ v.row.refs) :
    m.row.tenantId = v.row.tenantId :=
  (h.derived v hv m.row.id hid).2 (m.row.id, m.row.tenantId) (mem_map_of_mem hm) rfl

variable {α : Type} {stmt : EraseStmt}

theorem mem_markWhere {p : α → Bool} {vs : List (Version α)} {v : Version α}
    (h : v ∈ markWhere p vs) : ∃ u ∈ vs, u.row = v.row ∧ v.deleted = (u.deleted || p u.row) := by
  obtain ⟨u, hu, rfl⟩ := mem_map.mp h
  exact ⟨u, hu, rfl, rfl⟩

theorem mem_kept {vs : List (Version α)} {v : Version α} (h : v ∈ kept vs) :
    v ∈ vs ∧ v.deleted = false := by
  obtain ⟨hv, hkept⟩ := mem_filter.mp h
  exact ⟨hv, by simpa using hkept⟩

theorem owners_storeVersion (s : Race) (tenantId : String) (c : Columns) (version : Int)
    (now : Time) :
    (s.storeVersion tenantId c version now).owners = s.owners ++ [(s.nextId, tenantId)] := by
  unfold Race.owners Race.storeVersion
  rw [map_append, map_map]
  congr 1
  refine map_congr_left fun v _ => ?_
  dsimp only [Function.comp]
  split <;> rfl

theorem Race.Sound.storeVersion (h : s.Sound x) (tenantId : String) (c : Columns) (version : Int)
    (now : Time) : (s.storeVersion tenantId c version now).Sound x := by
  have hclose : ∀ r : Row, let r' := if r.current tenantId c.path then r.close now else r
      r'.id = r.id ∧ erasesMemory x r' = erasesMemory x r := by
    intro r
    dsimp only
    split <;> exact ⟨rfl, rfl⟩
  refine h.of_grows ?_ (fun v hv => .inl ⟨v, hv, rfl⟩) ?_ ?_
  · rw [owners_storeVersion]
    exact .fresh tenantId
  · refine forall_mem_append.mpr ⟨fun m hm => ?_, fun m hm => ?_⟩
    · obtain ⟨m, hold, rfl⟩ := mem_map.mp hm
      exact fun hdel => (hclose m.row).2.trans (h.marked m hold hdel)
    · rw [mem_singleton.mp hm]
      nofun
  · refine h.pending.of_running fun erased todo _ hpending v hv => ?_
    refine forall_mem_append.mpr ⟨fun m hm hid hexp => ?_, fun m hm hid => ?_⟩
    · obtain ⟨m, hold, rfl⟩ := mem_map.mp hm
      refine hpending v hv m hold ?_ ⟨?_, hexp.2⟩
      · exact (hclose m.row).1 ▸ hid
      · exact (hclose m.row).2.symm.trans hexp.1
    · -- the new memory is cited by nobody yet
      rw [mem_singleton.mp hm] at hid
      exact absurd (h.derived v hv _ hid).1 (Nat.lt_irrefl _)

theorem Race.Sound.insert (h : s.Sound x) (hrefs : ∀ id ∈ d.refs, s.Knows d.tenantId id)
    (hcaught : Caught x s.memories d s.phase) :
    Race.Sound x { s with derived := s.derived ++ [{ row := d }] } := by
  refine h.of_grows (.refl _ _) ?_ h.marked ?_
  · refine forall_mem_append.mpr ⟨fun v hv => .inl ⟨v, hv, rfl⟩, fun v hv => .inr ?_⟩
    rw [mem_singleton.mp hv]
    exact hrefs
  · refine h.pending.of_running fun erased todo hphase hpending => ?_
    rw [hphase] at hcaught
    refine forall_mem_append.mpr ⟨hpending, fun v hv m hm hid hexp => ?_⟩
    rw [mem_singleton.mp hv] at hid ⊢
    exact .inr (hcaught m hm hid hexp)

/-- A completed run keeps its tenant and cites the ids of the update. -/
theorem completeVersion_of_completes (sourceIds : List Nat) (entryId : Nat)
    (h : completes runId v = true) :
    (completeVersion runId sourceIds entryId v).row.tenantId = v.row.tenantId ∧
      (completeVersion runId sourceIds entryId v).row.refs = sourceIds ++ [entryId] := by
  unfold completeVersion
  rw [if_pos h]
  obtain ⟨d, deleted⟩ := v
  cases d with
  | run r =>
    have hid : r.id = runId := beq_iff_eq.mp (Bool.and_eq_true_iff.mp h).1
    simp [updateRun, hid, Derived.tenantId, Derived.refs, ConsolidationRun.complete]
  | _ => cases h

theorem Race.Sound.completeRun (h : s.Sound x) {entryId : Nat} {sourceIds : List Nat}
    (hrefs : ∀ v ∈ s.derived, completes runId v = true → ∀ id ∈ sourceIds ++ [entryId],
      s.Knows v.row.tenantId id)
    (hcaught : ∀ v ∈ s.derived, completes runId v = true → Caught x s.memories
      (completeVersion runId sourceIds entryId v).row s.phase) :
    Race.Sound x { s with derived := s.derived.map (completeVersion runId sourceIds entryId) } := by
  have hother : ∀ v, ¬completes runId v = true → completeVersion runId sourceIds entryId v = v :=
    fun v hv => if_neg hv
  refine h.of_grows (.refl _ _) (forall_mem_map.mpr fun v hv => ?_) h.marked ?_
  · by_cases hrun : completes runId v = true
    · obtain ⟨htenant, hids⟩ := completeVersion_of_completes sourceIds entryId hrun
      rw [htenant, hids]
      exact .inr (hrefs v hv hrun)
    · exact .inl ⟨v, hv, by rw [hother v hrun]⟩
  · refine h.pending.of_running fun erased todo hphase hpending => ?_
    refine forall_mem_map.mpr fun v hv m hm hid hexp => ?_
    by_cases hrun : completes runId v = true
    · have hmatch := hcaught v hv hrun
      rw [hphase] at hmatch
      exact .inr (hmatch m hm hid hexp)
    · rw [hother v hrun] at hid ⊢
      exact hpending v hv m hm hid hexp

/-- **What the collecting query sees is taken care of.** -/
theorem Race.Sound.collect (h : s.Sound x) :
    Race.Sound x { s with phase := .running (s.collect x) eraseStmts } := by
  refine h.of_grows (.refl _ _) (fun v hv => .inl ⟨v, hv, rfl⟩) h.marked ?_
  intro v hv m hm hid hexp
  have htarget : m.row.tenantId = x.tenantId := beq_iff_eq.mp (Bool.and_eq_true_iff.mp hexp.1).1
  have hcollected : m.row.id ∈ s.collect x :=
    mem_map_of_mem (mem_filter.mpr ⟨hm, hexp.1⟩)
  exact .inr ⟨derived_mem_eraseStmts _,
    erasesDerived_of_ref ((h.tenantId_eq hv hm hid).symm.trans htarget) hid hcollected⟩

theorem Exposed.of_cons (h : Exposed x todo m) : Exposed x (stmt :: todo) m :=
  ⟨h.1, h.2.imp_left (mem_cons_of_mem _)⟩

/-- A row is still to be found unless the statement is that of its table. -/
theorem WillMatch.of_cons (h : WillMatch x erased (stmt :: todo) d) (hne :
    stmt ≠ .derived d.table) :
    WillMatch x erased todo d :=
  ⟨(mem_cons.mp h.1).resolve_left hne.symm, h.2⟩

theorem owners_markWhere (p : Row → Bool) (vs : List (Version Row)) :
    ((markWhere p vs).map fun v => (v.row.id, v.row.tenantId)) =
      vs.map fun v => (v.row.id, v.row.tenantId) := by
  unfold markWhere
  rw [map_map]
  rfl

theorem Race.Sound.delete (h : s.Sound x) (hphase : s.phase = .running erased (stmt :: todo)) :
    Race.Sound x { s.exec x erased stmt with phase := .running erased todo } := by
  have hpending := h.pending
  rw [hphase] at hpending
  cases stmt with
  | links =>
    refine h.of_grows (.refl _ _) (fun v hv => .inl ⟨v, hv, rfl⟩) h.marked ?_
    intro v hv m hm hid hexp
    exact (hpending v hv m hm hid hexp.of_cons).imp_right fun hmatch => hmatch.of_cons nofun
  | derived t =>
    refine h.of_grows (.refl _ _) (fun v hv => ?_) h.marked ?_
    · obtain ⟨u, hu, hrow, -⟩ := mem_markWhere hv
      exact .inl ⟨u, hu, hrow⟩
    · intro v hv m hm hid hexp
      -- a row that is still to be found is deleted now, unless it is another table's
      obtain ⟨u, hu, hrow, hdeleted⟩ := mem_markWhere hv
      rw [← hrow] at hid ⊢
      rw [hdeleted]
      rcases hpending u hu m hm hid hexp.of_cons with hgone | hmatch
      · exact .inl (by rw [hgone, Bool.true_or])
      by_cases ht : u.row.table = t
      · have hdoomed : doomed x erased t u.row = true :=
          Bool.and_eq_true_iff.mpr ⟨decide_eq_true ht, hmatch.2⟩
        exact .inl (by rw [hdoomed, Bool.or_true])
      · exact .inr (hmatch.of_cons fun heq => ht (EraseStmt.derived.inj heq).symm)
  | memories =>
    have howners : Race.owners (s.exec x erased .memories) = s.owners := owners_markWhere _ _
    refine h.of_grows ?_ (fun v hv => .inl ⟨v, hv, rfl⟩) (fun m hm hdel => ?_) ?_
    · exact howners ▸ .refl _ _
    · obtain ⟨u, hu, hrow, hdeleted⟩ := mem_markWhere hm
      rw [hdeleted, Bool.or_eq_true] at hdel
      rw [← hrow]
      exact hdel.elim (h.marked u hu) id
    · intro v hv m hm hid hexp
      obtain ⟨u, hu, hrow, -⟩ := mem_markWhere hm
      rw [← hrow] at hid
      -- the memories that are deleted now were exposed before
      have hexp' : Exposed x (.memories :: todo) u := ⟨hrow ▸ hexp.1, .inl mem_cons_self⟩
      exact (hpending v hv u hu hid hexp').imp_right fun hmatch => hmatch.of_cons nofun

/-- **With nothing left to do, no row that stays cites a deleted memory.** -/
theorem Race.Sound.close (h : s.Sound x) (hphase : s.phase = .running erased []) :
    s.close.Sound x := by
  have hpending := h.pending
  rw [hphase] at hpending
  refine h.of_grows ?_ (fun v hv => .inl ⟨v, (mem_kept hv).1, rfl⟩) (fun m hm => ?_) ?_
  · exact .shrink (map_subset _ (filter_subset_self _))
  · exact h.marked m (mem_kept hm).1
  · intro d hd id hid hdeleted
    obtain ⟨v, hv, rfl⟩ := mem_map.mp hd
    obtain ⟨hv, hkept⟩ := mem_kept hv
    obtain ⟨m, hm, rfl⟩ := mem_map.mp hdeleted
    obtain ⟨hm, hmarked⟩ := mem_filter.mp hm
    -- a row that cites a deleted memory is deleted too, or still to be found by no statement
    rcases hpending v hv m hm hid ⟨h.marked m hm hmarked, .inr hmarked⟩ with hgone | hmatch
    · rw [hkept] at hgone
      cases hgone
    · cases hmatch.1

theorem Race.Sound.rollback (h : s.Sound x) :
    Race.Sound x ⟨unmark s.memories, s.nextId, unmark s.derived, .rolledBack⟩ := by
  have howners : Race.owners ⟨unmark s.memories, s.nextId, unmark s.derived, .rolledBack⟩ =
      s.owners := by
    unfold Race.owners unmark
    rw [map_map]
    rfl
  refine h.of_grows ?_ (forall_mem_map.mpr fun v hv => .inl ⟨v, hv, rfl⟩)
    (forall_mem_map.mpr fun m _ => nofun) trivial
  exact howners ▸ .refl _ _

theorem Race.Sound.step {a : RaceAction} (h : s.Sound x) (htime : s.InTime x a)
    (hstep : s.step x a = some s') : s'.Sound x := by
  cases a with
  | store tenantId c now =>
    rw [Race.step] at hstep
    split at hstep <;> cases hstep
    exact h.storeVersion tenantId c _ now
  | insert d =>
    rw [Race.step] at hstep
    split at hstep <;> cases hstep
    next hrefs => exact h.insert hrefs htime
  | completeRun runId sourceIds entryId =>
    rw [Race.step] at hstep
    split at hstep <;> cases hstep
    next hrefs => exact h.completeRun hrefs htime
  | collect =>
    rw [Race.step] at hstep
    split at hstep <;> cases hstep
    exact h.collect
  | delete =>
    rw [Race.step] at hstep
    split at hstep <;> cases hstep
    next hphase => exact h.delete hphase
  | commit =>
    rw [Race.step] at hstep
    split at hstep <;> cases hstep
    next hphase => exact h.close hphase
  | rollback =>
    rw [Race.step] at hstep
    split at hstep <;> cases hstep
    exact h.rollback

theorem owners_start (db : Db) : (Race.start db).owners = owners db.memories := by
  unfold Race.owners Race.start owners
  rw [map_map]
  rfl

theorem Race.sound_start {w : World} (h : Pcmi.Retention.Sound w) : (Race.start w.db).Sound x where
  memories := by
    rw [owners_start]
    exact h.memories
  derived := by
    refine forall_mem_map.mpr fun d hd id hid => ?_
    unfold Race.Knows
    rw [owners_start]
    exact h.derived d hd id hid
  marked := forall_mem_map.mpr fun m _ => nofun
  pending := trivial

/-- **Once the erasure has committed no derived row cites a deleted memory**, if rows are written in
time. -/
theorem erase_uncited_of_inTime {env : Env} {nextId : Nat} {w : World} {deleted : List Nat}
    {left : List Derived} (hreach : Reaches (World.step env) (World.start nextId) w)
    (hrun : Steps (Race.step x) (Race.InTime x) (Race.start w.db) s)
    (hphase : s.phase = .committed deleted left) : ∀ d ∈ left, ∀ id ∈ d.refs, id ∉ deleted := by
  have hsound : s.Sound x :=
    hrun.invariant (P := Race.Sound x) (fun _ _ _ hs htime hstep => hs.step htime hstep)
      (Race.sound_start (sound_of_reaches hreach))
  have hpending := hsound.pending
  rw [hphase] at hpending
  exact hpending

end

/-! ## A snapshot that escapes -/

def aliceWorld : World :=
  worldAfter [storeAction 1 "users.alice" "a", storeAction 2 "users.bob" "b"]

def aliceTarget : EraseTarget := eraseAlice.target "t" ⟨["users", "alice"]⟩

theorem reaches_aliceWorld : Reaches (World.step dottedEnv) (World.start 1) aliceWorld :=
  reaches_worldAfter _ (by decide +kernel)

def storeAlice : RaceAction := .store "t" (plainColumns ⟨["users", "alice"]⟩ "a2") 5

/-- The snapshots of the two versions of `users.alice`, and of `users.bob`. -/
def aliceSnapshot : Derived := .snapshot ⟨"t", 1, 1, "role"⟩
def secondSnapshot : Derived := .snapshot ⟨"t", 3, 2, "role"⟩
def bobSnapshot : Derived := .snapshot ⟨"t", 2, 1, "role"⟩

/-- The first version's snapshots are in time; the second has none. -/
def snapshotsInTime : List RaceAction :=
  [.insert aliceSnapshot, .collect, .insert aliceSnapshot, storeAlice, .insert bobSnapshot] ++
    List.replicate 7 .delete ++ [.commit]

/-- The second version and its snapshot come behind the collecting query. -/
def snapshotTooLate : List RaceAction :=
  [.collect, storeAlice, .insert secondSnapshot] ++ List.replicate 7 .delete ++ [.commit]

theorem erase_uncited_snapshotsInTime :
    ∃ s, runAll (guarded (Race.step aliceTarget) (Race.InTime aliceTarget))
        (Race.start aliceWorld.db) snapshotsInTime = some s ∧
      s.phase = .committed [1, 3] [bobSnapshot] ∧
      ∀ d ∈ [bobSnapshot], ∀ id ∈ d.refs, id ∉ [1, 3] := by
  obtain ⟨s, hs, hphase⟩ := Option.map_eq_some_iff.mp
    (rfl : (runAll (guarded (Race.step aliceTarget) (Race.InTime aliceTarget))
      (Race.start aliceWorld.db) snapshotsInTime).map (·.phase) =
        some (.committed [1, 3] [bobSnapshot]))
  exact ⟨s, hs, hphase,
    erase_uncited_of_inTime reaches_aliceWorld (steps_runAll (.refl _) hs) hphase⟩

/-- **The snapshot of the second version is left, the version is not.** -/
theorem snapshotTooLate_cites_deleted :
    ∃ s, Reaches (World.step dottedEnv) (World.start 1) aliceWorld ∧
      Reaches (Race.step aliceTarget) (Race.start aliceWorld.db) s ∧
      s.phase = .committed [1, 3] [secondSnapshot] ∧ 3 ∈ secondSnapshot.refs := by
  obtain ⟨s, hs, hphase⟩ := Option.map_eq_some_iff.mp
    (rfl : (runAll (Race.step aliceTarget) (Race.start aliceWorld.db) snapshotTooLate).map
      (·.phase) = some (.committed [1, 3] [secondSnapshot]))
  exact ⟨s, reaches_aliceWorld, reaches_runAll (.refl _) hs, hphase, mem_singleton.mpr rfl⟩

end Pcmi.Retention
