import Pcmi.Lib.Serial
import Pcmi.Retention.Erase

/-!
# Distillation, consolidation and the tables over time

The workers read memories, then write rows that cite them: a distilled row, or a consolidated memory
and its run. Anything may happen in between, so what was read waits in a job. `World.step` has these
steps, the operations on memories, the inserts of the extraction services and erasures.
-/

namespace Pcmi.Retention

open List Pcmi.Go Pcmi.Lib Pcmi.Memory

/-! ## Reading -/

def NewestFirst (a b : Row) : Prop :=
  b.createdAt < a.createdAt ∨ b.createdAt = a.createdAt ∧ b.id ≤ a.id

instance : DecidableRel NewestFirst := fun _ _ => inferInstanceAs (Decidable (_ ∨ _))

def currentUnder (tenantId : String) (path : Ltree) (r : Row) : Bool :=
  r.tenantId == tenantId && r.path.under path && temporalClause none r

def scanAll (env : Env) : List Row → Except String (List Row)
  | [] => .ok []
  | r :: rest =>
    match scanMemoryEntry env r with
    | .error e => .error ("retrieve scan: " ++ e)
    | .ok r' => (scanAll env rest).map (r' :: ·)

/-- `MemoryRepository.Retrieve` without query: one row more than the limit. -/
def retrieve (env : Env) (tenantId pathPrefix : String) (limit : Int) (rows : List Row) :
    Except String (List Row) :=
  let path := trimSpaceText pathPrefix
  let limit := if limit ≤ 0 then 10 else if 200 < limit then 200 else limit
  match env.castLtree (if path = "" then "root" else path) with
  | none => .error "retrieve failed: invalid ltree"
  | some path =>
    scanAll env
      (((rows.filter (currentUnder tenantId path)).insertionSort NewestFirst).take
        (limit.toNat + 1))

/-! ## Consolidation -/

def consolidationMinEntries : Nat := 3

/-- The path ends in `.consolidated`. -/
def isConsolidatedPath (path : Ltree) : Bool :=
  path.labels.getLast? == some "consolidated" && decide (2 ≤ path.labels.length)

def parentPrefix (path : String) : String :=
  let path := trimSpaceText path
  if path = "" ∨ path = "root" then "root"
  else
    match path.toList.reverse.dropWhile (· ≠ '.') with
    | _ :: c :: rest => String.ofList (c :: rest).reverse
    | _ => "root"

/-- The first bytes of a text, at most `n`, up to the end of a character. -/
def takeBytes : Nat → List Char → List Char
  | _, [] => []
  | n, c :: rest => if c.utf8Size ≤ n then c :: takeBytes (n - c.utf8Size) rest else []

/-- `truncateUTF8` on text that is valid UTF-8. -/
def truncateUtf8 (s : String) (maxBytes : Nat) : String :=
  String.ofList (takeBytes maxBytes s.toList)

/-- The ids and contents that `runConsolidation` merges. -/
def consolidationSources (entries : List Row) : Except String (List Nat × List String) :=
  if entries.length < consolidationMinEntries then .error "not enough entries"
  else
    let kept := entries.filter fun e => !isConsolidatedPath e.path
    if kept.length < consolidationMinEntries then .error "not enough non-consolidated entries"
    else .ok (kept.map (·.id), kept.map (·.content))

/-- `metadata` of a consolidated memory. -/
def consolidatedMetadata (ids : List Nat) : JsonMap :=
  (AList.insert "source_entry_ids" (Json.arr (ids.map fun id : Nat => Json.num id 0)) ∅).insert
    "consolidated" (Json.bool true)

/-- The `StoreRequest` of `runConsolidation`. -/
def consolidatedRequest (pathPrefix : String) (ids : List Nat) (content : String) :
    StoreRequest where
  path := pathPrefix ++ ".consolidated"
  content := content
  metadata := some (consolidatedMetadata ids)
  tags := some ["consolidated"]

/-! ## Distillation -/

def defaultTenant : String := "00000000-0000-0000-0000-000000000000"

def distilledBranchPath (pathPrefix : String) : String := pathPrefix ++ ".distilled"

/-- `distillationSourceEntriesSQL`; ties come in any order. -/
def distillationSources (env : Env) (tenantId pathPrefix : String) (batchSize : Nat)
    (rows : List Row) : List Row :=
  match env.castLtree pathPrefix, env.castLtree (distilledBranchPath pathPrefix) with
  | some path, some branch =>
    ((rows.filter fun r => currentUnder tenantId path r && !r.path.under branch).insertionSort
      NewestFirst).take batchSize
  | _, _ => []

def normalizeSourceIds (ids : List Nat) : List Nat := ids.insertionSort (· ≤ ·)

structure DistillationResult where
  summary : String
  insights : List String

def hasDuplicateDistillation (tenantId : String) (path : Ltree) (sourceIds : List Nat)
    (derived : List Derived) : Bool :=
  derived.any fun
    | .distilled d => d.tenantId == tenantId && d.path == path && d.sourceEntryIds == sourceIds
    | _ => false

def nextDistilledVersion (tenantId : String) (path : Ltree) (derived : List Derived) : Nat :=
  (derived.foldl (fun v d =>
    match d with
    | .distilled d => if d.tenantId = tenantId ∧ d.path = path then max v d.version else v
    | _ => v) 0) + 1

/-- Unless the sources are distilled already, the insert. -/
def insertDistilled (env : Env) (tenantId distilledPath : String) (sourceIds : List Nat)
    (result : DistillationResult) (derived : List Derived) : List Derived :=
  match env.castLtree distilledPath with
  | none => derived
  | some path =>
    if hasDuplicateDistillation tenantId path sourceIds derived then derived
    else
      derived ++ [.distilled
        { tenantId := tenantId, path := path, summary := result.summary
          insights := result.insights, sourceEntryIds := sourceIds
          version := nextDistilledVersion tenantId path derived }]

/-! ## Jobs -/

/-- A worker between two of its statements, with what it has read or stored. -/
inductive Job where
  /-- A distillation waits for the language model. -/
  | distill (tenantId distilledPath : String) (sourceIds : List Nat)
  /-- `runConsolidation` before it stores. -/
  | consolidate (tenantId pathPrefix : String) (runId : Nat) (sourceIds : List Nat)
      (content : String)
  /-- `runConsolidation` before it updates its run. -/
  | complete (tenantId : String) (runId : Nat) (sourceIds : List Nat) (entryId : Nat)

namespace Job

def tenantId : Job → String
  | .distill tenantId _ _ => tenantId
  | .consolidate tenantId _ _ _ _ => tenantId
  | .complete tenantId _ _ _ => tenantId

def refs : Job → List Nat
  | .distill _ _ ids => ids
  | .consolidate _ _ _ ids _ => ids
  | .complete _ _ ids entryId => ids ++ [entryId]

def runId : Job → Option Nat
  | .distill _ _ _ => none
  | .consolidate _ _ runId _ _ => some runId
  | .complete _ runId _ _ => some runId

end Job

structure World where
  db : Db
  jobs : List Job

def World.start (nextId : Nat) : World := ⟨⟨⟨[], nextId⟩, [], [], 0, []⟩, []⟩

def updateRun (runId : Nat) (f : ConsolidationRun → ConsolidationRun) : Derived → Derived
  | .run r => if r.id = runId then .run (f r) else .run r
  | d => d

def Db.updateRun (db : Db) (runId : Nat) (f : ConsolidationRun → ConsolidationRun) : Db :=
  { db with derived := db.derived.map (Retention.updateRun runId f) }

def Db.runs (db : Db) : List ConsolidationRun :=
  db.derived.filterMap fun
    | .run r => some r
    | _ => none

def Db.tryConsolidate (env : Env) (db : Db) (tenantId pathPrefix : String) : Db :=
  match env.castLtree pathPrefix with
  | none => db
  | some path =>
    let active := db.memories.rows.filter fun r =>
      currentUnder tenantId path r && !isConsolidatedPath r.path
    let pending := db.runs.filter fun r =>
      r.tenantId == tenantId && r.pathPrefix == pathPrefix && r.status == .pending
    -- one pending run for a prefix at a time
    if active.length < consolidationMinEntries ∨ pending ≠ [] then db
    else
      { db with
        derived := db.derived ++ [.run
          { id := db.nextRunId, tenantId := tenantId, pathPrefix := pathPrefix, sourceEntryIds := []
            consolidatedPath := pathPrefix ++ ".consolidated", consolidatedEntryId := none
            status := .pending }]
        nextRunId := db.nextRunId + 1 }

/-! ## Steps -/

/-- The memories that are there, with their tenants. -/
def owners (t : Table) : List (Nat × String) := t.rows.map fun r => (r.id, r.tenantId)

def Db.runOwners (db : Db) : List (Nat × String) := db.runs.map fun r => (r.id, r.tenantId)

/-- An id of a memory that was stored, of this tenant if it is still there. -/
def Db.Knows (db : Db) (tenantId : String) (id : Nat) : Prop :=
  Owns db.memories.nextId (owners db.memories) tenantId id

instance (db : Db) (tenantId : String) (id : Nat) : Decidable (db.Knows tenantId id) :=
  inferInstanceAs (Decidable (Owns _ _ _ _))

/-- The tables that the extraction services write. -/
def DerivedTable.extracted : DerivedTable → Bool
  | .graphLinkProposals | .entitySnapshots | .entityAliasProposals => true
  | .distilledKnowledge | .consolidationRuns => false

inductive Action where
  | memory (ctx : Ctx) (op : Op)
  | link (l : MemoryLink)
  /-- `InsertSnapshot` or `InsertPending`, of memories that were read. -/
  | extract (d : Derived)
  /-- `TriggerForMemory`. -/
  | trigger (tenantId path : String)
  /-- `runConsolidation` up to its store. -/
  | startConsolidation (runId : Nat)
  /-- The store of `runConsolidation`, for a waiting job. -/
  | storeConsolidated (job : Nat) (now : Time)
  /-- The update behind it. -/
  | completeRun (job : Nat)
  /-- `runDistillationJobWithPrefix` up to the call of the language model. -/
  | startDistillation (tenantId pathPrefix : String) (batchSize : Nat)
  /-- The rest of it, with the answer. -/
  | finishDistillation (job : Nat) (result : DistillationResult)
  | erase (tenantId : String) (req : EraseRequest) (apiKeyId : String)

/-- `runConsolidation` for a pending run. An error is kept in the run. -/
def World.startConsolidation (env : Env) (w : World) (r : ConsolidationRun) : World :=
  match (retrieve env r.tenantId r.pathPrefix 50 w.db.memories.rows).bind consolidationSources with
  | .error _ => { w with db := w.db.updateRun r.id fun r => { r with status := .failed } }
  | .ok (ids, parts) =>
    { w with jobs := w.jobs ++ [.consolidate r.tenantId r.pathPrefix r.id ids
        (truncateUtf8 ("\n---\n".intercalate parts) 16000)] }

/-- The store of a consolidation, and what its job waits for then. -/
def World.storeConsolidated (env : Env) (w : World) (tenantId pathPrefix : String) (runId : Nat)
    (ids : List Nat) (content : String) (now : Time) : World :=
  match store env (consolidatedRequest pathPrefix ids content) tenantId now w.db.memories with
  | .error _ => { w with db := w.db.updateRun runId fun r => { r with status := .failed } }
  | .ok (out, t) =>
    { db := { w.db with memories := t }, jobs := w.jobs ++ [.complete tenantId runId ids out.id] }

/-- `runDistillationJobWithPrefix`, which does nothing without sources. -/
def World.startDistillation (env : Env) (w : World) (tenantId pathPrefix : String)
    (batchSize : Nat) : World :=
  let sources := distillationSources env tenantId pathPrefix batchSize w.db.memories.rows
  if sources = [] then w
  else
    { w with jobs := w.jobs ++ [.distill tenantId (distilledBranchPath pathPrefix)
        (normalizeSourceIds (sources.map (·.id)))] }

/-- One step. A job that goes on is taken out of the waiting ones. -/
def World.step (env : Env) (w : World) : Action → Option World
  | .memory ctx op => some { w with db.memories := op.apply env ctx w.db.memories }
  | .link l => some { w with db.links := w.db.links ++ [l] }
  | .extract d =>
    if d.table.extracted ∧ ∀ id ∈ d.refs, w.db.Knows d.tenantId id then
      some { w with db.derived := w.db.derived ++ [d] }
    else none
  | .trigger tenantId path =>
    if tenantId = "" ∨ path = "" then some w
    else some { w with db := w.db.tryConsolidate env tenantId (parentPrefix path) }
  | .startConsolidation runId =>
    (w.db.runs.find? fun r => r.id == runId && r.status == .pending).map (w.startConsolidation env)
  | .storeConsolidated job now =>
    match w.jobs[job]? with
    | some (.consolidate tenantId pathPrefix runId ids content) =>
      some ({ w with jobs := w.jobs.eraseIdx job }.storeConsolidated env tenantId pathPrefix runId
        ids content now)
    | _ => none
  | .completeRun job =>
    match w.jobs[job]? with
    | some (.complete _ runId ids entryId) =>
      some
        { db := w.db.updateRun runId fun r =>
            { r with status := .completed, sourceEntryIds := ids
                     consolidatedEntryId := some entryId }
          jobs := w.jobs.eraseIdx job }
    | _ => none
  | .startDistillation tenantId pathPrefix batchSize =>
    some (w.startDistillation env (if tenantId = "" then defaultTenant else tenantId) pathPrefix
      batchSize)
  | .finishDistillation job result =>
    match w.jobs[job]? with
    | some (.distill tenantId distilledPath ids) =>
      some
        { db := { w.db with
            derived := insertDistilled env tenantId distilledPath ids result w.db.derived }
          jobs := w.jobs.eraseIdx job }
    | _ => none
  | .erase tenantId req apiKeyId =>
    match w.db.erase env tenantId req apiKeyId with
    | .error _ => some w
    | .ok (_, _, db) => some { w with db := db }

/-! ## What the workers read -/

variable {env : Env} {entries : List Row} {t : Table} {tenantId : String} {d : Derived} {w : World}
  {rows : List Row} {e r : Row} {pathPrefix : String} {now : Time} {db : Db}
  {f : ConsolidationRun → ConsolidationRun}

theorem forall₂_of_scanAll (h : scanAll env rows = .ok entries) :
    Forall₂ (fun r e => scanMemoryEntry env r = .ok e) rows entries := by
  induction rows generalizing entries with
  | nil =>
    cases h
    exact .nil
  | cons r rows ih =>
    rw [scanAll] at h
    split at h
    · cases h
    next e hscan =>
    obtain ⟨rest, hrest, rfl⟩ := map_eq_ok h
    exact .cons hscan (ih hrest)

theorem mem_scanAll (h : scanAll env rows = .ok entries) (he : e ∈ entries) :
    ∃ r ∈ rows, r.id = e.id := by
  have hall := forall₂_of_scanAll h
  clear h
  induction hall with
  | nil => cases he
  | cons hscan _ ih =>
    rcases mem_cons.mp he with rfl | he
    · obtain ⟨content, rfl⟩ := scanMemoryEntry_ok hscan
      exact ⟨_, mem_cons_self, rfl⟩
    · obtain ⟨r, hr, hid⟩ := ih he
      exact ⟨r, mem_cons_of_mem _ hr, hid⟩

theorem mem_owners_of_currentUnder {path : Ltree} (hr : r ∈ t.rows)
    (h : currentUnder tenantId path r = true) : (r.id, tenantId) ∈ owners t := by
  simp only [currentUnder, Bool.and_eq_true, beq_iff_eq] at h
  exact mem_map.mpr ⟨r, hr, by rw [h.1.1]⟩

theorem mem_retrieve {limit : Int} (h : retrieve env tenantId pathPrefix limit t.rows = .ok entries)
    (he : e ∈ entries) :
    (e.id, tenantId) ∈ owners t := by
  unfold retrieve at h
  dsimp only at h
  split at h
  · cases h
  next path _ =>
  obtain ⟨r, hr, hid⟩ := mem_scanAll h he
  have hr := (mem_insertionSort _).mp (mem_of_mem_take hr)
  obtain ⟨hr, hcurrent⟩ := mem_filter.mp hr
  rw [← hid]
  exact mem_owners_of_currentUnder hr hcurrent

theorem consolidationSources_eq_ok {ids : List Nat} {parts : List String}
    (h : consolidationSources entries = .ok (ids, parts)) :
    ∀ id ∈ ids, ∃ e ∈ entries, e.id = id := by
  unfold consolidationSources at h
  split at h
  · cases h
  dsimp only at h
  split at h <;> cases h
  intro id hid
  obtain ⟨e, he, rfl⟩ := mem_map.mp hid
  exact ⟨e, (mem_filter.mp he).1, rfl⟩

theorem mem_distillationSources {batchSize : Nat}
    (h : r ∈ distillationSources env tenantId pathPrefix batchSize t.rows) :
    (r.id, tenantId) ∈ owners t := by
  unfold distillationSources at h
  split at h
  · have h := (mem_insertionSort _).mp (mem_of_mem_take h)
    obtain ⟨hr, hcond⟩ := mem_filter.mp h
    exact mem_owners_of_currentUnder hr (Bool.and_eq_true_iff.mp hcond).1
  · cases h

theorem insertDistilled_eq (env : Env) (tenantId distilledPath : String) (ids : List Nat)
    (result : DistillationResult) (derived : List Derived) :
    insertDistilled env tenantId distilledPath ids result derived = derived ∨
      ∃ d, insertDistilled env tenantId distilledPath ids result derived = derived ++ [d] ∧
        d.tenantId = tenantId ∧ d.refs = ids ∧ d.table = .distilledKnowledge := by
  unfold insertDistilled
  split
  · exact .inl rfl
  split
  · exact .inl rfl
  · exact .inr ⟨_, rfl, rfl, rfl, rfl⟩

/-! ## Ids over time -/

theorem owners_map {f : Row → Row} (hf : ∀ r, Row.Updated now r (f r)) (t : Table) :
    owners { t with rows := t.rows.map f } = owners t := by
  unfold owners
  rw [map_map]
  refine map_congr_left fun r _ => ?_
  simp [(hf r).id, (hf r).tenantId]

theorem owners_insert (t : Table) (tenantId : String) (c : Columns) (version : Int) (now : Time)
    (next : Nat) :
    owners { rows := closeCurrent tenantId c.path now t.rows ++
        [c.toRow tenantId t.nextId version now], nextId := next } =
      owners t ++ [(t.nextId, tenantId)] := by
  have hclose : owners { t with rows := closeCurrent tenantId c.path now t.rows } = owners t :=
    owners_map (closeCurrent_updated tenantId c.path now) t
  unfold owners at hclose ⊢
  rw [map_append, hclose]
  rfl

theorem grows_apply (env : Env) (ctx : Ctx) (t : Table) (op : Op) :
    Grows t.nextId (owners t) (op.apply env ctx t).nextId (owners (op.apply env ctx t)) := by
  generalize h : op.apply env ctx t = t'
  cases h ▸ effect_of_apply env ctx t op with
  | updated f hf =>
    rw [owners_map hf]
    exact .refl _ _
  | deleted p _ => exact .shrink (map_subset _ (filter_subset_self _))
  | inserted tenantId c _ =>
    rw [owners_insert]
    exact .fresh tenantId

theorem store_eq_ok {req : StoreRequest} {t' : Table} {out : StoreOutcome}
    (h : store env req tenantId now t = .ok (out, t')) :
    out.id = t.nextId ∧ t'.nextId = t.nextId + 1 ∧
      owners t' = owners t ++ [(t.nextId, tenantId)] := by
  unfold store at h
  split at h
  · cases h
  unfold storeVersion at h
  dsimp only at h
  split at h <;> cases h
  exact ⟨rfl, rfl, owners_insert ..⟩

theorem mem_runs {r : ConsolidationRun} : r ∈ db.runs ↔ .run r ∈ db.derived := by
  unfold Db.runs
  rw [mem_filterMap]
  constructor
  · rintro ⟨d, hd, hr⟩
    cases d with
    | run r' =>
      cases hr
      exact hd
    | _ => cases hr
  · exact fun h => ⟨_, h, rfl⟩

theorem runOwners_append (db : Db) (h : d.table ≠ .consolidationRuns) :
    ({ db with derived := db.derived ++ [d] } : Db).runOwners = db.runOwners := by
  unfold Db.runOwners Db.runs
  rw [filterMap_append]
  cases d with
  | run r => exact absurd rfl h
  | _ => exact congrArg _ (append_nil _)

theorem runOwners_subset {db' : Db} (h : db'.derived ⊆ db.derived) :
    db'.runOwners ⊆ db.runOwners := by
  intro p hp
  obtain ⟨r, hr, rfl⟩ := mem_map.mp hp
  exact mem_map.mpr ⟨r, mem_runs.mpr (h (mem_runs.mp hr)), rfl⟩

theorem runOwners_updateRun (db : Db) (runId : Nat)
    (hf : ∀ r, (f r).id = r.id ∧ (f r).tenantId = r.tenantId) :
    (db.updateRun runId f).runOwners = db.runOwners := by
  unfold Db.runOwners Db.runs Db.updateRun
  dsimp only
  induction db.derived with
  | nil => rfl
  | cons d ds ih =>
    cases d with
    | run r =>
      by_cases hid : r.id = runId
      · simpa [updateRun, hid, (hf r).1, (hf r).2] using ih
      · simpa [updateRun, hid] using ih
    | _ => simpa [updateRun] using ih

theorem mem_updateRun {runId : Nat} (h : d ∈ (db.updateRun runId f).derived) :
    d ∈ db.derived ∨ ∃ r, .run r ∈ db.derived ∧ r.id = runId ∧ d = .run (f r) := by
  obtain ⟨d₀, hd₀, rfl⟩ := mem_map.mp h
  cases d₀ with
  | run r =>
    by_cases hid : r.id = runId
    · exact .inr ⟨r, hd₀, hid, if_pos hid⟩
    refine .inl ?_
    rw [updateRun, if_neg hid]
    exact hd₀
  | _ => exact .inl hd₀

/-! ## Citing within a tenant -/

/-- Everything that is cited, by a row or by a job, is of the citing tenant. -/
structure Sound (w : World) : Prop where
  memories : Consistent w.db.memories.nextId (owners w.db.memories)
  runs : Consistent w.db.nextRunId w.db.runOwners
  derived : ∀ d ∈ w.db.derived, ∀ id ∈ d.refs, w.db.Knows d.tenantId id
  jobs : ∀ j ∈ w.jobs, ∀ id ∈ j.refs, w.db.Knows j.tenantId id
  jobRuns : ∀ j ∈ w.jobs, ∀ k ∈ j.runId, Owns w.db.nextRunId w.db.runOwners j.tenantId k

/-- Ids are given out in order, and what is new cites what is known. -/
theorem Sound.of_grows {w' : World} (h : Sound w)
    (hm : Grows w.db.memories.nextId (owners w.db.memories) w'.db.memories.nextId
      (owners w'.db.memories))
    (hr : Grows w.db.nextRunId w.db.runOwners w'.db.nextRunId w'.db.runOwners)
    (hd : ∀ d ∈ w'.db.derived, d ∈ w.db.derived ∨ ∀ id ∈ d.refs, w'.db.Knows d.tenantId id)
    (hj : ∀ j ∈ w'.jobs, j ∈ w.jobs ∨ (∀ id ∈ j.refs, w'.db.Knows j.tenantId id) ∧
      ∀ k ∈ j.runId, Owns w'.db.nextRunId w'.db.runOwners j.tenantId k) : Sound w' where
  memories := h.memories.grows hm
  runs := h.runs.grows hr
  derived d hmem := by
    rcases hd d hmem with hold | hnew
    · exact fun id hid => (h.derived d hold id hid).grows hm
    · exact hnew
  jobs j hmem := by
    rcases hj j hmem with hold | hnew
    · exact fun id hid => (h.jobs j hold id hid).grows hm
    · exact hnew.1
  jobRuns j hmem := by
    rcases hj j hmem with hold | hnew
    · exact fun k hk => (h.jobRuns j hold k hk).grows hr
    · exact hnew.2

theorem sound_start (nextId : Nat) : Sound (World.start nextId) :=
  ⟨nofun, nofun, nofun, nofun, nofun⟩

theorem Sound.updateRun {w : World} (h : Sound w) (runId : Nat)
    {f : ConsolidationRun → ConsolidationRun}
    (hf : ∀ r, (f r).id = r.id ∧ (f r).tenantId = r.tenantId)
    (hrefs : ∀ r, .run r ∈ w.db.derived → r.id = runId →
      ∀ id ∈ (Derived.run (f r)).refs, w.db.Knows r.tenantId id) :
    Sound { w with db := w.db.updateRun runId f } := by
  have howners := runOwners_updateRun w.db runId hf
  refine h.of_grows (.refl _ _) ?_ (fun d hd => ?_) fun j hj => .inl hj
  · exact howners.symm ▸ .refl _ _
  · rcases mem_updateRun hd with hd | ⟨r, hr, hid, rfl⟩
    · exact .inl hd
    · refine .inr fun id hmem => ?_
      have htenant : (Derived.run (f r)).tenantId = r.tenantId := (hf r).2
      rw [htenant]
      exact hrefs r hr hid id hmem

theorem Sound.failRun (h : Sound w) (runId : Nat) :
    Sound { w with db := w.db.updateRun runId fun r => { r with status := .failed } } :=
  h.updateRun runId (fun _ => ⟨rfl, rfl⟩) fun r hr _ => h.derived (.run r) hr

theorem Sound.eraseJob (h : Sound w) (job : Nat) : Sound { w with jobs := w.jobs.eraseIdx job } :=
  h.of_grows (.refl _ _) (.refl _ _) (fun _ hd => .inl hd) fun _ hj =>
    .inl (mem_of_mem_eraseIdx hj)

theorem Sound.tryConsolidate {w : World} (h : Sound w) (env : Env) (tenantId pathPrefix : String) :
    Sound { w with db := w.db.tryConsolidate env tenantId pathPrefix } := by
  unfold Db.tryConsolidate
  split
  · exact h
  dsimp only
  split
  · exact h
  refine h.of_grows (.refl _ _) ?_ (forall_mem_concat (fun d hd => .inl hd) (.inr nofun))
    fun j hj => .inl hj
  have howners : ∀ r : ConsolidationRun, ({ w.db with
      derived := w.db.derived ++ [.run r], nextRunId := w.db.nextRunId + 1 } : Db).runOwners =
      w.db.runOwners ++ [(r.id, r.tenantId)] := by
    intro r
    unfold Db.runOwners Db.runs
    rw [filterMap_append, map_append]
    rfl
  rw [howners]
  exact .fresh tenantId

theorem Sound.addJob {w : World} {j : Job} (h : Sound w)
    (hrefs : ∀ id ∈ j.refs, w.db.Knows j.tenantId id)
    (hrun : ∀ k ∈ j.runId, Owns w.db.nextRunId w.db.runOwners j.tenantId k) :
    Sound { w with jobs := w.jobs ++ [j] } :=
  { h with jobs := forall_mem_concat h.jobs hrefs, jobRuns := forall_mem_concat h.jobRuns hrun }

theorem Sound.startConsolidation {w : World} (h : Sound w) (env : Env) {r : ConsolidationRun}
    (hr : r ∈ w.db.runs) : Sound (w.startConsolidation env r) := by
  unfold World.startConsolidation
  split
  · exact h.failRun r.id
  next ids parts hsources =>
  obtain ⟨entries, hretrieve, hids⟩ := bind_eq_ok hsources
  refine h.addJob (fun id hid => ?_) ?_
  · obtain ⟨e, he, rfl⟩ := consolidationSources_eq_ok hids id hid
    exact h.memories _ (mem_retrieve hretrieve he)
  · rintro k ⟨⟩
    exact h.runs _ (mem_map_of_mem hr)

theorem Sound.storeConsolidated {w : World} (h : Sound w) (env : Env)
    {tenantId pathPrefix content : String} {runId : Nat} {ids : List Nat} (now : Time)
    (hids : ∀ id ∈ ids, w.db.Knows tenantId id)
    (hrun : Owns w.db.nextRunId w.db.runOwners tenantId runId) :
    Sound (w.storeConsolidated env tenantId pathPrefix runId ids content now) := by
  unfold World.storeConsolidated
  split
  · exact h.failRun runId
  next out t hstore =>
  obtain ⟨hid, hnext, howners⟩ := store_eq_ok hstore
  have hgrows : Grows w.db.memories.nextId (owners w.db.memories) t.nextId (owners t) := by
    rw [hnext, howners]
    exact .fresh tenantId
  have hstored : Sound { w with db.memories := t } :=
    h.of_grows hgrows (.refl _ _) (fun _ hd => .inl hd) fun _ hj => .inl hj
  refine hstored.addJob (forall_mem_concat (fun id hmem => (hids id hmem).grows hgrows) ?_) ?_
  · have hfresh := h.memories.owns_fresh tenantId
    rw [← hnext, ← howners, ← hid] at hfresh
    exact hfresh
  · rintro k ⟨⟩
    exact hrun

theorem Sound.insert (h : Sound w) (htable : d.table ≠ .consolidationRuns)
    (hrefs : ∀ id ∈ d.refs, w.db.Knows d.tenantId id) :
    Sound { w with db.derived := w.db.derived ++ [d] } := by
  have howners := runOwners_append w.db htable
  exact h.of_grows (.refl _ _) (howners.symm ▸ .refl _ _)
    (forall_mem_concat (fun d hd => .inl hd) (.inr hrefs)) fun j hj => .inl hj

theorem Sound.startDistillation {w : World} (h : Sound w) (env : Env)
    (tenantId pathPrefix : String) (batchSize : Nat) :
    Sound (w.startDistillation env tenantId pathPrefix batchSize) := by
  unfold World.startDistillation
  dsimp only
  split
  · exact h
  refine h.addJob (fun id hid => ?_) nofun
  obtain ⟨r, hr, rfl⟩ := mem_map.mp ((mem_insertionSort _).mp hid)
  exact h.memories _ (mem_distillationSources hr)

theorem Sound.erase {w : World} (h : Sound w) {env : Env} {tenantId apiKeyId : String}
    {req : EraseRequest} {counts : EraseCounts} {vertices : List String}
    (herase : w.db.erase env tenantId req apiKeyId = .ok (counts, vertices, db)) :
    Sound { w with db := db } := by
  obtain ⟨hnext, hrows, hderived, hnextRun⟩ := erase_shrinks herase
  refine h.of_grows ?_ ?_ (fun d hd => .inl (hderived hd)) fun j hj => .inl hj
  · dsimp only
    rw [hnext]
    exact .shrink (map_subset _ hrows)
  · dsimp only
    rw [hnextRun]
    exact .shrink (runOwners_subset hderived)

/-- **Every step keeps it.** -/
theorem Sound.step {env : Env} {w w' : World} {a : Action} (h : Sound w)
    (hstep : w.step env a = some w') : Sound w' := by
  cases a with
  | memory ctx op =>
    cases hstep
    exact h.of_grows (grows_apply env ctx _ op) (.refl _ _) (fun _ hd => .inl hd)
      fun _ hj => .inl hj
  | link l =>
    cases hstep
    exact { h with }
  | extract d =>
    rw [World.step] at hstep
    split at hstep <;> cases hstep
    next hok =>
    refine h.insert (fun htable => ?_) hok.2
    rw [htable] at hok
    exact absurd hok.1 Bool.false_ne_true
  | trigger tenantId path =>
    rw [World.step] at hstep
    split at hstep <;> cases hstep
    · exact h
    · exact h.tryConsolidate env tenantId _
  | startConsolidation runId =>
    obtain ⟨r, hr, rfl⟩ := Option.map_eq_some_iff.mp hstep
    exact h.startConsolidation env (mem_of_find?_eq_some hr)
  | storeConsolidated job now =>
    rw [World.step] at hstep
    split at hstep <;> cases hstep
    next tenantId pathPrefix runId ids content hjob =>
    have hmem := mem_of_getElem? hjob
    exact (h.eraseJob job).storeConsolidated env now (h.jobs _ hmem) (h.jobRuns _ hmem _ rfl)
  | completeRun job =>
    rw [World.step] at hstep
    split at hstep <;> cases hstep
    next tenantId runId ids entryId hjob =>
    have hmem := mem_of_getElem? hjob
    refine (h.eraseJob job).updateRun runId (fun _ => ⟨rfl, rfl⟩) fun r hr hid id hrefs => ?_
    -- the run is the tenant's of the job
    have hrun := (h.jobRuns _ hmem runId rfl).2 (r.id, r.tenantId)
      (mem_map_of_mem (mem_runs.mpr hr)) hid
    dsimp only at hrun
    rw [hrun]
    exact h.jobs _ hmem id hrefs
  | startDistillation tenantId pathPrefix batchSize =>
    cases hstep
    exact h.startDistillation env _ pathPrefix batchSize
  | finishDistillation job result =>
    rw [World.step] at hstep
    split at hstep <;> cases hstep
    next tenantId distilledPath ids hjob =>
    have hmem := mem_of_getElem? hjob
    have hrest := h.eraseJob job
    rcases insertDistilled_eq env tenantId distilledPath ids result w.db.derived with
      heq | ⟨d, heq, htenant, hrefs, htable⟩
    · rw [heq]
      exact hrest
    rw [heq]
    refine hrest.insert (by rw [htable]; decide) ?_
    rw [htenant, hrefs]
    exact h.jobs _ hmem
  | erase tenantId req apiKeyId =>
    rw [World.step] at hstep
    split at hstep <;> cases hstep
    · exact h
    next herase => exact h.erase herase

/-- **Rows cite memories of their own tenant**, in every run. -/
theorem sound_of_reaches {nextId : Nat} (h : Reaches (World.step env) (World.start nextId) w) :
    Sound w :=
  h.invariant (P := Sound) (fun _ _ _ hs _ hstep => hs.step hstep) (sound_start nextId)

end Pcmi.Retention
