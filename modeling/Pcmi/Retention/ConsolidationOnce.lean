import Pcmi.Retention.Erasure

/-!
# How often a run is consolidated

`processPending` selects pending runs, and for each makes a read, a store and an update of the run,
all statements of their own. Here several workers interleave, may stop anywhere, and any statement
may fail.
-/

namespace Pcmi.Retention

open List Pcmi.Go Pcmi.Lib Pcmi.Memory

/-- A row of `consolidation_runs`; its id is its place. -/
structure PendingRun where
  tenantId : String
  pathPrefix : String
  status : RunStatus := .pending

/-- The next statement for a run. -/
inductive Stage where
  | reading
  | storing (ids : List Nat) (content : String)
  | marking
  | failing
  deriving DecidableEq

structure Task where
  worker : Nat
  id : Nat
  stage : Stage := .reading
  deriving DecidableEq

/-- A worker is at the first of its tasks. -/
structure Workers where
  memories : Table := ⟨[], 1⟩
  runs : List PendingRun := []
  tasks : List Task := []
  stored : List Nat := []

inductive WorkersAction where
  /-- What else is done to the memories. -/
  | memories (t : Table)
  /-- The insert of `tryConsolidate`. -/
  | insert (tenantId pathPrefix : String)
  | select (i : Nat)
  | skip (i : Nat)
  | work (i : Nat) (now : Time) (fails : Bool)
  | crash (i : Nat)

namespace Workers

def isPending (runs : List PendingRun) (id : Nat) : Bool := runs[id]?.any (·.status == .pending)

def pending (s : Workers) : List Nat := ((range s.runs.length).filter (isPending s.runs)).take 10

def setStage (s : Workers) (task : Task) (stage : Stage) : Workers :=
  { s with tasks := s.tasks.map fun t => if t = task then { t with stage := stage } else t }

/-- The worker goes on, with the runs as its update left them. -/
def next (s : Workers) (task : Task) (runs : List PendingRun) : Workers :=
  { s with runs := runs, tasks := s.tasks.filter (· ≠ task) }

/-- `UPDATE consolidation_runs SET status = … WHERE id = $1`. -/
def setStatus (s : Workers) (id : Nat) (status : RunStatus) : List PendingRun :=
  s.runs.modify id fun r => { r with status := status }

/-- One statement of `runConsolidation`, or the update behind its error. -/
def work (env : Env) (s : Workers) (task : Task) (r : PendingRun) (now : Time) (fails : Bool) :
    Workers :=
  match task.stage with
  | .reading =>
    match (retrieve env r.tenantId r.pathPrefix 50 s.memories.rows).bind consolidationSources with
    | .error _ => s.setStage task .failing
    | .ok (ids, parts) =>
      s.setStage task (if fails then .failing
        else .storing ids (truncateUtf8 ("\n---\n".intercalate parts) 16000))
  | .storing ids content =>
    match store env (consolidatedRequest r.pathPrefix ids content) r.tenantId now s.memories with
    | .error _ => s.setStage task .failing
    | .ok (_, t) =>
      if fails then s.setStage task .failing
      else { s.setStage task .marking with memories := t, stored := task.id :: s.stored }
  | .marking =>
    if fails then s.setStage task .failing else s.next task (s.setStatus task.id .completed)
  | .failing => s.next task (if fails then s.runs else s.setStatus task.id .failed)

def step (env : Env) (s : Workers) : WorkersAction → Option Workers
  | .memories t => some { s with memories := t }
  | .insert tenantId pathPrefix => some { s with runs := s.runs ++ [⟨tenantId, pathPrefix,
    .pending⟩] }
  | .select i =>
    if s.tasks.any (·.worker == i) then none
    else some { s with tasks := s.tasks ++ s.pending.map fun id => { worker := i, id := id } }
  | .skip i =>
    match s.tasks.find? (·.worker == i) with
    | some task => if task.stage = .reading then some (s.next task s.runs) else none
    | none => none
  | .work i now fails =>
    match s.tasks.find? (·.worker == i) with
    | some task => s.runs[task.id]?.map fun r => s.work env task r now fails
    | none => none
  | .crash i => some { s with tasks := s.tasks.filter (·.worker != i) }

/-- No worker selects a selected run, nor loses one before its update. -/
def Exclusive (s : Workers) : WorkersAction → Prop
  | .select _ => ∀ id ∈ s.pending, id ∉ s.tasks.map (·.id)
  | .work i _ fails => ∀ task ∈ s.tasks, task.worker = i → fails ∧ task.stage = .failing →
      task.id ∉ s.stored
  | .crash i => ∀ task ∈ s.tasks, task.worker = i → task.id ∉ s.stored
  | .memories _ | .insert _ _ | .skip _ => True

instance (s : Workers) : ∀ a, Decidable (s.Exclusive a)
  | .select _ => inferInstanceAs (Decidable (∀ id ∈ s.pending, _))
  | .work _ _ _ | .crash _ => inferInstanceAs (Decidable (∀ task ∈ s.tasks, _))
  | .memories _ | .insert _ _ | .skip _ => isTrue trivial

end Workers

/-! ## At most once -/

/-- Behind an error the worker may have stored the run. -/
def Stage.unstored : Stage → Bool
  | .reading | .storing _ _ => true
  | .marking | .failing => false

namespace Workers

structure Once (s : Workers) : Prop where
  known : ∀ id, id ∈ s.stored ∨ id ∈ s.tasks.map (·.id) → id < s.runs.length
  apart : (s.tasks.map (·.id)).Nodup
  unstored : ∀ task ∈ s.tasks, task.stage.unstored → task.id ∉ s.stored
  /-- A pending run that has a version is in a worker's hands. -/
  held : ∀ id ∈ s.stored, isPending s.runs id → id ∈ s.tasks.map (·.id)
  once : s.stored.Nodup

variable {s : Workers} {task : Task} {runs : List PendingRun}

/-- Workers let go of tasks; a stored run is not pending any more. -/
theorem Once.filter (h : s.Once) (keep : Task → Bool) (hlength : runs.length = s.runs.length)
    (hpending : ∀ id, isPending runs id → isPending s.runs id)
    (hgone : ∀ t ∈ s.tasks, keep t = false → t.id ∈ s.stored → isPending runs t.id = false) :
    Once { s with runs := runs, tasks := s.tasks.filter keep } where
  known id hid := by
    rw [hlength]
    exact h.known id (hid.imp_right fun hid => map_subset _ (filter_subset_self _) hid)
  apart := h.apart.sublist (filter_sublist.map _)
  unstored t ht := h.unstored t (mem_of_mem_filter ht)
  held id hid hid' := by
    obtain ⟨t, ht, rfl⟩ := mem_map.mp (h.held id hid (hpending id hid'))
    refine mem_map_of_mem (mem_filter.mpr ⟨ht, ?_⟩)
    by_contra hkeep
    rw [hgone t ht (by simpa using hkeep) hid] at hid'
    cases hid'
  once := h.once

theorem isPending_setStatus {id id' : Nat} {status : RunStatus} (hstatus : status ≠ .pending) :
    isPending (s.setStatus id status) id' = (isPending s.runs id' && id != id') := by
  simp only [isPending, setStatus, getElem?_modify]
  cases s.runs[id']? with
  | none => rfl
  | some r =>
    by_cases hid : id = id'
    · simp [hid, hstatus]
    · simp [hid]

theorem Once.next (h : s.Once) {status : RunStatus} (hstatus : status ≠ .pending) :
    (s.next task (s.setStatus task.id status)).Once := by
  refine h.filter _ (length_modify ..) (fun id hid => ?_) fun t _ ht _ => ?_
  · rw [isPending_setStatus hstatus] at hid
    exact ((Bool.and_eq_true _ _).mp hid).1
  · obtain rfl : t = task := by simpa using ht
    rw [isPending_setStatus hstatus, bne_self_eq_false, Bool.and_false]

theorem Once.drop (h : s.Once) (hstored : task.id ∉ s.stored) : (s.next task s.runs).Once := by
  refine h.filter _ rfl (fun _ hid => hid) fun t _ ht hid => ?_
  obtain rfl : t = task := by simpa using ht
  exact absurd hid hstored

theorem ids_setStage (s : Workers) (task : Task) (stage : Stage) :
    (s.setStage task stage).tasks.map (·.id) = s.tasks.map (·.id) := by
  rw [setStage, map_map]
  refine map_congr_left fun t _ => ?_
  dsimp only [Function.comp]
  split <;> rfl

theorem Once.setStage (h : s.Once) {stage : Stage}
    (hstage : stage.unstored → task.id ∉ s.stored) : (s.setStage task stage).Once where
  known id hid := by
    rw [ids_setStage] at hid
    exact h.known id hid
  apart := by
    rw [ids_setStage]
    exact h.apart
  unstored := forall_mem_map.mpr fun t ht => by
    split
    · next heq => exact heq ▸ hstage
    · exact h.unstored t ht
  held := by
    rw [ids_setStage]
    exact h.held
  once := h.once

theorem Once.store (h : s.Once) (htask : task ∈ s.tasks) (hstage : task.stage.unstored)
    (t : Table) :
    Once { s.setStage task .marking with memories := t, stored := task.id :: s.stored } := by
  have hstay : (s.setStage task .marking).Once := h.setStage nofun
  have hmem : task.id ∈ (s.setStage task .marking).tasks.map (·.id) := by
    rw [ids_setStage]
    exact mem_map_of_mem htask
  have hnew : task.id ∉ s.stored := h.unstored task htask hstage
  refine ⟨?_, hstay.apart, forall_mem_map.mpr fun t' ht' => ?_, ?_, nodup_cons.mpr ⟨hnew, h.once⟩⟩
  · rintro id (hid | hid)
    · rcases mem_cons.mp hid with rfl | hid
      · exact hstay.known _ (.inr hmem)
      · exact hstay.known _ (.inl hid)
    · exact hstay.known _ (.inr hid)
  · split
    · nofun
    · next hne =>
      intro hunstored
      exact not_mem_cons_of_ne_of_not_mem
        (fun hid => hne (inj_on_of_nodup_map h.apart ht' htask hid)) (h.unstored t' ht' hunstored)
  · exact forall_mem_cons.mpr ⟨fun _ => hmem, hstay.held⟩

/-- What is pending with a version is held, so it is not selected. -/
theorem Once.select (h : s.Once) (hok : ∀ id ∈ s.pending, id ∉ s.tasks.map (·.id)) (i : Nat) :
    Once { s with tasks := s.tasks ++ s.pending.map fun id => { worker := i, id := id } } := by
  have hpending : ∀ id ∈ s.pending, id < s.runs.length ∧ isPending s.runs id := fun id hid => by
    simpa using mem_of_mem_take hid
  have hids : (s.tasks ++ s.pending.map fun id => { worker := i, id := id : Task }).map (·.id) =
      s.tasks.map (·.id) ++ s.pending := by
    rw [map_append, map_map]
    exact congrArg _ (map_id _)
  refine ⟨fun id hid => ?_, ?_, ?_, fun id hid hid' => ?_, h.once⟩
  · rw [hids, mem_append, ← or_assoc] at hid
    exact hid.elim (h.known id) fun hid => (hpending id hid).1
  · rw [hids]
    exact h.apart.append ((nodup_range.filter _).sublist (take_sublist ..)) fun id hid hid' =>
      hok id hid' hid
  · refine forall_mem_append.mpr ⟨h.unstored, forall_mem_map.mpr fun id hid _ hstored => ?_⟩
    exact hok id hid (h.held id hstored (hpending id hid).2)
  · rw [hids]
    exact mem_append_left _ (h.held id hid hid')

theorem Once.insert (h : s.Once) (r : PendingRun) : Once { s with runs := s.runs ++ [r] } where
  known id hid := by
    rw [length_append]
    exact Nat.lt_add_right _ (h.known id hid)
  apart := h.apart
  unstored := h.unstored
  held id hid hid' := by
    rw [isPending, getElem?_append_left (h.known id (.inl hid))] at hid'
    exact h.held id hid hid'
  once := h.once

theorem Once.work (h : s.Once) (env : Env) (htask : task ∈ s.tasks) (r : PendingRun) (now : Time)
    {fails : Bool} (hok : fails ∧ task.stage = .failing → task.id ∉ s.stored) :
    (s.work env task r now fails).Once := by
  unfold Workers.work
  split
  · next hstage =>
    have hnew : task.id ∉ s.stored := h.unstored task htask (by rw [hstage]; rfl)
    split
    · exact h.setStage nofun
    · exact h.setStage fun _ => hnew
  · next hstage =>
    split
    · exact h.setStage nofun
    split
    · exact h.setStage nofun
    · exact h.store htask (by rw [hstage]; rfl) _
  · split
    · exact h.setStage nofun
    · exact h.next nofun
  · next hstage =>
    split
    · next hfails => exact h.drop (hok ⟨hfails, hstage⟩)
    · exact h.next nofun

theorem Once.step {env : Env} {s' : Workers} {a : WorkersAction} (h : s.Once) (hok : s.Exclusive a)
    (hstep : s.step env a = some s') : s'.Once := by
  cases a with
  | memories t =>
    cases hstep
    exact { h with }
  | insert tenantId pathPrefix =>
    cases hstep
    exact h.insert _
  | select i =>
    obtain ⟨-, hs⟩ := Option.ite_none_left_eq_some.mp hstep
    cases hs
    exact h.select hok i
  | skip i =>
    rw [Workers.step] at hstep
    split at hstep
    · next task hfind =>
      obtain ⟨hstage, hs⟩ := Option.ite_none_right_eq_some.mp hstep
      cases hs
      exact h.drop (h.unstored task (mem_of_find?_eq_some hfind) (by rw [hstage]; rfl))
    · cases hstep
  | work i now fails =>
    rw [Workers.step] at hstep
    split at hstep
    · next task hfind =>
      obtain ⟨r, -, rfl⟩ := Option.map_eq_some_iff.mp hstep
      have htask := mem_of_find?_eq_some hfind
      exact h.work env htask r now (hok task htask (by simpa using find?_some hfind))
    · cases hstep
  | crash i =>
    cases hstep
    refine h.filter _ rfl (fun _ hid => hid) fun t ht hi hid => ?_
    exact absurd hid (hok t ht (by simpa using hi))

end Workers

/-- **A run is consolidated at most once**, where workers are exclusive. -/
theorem stored_once_of_exclusive {env : Env} {s : Workers}
    (h : Steps (Workers.step env) Workers.Exclusive {} s) (id : Nat) : s.stored.count id ≤ 1 := by
  have honce : s.Once := h.invariant (fun _ _ _ h hok hs => h.step hok hs)
    ⟨nofun, nodup_nil, nofun, nofun, nodup_nil⟩
  exact nodup_iff_count_le_one.mp honce.once id

def usersPending : List WorkersAction :=
  [.memories (worldAfter storeActions).db.memories, .insert "t" "users"]

def readAndStore (i : Nat) : List WorkersAction := [.work i 4 false, .work i 5 false]

theorem stored_once_oneByOne : ∃ s,
    runAll (guarded (Workers.step dottedEnv) Workers.Exclusive) {} (usersPending ++ [.select 0] ++
      readAndStore 0 ++ [.work 0 6 false, .select 1]) = some s ∧ s.stored = [0] ∧
      s.stored.count 0 ≤ 1 :=
  exists_some (by decide +kernel) fun _ hs => stored_once_of_exclusive (steps_runAll (.refl _) hs) 0

/-- The runs that were stored for, and the versions at `users.consolidated`. -/
def storedVersions (acts : List WorkersAction) : Option (List Nat × List Int) :=
  (runAll (Workers.step dottedEnv) {} (usersPending ++ acts)).map fun s => (s.stored,
    (s.memories.rows.filter (·.path.labels == ["users", "consolidated"])).map (·.version))

/-- **Two workers that have selected one run store a version each; so does one that stops behind its
store.** -/
theorem stored_twice :
    storedVersions ([.select 0, .select 1] ++ readAndStore 0 ++ readAndStore 1) =
      some ([0, 0], [1, 2]) ∧
    storedVersions ([.select 0] ++ readAndStore 0 ++ [.crash 0, .select 0] ++ readAndStore 0) =
      some ([0, 0], [1, 2]) := by
  decide +kernel

end Pcmi.Retention
