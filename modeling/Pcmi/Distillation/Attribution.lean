import Pcmi.Distillation.Engine

/-!
# Which row a run is said to have produced

A run is completed twice: by its evaluation as soon as the job is started, without a `distilled_id`,
and by the job, which completes whichever run of its tenant is the newest one still running, maybe
that of another policy.
-/

namespace Pcmi.Distillation

open List Pcmi.Go Pcmi.Lib Pcmi.Memory Pcmi.Retention

/-! ## The property and the condition -/

def Engine.distilled (s : Engine) (id : Nat) : Option Saved := s.saved.find? fun x => x.id == id

/-- Every completed run names a row that its own job has inserted. -/
def Attributed (env : Env) (s : Engine) : Prop :=
  ∀ r ∈ s.runs, r.status = .completed → ∃ x, r.distilledId = some x.id ∧
    s.distilled x.id = some x ∧ x.run = some r.id ∧
    ∃ pre, env.castLtree r.pathPrefix = some pre ∧ x.row.path.under pre = true

/-- `completeRun` waits for the job; `markRunCompleted` finds the job's run or none. -/
def awaited (s : Engine) : EngineAction → Bool
  | .pass i .completeRun =>
    match s.passes[i]? with
    | some ⟨_, _, _, .triggered _ runId⟩ =>
      s.runs.all fun r => r.id != runId || (r.status == .completed && r.distilledId.isSome)
    | _ => true
  | .job j (.markRunCompleted runId) =>
    match s.jobs[j]? with
    | some ⟨run, .inserted tenantId _⟩ =>
      run == some runId || (newestRunning tenantId s.runs).isEmpty
    | _ => true
  | _ => true

def Awaited (s : Engine) (a : EngineAction) : Prop := awaited s a = true

instance (s : Engine) (a : EngineAction) : Decidable (Awaited s a) :=
  inferInstanceAs (Decidable (_ = true))

/-! ## The branch of a prefix -/

section

variable {env : Env} {db : LabelRules} {path : Ltree} {r : DistillationRun} {id : Nat}

/-- **Distilled rows lie under the prefix of their job.** -/
theorem under_distilledBranch {pre : Ltree} (henv : env.castLtree = db.castLtree)
    (hpre : db.stores pre = true)
    (h : env.castLtree (distilledBranchPath (exactPrefix pre.text)) = some path) :
    path.under pre = true := by
  by_cases hne : pre.labels = []
  · rw [under_iff, hne]
    exact nil_prefix
  have hexact : exactPrefix pre.text = pre.text := by
    rw [exactPrefix, LabelRules.trimSpaceText_text hpre]
    exact if_neg (mt (LabelRules.text_eq_empty_iff hpre).mp hne)
  have hbranch : distilledBranchPath pre.text = pre.text ++ "." ++ "distilled" := by
    rw [distilledBranchPath, String.append_assoc]
    rfl
  rw [henv, hexact, hbranch, LabelRules.castLtree,
    LabelRules.labelsOf_text_append hpre hne (by decide)] at h
  split at h <;> cases h
  exact under_iff.mpr (prefix_append _ _)

/-! ## The invariant -/

/-- The run with the id, if there is one, has the prefix. -/
structure Known (runs : List DistillationRun) (runId : Nat) (pre : Ltree) : Prop where
  le : runId ≤ runs.length
  pathPrefix : ∀ r ∈ runs, r.id = runId → r.pathPrefix = pre.text

/-- The run that an evaluation is busy with. -/
def Pass.run? (pass : Pass) : Option (DistillationPolicy × Nat) :=
  match pass.stage with
  | .begun p runId | .stamped p runId | .triggered p runId => some (p, runId)
  | _ => none

/-- The row under the id was inserted for the run and lies under the prefix. -/
def Names (saved : List Saved) (id runId : Nat) (pre : Ltree) : Prop :=
  ∃ x, saved.find? (fun x => x.id == id) = some x ∧ x.run = some runId ∧ x.row.path.under pre = true

/-- A job works for the prefix of its run. -/
def Progress.WorksFor (env : Env) (saved : List Saved) (runId : Nat) (pre : Ltree) :
    Progress → Prop
  | .queued _ pathPrefix => pathPrefix = exactPrefix pre.text
  | .working job => job.distilledPath = distilledBranchPath (exactPrefix pre.text) ∧ job.Cast env
  | .inserted _ distilledId => Names saved distilledId runId pre

structure Traced (env : Env) (db : LabelRules) (s : Engine) : Prop where
  runIds : ∀ r ∈ s.runs, r.id ≤ s.runs.length
  savedIds : ∀ x ∈ s.saved, x.id ≤ s.saved.length
  stored : ∀ p ∈ s.policies, db.stores p.pathPrefix = true
  read : ∀ pass ∈ s.passes, ∀ p ∈ pass.holds, db.stores p.pathPrefix = true
  passes : ∀ pass ∈ s.passes, ∀ p runId, pass.run? = some (p, runId) →
    Known s.runs runId p.pathPrefix
  jobs : ∀ launched ∈ s.jobs, ∀ runId, launched.run = some runId → ∃ pre, db.stores pre = true ∧
    Known s.runs runId pre ∧ launched.progress.WorksFor env s.saved runId pre
  attributed : Attributed env s

/-! ### Tables -/

variable {s : Engine} {i j : Nat} {pass pass' : Pass} {p : DistillationPolicy} {runId : Nat}
  {pre : Ltree} {runs : List DistillationRun} {saved : List Saved} {launched : Launched}

theorem Known.append (h : Known runs runId pre) (hr : r.id = runs.length + 1) :
    Known (runs ++ [r]) runId pre where
  le := by
    rw [length_append]
    exact Nat.le_add_right_of_le h.le
  pathPrefix := by
    refine forall_mem_concat h.pathPrefix fun hid => ?_
    have := h.le
    omega

theorem Known.map (h : Known runs runId pre) {f : DistillationRun → DistillationRun}
    (hf : ∀ r, (f r).id = r.id ∧ (f r).pathPrefix = r.pathPrefix) :
    Known (runs.map f) runId pre where
  le := by
    rw [length_map]
    exact h.le
  pathPrefix := by
    intro r' hr' hid
    obtain ⟨r, hr, rfl⟩ := mem_map.mp hr'
    rw [(hf r).2]
    exact h.pathPrefix r hr ((hf r).1 ▸ hid)

theorem find?_append {x y : Saved} (h : saved.find? (fun x => x.id == id) = some x) :
    (saved ++ [y]).find? (fun x => x.id == id) = some x := by
  rw [List.find?_append, h]
  rfl

theorem Names.append (h : Names saved id runId pre) (y : Saved) :
    Names (saved ++ [y]) id runId pre := by
  obtain ⟨x, hx, hrun, hunder⟩ := h
  exact ⟨x, find?_append hx, hrun, hunder⟩

theorem Progress.WorksFor.append {progress : Progress}
    (h : progress.WorksFor env saved runId pre) (y : Saved) :
    progress.WorksFor env (saved ++ [y]) runId pre := by
  cases progress with
  | queued tenantId pathPrefix => exact h
  | working job => exact h
  | inserted tenantId distilledId => exact Names.append h y

theorem attributed_of_names (henv : env.castLtree = db.castLtree) (hpre : db.stores pre = true)
    (hpath : r.pathPrefix = pre.text) (hid : r.distilledId = some id)
    (h : Names s.saved id r.id pre) :
    ∃ x, r.distilledId = some x.id ∧ s.distilled x.id = some x ∧ x.run = some r.id ∧
      ∃ pre, env.castLtree r.pathPrefix = some pre ∧ x.row.path.under pre = true := by
  obtain ⟨x, hx, hrun, hunder⟩ := h
  have hxid := find?_some hx
  obtain rfl : x.id = id := beq_iff_eq.mp hxid
  refine ⟨x, hid, hx, hrun, pre, ?_, hunder⟩
  rw [henv, hpath, LabelRules.castLtree_text hpre]

/-! ### Steps of one goroutine -/

theorem Traced.putPass (h : Traced env db s) (hpass : s.passes[i]? = some pass)
    (hholds : pass'.holds ⊆ pass.holds)
    (hrun : ∀ p runId, pass'.run? = some (p, runId) → pass.run? = some (p, runId)) :
    Traced env db (s.putPass i pass') :=
  { h with
    read := forall_mem_set h.read fun p hp => h.read pass (mem_of_getElem? hpass) p (hholds hp)
    passes := forall_mem_set h.passes fun p runId hp =>
      h.passes pass (mem_of_getElem? hpass) p runId (hrun p runId hp) }

theorem Traced.dropPass (h : Traced env db s) (i : Nat) : Traced env db (s.dropPass i) :=
  { h with
    read := fun x hx => h.read x (mem_of_mem_eraseIdx hx)
    passes := fun x hx => h.passes x (mem_of_mem_eraseIdx hx) }

theorem Traced.open (h : Traced env db s) (hread : ∀ p ∈ pass.todo, p ∈ s.policies)
    (hidle : pass.stage = .idle) : Traced env db { s with passes := s.passes ++ [pass] } := by
  refine { h with
    read := forall_mem_concat h.read fun p hp => h.stored p (hread p ?_)
    passes := forall_mem_concat h.passes (by simp [Pass.run?, hidle]) }
  rwa [Pass.holds, hidle] at hp

theorem Traced.dropJob (h : Traced env db s) (j : Nat) : Traced env db (s.dropJob j) :=
  { h with jobs := fun x hx => h.jobs x (mem_of_mem_eraseIdx hx) }

/-! ### Runs -/

theorem Traced.updateRun (h : Traced env db s) {f : DistillationRun → DistillationRun}
    (hf : ∀ r, (f r).id = r.id ∧ (f r).pathPrefix = r.pathPrefix)
    (hrun : ∀ r ∈ s.runs, r.id = runId → (f r).status = .completed →
      ∃ x, (f r).distilledId = some x.id ∧ s.distilled x.id = some x ∧ x.run = some (f r).id ∧
        ∃ pre, env.castLtree (f r).pathPrefix = some pre ∧ x.row.path.under pre = true) :
    Traced env db (s.updateRun runId f) := by
  have hkept : ∀ r : DistillationRun, (if r.id = runId then f r else r).id = r.id ∧
      (if r.id = runId then f r else r).pathPrefix = r.pathPrefix := by
    intro r
    split
    · exact hf r
    · exact ⟨rfl, rfl⟩
  refine ⟨?_, h.savedIds, h.stored, h.read, ?_, ?_, ?_⟩
  · intro r' hr'
    obtain ⟨r, hr, rfl⟩ := mem_map.mp hr'
    rw [(hkept r).1]
    exact (h.runIds r hr).trans_eq (length_map _).symm
  · exact fun x hx p runId hx' => (h.passes x hx p runId hx').map hkept
  · intro x hx runId hx'
    obtain ⟨pre, hpre, hknown, hworks⟩ := h.jobs x hx runId hx'
    exact ⟨pre, hpre, hknown.map hkept, hworks⟩
  · intro r' hr' hstatus
    obtain ⟨r, hr, rfl⟩ := mem_map.mp hr'
    split at hstatus
    · next hid =>
      rw [if_pos hid]
      exact hrun r hr hid hstatus
    · next hid =>
      rw [if_neg hid]
      exact h.attributed r hr hstatus

/-- A new run has an id of its own and is running. -/
theorem Traced.begin (h : Traced env db s) {sourceCount : Nat} (hpass : s.passes[i]? = some pass)
    (hstage : pass.stage = .decided p sourceCount) :
    Traced env db { s.putPass i { pass with stage := .begun p (s.runs.length + 1) } with
      runs := s.runs ++ [s.newRun p sourceCount] } where
  runIds := by
    rw [length_append]
    exact forall_mem_concat (fun r hr => Nat.le_add_right_of_le (h.runIds r hr)) (le_refl _)
  savedIds := h.savedIds
  stored := h.stored
  read := by
    refine forall_mem_set h.read fun p' hp' => h.read pass (mem_of_getElem? hpass) p' ?_
    rwa [Pass.holds, hstage]
  passes := by
    refine forall_mem_set (fun x hx p' runId hrun => (h.passes x hx p' runId hrun).append rfl) ?_
    rintro p' runId ⟨⟩
    refine ⟨by simp, forall_mem_concat (fun r hr hid => ?_) fun _ => rfl⟩
    have := h.runIds r hr
    omega
  jobs := by
    intro x hx runId hrun
    obtain ⟨pre, hpre, hknown, hworks⟩ := h.jobs x hx runId hrun
    exact ⟨pre, hpre, hknown.append rfl, hworks⟩
  attributed := by
    refine forall_mem_concat h.attributed fun hstatus => ?_
    cases hstatus

/-! ### Rows -/

/-- **The row of a job lies under the prefix of the job's run.** -/
theorem Traced.insert (h : Traced env db s) (henv : env.castLtree = db.castLtree) {run : Option Nat}
    {job : Job} {result : DistillationResult} {version : Nat}
    (hjob : s.jobs[j]? = some ⟨run, .working job⟩)
    (hphase : job.phase = .numbered path result version) :
    Traced env db { s.putJob j ⟨run, .inserted job.tenantId (s.saved.length + 1)⟩ with
      saved := s.saved ++ [⟨s.saved.length + 1, job.row path result version, run⟩] } where
  runIds := h.runIds
  savedIds := by
    rw [length_append]
    exact forall_mem_concat (fun x hx => Nat.le_add_right_of_le (h.savedIds x hx)) (le_refl _)
  stored := h.stored
  read := h.read
  passes := h.passes
  jobs := by
    intro x hx runId hrun
    rcases mem_or_eq_of_mem_set hx with hx | rfl
    · obtain ⟨pre, hpre, hknown, hworks⟩ := h.jobs x hx runId hrun
      exact ⟨pre, hpre, hknown, hworks.append _⟩
    obtain ⟨pre, hpre, hknown, hbranch, hcast⟩ := h.jobs _ (mem_of_getElem? hjob) runId hrun
    rw [Job.Cast, hphase, hbranch] at hcast
    have hunder : path.under pre = true := under_distilledBranch henv hpre hcast
    have hnew : s.saved.find? (fun x => x.id == s.saved.length + 1) = none := by
      refine find?_eq_none.mpr fun x hx hid => ?_
      have := h.savedIds x hx
      rw [beq_iff_eq] at hid
      omega
    refine ⟨pre, hpre, hknown, ⟨s.saved.length + 1, job.row path result version, run⟩, ?_, hrun,
      hunder⟩
    rw [List.find?_append, hnew]
    simp
  attributed := by
    intro r hr hstatus
    obtain ⟨x, hid, hx, hrun, hunder⟩ := h.attributed r hr hstatus
    exact ⟨x, hid, find?_append hx, hrun, hunder⟩

/-! ## Runs of the engine -/

variable {toDuration : Time → Duration} {llmConfigured : Bool} {s' : Engine} {a : EngineAction}

theorem Traced.step (h : Traced env db s) (henv : env.castLtree = db.castLtree)
    (hok : Awaited s a) (hstep : s.step env toDuration llmConfigured a = some s') :
    Traced env db s' := by
  unfold Awaited at hok
  cases Engine.step_effect hstep with
  | waited d => exact { h with }
  | ignored => exact h
  | opened _ pass hread hidle => exact h.open hread hidle
  | launched => exact { h with jobs := forall_mem_concat h.jobs fun _ hrun => nomatch hrun }
  | gaveUp i | stopped i => exact h.dropPass i
  | idled i b pass pass' hpass hbegun htodo hidle =>
    refine h.putPass hpass ?_ (by simp [Pass.run?, hidle])
    rw [Pass.holds, hidle]
    exact Subset.trans htodo pass.todo_subset_holds
  | decided i pass p rest sourceCount hpass hidle htodo hrests =>
    exact h.putPass hpass (by simp [Pass.holds, hidle, htodo]) (by simp [Pass.run?])
  | began i pass p sourceCount hpass hstage => exact h.begin hpass hstage
  | stamped i pass p runId hpass hstage =>
    have hput : Traced env db (s.putPass i { pass with stage := .stamped p runId }) :=
      h.putPass hpass (by simp [Pass.holds, hstage]) (by simp [Pass.run?, hstage])
    refine { hput with stored := fun q' hq' => ?_ }
    obtain ⟨q, hq, rfl⟩ := mem_map.mp hq'
    split <;> exact h.stored q hq
  | unstamped i pass p runId hpass hstage =>
    exact h.putPass hpass (by simp [Pass.holds, hstage]) (by simp [Pass.run?, hstage])
  | triggered i pass p runId hpass hstage =>
    have hmem := mem_of_getElem? hpass
    have hstored : db.stores p.pathPrefix = true := by
      refine h.read pass hmem p ?_
      rw [Pass.holds, hstage]
      exact mem_cons_self
    have hknown : Known s.runs runId p.pathPrefix := by
      refine h.passes pass hmem p runId ?_
      rw [Pass.run?, hstage]
    have hlaunch : Traced env db (s.launch (some runId) p.tenantId p.pathPrefix.text) := by
      refine { h with jobs := forall_mem_concat h.jobs ?_ }
      rintro _ ⟨⟩
      exact ⟨p.pathPrefix, hstored, hknown, rfl⟩
    exact hlaunch.putPass hpass (by simp [Pass.holds, hstage]) (by simp [Pass.run?, hstage])
  | completed i pass p runId hpass hstage =>
    obtain ⟨origin, todo, loaded, stage⟩ := pass
    obtain rfl : stage = .triggered p runId := hstage
    simp only [awaited, hpass, all_eq_true, Bool.or_eq_true, bne_iff_ne, ne_eq,
      Bool.and_eq_true, beq_iff_eq] at hok
    have hcomplete : Traced env db (s.completeRun runId) := by
      refine h.updateRun (fun _ => ⟨rfl, rfl⟩) fun r hr hid _ => ?_
      rcases hok r hr with hne | ⟨hstatus, -⟩
      · exact absurd hid hne
      · exact h.attributed r hr hstatus
    exact hcomplete.putPass hpass (subset_cons_self p todo) (by simp [Pass.next, Pass.run?])
  | ended j => exact h.dropJob j
  | started j batchSize memories run tenantId pathPrefix job hjob hstart =>
    refine { h with jobs := forall_mem_set h.jobs fun runId hrun => ?_ }
    obtain ⟨pre, hpre, hknown, hworks⟩ := h.jobs _ (mem_of_getElem? hjob) runId hrun
    refine ⟨pre, hpre, hknown, ?_, ?_⟩
    · rw [(startJob_asked hstart).2, show pathPrefix = exactPrefix pre.text from hworks]
    · rw [Job.Cast, (startJob_asked hstart).1]
      trivial
  | moved j b run job job' hjob hmove =>
    refine { h with jobs := forall_mem_set h.jobs fun runId hrun => ?_ }
    obtain ⟨pre, hpre, hknown, hbranch, hcast⟩ := h.jobs _ (mem_of_getElem? hjob) runId hrun
    exact ⟨pre, hpre, hknown, hmove.distilledPath.trans hbranch, hmove.path hcast⟩
  | inserted j b run job path result version hjob hphase => exact h.insert henv hjob hphase
  | marked j runId run tenantId distilledId r hjob hnewest hid =>
    simp only [awaited, hjob, Bool.or_eq_true, beq_iff_eq, List.isEmpty_iff] at hok
    rcases hok with rfl | hnone
    · obtain ⟨pre, hpre, hknown, hnames⟩ := h.jobs _ (mem_of_getElem? hjob) runId rfl
      have hmark : Traced env db (s.markRun runId distilledId) := by
        refine h.updateRun (fun _ => ⟨rfl, rfl⟩) fun r hr hid _ => ?_
        have hpath := hknown.pathPrefix r hr hid
        subst hid
        exact attributed_of_names henv hpre (r := { r with
          status := .completed, distilledId := some distilledId, completedAt := some s.now })
          hpath rfl hnames
      exact hmark.dropJob j
    · rw [hnone] at hnewest
      cases hnewest

/-- **Every completed run names the row of its own job** if `completeRun` waits for the job and
`markRunCompleted` finds no other run. -/
theorem completed_runs_attributed {s₀ : Engine} (henv : env.castLtree = db.castLtree)
    (hstores : ∀ p ∈ s₀.policies, db.stores p.pathPrefix = true) (hruns : s₀.runs = [])
    (hsaved : s₀.saved = []) (hpasses : s₀.passes = []) (hjobs : s₀.jobs = [])
    (h : Steps (Engine.step env toDuration llmConfigured) Awaited s₀ s) : Attributed env s := by
  have hstart : Traced env db s₀ := by
    constructor
    case stored => exact hstores
    all_goals simp [Attributed, hruns, hsaved, hpasses, hjobs]
  exact (h.invariant (P := Traced env db)
    (fun _ _ _ hu hok hstep => hu.step henv hok hstep) hstart).attributed

end

/-! ### A run that is completed at once -/

def triggered : List EngineAction :=
  [.onMemoryEvent "t" "root.a.b", .pass 0 (.load [memoryAt 1 ["root", "a", "b"],
    memoryAt 2 ["root", "a", "c"]]), .pass 0 .shouldTrigger, .pass 0 .beginRun,
    .pass 0 .markPolicyTriggered, .pass 0 .triggerForPrefix]

def distills : List EngineAction :=
  [.job 0 (.start 10 [memoryAt 1 ["root", "a", "b"], memoryAt 2 ["root", "a", "c"]]),
    .job 0 (.answer (.ok ⟨"", []⟩)), .job 0 .check, .job 0 .version, .job 0 .insert,
    .job 0 (.markRunCompleted 1)]

def afterJob : Engine :=
  (runAll (guarded (Engine.step wordEnv id true) Awaited) quietEngine
    (triggered ++ distills ++ [.pass 0 .completeRun])).getD quietEngine

theorem steps_afterJob : Steps (Engine.step wordEnv id true) Awaited quietEngine afterJob :=
  steps_getD quietEngine (by decide +kernel)

theorem completed_runs_attributed_afterJob :
    afterJob.runs.map (fun r => (r.id, r.status, r.distilledId)) = [(1, .completed, some 1)] ∧
      afterJob.saved.map (fun x => (x.id, x.row.path, x.run)) =
        [(1, ⟨["root", "a", "distilled"]⟩, some 1)] ∧ Attributed wordEnv afterJob := by
  have hcast : wordEnv.castLtree = wordRules.castLtree := rfl
  exact ⟨by decide +kernel, by decide +kernel,
    completed_runs_attributed hcast (by decide +kernel) rfl rfl rfl rfl steps_afterJob⟩

/-- **The run is completed without a row before its job has begun.** -/
theorem completed_runs_unattributed : ∃ s, Reaches (Engine.step wordEnv id true) quietEngine s ∧
    s.runs.map (fun r => (r.id, r.status, r.distilledId)) = [(1, .completed, none)] ∧
    s.saved.map (fun x => (x.id, x.run)) = [(1, some 1)] ∧ ¬ Attributed wordEnv s := by
  have hrun : (runAll (Engine.step wordEnv id true) quietEngine
      (triggered ++ [.pass 0 .completeRun] ++ distills)).isSome = true := by decide +kernel
  refine ⟨_, reaches_getD quietEngine hrun, by decide +kernel, by decide +kernel, fun h => ?_⟩
  have hcompleted : ∃ r ∈ ((runAll (Engine.step wordEnv id true) quietEngine
      (triggered ++ [.pass 0 .completeRun] ++ distills)).getD quietEngine).runs,
      r.status = .completed ∧ r.distilledId = none := by decide +kernel
  obtain ⟨r, hr, hstatus, hnone⟩ := hcompleted
  obtain ⟨x, hid, -⟩ := h r hr hstatus
  rw [hnone] at hid
  cases hid

end Pcmi.Distillation
