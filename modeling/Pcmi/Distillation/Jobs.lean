import Pcmi.Retention.Workers

/-!
# Distillation jobs side by side

A job looks for a distilled row with its sources, asks for the next version and inserts: three
statements, with other jobs between them. The unique index stops a job whose version was given out
twice, but not one that asks for its version only after another has inserted the same sources.
-/

namespace Pcmi.Distillation

open List Pcmi.Lib Pcmi.Memory Pcmi.Retention

/-! ## Jobs -/

/-- How far a job has come. -/
inductive Phase where
  /-- The language model is at work. -/
  | asked
  | answered (result : DistillationResult)
  /-- `hasDuplicateDistillation` has found nothing. -/
  | checked (path : Ltree) (result : DistillationResult)
  /-- `nextDistilledVersion` has returned. -/
  | numbered (path : Ltree) (result : DistillationResult) (version : Nat)

structure Job where
  tenantId : String
  distilledPath : String
  sourceIds : List Nat
  phase : Phase

structure State where
  derived : List Derived
  jobs : List Job

/-- The unique index `(tenant_id, path, version)`. -/
def versionTaken (tenantId : String) (path : Ltree) (version : Nat) (derived : List Derived) :
    Bool :=
  derived.any fun
    | .distilled d => d.tenantId == tenantId && d.path == path && d.version == version
    | _ => false

def Job.row (job : Job) (path : Ltree) (result : DistillationResult) (version : Nat) :
    Distilled where
  tenantId := job.tenantId
  path := path
  summary := result.summary
  insights := result.insights
  sourceEntryIds := job.sourceIds
  version := version

inductive Action where
  /-- A job reads its sources from the memories as they are. -/
  | start (tenantId pathPrefix : String) (batchSize : Nat) (memories : List Row)
  /-- The answer of the language model, as it is parsed. -/
  | answer (i : Nat) (result : Except String DistillationResult)
  | check (i : Nat)
  | version (i : Nat)
  | insert (i : Nat)
  /-- A statement fails, or the process stops. -/
  | fail (i : Nat)

namespace State

def put (s : State) (i : Nat) (job : Job) (phase : Phase) : State :=
  { s with jobs := s.jobs.set i { job with phase } }

def drop (s : State) (i : Nat) : State := { s with jobs := s.jobs.eraseIdx i }

end State

section

variable (env : Env) (llmConfigured : Bool)

/-- `runDistillationJobWithPrefix` up to the call of the language model. -/
def startJob (tenantId pathPrefix : String) (batchSize : Nat) (memories : List Row) : Option Job :=
  match env.castUuid (if tenantId = "" then defaultTenant else tenantId) with
  | none => none
  | some tenant =>
    let entries := distillationSources env tenant pathPrefix batchSize memories
    if entries.length < 1 || !llmConfigured then none
    else some ⟨tenant, distilledBranchPath pathPrefix, normalizeSourceIds (entries.map (·.id)),
      .asked⟩

/-- `hasDuplicateDistillation` and what follows from it. -/
def checkJob (s : State) (i : Nat) (job : Job) (result : DistillationResult) : State :=
  match env.castLtree job.distilledPath with
  | none => s.drop i
  | some path =>
    if hasDuplicateDistillation job.tenantId path job.sourceIds s.derived then s.drop i
    else s.put i job (.checked path result)

/-- The `INSERT`; a version that is taken or too large is an error. -/
def insertJob (s : State) (i : Nat) (job : Job) (path : Ltree) (result : DistillationResult)
    (version : Nat) : State :=
  if maxInt4 < version || versionTaken job.tenantId path version s.derived then s.drop i
  else { s.drop i with derived := s.derived ++ [.distilled (job.row path result version)] }

def step (s : State) : Action → Option State
  | .start tenantId pathPrefix batchSize memories =>
    match startJob env llmConfigured tenantId pathPrefix batchSize memories with
    | none => some s
    | some job => some { s with jobs := s.jobs ++ [job] }
  | .answer i result =>
    match s.jobs[i]? with
    | some ⟨tenantId, distilledPath, sourceIds, .asked⟩ =>
      match result with
      | .error _ => some (s.drop i)
      | .ok result => some (s.put i ⟨tenantId, distilledPath, sourceIds, .asked⟩ (.answered result))
    | _ => none
  | .check i =>
    match s.jobs[i]? with
    | some ⟨tenantId, distilledPath, sourceIds, .answered result⟩ =>
      some (checkJob env s i ⟨tenantId, distilledPath, sourceIds, .answered result⟩ result)
    | _ => none
  | .version i =>
    match s.jobs[i]? with
    | some ⟨tenantId, distilledPath, sourceIds, .checked path result⟩ =>
      some (s.put i ⟨tenantId, distilledPath, sourceIds, .checked path result⟩
        (.numbered path result (nextDistilledVersion tenantId path s.derived)))
    | _ => none
  | .insert i =>
    match s.jobs[i]? with
    | some ⟨tenantId, distilledPath, sourceIds, .numbered path result version⟩ =>
      some (insertJob s i ⟨tenantId, distilledPath, sourceIds, .numbered path result version⟩
        path result version)
    | _ => none
  | .fail i => if i < s.jobs.length then some (s.drop i) else none

/-- **What a step can do.** -/
inductive Effect (s : State) : Action → State → Prop where
  | idle (a : Action) : Effect s a s
  | started (a : Action) (job : Job) (hphase : job.phase = .asked) :
      Effect s a { s with jobs := s.jobs ++ [job] }
  | answered (a : Action) (i : Nat) (job : Job) (result : DistillationResult) :
      Effect s a (s.put i job (.answered result))
  | dropped (a : Action) (i : Nat) : Effect s a (s.drop i)
  | checked (a : Action) (i : Nat) (job : Job) (path : Ltree) (result : DistillationResult)
      (hnew : hasDuplicateDistillation job.tenantId path job.sourceIds s.derived = false) :
      Effect s a (s.put i job (.checked path result))
  | numbered (a : Action) (i : Nat) (job : Job) (path : Ltree) (result : DistillationResult)
      (hjob : s.jobs[i]? = some job) (hphase : job.phase = .checked path result) :
      Effect s a (s.put i job
        (.numbered path result (nextDistilledVersion job.tenantId path s.derived)))
  | inserted (i : Nat) (job : Job) (path : Ltree) (result : DistillationResult) (version : Nat)
      (hjob : s.jobs[i]? = some job) (hphase : job.phase = .numbered path result version)
      (hfree : versionTaken job.tenantId path version s.derived = false) :
      Effect s (.insert i)
        { s.drop i with derived := s.derived ++ [.distilled (job.row path result version)] }

variable {env llmConfigured} {s s' : State} {a : Action}

theorem startJob_asked {tenantId pathPrefix : String} {batchSize : Nat} {memories : List Row}
    {job : Job} (h : startJob env llmConfigured tenantId pathPrefix batchSize memories = some job) :
    job.phase = .asked ∧ job.distilledPath = distilledBranchPath pathPrefix := by
  unfold startJob at h
  split at h
  · cases h
  dsimp only at h
  split at h <;> cases h
  exact ⟨rfl, rfl⟩

theorem checkJob_effect (a : Action) (s : State) (i : Nat) (job : Job)
    (result : DistillationResult) : Effect s a (checkJob env s i job result) := by
  unfold checkJob
  split
  · exact .dropped a i
  next path hcast =>
  split
  · exact .dropped a i
  · next hnew => exact .checked a i job path result (Bool.eq_false_iff.mpr hnew)

theorem step_effect (h : step env llmConfigured s a = some s') : Effect s a s' := by
  cases a with
  | start tenantId pathPrefix batchSize memories =>
    dsimp only [step] at h
    split at h <;> cases h
    · exact .idle _
    · next job hjob => exact .started _ job (startJob_asked hjob).1
  | answer i result =>
    dsimp only [step] at h
    split at h
    · split at h <;> cases h
      · exact .dropped _ i
      · exact .answered _ i _ _
    · cases h
  | check i =>
    dsimp only [step] at h
    split at h <;> cases h
    exact checkJob_effect _ s i _ _
  | version i =>
    dsimp only [step] at h
    split at h <;> cases h
    next hjob => exact .numbered _ i _ _ _ hjob rfl
  | insert i =>
    dsimp only [step] at h
    split at h <;> cases h
    next hjob =>
    unfold insertJob
    split
    · exact .dropped _ i
    next hfree =>
    rw [Bool.or_eq_true, not_or] at hfree
    exact .inserted i _ _ _ _ hjob rfl (Bool.eq_false_iff.mpr hfree.2)
  | fail i =>
    dsimp only [step] at h
    split at h <;> cases h
    exact .dropped _ i

end

/-! ## Versions and sources -/

def distilledRows (derived : List Derived) : List Distilled :=
  derived.filterMap fun
    | .distilled d => some d
    | _ => none

/-- No two rows of a tenant and path have the same sources. -/
def SourcesOnce (derived : List Derived) : Prop :=
  (distilledRows derived).Pairwise fun d e =>
    d.tenantId = e.tenantId → d.path = e.path → d.sourceEntryIds ≠ e.sourceEntryIds

instance (derived : List Derived) : Decidable (SourcesOnce derived) :=
  inferInstanceAs (Decidable (List.Pairwise _ _))

section

variable {derived : List Derived} {tenantId : String} {path : Ltree} {sourceIds : List Nat}
  {version : Nat} {d : Distilled}

theorem mem_distilledRows : d ∈ distilledRows derived ↔ .distilled d ∈ derived := by
  unfold distilledRows
  rw [mem_filterMap]
  constructor
  · rintro ⟨x, hx, hd⟩
    cases x with
    | distilled d' =>
      cases hd
      exact hx
    | _ => cases hd
  · exact fun h => ⟨_, h, rfl⟩

theorem hasDuplicate_append : hasDuplicateDistillation tenantId path sourceIds
    (derived ++ [.distilled d]) = (hasDuplicateDistillation tenantId path sourceIds derived ||
      (d.tenantId == tenantId && d.path == path && d.sourceEntryIds == sourceIds)) := by
  simp [hasDuplicateDistillation]

theorem versionTaken_append : versionTaken tenantId path version (derived ++ [.distilled d]) =
    (versionTaken tenantId path version derived ||
      (d.tenantId == tenantId && d.path == path && d.version == version)) := by
  simp [versionTaken]

theorem nextDistilledVersion_append_of_ne (h : ¬ (d.tenantId = tenantId ∧ d.path = path)) :
    nextDistilledVersion tenantId path (derived ++ [.distilled d]) =
      nextDistilledVersion tenantId path derived := by
  unfold nextDistilledVersion
  rw [foldl_append, foldl_cons, foldl_nil]
  dsimp only
  rw [if_neg h]

/-- **A row whose sources are new keeps the sources apart.** -/
theorem SourcesOnce.append (h : SourcesOnce derived)
    (hnew : hasDuplicateDistillation d.tenantId d.path d.sourceEntryIds derived = false) :
    SourcesOnce (derived ++ [.distilled d]) := by
  unfold SourcesOnce distilledRows
  rw [filterMap_append]
  refine pairwise_append.mpr ⟨h, pairwise_singleton _ _, ?_⟩
  intro e he d' hd' htenant hpath hsources
  obtain rfl : d' = d := mem_singleton.mp hd'
  have hmem : .distilled e ∈ derived := mem_distilledRows.mp he
  have hdup := any_eq_false.mp hnew _ hmem
  exact hdup (by simp [htenant, hpath, hsources])

end

/-! ## Runs in which no job is overtaken -/

/-- `other` has looked for the sources of `job` and has no version yet. -/
def rivals (job other : Job) : Bool :=
  match job.phase, other.phase with
  | .numbered path _ _, .checked path' _ =>
    job.tenantId == other.tenantId && path == path' && job.sourceIds == other.sourceIds
  | _, _ => false

/-- No job inserts sources that a job without a version has looked for. -/
def InTurn (s : State) : Action → Prop
  | .insert i => ∀ job ∈ s.jobs[i]?, ∀ other ∈ s.jobs.eraseIdx i, rivals job other = false
  | _ => True

instance (s : State) : (a : Action) → Decidable (InTurn s a)
  | .insert _ => inferInstanceAs (Decidable (∀ job ∈ _, _))
  | .start _ _ _ _ | .answer _ _ | .check _ | .version _ | .fail _ => .isTrue trivial

/-- A job's sources are new, or its version is taken. -/
def Pending (derived : List Derived) (job : Job) : Prop :=
  match job.phase with
  | .asked => True
  | .answered _ => True
  | .checked path _ =>
    hasDuplicateDistillation job.tenantId path job.sourceIds derived = false
  | .numbered path _ version =>
    versionTaken job.tenantId path version derived = true ∨
      version = nextDistilledVersion job.tenantId path derived ∧
        hasDuplicateDistillation job.tenantId path job.sourceIds derived = false

structure Apart (s : State) : Prop where
  once : SourcesOnce s.derived
  pending : ∀ job ∈ s.jobs, Pending s.derived job

section

variable {env : Env} {llmConfigured : Bool} {s s' : State} {a : Action}

theorem Apart.put (h : Apart s) {i : Nat} {job : Job} {phase : Phase}
    (hjob : Pending s.derived { job with phase }) : Apart (s.put i job phase) where
  once := h.once
  pending := forall_mem_set h.pending hjob

theorem Apart.drop (h : Apart s) (i : Nat) : Apart (s.drop i) where
  once := h.once
  pending := fun job hjob => h.pending job (mem_of_mem_eraseIdx hjob)

/-- **An insert leaves other jobs with new sources or no usable version.** -/
theorem Pending.insert {job other : Job} {path : Ltree} {result : DistillationResult}
    {version : Nat} (hphase : job.phase = .numbered path result version)
    (hversion : version = nextDistilledVersion job.tenantId path s.derived)
    (hrivals : rivals job other = false) (h : Pending s.derived other) :
    Pending (s.derived ++ [.distilled (job.row path result version)]) other := by
  obtain ⟨tenantId, distilledPath, sourceIds, phase⟩ := other
  cases phase with
  | asked => trivial
  | answered result' => trivial
  | checked path' result' =>
    rw [rivals, hphase] at hrivals
    have hnew : hasDuplicateDistillation tenantId path' sourceIds s.derived = false := h
    refine hasDuplicate_append.trans ?_
    rw [hnew, Bool.false_or]
    exact hrivals
  | numbered path' result' version' =>
    rcases h with htaken | ⟨hnext, hnew⟩
    · exact Or.inl (versionTaken_append.trans (by rw [htaken]; rfl))
    by_cases hsame : job.tenantId = tenantId ∧ path = path'
    · -- Both jobs have asked for the same version, and it is taken now.
      obtain ⟨rfl, rfl⟩ := hsame
      refine Or.inl (versionTaken_append.trans ?_)
      simp [Job.row, hversion, hnext]
    · refine Or.inr ⟨hnext.trans (nextDistilledVersion_append_of_ne hsame).symm, ?_⟩
      refine hasDuplicate_append.trans ?_
      rw [hnew, Bool.false_or]
      simp only [Job.row, Bool.and_eq_false_iff, beq_eq_false_iff_ne]
      by_cases htenant : job.tenantId = tenantId
      · exact Or.inl (Or.inr fun hpath => hsame ⟨htenant, hpath⟩)
      · exact Or.inl (Or.inl htenant)

theorem Apart.step (h : Apart s) (hok : InTurn s a)
    (hstep : step env llmConfigured s a = some s') : Apart s' := by
  cases step_effect hstep with
  | idle => exact h
  | started _ job hphase =>
    refine ⟨h.once, forall_mem_concat h.pending ?_⟩
    rw [Pending, hphase]
    trivial
  | answered _ i job result => exact h.put trivial
  | dropped _ i => exact h.drop i
  | checked _ i job path result hnew => exact h.put hnew
  | numbered _ i job path result hjob hphase =>
    have hpending := h.pending job (mem_of_getElem? hjob)
    rw [Pending, hphase] at hpending
    exact h.put (Or.inr ⟨rfl, hpending⟩)
  | inserted i job path result version hjob hphase hfree =>
    have hpending := h.pending job (mem_of_getElem? hjob)
    rw [Pending, hphase] at hpending
    rcases hpending with htaken | ⟨hversion, hnew⟩
    · rw [hfree] at htaken
      cases htaken
    refine ⟨h.once.append hnew, fun other hother => ?_⟩
    exact (h.pending other (mem_of_mem_eraseIdx hother)).insert hphase hversion
      (hok job hjob other hother)

/-- **No source set is distilled twice** if no job inserts sources that a job without a version has
looked for. -/
theorem sources_distilled_once {s₀ : State} (hstart : SourcesOnce s₀.derived)
    (hjobs : s₀.jobs = []) (h : Steps (step env llmConfigured) InTurn s₀ s) :
    SourcesOnce s.derived := by
  have hstart : Apart s₀ := ⟨hstart, fun job hjob => by rw [hjobs] at hjob; cases hjob⟩
  exact (h.invariant (P := Apart) (fun _ _ _ hu hok hstep => hu.step hok hstep) hstart).once

end

/-! ## Two jobs with the same sources -/

def startX : Action := .start "t" "x" 10 [dedupRow 1 "x" "a"]

def answerX (i : Nat) : Action := .answer i (.ok ⟨"", []⟩)

def sampleStart : State := ⟨[], []⟩

def threeJobs : List Action :=
  [startX, startX, startX, answerX 0, answerX 1, answerX 2, .check 0, .check 1, .version 0,
    .version 1, .insert 0, .insert 0, .check 0]

def overtaken : List Action :=
  [startX, startX, answerX 0, answerX 1, .check 0, .check 1, .version 0, .insert 0, .version 0,
    .insert 0]

def afterThreeJobs : State :=
  (runAll (guarded (step dedupEnv true) InTurn) sampleStart threeJobs).getD sampleStart

theorem steps_threeJobs : Steps (step dedupEnv true) InTurn sampleStart afterThreeJobs :=
  steps_getD sampleStart (by decide +kernel)

theorem sources_distilled_once_threeJobs :
    (distilledRows afterThreeJobs.derived).map (fun d => (d.version, d.sourceEntryIds)) =
      [(1, [1])] ∧ SourcesOnce afterThreeJobs.derived :=
  ⟨by decide +kernel, sources_distilled_once (by decide) rfl steps_threeJobs⟩

/-- **Both jobs insert the same sources, as versions 1 and 2.** -/
theorem sources_distilled_twice : ∃ s, Reaches (step dedupEnv true) sampleStart s ∧
    (distilledRows s.derived).map (fun d => (d.version, d.sourceEntryIds)) =
      [(1, [1]), (2, [1])] ∧ ¬ SourcesOnce s.derived :=
  exists_reaches overtaken (by decide +kernel)

end Pcmi.Distillation
