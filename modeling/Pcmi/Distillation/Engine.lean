import Pcmi.Distillation.Jobs
import Pcmi.Distillation.Policies

/-!
# The policy engine

Evaluations of policies run side by side: one goroutine per memory event, and the timer of each
worker. For each policy that is due an evaluation inserts a run, stamps the policy, hands the prefix
to a job and completes the run, with no transaction around them. The job is not told the run's id.

`Engine.step` is this system, statement by statement; the jobs move as in `Distillation.step`.
-/

namespace Pcmi.Distillation

open List Pcmi.Go Pcmi.Lib Pcmi.Memory Pcmi.Retention

/-! ## States -/

/-- The states of a run that the workers write. -/
inductive RunStatus where
  | running | completed
  deriving DecidableEq

structure DistillationRun where
  id : Nat
  policyId : Nat
  tenantId : String
  pathPrefix : String
  status : RunStatus
  sourceCount : Nat
  distilledId : Option Nat
  createdAt : Time
  completedAt : Option Time

/-- How far `maybeTrigger` has come. -/
inductive Stage where
  /-- Before the next policy. -/
  | idle
  /-- `ShouldTriggerPolicy` has said yes. -/
  | decided (p : DistillationPolicy) (sourceCount : Nat)
  /-- `beginRun` has returned. -/
  | begun (p : DistillationPolicy) (runId : Nat)
  /-- `markPolicyTriggered` has returned. -/
  | stamped (p : DistillationPolicy) (runId : Nat)
  /-- `TriggerForPrefix` has returned. -/
  | triggered (p : DistillationPolicy) (runId : Nat)

/-- An evaluation under way. -/
structure Pass where
  /-- Tenant and prefix of an event; none for the timer. -/
  origin : Option (String × String)
  /-- The policies to come, as they were read. -/
  todo : List DistillationPolicy
  loaded : Option PolicyEvalState
  stage : Stage

/-- `maybeTrigger` is over; an event keeps what it has loaded. -/
def Pass.next (pass : Pass) : Pass :=
  { pass with
    loaded := if pass.origin.isSome then pass.loaded else none
    stage := .idle }

inductive Progress where
  /-- Waiting for the semaphore. -/
  | queued (tenantId pathPrefix : String)
  | working (job : Job)
  /-- Before `markRunCompleted`. -/
  | inserted (tenantId : String) (distilledId : Nat)

/-- A goroutine of `TriggerForPrefix`, which does not know its run. -/
structure Launched where
  run : Option Nat
  progress : Progress

/-- A row of `distilled_knowledge`, with the run whose job has inserted it. -/
structure Saved where
  id : Nat
  row : Distilled
  run : Option Nat

/-- The tables and the goroutines of all workers. -/
structure Engine where
  now : Time
  policies : List DistillationPolicy
  runs : List DistillationRun
  saved : List Saved
  passes : List Pass
  jobs : List Launched

/-! ## Steps -/

inductive PassAction where
  /-- `loadEvalState` on the memories as they are. -/
  | load (memories : List Row)
  | shouldTrigger
  | beginRun
  | markPolicyTriggered
  | triggerForPrefix
  | completeRun
  /-- A statement fails. -/
  | fail
  | stop

inductive JobAction where
  | start (batchSize : Nat) (memories : List Row)
  | answer (result : Except String DistillationResult)
  | check
  | version
  | insert
  /-- The run is one of the newest. -/
  | markRunCompleted (runId : Nat)
  | stop

inductive EngineAction where
  | wait (d : Nat)
  | onMemoryEvent (tenantId memoryPath : String)
  | evaluateAll
  /-- The fallback timer of `DistillationWorker.Start`. -/
  | fallback
  | pass (i : Nat) (a : PassAction)
  | job (j : Nat) (a : JobAction)

/-- What `runDistillationJobExact` makes of its prefix. -/
def exactPrefix (pathPrefix : String) : String :=
  let pathPrefix := trimSpaceText pathPrefix
  if pathPrefix = "" then "root" else pathPrefix

/-- The running runs of the tenant than which none is newer. -/
def newestRunning (tenantId : String) (runs : List DistillationRun) : List DistillationRun :=
  let running := runs.filter fun r => r.tenantId == tenantId && r.status == .running
  running.filter fun r => running.all fun r' => decide (r'.createdAt ≤ r.createdAt)

def Pass.holds (pass : Pass) : List DistillationPolicy :=
  match pass.stage with
  | .idle => pass.todo
  | .decided p _ | .begun p _ | .stamped p _ | .triggered p _ => p :: pass.todo

theorem Pass.todo_subset_holds (pass : Pass) : pass.todo ⊆ pass.holds := by
  unfold Pass.holds
  split
  · exact Subset.refl _
  all_goals exact subset_cons_self _ _

def Job.Cast (env : Env) (job : Job) : Prop :=
  match job.phase with
  | .checked path _ | .numbered path _ _ => env.castLtree job.distilledPath = some path
  | _ => True

namespace Engine

def putPass (s : Engine) (i : Nat) (pass : Pass) : Engine :=
  { s with passes := s.passes.set i pass }

def dropPass (s : Engine) (i : Nat) : Engine := { s with passes := s.passes.eraseIdx i }

def putJob (s : Engine) (j : Nat) (job : Launched) : Engine := { s with jobs := s.jobs.set j job }

def dropJob (s : Engine) (j : Nat) : Engine := { s with jobs := s.jobs.eraseIdx j }

def launch (s : Engine) (run : Option Nat) (tenantId pathPrefix : String) : Engine :=
  { s with jobs := s.jobs ++ [⟨run, .queued tenantId (exactPrefix pathPrefix)⟩] }

def derived (s : Engine) : List Derived := s.saved.map fun x => .distilled x.row

/-- The row that `beginRun` inserts. -/
def newRun (s : Engine) (p : DistillationPolicy) (sourceCount : Nat) : DistillationRun where
  id := s.runs.length + 1
  policyId := p.id
  tenantId := p.tenantId
  pathPrefix := p.pathPrefix.text
  status := .running
  sourceCount := sourceCount
  distilledId := none
  createdAt := s.now
  completedAt := none

def updateRun (s : Engine) (runId : Nat) (f : DistillationRun → DistillationRun) : Engine :=
  { s with runs := s.runs.map fun r => if r.id = runId then f r else r }

def stampPolicy (s : Engine) (policyId : Nat) : Engine :=
  { s with policies := s.policies.map fun q =>
      if q.id = policyId then { q with lastTriggeredAt := some s.now } else q }

/-- `completeRun` with the status `completed`. -/
def completeRun (s : Engine) (runId : Nat) : Engine :=
  s.updateRun runId fun r => { r with status := .completed, completedAt := some s.now }

/-- The update of `markRunCompleted` on the chosen run. -/
def markRun (s : Engine) (runId distilledId : Nat) : Engine :=
  s.updateRun runId fun r =>
    { r with status := .completed, distilledId := some distilledId, completedAt := some s.now }

section

variable (env : Env) (toDuration : Time → Duration) (llmConfigured : Bool)

/-- `loadEvalState` in an evaluation. -/
def loadPass (s : Engine) (i : Nat) (pass : Pass) (p : DistillationPolicy)
    (rest : List DistillationPolicy) (memories : List Row) : Engine :=
  match pass.origin with
  | some (tenantId, pathPrefix) =>
    match loadEvalState env toDuration s.now tenantId pathPrefix memories with
    | .error _ => s.dropPass i
    | .ok st => s.putPass i { pass with loaded := some st }
  | none =>
    match loadEvalState env toDuration s.now p.tenantId p.pathPrefix.text memories with
    | .error _ => s.putPass i { pass with todo := rest }
    | .ok st => s.putPass i { pass with loaded := some st }

/-- The decision in `maybeTrigger`. -/
def decidePass (s : Engine) (i : Nat) (pass : Pass) (p : DistillationPolicy)
    (rest : List DistillationPolicy) (st : PolicyEvalState) : Engine :=
  match maybeTrigger p st s.now with
  | some sourceCount => s.putPass i { pass with todo := rest, stage := .decided p sourceCount }
  | none => s.putPass i (Pass.next { pass with todo := rest })

/-- A statement of an evaluation. -/
def stepPass (s : Engine) (i : Nat) (pass : Pass) : PassAction → Option Engine
  | .load memories =>
    match pass.stage, pass.todo, pass.loaded with
    | .idle, p :: rest, none => some (loadPass env toDuration s i pass p rest memories)
    | _, _, _ => none
  | .shouldTrigger =>
    match pass.stage, pass.todo, pass.loaded with
    | .idle, p :: rest, some st => some (decidePass s i pass p rest st)
    | _, _, _ => none
  | .beginRun =>
    match pass.stage with
    | .decided p sourceCount =>
      some { s.putPass i { pass with stage := .begun p (s.runs.length + 1) } with
        runs := s.runs ++ [s.newRun p sourceCount] }
    | _ => none
  | .markPolicyTriggered =>
    match pass.stage with
    | .begun p runId =>
      some ((s.stampPolicy p.id).putPass i { pass with stage := .stamped p runId })
    | _ => none
  | .triggerForPrefix =>
    match pass.stage with
    | .stamped p runId => some ((s.launch (some runId) p.tenantId p.pathPrefix.text).putPass i
        { pass with stage := .triggered p runId })
    | _ => none
  | .completeRun =>
    match pass.stage with
    | .triggered _ runId => some ((s.completeRun runId).putPass i pass.next)
    | _ => none
  | .fail =>
    match pass.stage with
    | .decided _ _ => some (s.putPass i pass.next)
    | .begun p runId => some (s.putPass i { pass with stage := .stamped p runId })
    | .triggered _ _ => some (s.putPass i pass.next)
    | _ => none
  | .stop => some (s.dropPass i)

/-- A statement of `Distillation.step` for one job. -/
def stepWorking (s : Engine) (j : Nat) (run : Option Nat) (job : Job) (a : Action) :
    Option Engine :=
  match step env llmConfigured ⟨s.derived, [job]⟩ a with
  | none => none
  | some ⟨derived, jobs⟩ =>
    match derived.drop s.derived.length, jobs with
    | .distilled row :: _, _ =>
      let id := s.saved.length + 1
      some { s.putJob j ⟨run, .inserted job.tenantId id⟩ with saved := s.saved ++ [⟨id, row, run⟩] }
    | _, job' :: _ => some (s.putJob j ⟨run, .working job'⟩)
    | _, [] => some (s.dropJob j)

/-- A statement of a job. -/
def stepJob (s : Engine) (j : Nat) (launched : Launched) (a : JobAction) : Option Engine :=
  match launched.progress, a with
  | _, .stop => some (s.dropJob j)
  | .queued tenantId pathPrefix, .start batchSize memories =>
    match startJob env llmConfigured tenantId pathPrefix batchSize memories with
    | none => some (s.dropJob j)
    | some job => some (s.putJob j { launched with progress := .working job })
  | .working job, .answer result =>
    stepWorking env llmConfigured s j launched.run job (.answer 0 result)
  | .working job, .check => stepWorking env llmConfigured s j launched.run job (.check 0)
  | .working job, .version => stepWorking env llmConfigured s j launched.run job (.version 0)
  | .working job, .insert => stepWorking env llmConfigured s j launched.run job (.insert 0)
  | .inserted tenantId distilledId, .markRunCompleted runId =>
    match newestRunning tenantId s.runs with
    | [] => some (s.dropJob j)
    | newest =>
      if newest.any (·.id == runId) then some ((s.markRun runId distilledId).dropJob j) else none
  | _, _ => none

/-- `OnMemoryEvent`, up to the first `loadEvalState`. -/
def openEvent (s : Engine) (tenantId memoryPath : String) : Engine :=
  if tenantId = "" then s
  else
    match env.castUuid tenantId with
    | none => s
    | some tenant =>
      match listPoliciesForPrefix env tenant (distillPathPrefix memoryPath) s.policies with
      | .error _ => s
      | .ok [] => s.launch none tenantId (distillPathPrefix memoryPath)
      | .ok policies => { s with passes := s.passes ++
          [⟨some (tenant, distillPathPrefix memoryPath), policies, none, .idle⟩] }

def step (s : Engine) : EngineAction → Option Engine
  | .wait d => some { s with now := s.now + d }
  | .onMemoryEvent tenantId memoryPath => some (openEvent env s tenantId memoryPath)
  | .evaluateAll =>
    some { s with passes := s.passes ++ [⟨none, timerPolicies s.policies, none, .idle⟩] }
  | .fallback => some { s with jobs := s.jobs ++
      [⟨none, .queued defaultTenant (distillPathPrefix "root.test")⟩] }
  | .pass i a =>
    match s.passes[i]? with
    | some pass => stepPass env toDuration s i pass a
    | none => none
  | .job j a =>
    match s.jobs[j]? with
    | some launched => stepJob env llmConfigured s j launched a
    | none => none

end

/-! ## What a step can do -/

/-- What a statement of a job leaves of it. -/
structure JobStep (env : Env) (job job' : Job) : Prop where
  tenantId : job'.tenantId = job.tenantId
  distilledPath : job'.distilledPath = job.distilledPath
  path : job.Cast env → job'.Cast env

inductive Effect (env : Env) (llmConfigured : Bool) (s : Engine) :
    EngineAction → Engine → Prop where
  | waited (d : Nat) : Effect env llmConfigured s (.wait d) { s with now := s.now + d }
  | ignored (tenantId memoryPath : String) :
      Effect env llmConfigured s (.onMemoryEvent tenantId memoryPath) s
  | opened (a : EngineAction) (pass : Pass) (hread : ∀ p ∈ pass.todo, p ∈ s.policies)
      (hidle : pass.stage = .idle) :
      Effect env llmConfigured s a { s with passes := s.passes ++ [pass] }
  | launched (a : EngineAction) (tenantId pathPrefix : String) :
      Effect env llmConfigured s a { s with jobs := s.jobs ++ [⟨none,
        .queued tenantId pathPrefix⟩] }
  | gaveUp (i : Nat) (memories : List Row) (pass : Pass) (hpass : s.passes[i]? = some pass)
      (hidle : pass.stage = .idle) :
      Effect env llmConfigured s (.pass i (.load memories)) (s.dropPass i)
  | idled (i : Nat) (a : PassAction) (pass pass' : Pass) (hpass : s.passes[i]? = some pass)
      (hbegun : ∀ p runId, pass.stage ≠ .begun p runId) (htodo : pass'.todo ⊆ pass.todo)
      (hidle : pass'.stage = .idle) :
      Effect env llmConfigured s (.pass i a) (s.putPass i pass')
  | decided (i : Nat) (pass : Pass) (p : DistillationPolicy) (rest : List DistillationPolicy)
      (sourceCount : Nat) (hpass : s.passes[i]? = some pass) (hidle : pass.stage = .idle)
      (htodo : pass.todo = p :: rest) (hrests : p.rests s.now = false) :
      Effect env llmConfigured s (.pass i .shouldTrigger)
        (s.putPass i { pass with todo := rest, stage := .decided p sourceCount })
  | began (i : Nat) (pass : Pass) (p : DistillationPolicy) (sourceCount : Nat)
      (hpass : s.passes[i]? = some pass) (hstage : pass.stage = .decided p sourceCount) :
      Effect env llmConfigured s (.pass i .beginRun)
        { s.putPass i { pass with stage := .begun p (s.runs.length + 1) } with
          runs := s.runs ++ [s.newRun p sourceCount] }
  | stamped (i : Nat) (pass : Pass) (p : DistillationPolicy) (runId : Nat)
      (hpass : s.passes[i]? = some pass) (hstage : pass.stage = .begun p runId) :
      Effect env llmConfigured s (.pass i .markPolicyTriggered)
        ((s.stampPolicy p.id).putPass i { pass with stage := .stamped p runId })
  | unstamped (i : Nat) (pass : Pass) (p : DistillationPolicy) (runId : Nat)
      (hpass : s.passes[i]? = some pass) (hstage : pass.stage = .begun p runId) :
      Effect env llmConfigured s (.pass i .fail)
        (s.putPass i { pass with stage := .stamped p runId })
  | triggered (i : Nat) (pass : Pass) (p : DistillationPolicy) (runId : Nat)
      (hpass : s.passes[i]? = some pass) (hstage : pass.stage = .stamped p runId) :
      Effect env llmConfigured s (.pass i .triggerForPrefix)
        ((s.launch (some runId) p.tenantId p.pathPrefix.text).putPass i
          { pass with stage := .triggered p runId })
  | completed (i : Nat) (pass : Pass) (p : DistillationPolicy) (runId : Nat)
      (hpass : s.passes[i]? = some pass) (hstage : pass.stage = .triggered p runId) :
      Effect env llmConfigured s (.pass i .completeRun) ((s.completeRun runId).putPass i pass.next)
  | stopped (i : Nat) (pass : Pass) (hpass : s.passes[i]? = some pass) :
      Effect env llmConfigured s (.pass i .stop) (s.dropPass i)
  | ended (j : Nat) (a : JobAction) : Effect env llmConfigured s (.job j a) (s.dropJob j)
  | started (j batchSize : Nat) (memories : List Row) (run : Option Nat)
      (tenantId pathPrefix : String) (job : Job)
      (hjob : s.jobs[j]? = some ⟨run, .queued tenantId pathPrefix⟩)
      (hstart : startJob env llmConfigured tenantId pathPrefix batchSize memories = some job) :
      Effect env llmConfigured s (.job j (.start batchSize memories))
        (s.putJob j ⟨run, .working job⟩)
  | moved (j : Nat) (a : JobAction) (run : Option Nat) (job job' : Job)
      (hjob : s.jobs[j]? = some ⟨run, .working job⟩) (hmove : JobStep env job job') :
      Effect env llmConfigured s (.job j a) (s.putJob j ⟨run, .working job'⟩)
  | inserted (j : Nat) (a : JobAction) (run : Option Nat) (job : Job) (path : Ltree)
      (result : DistillationResult) (version : Nat)
      (hjob : s.jobs[j]? = some ⟨run, .working job⟩)
      (hphase : job.phase = .numbered path result version) :
      Effect env llmConfigured s (.job j a)
        { s.putJob j ⟨run, .inserted job.tenantId (s.saved.length + 1)⟩ with
          saved := s.saved ++ [⟨s.saved.length + 1, job.row path result version, run⟩] }
  | marked (j runId : Nat) (run : Option Nat) (tenantId : String) (distilledId : Nat)
      (r : DistillationRun) (hjob : s.jobs[j]? = some ⟨run, .inserted tenantId distilledId⟩)
      (hnewest : r ∈ newestRunning tenantId s.runs) (hid : r.id = runId) :
      Effect env llmConfigured s (.job j (.markRunCompleted runId))
        ((s.markRun runId distilledId).dropJob j)

section

variable {env : Env} {toDuration : Time → Duration} {llmConfigured : Bool} {s s' : Engine}
  {pass : Pass} {p : DistillationPolicy} {i j : Nat} {rest : List DistillationPolicy} {job : Job}
  {a : Action}

theorem loadPass_effect (memories : List Row) (hpass : s.passes[i]? = some pass)
    (hidle : pass.stage = .idle) (htodo : pass.todo = p :: rest) :
    Effect env llmConfigured s (.pass i (.load memories))
      (loadPass env toDuration s i pass p rest memories) := by
  have hbegun : ∀ p runId, pass.stage ≠ .begun p runId := by simp [hidle]
  unfold loadPass
  split
  · split
    · exact .gaveUp i memories pass hpass hidle
    · exact .idled i _ pass _ hpass hbegun (Subset.refl _) hidle
  · split
    · refine .idled i _ pass _ hpass hbegun ?_ hidle
      rw [htodo]
      exact subset_cons_self p rest
    · exact .idled i _ pass _ hpass hbegun (Subset.refl _) hidle

theorem rests_of_maybeTrigger {st : PolicyEvalState} {now : Time} {sourceCount : Nat}
    (h : maybeTrigger p st now = some sourceCount) : p.rests now = false := by
  unfold maybeTrigger shouldTriggerPolicy at h
  by_cases hrests : p.rests now = true
  · rw [if_pos hrests] at h
    split at h <;> simp at h
  · exact Bool.eq_false_iff.mpr hrests

theorem decidePass_effect (st : PolicyEvalState) (hpass : s.passes[i]? = some pass)
    (hidle : pass.stage = .idle) (htodo : pass.todo = p :: rest) :
    Effect env llmConfigured s (.pass i .shouldTrigger) (decidePass s i pass p rest st) := by
  unfold decidePass
  split
  · next sourceCount hdue =>
    exact .decided i pass p rest sourceCount hpass hidle htodo (rests_of_maybeTrigger hdue)
  refine .idled i _ pass _ hpass (by simp [hidle]) ?_ rfl
  rw [htodo]
  exact subset_cons_self p rest

theorem stepPass_effect {a : PassAction} (hpass : s.passes[i]? = some pass)
    (h : stepPass env toDuration s i pass a = some s') :
    Effect env llmConfigured s (.pass i a) s' := by
  cases a <;> dsimp only [stepPass] at h <;> (try split at h) <;> cases h
  · next hidle htodo _ => exact loadPass_effect _ hpass hidle htodo
  · next hidle htodo _ => exact decidePass_effect _ hpass hidle htodo
  · next hstage => exact .began i pass _ _ hpass hstage
  · next hstage => exact .stamped i pass _ _ hpass hstage
  · next hstage => exact .triggered i pass _ _ hpass hstage
  · next hstage => exact .completed i pass _ _ hpass hstage
  · next hstage => exact .idled i _ pass _ hpass (by simp [hstage]) (Subset.refl _) rfl
  · next hstage => exact .unstamped i pass _ _ hpass hstage
  · next hstage => exact .idled i _ pass _ hpass (by simp [hstage]) (Subset.refl _) rfl
  · exact .stopped i pass hpass

/-- **A statement of a job**: it goes on, is over, or has inserted its row. -/
theorem step_alone {derived : List Derived} {s' : State}
    (ha : ∀ tenantId pathPrefix batchSize memories,
      a ≠ .start tenantId pathPrefix batchSize memories)
    (h : Distillation.step env llmConfigured ⟨derived, [job]⟩ a = some s') :
    (∃ job', s' = ⟨derived, [job']⟩ ∧ JobStep env job job') ∨ s' = ⟨derived, []⟩ ∨
      ∃ path result version, job.phase = .numbered path result version ∧
        s' = ⟨derived ++ [.distilled (job.row path result version)], []⟩ := by
  have hget : ∀ {i : Nat} {job' : Job}, [job][i]? = some job' → i = 0 ∧ job = job' := by
    intro i job' hi
    cases i with
    | zero => exact ⟨rfl, Option.some.inj hi⟩
    | succ i => cases hi
  cases a with
  | start tenantId pathPrefix batchSize memories => exact absurd rfl (ha _ _ _ _)
  | answer i result =>
    dsimp only [Distillation.step] at h
    split at h
    · next hi =>
      obtain ⟨rfl, rfl⟩ := hget hi
      split at h <;> cases h
      · exact Or.inr (Or.inl rfl)
      · exact Or.inl ⟨_, rfl, rfl, rfl, fun _ => trivial⟩
    · cases h
  | check i =>
    dsimp only [Distillation.step] at h
    split at h <;> cases h
    next hi =>
    obtain ⟨rfl, rfl⟩ := hget hi
    unfold checkJob
    split
    · exact Or.inr (Or.inl rfl)
    next path hcast =>
    split
    · exact Or.inr (Or.inl rfl)
    · exact Or.inl ⟨_, rfl, rfl, rfl, fun _ => hcast⟩
  | version i =>
    dsimp only [Distillation.step] at h
    split at h <;> cases h
    next hi =>
    obtain ⟨rfl, rfl⟩ := hget hi
    exact Or.inl ⟨_, rfl, rfl, rfl, fun hcast => hcast⟩
  | insert i =>
    dsimp only [Distillation.step] at h
    split at h <;> cases h
    next hi =>
    obtain ⟨rfl, rfl⟩ := hget hi
    unfold insertJob
    split
    · exact Or.inr (Or.inl rfl)
    · exact Or.inr (Or.inr ⟨_, _, _, rfl, rfl⟩)
  | fail i =>
    dsimp only [Distillation.step] at h
    split at h <;> cases h
    next hi =>
    obtain rfl := Nat.lt_one_iff.mp hi
    exact Or.inr (Or.inl rfl)

theorem stepWorking_effect {run : Option Nat} (b : JobAction)
    (hjob : s.jobs[j]? = some ⟨run, .working job⟩)
    (ha : ∀ tenantId pathPrefix batchSize memories,
      a ≠ .start tenantId pathPrefix batchSize memories)
    (h : stepWorking env llmConfigured s j run job a = some s') :
    Effect env llmConfigured s (.job j b) s' := by
  unfold stepWorking at h
  split at h
  · cases h
  next hstep =>
  rcases step_alone ha hstep with ⟨job', heq, hmove⟩ | heq | ⟨path, result, version, hphase,
    heq⟩ <;>
    cases heq
  · rw [drop_length] at h
    cases h
    exact .moved j b run job job' hjob hmove
  · rw [drop_length] at h
    cases h
    exact .ended j b
  · rw [drop_left] at h
    cases h
    exact .inserted j b run job path result version hjob hphase

theorem stepJob_effect {launched : Launched} {a : JobAction} (hjob : s.jobs[j]? = some launched)
    (h : stepJob env llmConfigured s j launched a = some s') :
    Effect env llmConfigured s (.job j a) s' := by
  obtain ⟨run, progress⟩ := launched
  unfold stepJob at h
  split at h
  · cases h
    exact .ended j _
  · next hprogress =>
    obtain rfl : progress = .queued _ _ := hprogress
    split at h <;> cases h
    · exact .ended j _
    next job hstart => exact .started j _ _ run _ _ job hjob hstart
  iterate 4
    · next hprogress =>
      obtain rfl : progress = .working _ := hprogress
      exact stepWorking_effect _ hjob (fun _ _ _ _ => Action.noConfusion) h
  · next hprogress =>
    obtain rfl : progress = .inserted _ _ := hprogress
    split at h
    · cases h
      exact .ended j _
    split at h <;> cases h
    next hany =>
    obtain ⟨r, hr, hid⟩ := any_eq_true.mp hany
    exact .marked j _ run _ _ r hjob hr (beq_iff_eq.mp hid)
  · cases h

theorem openEvent_effect (tenantId memoryPath : String) :
    Effect env llmConfigured s (.onMemoryEvent tenantId memoryPath)
      (openEvent env s tenantId memoryPath) := by
  unfold openEvent
  split
  · exact .ignored tenantId memoryPath
  split
  · exact .ignored tenantId memoryPath
  split
  · exact .ignored tenantId memoryPath
  · exact .launched _ _ _
  next policies _ hlist =>
  refine .opened _ _ (fun p hp => ?_) rfl
  unfold listPoliciesForPrefix at hlist
  split at hlist <;> cases hlist
  exact mem_of_mem_filter ((mem_insertionSort _).mp hp)

/-- **Every step has one of these effects.** -/
theorem step_effect {a : EngineAction} (h : step env toDuration llmConfigured s a = some s') :
    Effect env llmConfigured s a s' := by
  cases a with
  | wait d =>
    cases h
    exact .waited d
  | onMemoryEvent tenantId memoryPath =>
    cases h
    exact openEvent_effect tenantId memoryPath
  | evaluateAll =>
    cases h
    refine .opened _ _ (fun p hp => ?_) rfl
    exact mem_of_mem_filter ((mem_insertionSort _).mp (mem_of_mem_take hp))
  | fallback =>
    cases h
    exact .launched _ _ _
  | pass i a =>
    dsimp only [step] at h
    split at h
    · next hpass => exact stepPass_effect hpass h
    · cases h
  | job j a =>
    dsimp only [step] at h
    split at h
    · next hjob => exact stepJob_effect hjob h
    · cases h

end

end Engine

/-- A policy for `root.a`, before its first trigger. -/
def quietEngine : Engine where
  now := 0
  policies := [samplePolicy 1 ["root", "a"]]
  runs := []
  saved := []
  passes := []
  jobs := []

end Pcmi.Distillation
