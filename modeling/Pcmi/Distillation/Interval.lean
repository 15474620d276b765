import Pcmi.Distillation.Engine

/-!
# The interval between two triggers

`ShouldTriggerPolicy` looks at the `last_triggered_at` that was read with the policy. It is written
only after the run is inserted, by a statement whose failure is logged. So two evaluations that have
read the policy before either has stamped it trigger it twice.
-/

namespace Pcmi.Distillation

open List Pcmi.Lib Pcmi.Memory

/-! ## The property and the condition -/

/-- Two runs of a policy are the policy's interval apart. -/
def Spaced (s : Engine) : Prop :=
  s.runs.Pairwise fun r r' => ∀ q ∈ s.policies, q.id = r.policyId → q.id = r'.policyId →
    (q.minIntervalSecs : Int) * second ≤ r'.createdAt - r.createdAt

instance (s : Engine) : Decidable (Spaced s) := inferInstanceAs (Decidable (List.Pairwise _ _))

/-- A run of the policy is inserted and the policy not yet stamped. -/
def Pass.owes (pass : Pass) (policyId : Nat) : Bool :=
  match pass.stage with
  | .begun p _ => p.id == policyId
  | _ => false

/-- The stamp is the one that was read, and no other is about to be written. -/
def Engine.unclaimed (s : Engine) (p : DistillationPolicy) : Bool :=
  (s.policies.all fun q => q.id != p.id || q.lastTriggeredAt == p.lastTriggeredAt) &&
    s.passes.all fun pass => !pass.owes p.id

/-- Only unclaimed policies get runs, and each run's stamp is written. -/
def claimed (s : Engine) : EngineAction → Bool
  | .pass i a =>
    match s.passes[i]?, a with
    | some pass, .beginRun =>
      match pass.stage with
      | .decided p _ => s.unclaimed p
      | _ => true
    | some pass, .fail | some pass, .stop =>
      match pass.stage with
      | .begun _ _ => false
      | _ => true
    | _, _ => true
  | _ => true

def Claimed (s : Engine) (a : EngineAction) : Prop := claimed s a = true

instance (s : Engine) (a : EngineAction) : Decidable (Claimed s a) :=
  inferInstanceAs (Decidable (_ = true))

/-! ## The invariant -/

/-- A run lies before the stamp of its policy, or the stamp is still owed. -/
def Covered (policies : List DistillationPolicy) (passes : List Pass) (r : DistillationRun) :
    Prop :=
  ∀ q ∈ policies, q.id = r.policyId →
    (∃ last, q.lastTriggeredAt = some last ∧ r.createdAt ≤ last) ∨
      ∃ pass ∈ passes, pass.owes r.policyId = true

structure Paced (s : Engine) : Prop where
  rules : ∀ p ∈ s.policies, ∀ q ∈ s.policies, q.id = p.id → q.minIntervalSecs = p.minIntervalSecs
  read : ∀ pass ∈ s.passes, ∀ p ∈ pass.holds, ∀ q ∈ s.policies, q.id = p.id →
    q.minIntervalSecs = p.minIntervalSecs
  due : ∀ pass ∈ s.passes, ∀ p sourceCount, pass.stage = .decided p sourceCount →
    ∃ t ≤ s.now, p.rests t = false
  past : ∀ r ∈ s.runs, r.createdAt ≤ s.now
  covered : ∀ r ∈ s.runs, Covered s.policies s.passes r
  spaced : Spaced s

section

variable {s : Engine} {i policyId : Nat} {pass pass' : Pass} {p : DistillationPolicy}

/-! ### Debts -/

variable {passes : List Pass} {r : DistillationRun} {sourceCount : Nat}

theorem owed_set (hpass : passes[i]? = some pass)
    (howes : pass.owes policyId = true → pass'.owes policyId = true)
    (h : ∃ x ∈ passes, x.owes policyId = true) :
    ∃ x ∈ passes.set i pass', x.owes policyId = true := by
  obtain ⟨x, hx, hxowes⟩ := h
  obtain ⟨k, hk⟩ := mem_iff_getElem?.mp hx
  have hlt := (List.getElem?_eq_some_iff.mp hpass).1
  by_cases hki : i = k
  · subst hki
    rw [hpass] at hk
    cases hk
    exact ⟨pass', mem_set hlt pass', howes hxowes⟩
  · refine ⟨x, mem_iff_getElem?.mpr ⟨k, ?_⟩, hxowes⟩
    rw [getElem?_set_ne hki]
    exact hk

theorem owed_eraseIdx (hpass : passes[i]? = some pass) (howes : pass.owes policyId = false)
    (h : ∃ x ∈ passes, x.owes policyId = true) :
    ∃ x ∈ passes.eraseIdx i, x.owes policyId = true := by
  obtain ⟨x, hx, hxowes⟩ := h
  obtain ⟨k, hk⟩ := mem_iff_getElem?.mp hx
  refine ⟨x, mem_eraseIdx_iff_getElem?.mpr ⟨k, ?_, hk⟩, hxowes⟩
  rintro rfl
  rw [hpass] at hk
  cases hk
  rw [howes] at hxowes
  cases hxowes

theorem Covered.mono {policies : List DistillationPolicy} {passes' : List Pass}
    (h : Covered policies passes r)
    (howed : (∃ x ∈ passes, x.owes r.policyId = true) → ∃ x ∈ passes', x.owes r.policyId = true) :
    Covered policies passes' r :=
  fun q hq hid => (h q hq hid).imp_right howed

theorem owes_of_stage {stage : Stage} (hstage : pass.stage = stage)
    (hbegun : ∀ p runId, stage ≠ .begun p runId) : pass.owes policyId = false := by
  unfold Pass.owes
  split
  · next p runId h => exact absurd (hstage.symm.trans h) (hbegun p runId)
  · rfl

/-! ### Steps of one pass -/

theorem Paced.putPass (h : Paced s) (hpass : s.passes[i]? = some pass)
    (hholds : pass'.holds ⊆ pass.holds)
    (hdue : ∀ p sourceCount, pass'.stage = .decided p sourceCount → ∃ t ≤ s.now, p.rests t = false)
    (howes : ∀ policyId, pass.owes policyId = true → pass'.owes policyId = true) :
    Paced (s.putPass i pass') :=
  { h with
    read := forall_mem_set h.read fun p hp => h.read pass (mem_of_getElem? hpass) p (hholds hp)
    due := forall_mem_set h.due hdue
    covered := fun r hr => (h.covered r hr).mono (owed_set hpass (howes r.policyId)) }

theorem Paced.dropPass (h : Paced s) (hpass : s.passes[i]? = some pass)
    (howes : ∀ policyId, pass.owes policyId = false) : Paced (s.dropPass i) :=
  { h with
    read := fun x hx => h.read x (mem_of_mem_eraseIdx hx)
    due := fun x hx => h.due x (mem_of_mem_eraseIdx hx)
    covered := fun r hr => (h.covered r hr).mono (owed_eraseIdx hpass (howes r.policyId)) }

/-- An evaluation that begins has read the policies as they are. -/
theorem Paced.open (h : Paced s) (hread : ∀ p ∈ pass.todo, p ∈ s.policies)
    (hidle : pass.stage = .idle) : Paced { s with passes := s.passes ++ [pass] } := by
  refine { h with
    read := forall_mem_concat h.read fun p hp => h.rules p (hread p ?_)
    due := forall_mem_concat h.due (by simp [hidle])
    covered := fun r hr => (h.covered r hr).mono fun ⟨x, hx, howes⟩ =>
      ⟨x, mem_append_left _ hx, howes⟩ }
  rwa [Pass.holds, hidle] at hp

theorem Paced.updateRun (h : Paced s) {runId : Nat} {f : DistillationRun → DistillationRun}
    (hf : ∀ r, (f r).policyId = r.policyId ∧ (f r).createdAt = r.createdAt) :
    Paced (s.updateRun runId f) := by
  have hrun : ∀ r : DistillationRun, (if r.id = runId then f r else r).policyId = r.policyId ∧
      (if r.id = runId then f r else r).createdAt = r.createdAt := by
    intro r
    split
    · exact hf r
    · exact ⟨rfl, rfl⟩
  refine ⟨h.rules, h.read, h.due, ?_, ?_, ?_⟩
  · intro r' hr'
    obtain ⟨r, hr, rfl⟩ := mem_map.mp hr'
    rw [(hrun r).2]
    exact h.past r hr
  · intro r' hr'
    obtain ⟨r, hr, rfl⟩ := mem_map.mp hr'
    have hcovered := h.covered r hr
    unfold Covered at hcovered ⊢
    rw [(hrun r).1, (hrun r).2]
    exact hcovered
  · refine pairwise_map.mpr (h.spaced.imp ?_)
    intro r r' hspaced
    rw [(hrun r).1, (hrun r').1, (hrun r).2, (hrun r').2]
    exact hspaced

/-! ### A run begins -/

/-- The interval has passed since the stamp. -/
theorem interval_le_of_rests {t last : Time} (hlast : p.lastTriggeredAt = some last)
    (hrests : p.rests t = false) :
    p.minIntervalSecs = 0 ∨ (p.minIntervalSecs : Int) * second ≤ t - last := by
  rw [DistillationPolicy.rests, hlast] at hrests
  rw [Bool.and_eq_false_iff, decide_eq_false_iff_not, decide_eq_false_iff_not, not_lt, not_lt,
    Nat.le_zero] at hrests
  exact hrests

theorem unclaimed_iff : s.unclaimed p = true ↔
    (∀ q ∈ s.policies, q.id = p.id → q.lastTriggeredAt = p.lastTriggeredAt) ∧
      ∀ pass ∈ s.passes, pass.owes p.id = false := by
  simp only [Engine.unclaimed, Bool.and_eq_true, all_eq_true, Bool.or_eq_true, bne_iff_ne,
    beq_iff_eq, Bool.not_eq_true', ne_eq, Decidable.imp_iff_not_or]

/-- **The run of an unclaimed policy keeps the interval.** -/
theorem Paced.apart (h : Paced s) (hpass : pass ∈ s.passes)
    (hstage : pass.stage = .decided p sourceCount) (hfree : s.unclaimed p = true) (hr : r ∈ s.runs)
    {q : DistillationPolicy} (hq : q ∈ s.policies) (hqr : q.id = r.policyId) (hqp : q.id = p.id) :
    (q.minIntervalSecs : Int) * second ≤ s.now - r.createdAt := by
  obtain ⟨hstamp, howes⟩ := unclaimed_iff.mp hfree
  have hmin : q.minIntervalSecs = p.minIntervalSecs := by
    refine h.read pass hpass p ?_ q hq hqp
    rw [Pass.holds, hstage]
    exact mem_cons_self
  rcases h.covered r hr q hq hqr with ⟨last, hlast, hle⟩ | ⟨x, hx, hxowes⟩
  · obtain ⟨t, ht, hrests⟩ := h.due pass hpass p sourceCount hstage
    have hlast' : p.lastTriggeredAt = some last := (hstamp q hq hqp).symm.trans hlast
    rw [hmin]
    rcases interval_le_of_rests hlast' hrests with hzero | hinterval
    · rw [hzero, Nat.cast_zero, zero_mul]
      exact sub_nonneg.mpr (h.past r hr)
    · exact hinterval.trans (sub_le_sub ht hle)
  · rw [← hqr, hqp, howes x hx] at hxowes
    cases hxowes

theorem Paced.begin (h : Paced s) (hpass : s.passes[i]? = some pass)
    (hstage : pass.stage = .decided p sourceCount) (hfree : s.unclaimed p = true) (runId : Nat) :
    Paced { s.putPass i { pass with stage := .begun p runId } with
      runs := s.runs ++ [s.newRun p sourceCount] } := by
  have hmem := mem_of_getElem? hpass
  have hput : Paced (s.putPass i { pass with stage := .begun p runId }) :=
    h.putPass hpass (by simp [Pass.holds, hstage]) (fun _ _ => Stage.noConfusion)
      (by simp [Pass.owes, hstage])
  refine ⟨hput.rules, hput.read, hput.due, forall_mem_concat h.past (le_refl s.now), ?_, ?_⟩
  · refine forall_mem_concat hput.covered fun q _ _ => ?_
    have hlt := (List.getElem?_eq_some_iff.mp hpass).1
    exact Or.inr ⟨_, mem_set hlt _, beq_self_eq_true p.id⟩
  · refine pairwise_append.mpr ⟨h.spaced, pairwise_singleton _ _, ?_⟩
    intro r hr r' hr' q hq hqr hqr'
    rw [mem_singleton.mp hr'] at hqr' ⊢
    exact h.apart hmem hstage hfree hr hq hqr hqr'

/-! ### A policy is stamped -/

theorem mem_stampPolicy {q' : DistillationPolicy} (h : q' ∈ (s.stampPolicy policyId).policies) :
    ∃ q ∈ s.policies, q'.id = q.id ∧ q'.minIntervalSecs = q.minIntervalSecs ∧
      (q'.lastTriggeredAt = some s.now ∨ q.id ≠ policyId ∧ q' = q) := by
  obtain ⟨q, hq, rfl⟩ := mem_map.mp h
  refine ⟨q, hq, ?_⟩
  split
  · exact ⟨rfl, rfl, Or.inl rfl⟩
  · next hne => exact ⟨rfl, rfl, Or.inr ⟨hne, rfl⟩⟩

/-- **The stamp settles the debt of one policy.** -/
theorem Paced.stamp (h : Paced s) {runId : Nat} (hpass : s.passes[i]? = some pass)
    (hstage : pass.stage = .begun p runId) :
    Paced ((s.stampPolicy p.id).putPass i { pass with stage := .stamped p runId }) where
  rules := by
    intro q₁ hq₁ q₂ hq₂ hid
    obtain ⟨p₁, hp₁, hid₁, hmin₁, -⟩ := mem_stampPolicy hq₁
    obtain ⟨p₂, hp₂, hid₂, hmin₂, -⟩ := mem_stampPolicy hq₂
    rw [hmin₁, hmin₂]
    exact h.rules p₁ hp₁ p₂ hp₂ (by rw [← hid₁, ← hid₂, hid])
  read := by
    intro x hx p' hp' q' hq' hid
    obtain ⟨q, hq, hqid, hmin, -⟩ := mem_stampPolicy hq'
    rw [hmin]
    rcases mem_or_eq_of_mem_set hx with hx | rfl
    · exact h.read x hx p' hp' q hq (hqid ▸ hid)
    · refine h.read pass (mem_of_getElem? hpass) p' ?_ q hq (hqid ▸ hid)
      rwa [Pass.holds, hstage]
  due := forall_mem_set h.due fun _ _ => Stage.noConfusion
  past := h.past
  covered := by
    intro r hr q' hq' hid
    obtain ⟨q, hq, hqid, -, hlast | ⟨hne, rfl⟩⟩ := mem_stampPolicy hq'
    · exact Or.inl ⟨s.now, hlast, h.past r hr⟩
    refine (h.covered r hr q' hq hid).imp_right (owed_set hpass fun howes => ?_)
    rw [Pass.owes, hstage, beq_iff_eq] at howes
    exact absurd (hid.trans howes.symm) hne
  spaced := by
    refine h.spaced.imp ?_
    intro r r' hspaced q' hq' hqr hqr'
    obtain ⟨q, hq, hqid, hmin, -⟩ := mem_stampPolicy hq'
    rw [hmin]
    exact hspaced q hq (hqid ▸ hqr) (hqid ▸ hqr')

/-! ## Runs of the engine -/

variable {env : Env} {toDuration : Time → Duration} {llmConfigured : Bool} {s' : Engine}
  {a : EngineAction}

theorem Paced.step (h : Paced s) (hok : Claimed s a)
    (hstep : s.step env toDuration llmConfigured a = some s') : Paced s' := by
  unfold Claimed at hok
  cases Engine.step_effect hstep with
  | waited d =>
    have hle : s.now ≤ s.now + d := Int.le_add_of_nonneg_right (Int.natCast_nonneg d)
    refine ⟨h.rules, h.read, ?_, fun r hr => (h.past r hr).trans hle, h.covered, h.spaced⟩
    intro x hx p sourceCount hstage
    obtain ⟨t, ht, hrests⟩ := h.due x hx p sourceCount hstage
    exact ⟨t, ht.trans hle, hrests⟩
  | ignored => exact h
  | opened _ pass hread hidle => exact h.open hread hidle
  | launched | ended | started | moved | inserted => exact { h with }
  | gaveUp i memories pass hpass hidle =>
    exact h.dropPass hpass fun _ => owes_of_stage hidle (fun _ _ => Stage.noConfusion)
  | idled i b pass pass' hpass hbegun htodo hidle =>
    refine h.putPass hpass ?_ (by simp [hidle]) (by simp [owes_of_stage rfl hbegun])
    rw [Pass.holds, hidle]
    exact Subset.trans htodo pass.todo_subset_holds
  | decided i pass p rest sourceCount hpass hidle htodo hrests =>
    refine h.putPass hpass (by simp [Pass.holds, hidle, htodo]) ?_ (by simp [Pass.owes, hidle])
    rintro _ _ ⟨⟩
    exact ⟨s.now, le_refl _, hrests⟩
  | began i pass p sourceCount hpass hstage =>
    simp only [claimed, hpass, hstage] at hok
    exact h.begin hpass hstage hok _
  | stamped i pass p runId hpass hstage => exact h.stamp hpass hstage
  | unstamped i pass p runId hpass hstage =>
    simp [claimed, hpass, hstage] at hok
  | triggered i pass p runId hpass hstage =>
    have hput : Paced (s.putPass i { pass with stage := .triggered p runId }) :=
      h.putPass hpass (by simp [Pass.holds, hstage]) (fun _ _ => Stage.noConfusion)
        (by simp [Pass.owes, hstage])
    exact { hput with }
  | completed i pass p runId hpass hstage =>
    refine Paced.putPass (s := s.completeRun runId)
      (h.updateRun fun r => ⟨rfl, rfl⟩) hpass ?_ (fun _ _ => Stage.noConfusion)
      (by simp [Pass.owes, hstage])
    rw [Pass.holds, Pass.holds, hstage]
    exact subset_cons_self p pass.todo
  | stopped i pass hpass =>
    refine h.dropPass hpass fun policyId => owes_of_stage rfl fun p runId hstage => ?_
    simp [claimed, hpass, hstage] at hok
  | marked j runId run tenantId distilledId r hjob hnewest hid =>
    have hmark : Paced (s.markRun runId distilledId) := h.updateRun fun r => ⟨rfl, rfl⟩
    exact { hmark with }

/-- **Two triggers of a policy are its interval apart** if a run is inserted only for an unclaimed
policy and no stamp is lost. -/
theorem triggers_spaced {s₀ : Engine} (hids : (s₀.policies.map (·.id)).Nodup)
    (hruns : s₀.runs = []) (hpasses : s₀.passes = [])
    (h : Steps (Engine.step env toDuration llmConfigured) Claimed s₀ s) : Spaced s := by
  have hstart : Paced s₀ := by
    refine ⟨fun p hp q hq hid => ?_, ?_, ?_, ?_, ?_, ?_⟩
    · rw [inj_on_of_nodup_map hids hq hp hid]
    all_goals simp [Spaced, hpasses, hruns]
  exact (h.invariant (P := Paced) (fun _ _ _ hu hok hstep => hu.step hok hstep) hstart).spaced

end

/-! ### Two evaluations of one policy -/

/-- An event about `root.a.b` up to the decision. -/
def evaluateTo (i : Nat) : List EngineAction :=
  [.onMemoryEvent "t" "root.a.b", .pass i (.load [memoryAt 1 ["root", "a", "b"],
    memoryAt 2 ["root", "a", "c"]]), .pass i .shouldTrigger]

def triggerBy (i : Nat) : List EngineAction :=
  [.pass i .beginRun, .pass i .markPolicyTriggered, .pass i .triggerForPrefix, .pass i .completeRun]

def eventsInTurn : List EngineAction :=
  evaluateTo 0 ++ triggerBy 0 ++ [.wait 300000000] ++ evaluateTo 1 ++ triggerBy 1

def afterTurns : Engine :=
  (runAll (guarded (Engine.step wordEnv id true) Claimed) quietEngine eventsInTurn).getD quietEngine

theorem steps_eventsInTurn : Steps (Engine.step wordEnv id true) Claimed quietEngine afterTurns :=
  steps_getD quietEngine (by decide +kernel)

theorem triggers_spaced_inTurn :
    afterTurns.runs.map (·.createdAt) = [0, 300000000] ∧ Spaced afterTurns :=
  ⟨by decide +kernel, triggers_spaced (by decide) rfl rfl steps_eventsInTurn⟩

/-- **Two events that read an unstamped policy trigger it twice at once.** -/
theorem triggers_not_spaced : ∃ s, Reaches (Engine.step wordEnv id true) quietEngine s ∧
    s.runs.map (fun r => (r.policyId, r.createdAt)) = [(1, 0), (1, 0)] ∧ ¬ Spaced s :=
  exists_reaches (evaluateTo 0 ++ evaluateTo 1 ++ triggerBy 0 ++ triggerBy 1) (by decide +kernel)

end Pcmi.Distillation
