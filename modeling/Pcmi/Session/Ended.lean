import Pcmi.Memory.Dedup
import Pcmi.Session.Service

/-!
# Ended sessions

`StoreMemory` and `Promote` read the session through the read pool and write later, in a transaction
that does not look at it again. Here the calls on one session interleave: a check, like the dedup
lookup, sees some committed state; a write is one transaction.
-/

namespace Pcmi.Session

open List Pcmi.Lib Pcmi.Memory Option

/-- A call that writes. -/
inductive Call where
  | storeMemory (settings : DedupSettings) (sessionId : String) (req : SessionStoreMemoryRequest)
  | promote (sessionId targetPrefix : String)

def Call.sessionId : Call → String
  | .storeMemory _ sessionId _ => sessionId
  | .promote sessionId _ => sessionId

structure Closing where
  session : AgentSession
  table : Table
  /-- The committed states, the newest first. -/
  past : List (AgentSession × List Row)
  /-- The calls that have passed their check and have not written yet. -/
  pending : List Call

inductive ClosingAction where
  /-- A call reads a committed state of the session. -/
  | check (call : Call) (snapshot : Nat)
  /-- A pending `StoreMemory` looks for duplicates and writes. -/
  | store (call : Nat) (snapshot : Nat) (now : Time)
  /-- A pending `Promote` reads the session's rows in the order of `ids`. -/
  | promote (call : Nat) (ids : List Nat)
  | endSession (sessionId : String) (now : Time)

def Closing.start (session : AgentSession) (t : Table) : Closing :=
  ⟨session, t, [(session, t.rows)], []⟩

def Closing.commit (s : Closing) (t : Table) : Closing :=
  { s with table := t, past := (s.session, t.rows) :: s.past }

def Closing.drop (s : Closing) (call : Nat) : Closing :=
  { s with pending := s.pending.eraseIdx call }

/-- The session's rows in the order of `ids`. -/
def batchOf (rows : List Row) (ids : List Nat) : List Row :=
  ids.filterMap fun id => rows.find? fun r => r.id == id

def Closing.step (env : Env) (db : Db) (s : Closing) : ClosingAction → Option Closing
  | .check call snapshot =>
    match s.past[snapshot]? with
    | none => none
    | some (seen, _) =>
      match checkActive env s.session.tenantId call.sessionId [seen] with
      | .error _ => some s
      | .ok () => some { s with pending := s.pending ++ [call] }
  | .store call snapshot now =>
    match s.pending[call]?, s.past[snapshot]? with
    | some (.storeMemory settings sessionId req), some (_, seen) =>
      let written := serviceStore env settings (sessionScopedStoreRequest sessionId req)
        s.session.tenantId seen |>.bind (Plan.run now s.table)
      match written with
      | .error _ => some (s.drop call)
      | .ok t => some ((s.drop call).commit t)
    | _, _ => none
  | .promote call ids =>
    match s.pending[call]? with
    | some (.promote sessionId targetPrefix) =>
      let rows := sessionRows db s.session.tenantId sessionId s.table.rows
      if ids.Perm (rows.map Row.id) then
        match promote db s.session.tenantId sessionId targetPrefix (batchOf rows ids)
            s.table.rows with
        | .error _ => some (s.drop call)
        | .ok l => some ((s.drop call).commit { s.table with rows := l.rows })
      else none
    | _ => none
  | .endSession sessionId now =>
    match endSession env s.session.tenantId sessionId now [s.session] with
    | .ok [session] => some { s with session, past := (session, s.table.rows) :: s.past }
    | _ => some s

/-- `End` waits for checked calls, and a check sees the session as it is. -/
def orderly (s : Closing) : ClosingAction → Bool
  | .check _ snapshot => s.past[snapshot]?.all fun seen => seen.1 == s.session
  | .endSession _ _ => s.pending.isEmpty || s.session.endedAt.isSome
  | _ => true

/-- The row carries the id of the session. -/
def OfSession (env : Env) (db : Db) (session : AgentSession) (r : Row) : Prop :=
  r.tenantId = session.tenantId ∧
    ∃ id, sessionIdOf db r.metadata = some id ∧ env.castUuid id = some session.id

/-- No row of the session is new, and none has another path. -/
structure Frozen (env : Env) (db : Db) (session : AgentSession) (rows rows' : List Row) : Prop where
  inserted : ∀ r' ∈ rows', OfSession env db session r' → ∃ r ∈ rows, r.id = r'.id
  moved : ∀ r ∈ rows, OfSession env db session r → ∃ r' ∈ rows', r'.id = r.id ∧ r'.path = r.path

/-! ## Calls on an ended session -/

section

variable {env : Env} {db : Db} {s s' : Closing} {tenantId sessionId : String}
  {session : AgentSession} {a : ClosingAction}

theorem checkActive_ended (h : session.endedAt.isSome = true) :
    checkActive env tenantId sessionId [session] ≠ .ok () := by
  unfold checkActive getSession
  cases env.castUuid sessionId with
  | none => simp
  | some id =>
    cases his : session.is id tenantId <;> simp [his, h]

theorem endSession_singleton {now : Time} {session' : AgentSession}
    (h : endSession env tenantId sessionId now [session] = .ok [session']) :
    session'.endedAt.isSome = true := by
  unfold endSession at h
  split at h
  · cases h
  next id hid =>
  cases his : session.is id tenantId with
  | false => simp [his] at h
  | true =>
    simp only [any_cons, his, Bool.true_or, if_true, map_cons, map_nil,
      Except.ok.injEq, cons.injEq, and_true] at h
    rw [← h]
    rfl

/-- Once the session has ended without calls, nothing is written. -/
theorem step_ended (hended : s.session.endedAt.isSome = true) (hpending : s.pending = [])
    (hok : orderly s a = true) (hstep : s.step env db a = some s') :
    s'.session.endedAt.isSome = true ∧ s'.pending = [] ∧ s'.table = s.table := by
  cases a with
  | check call snapshot =>
    simp only [Closing.step] at hstep
    split at hstep
    · cases hstep
    next seen rows hseen =>
    have hcurrent : seen = s.session := by simpa [orderly, hseen] using hok
    split at hstep
    · cases hstep
      exact ⟨hended, hpending, rfl⟩
    · next hactive => exact absurd (hcurrent ▸ hactive) (checkActive_ended hended)
  | store call snapshot now | promote call ids => simp [Closing.step, hpending] at hstep
  | endSession sessionId now =>
    simp only [Closing.step] at hstep
    split at hstep <;> cases hstep
    · next session hend => exact ⟨endSession_singleton hend, hpending, rfl⟩
    · exact ⟨hended, hpending, rfl⟩

/-- Only `End` ends the session, and an orderly one finds no call. -/
theorem step_pending (h : s.session.endedAt.isSome = true → s.pending = [])
    (hok : orderly s a = true) (hstep : s.step env db a = some s') :
    s'.session.endedAt.isSome = true → s'.pending = [] := by
  by_cases hended : s.session.endedAt.isSome = true
  · exact fun _ => (step_ended hended (h hended) hok hstep).2.1
  intro hended'
  cases a with
  | check call snapshot =>
    simp only [Closing.step] at hstep
    split at hstep
    · cases hstep
    · split at hstep <;> cases hstep <;> exact absurd hended' hended
  | store call snapshot now =>
    simp only [Closing.step] at hstep
    split at hstep
    · split at hstep <;> cases hstep <;> exact absurd hended' hended
    · cases hstep
  | promote call ids =>
    simp only [Closing.step] at hstep
    split at hstep
    · split at hstep
      · split at hstep <;> cases hstep <;> exact absurd hended' hended
      · cases hstep
    · cases hstep
  | endSession sessionId now =>
    have hempty : s.pending = [] := by simpa [orderly, hended] using hok
    simp only [Closing.step] at hstep
    split at hstep <;> cases hstep <;> exact hempty

end

theorem Frozen.refl (env : Env) (db : Db) (session : AgentSession) (rows : List Row) :
    Frozen env db session rows rows where
  inserted := fun r hr _ => ⟨r, hr, rfl⟩
  moved := fun r hr _ => ⟨r, hr, rfl, rfl⟩

/-- **Once a session has ended, none of its rows is inserted or moved**, if `End` waits for checked
calls and checks see the session as it is. -/
theorem ended_session_frozen {env : Env} {db : Db} {session : AgentSession} {t : Table}
    {s s' : Closing}
    (hrun : Steps (Closing.step env db) (fun s a => orderly s a = true) (.start session t) s)
    (hended : s.session.endedAt.isSome = true)
    (hlater : Steps (Closing.step env db) (fun s a => orderly s a = true) s s') :
    Frozen env db s.session s.table.rows s'.table.rows := by
  have hpending : s.session.endedAt.isSome = true → s.pending = [] :=
    Steps.invariant (P := fun s : Closing => s.session.endedAt.isSome = true → s.pending = [])
      (fun _ _ _ h hok hstep => step_pending h hok hstep) hrun (fun _ => rfl)
  have hsame : s'.session.endedAt.isSome = true ∧ s'.pending = [] ∧ s'.table = s.table := by
    refine Steps.invariant (P := fun u : Closing => u.session.endedAt.isSome = true ∧
      u.pending = [] ∧ u.table = s.table) ?_ hlater ⟨hended, hpending hended, rfl⟩
    rintro u a v ⟨hended, hpending, htable⟩ hok hstep
    obtain ⟨hended', hpending', htable'⟩ := step_ended hended hpending hok hstep
    exact ⟨hended', hpending', htable'.trans htable⟩
  rw [hsame.2.2]
  exact .refl env db s.session s.table.rows

/-! ## A store that overtakes the end -/

def openSession : AgentSession := ⟨"a-1", "t", none⟩

def noteCall : Call := .storeMemory {} "a-1" { path := "x", content := "note" }

def storeThenEnd : List ClosingAction :=
  [.check noteCall 0, .store 0 0 1, .endSession "a-1" 2]

/-- The session ends behind the check of a store. -/
def checkThenEnd : List ClosingAction := [.check noteCall 0, .endSession "a-1" 1]

theorem ended_session_frozen_storeThenEnd :
    ∃ s s', runAll (guarded (Closing.step dedupEnv plainDb) (fun s a => orderly s a = true))
        (.start openSession ⟨[], 1⟩) storeThenEnd = some s ∧ s.session.endedAt = some 2 ∧
      runAll (guarded (Closing.step dedupEnv plainDb) (fun s a => orderly s a = true)) s
        [.check noteCall 0] = some s' ∧
      Frozen dedupEnv plainDb s.session s.table.rows s'.table.rows := by
  obtain ⟨s, hs, hended, s', hs', -⟩ :
      ∃ s ∈ runAll (guarded (Closing.step dedupEnv plainDb) (fun s a => orderly s a = true))
        (.start openSession ⟨[], 1⟩) storeThenEnd, s.session.endedAt = some 2 ∧
        ∃ _s' ∈ runAll (guarded (Closing.step dedupEnv plainDb) (fun s a => orderly s a = true)) s
          [.check noteCall 0], True := by decide +kernel
  exact ⟨s, s', hs, hended, hs', ended_session_frozen (steps_runAll (.refl _) hs)
    (isSome_iff_exists.mpr ⟨2, hended⟩) (steps_runAll (.refl _) hs')⟩

/-- **The row is inserted behind the end of its session.** -/
theorem store_behind_end :
    ∃ s s', Reaches (Closing.step dedupEnv plainDb) (.start openSession ⟨[], 1⟩) s ∧
      s.session = { openSession with endedAt := some 1 } ∧
      Reaches (Closing.step dedupEnv plainDb) s s' ∧
      s'.table.rows.map (fun r => (r.path.text, sessionIdOf plainDb r.metadata)) =
        [("sessions.a_1.x", some "a-1")] ∧
      ¬Frozen dedupEnv plainDb s.session s.table.rows s'.table.rows := by
  obtain ⟨s, hs, ⟨hsession, hempty⟩, s', hs', hrows, r, hr, htenant, hid⟩ :
      ∃ s ∈ runAll (Closing.step dedupEnv plainDb) (.start openSession ⟨[], 1⟩) checkThenEnd,
        (s.session = { openSession with endedAt := some 1 } ∧ s.table.rows.length = 0) ∧
        ∃ s' ∈ runAll (Closing.step dedupEnv plainDb) s [.store 0 0 2],
          s'.table.rows.map (fun r => (r.path.text, sessionIdOf plainDb r.metadata)) =
            [("sessions.a_1.x", some "a-1")] ∧
          ∃ r ∈ s'.table.rows, r.tenantId = "t" ∧ sessionIdOf plainDb r.metadata = some "a-1" := by
    decide +kernel
  refine ⟨s, s', reaches_runAll (.refl _) hs, hsession, reaches_runAll (.refl _) hs', hrows,
    fun hfrozen => ?_⟩
  have hof : OfSession dedupEnv plainDb s.session r := by
    rw [hsession]
    exact ⟨htenant, "a-1", hid, rfl⟩
  obtain ⟨r₀, hr₀, -⟩ := hfrozen.inserted r hr hof
  rw [length_eq_zero_iff.mp hempty] at hr₀
  exact absurd hr₀ not_mem_nil

end Pcmi.Session
