import Mathlib.Algebra.Group.Nat.Defs
import Mathlib.Algebra.Ring.Int.Defs
import Mathlib.Data.List.Pairwise
import Pcmi.Lib.Slots
import Pcmi.Lib.Steps

/-!
# The embedding circuit breaker (`internal/embedding/circuit_breaker.go`)

`Breaker` is gobreaker's: states, generations, counts, and the time after which an open circuit is
half open for the next call that reads its state. `CircuitBreakerProvider` keeps a hold of its own,
which grows with each opening in a row and which `OnStateChange` sets and clears. `step` is any
number of `Generate` calls at a time, on one clock.

A half-open breaker clears the hold, so that the time-out, that of the first opening, decides alone.
-/

namespace Pcmi.Embedding

open List Pcmi.Lib

/-! ## gobreaker -/

inductive CircuitState where
  | closed
  | halfOpen
  | opened
  deriving DecidableEq

/-- `Counts`, as far as the states depend on them. -/
structure Counts where
  requests : Nat
  consecutiveSuccesses : Nat
  consecutiveFailures : Nat

def Counts.zero : Counts := ⟨0, 0, 0⟩

/-- `Settings`: `ReadyToTrip` compares with `maxFailures`; times in nanoseconds. -/
structure Settings where
  maxRequests : Nat
  timeout : Int
  maxFailures : Nat

/-- `CircuitBreaker`; `expiry` is that of an open circuit. -/
structure Breaker where
  state : CircuitState
  generation : Nat
  counts : Counts
  expiry : Int

namespace Breaker

/-- `setState` with `toNewGeneration`, for another state. -/
def setState (b : Breaker) (settings : Settings) (state : CircuitState) (now : Int) : Breaker where
  state := state
  generation := b.generation + 1
  counts := Counts.zero
  expiry := if state = .opened then now + settings.timeout else b.expiry

/-- `currentState`; the second component is the new state if there is one. -/
def currentState (b : Breaker) (settings : Settings) (now : Int) : Breaker × Option CircuitState :=
  if b.state = .opened ∧ b.expiry < now then (b.setState settings .halfOpen now, some .halfOpen)
  else (b, none)

/-- `beforeRequest`: the generation of a request that is let through. -/
def beforeRequest (b : Breaker) (settings : Settings) : Breaker × Option Nat :=
  if b.state = .opened then (b, none)
  else if b.state = .halfOpen ∧ settings.maxRequests ≤ b.counts.requests then (b, none)
  else
    ({ b with counts := { b.counts with requests := b.counts.requests + 1 } }, some b.generation)

def onSuccess (b : Breaker) (settings : Settings) (now : Int) : Breaker × Option CircuitState :=
  let counts : Counts :=
    { b.counts with
      consecutiveSuccesses := b.counts.consecutiveSuccesses + 1, consecutiveFailures := 0 }
  match b.state with
  | .closed => ({ b with counts }, none)
  | .halfOpen =>
    if settings.maxRequests ≤ counts.consecutiveSuccesses then
      (setState { b with counts } settings .closed now, some .closed)
    else ({ b with counts }, none)
  | .opened => (b, none)

def onFailure (b : Breaker) (settings : Settings) (now : Int) : Breaker × Option CircuitState :=
  match b.state with
  | .closed =>
    let counts : Counts :=
      { b.counts with
        consecutiveSuccesses := 0, consecutiveFailures := b.counts.consecutiveFailures + 1 }
    if settings.maxFailures ≤ counts.consecutiveFailures then
      (setState { b with counts } settings .opened now, some .opened)
    else ({ b with counts }, none)
  | .halfOpen => (b.setState settings .opened now, some .opened)
  | .opened => (b, none)

/-- `afterRequest`: a result of an earlier generation does not count. -/
def afterRequest (b : Breaker) (settings : Settings) (generation : Nat) (success : Bool)
    (now : Int) : Breaker × Option CircuitState :=
  if b.generation ≠ generation then (b, none)
  else if success then b.onSuccess settings now
  else b.onFailure settings now

end Breaker

/-! ## The wrapper -/

/-- `CircuitBreakerConfig` without the rate limit. -/
structure CircuitBreakerConfig where
  maxConsecutiveFailures : Nat
  baseOpenTimeout : Int
  maxOpenTimeout : Int
  halfOpenMaxRequests : Nat

def defaultBaseTimeout : Int := 30 * 10 ^ 9

def defaultMaxTimeout : Int := 300 * 10 ^ 9

/-- `OpenBackoffDuration`; `jitter` multiplies by the random factor, the power of two in `int64`. -/
def openBackoffDuration (jitter : Int → Int) (attempt : UInt32) (base max : Int) : Int :=
  let base := if base ≤ 0 then defaultBaseTimeout else base
  let max := if max ≤ 0 then defaultMaxTimeout else max
  let shift := min attempt.toNat 16
  let d := (base * 2 ^ shift).bmod (2 ^ 64)
  let d := if d > max then max else d
  let out := jitter d
  if out > max then max else out

def CircuitBreakerConfig.settings (cfg : CircuitBreakerConfig) : Settings where
  maxRequests := if cfg.halfOpenMaxRequests = 0 then 1 else cfg.halfOpenMaxRequests
  timeout := if cfg.baseOpenTimeout ≤ 0 then defaultBaseTimeout else cfg.baseOpenTimeout
  maxFailures := if cfg.maxConsecutiveFailures = 0 then 5 else cfg.maxConsecutiveFailures

/-- Not blocked, let through, in the inner provider, or back. -/
inductive Stage where
  | checked
  | admitted (generation : Nat)
  | inner (generation : Nat)
  | returned
  deriving DecidableEq

/-- The `k`-th opening in a row, a closing, or an inner call. -/
inductive Event where
  | opened (k : Nat) (time : Int) (jitter : Int → Int) (hold : Int)
  | closed
  | called (time : Int)

/-- `CircuitBreakerProvider` with its calls and the clock. -/
structure Provider where
  cb : Breaker
  openGen : UInt32
  openHold : Option Int
  calls : List Stage
  now : Int
  log : List Event

def wrapWithCircuitBreaker (now : Int) : Provider where
  cb := ⟨.closed, 1, Counts.zero, 0⟩
  openGen := 0
  openHold := none
  calls := []
  now := now
  log := []

def openingsInRow : List Event → Nat
  | [] => 0
  | .opened k _ _ _ :: _ => k
  | .closed :: _ => 0
  | .called _ :: log => openingsInRow log

inductive Action where
  | tick (d : Nat)
  | check
  | enter (i : Nat)
  | call (i : Nat)
  | finish (i : Nat) (success : Bool) (jitter : Int → Int)

namespace Provider

variable (cfg : CircuitBreakerConfig)

/-- `onStateChange`. The log is written from its end. -/
def onStateChange (p : Provider) (jitter : Int → Int) : Option CircuitState → Provider
  | none => p
  | some .closed => { p with openGen := 0, openHold := none, log := .closed :: p.log }
  | some .halfOpen => { p with openHold := none }
  | some .opened =>
    let openGen := p.openGen + 1
    let hold := openBackoffDuration jitter (openGen - 1) cfg.baseOpenTimeout cfg.maxOpenTimeout
    { p with
      openGen
      openHold := some (p.now + hold)
      log := .opened (openingsInRow p.log + 1) p.now jitter hold :: p.log }

def readState (p : Provider) : Provider :=
  let r := p.cb.currentState cfg.settings p.now
  { p with cb := r.1 }.onStateChange cfg id r.2

/-- `circuitBlocked`, behind reading the state. -/
def circuitBlocked (p : Provider) : Bool :=
  match p.cb.state, p.openHold with
  | .opened, some hold => p.now < hold
  | _, _ => false

/-- The steps of `Generate`; a panic counts as a failure. -/
def step (p : Provider) : Action → Option Provider
  | .tick d => some { p with now := p.now + d }
  | .check =>
    let p := p.readState cfg
    some (if p.circuitBlocked then p else { p with calls := p.calls ++ [.checked] })
  | .enter i =>
    match p.calls[i]? with
    | some .checked =>
      let p := p.readState cfg
      let r := p.cb.beforeRequest cfg.settings
      some { p with cb := r.1, calls := p.calls.set i (r.2.elim .returned .admitted) }
    | _ => none
  | .call i =>
    match p.calls[i]? with
    | some (.admitted generation) =>
      some { p with calls := p.calls.set i (.inner generation), log := .called p.now :: p.log }
    | _ => none
  | .finish i success jitter =>
    match p.calls[i]? with
    | some (.inner generation) =>
      let p := p.readState cfg
      let r := p.cb.afterRequest cfg.settings generation success p.now
      some ({ p with cb := r.1, calls := p.calls.set i .returned }.onStateChange cfg jitter r.2)
    | _ => none

def stateAfter (p : Provider) (i : Nat) (success : Bool) : Option CircuitState :=
  match p.calls[i]? with
  | some (.inner generation) =>
    let p := p.readState cfg
    (p.cb.afterRequest cfg.settings generation success p.now).2
  | _ => none

end Provider

/-! ## The hold -/

def Stage.isAdmitted : Stage → Bool
  | .admitted _ => true
  | _ => false

/-- When the circuit opens, the hold is within the time-out, and no call is about to reach the inner
provider. -/
def Orderly (cfg : CircuitBreakerConfig) (p : Provider) : Action → Prop
  | .finish i success jitter => p.stateAfter cfg i success = some .opened →
      openBackoffDuration jitter p.openGen cfg.baseOpenTimeout cfg.maxOpenTimeout ≤
          cfg.settings.timeout ∧
        ∀ c ∈ p.calls, c.isAdmitted = false
  | _ => True

instance (cfg : CircuitBreakerConfig) (p : Provider) (a : Action) :
    Decidable (Orderly cfg p a) := by
  cases a <;> unfold Orderly <;> infer_instance

/-- An inner call behind an opening comes when the hold is over. -/
def Respects (later earlier : Event) : Prop :=
  ∀ k time jitter hold time', earlier = .opened k time jitter hold → later = .called time' →
    time + hold ≤ time'

/-- The holds are those of `OpenBackoffDuration`, and are respected. -/
structure HoldRespected (cfg : CircuitBreakerConfig) (log : List Event) : Prop where
  computed : ∀ k time jitter hold, .opened k time jitter hold ∈ log →
    1 ≤ k ∧ hold = openBackoffDuration jitter (UInt32.ofNat (k - 1)) cfg.baseOpenTimeout
      cfg.maxOpenTimeout
  respects : log.Pairwise Respects

/-- A hold that is not over keeps the circuit open. -/
structure Held (cfg : CircuitBreakerConfig) (p : Provider) : Prop where
  log : HoldRespected cfg p.log
  openGen : p.openGen = UInt32.ofNat (openingsInRow p.log)
  holds : ∀ k time jitter hold, .opened k time jitter hold ∈ p.log →
    time + hold ≤ p.now ∨ time + hold ≤ p.cb.expiry ∧ p.cb.state = .opened ∧
      ∀ c ∈ p.calls, c.isAdmitted = false

section

variable {cfg : CircuitBreakerConfig} {p p' : Provider} {a : Action}

theorem Breaker.afterRequest_spec (b : Breaker) (settings : Settings) (generation : Nat)
    (success : Bool) (now : Int) :
    let r := b.afterRequest settings generation success now
    (r.2 = none ∧ r.1.state = b.state ∧ r.1.expiry = b.expiry) ∨
      (r.2 = some .closed ∧ b.state = .halfOpen) ∨
      (r.2 = some .opened ∧ b.state ≠ .opened ∧ r.1.state = .opened ∧
        r.1.expiry = now + settings.timeout) := by
  unfold Breaker.afterRequest
  split
  · exact Or.inl ⟨rfl, rfl, rfl⟩
  split
  · unfold Breaker.onSuccess
    cases hstate : b.state with
    | closed => exact Or.inl ⟨rfl, rfl, rfl⟩
    | opened => exact Or.inl ⟨rfl, hstate, rfl⟩
    | halfOpen =>
      dsimp only
      split
      · exact Or.inr (Or.inl ⟨rfl, rfl⟩)
      · exact Or.inl ⟨rfl, rfl, rfl⟩
  · unfold Breaker.onFailure
    cases hstate : b.state with
    | opened => exact Or.inl ⟨rfl, hstate, rfl⟩
    | halfOpen => exact Or.inr (Or.inr ⟨rfl, by decide, rfl, rfl⟩)
    | closed =>
      dsimp only
      split
      · exact Or.inr (Or.inr ⟨rfl, by decide, rfl, rfl⟩)
      · exact Or.inl ⟨rfl, rfl, rfl⟩

variable {jitter : Int → Int} {i : Nat}

theorem Held.elapsed (h : Held cfg p)
    (hfree : p.cb.state ≠ .opened ∨ ∃ c ∈ p.calls, c.isAdmitted = true) {k : Nat} {time : Int}
    {hold : Int} (hlog : .opened k time jitter hold ∈ p.log) :
    time + hold ≤ p.now := by
  rcases h.holds k time jitter hold hlog with hover | ⟨-, hopen, hnone⟩
  · exact hover
  rcases hfree with hstate | ⟨c, hc, hadmitted⟩
  · exact absurd hopen hstate
  · rw [hnone c hc] at hadmitted
    cases hadmitted

/-- Reading the state keeps all that but the state and the hold. -/
theorem readState_spec (cfg : CircuitBreakerConfig) (p : Provider) :
    (p.readState cfg).log = p.log ∧ (p.readState cfg).openGen = p.openGen ∧
      (p.readState cfg).calls = p.calls ∧ (p.readState cfg).now = p.now := by
  unfold Provider.readState Breaker.currentState
  split <;> exact ⟨rfl, rfl, rfl, rfl⟩

theorem Held.readState (h : Held cfg p) : Held cfg (p.readState cfg) := by
  obtain ⟨hlog, hgen, hcalls, hnow⟩ := readState_spec cfg p
  refine ⟨hlog ▸ h.log, by rw [hgen, hlog]; exact h.openGen, fun k time jitter hold hmem => ?_⟩
  rw [hlog] at hmem
  rw [hnow, hcalls]
  rcases h.holds k time jitter hold hmem with hover | ⟨hexpiry, hstate, hnone⟩
  · exact Or.inl hover
  unfold Provider.readState Breaker.currentState
  split
  · next hexpired =>
    have := hexpired.2
    exact Or.inl (by omega)
  · exact Or.inr ⟨hexpiry, hstate, hnone⟩

theorem HoldRespected.called {log : List Event} (h : HoldRespected cfg log) {now : Int}
    (hover : ∀ k time jitter hold, .opened k time jitter hold ∈ log → time + hold ≤ now) :
    HoldRespected cfg (.called now :: log) where
  computed k time jitter hold hmem := by
    rcases mem_cons.mp hmem with heq | hmem
    · cases heq
    · exact h.computed k time jitter hold hmem
  respects := by
    refine pairwise_cons.mpr ⟨?_, h.respects⟩
    rintro e he k time jitter hold time' rfl heq
    cases heq
    exact hover k time jitter hold he

theorem HoldRespected.cons {log : List Event} (h : HoldRespected cfg log) {e : Event}
    (hcall : ∀ time, e ≠ .called time)
    (hopen : ∀ k time jitter hold, e = .opened k time jitter hold →
      1 ≤ k ∧ hold = openBackoffDuration jitter (UInt32.ofNat (k - 1)) cfg.baseOpenTimeout
        cfg.maxOpenTimeout) :
    HoldRespected cfg (e :: log) where
  computed k time jitter hold hmem := by
    rcases mem_cons.mp hmem with heq | hmem
    · exact hopen k time jitter hold heq.symm
    · exact h.computed k time jitter hold hmem
  respects :=
    pairwise_cons.mpr ⟨fun _ _ _ _ _ _ time' _ heq => absurd heq (hcall time'), h.respects⟩

theorem Held.check (h : Held cfg p) (hstep : p.step cfg .check = some p') : Held cfg p' := by
  simp only [Provider.step, Option.some.injEq] at hstep
  subst hstep
  have hread := h.readState
  split
  · exact hread
  refine ⟨hread.log, hread.openGen, fun k time jitter hold hmem => ?_⟩
  refine (hread.holds k time jitter hold hmem).imp_right fun ⟨hexpiry, hstate, hnone⟩ =>
    ⟨hexpiry, hstate, ?_⟩
  exact forall_mem_concat hnone rfl

theorem Held.enter (h : Held cfg p) (hstep : p.step cfg (.enter i) = some p') :
    Held cfg p' := by
  simp only [Provider.step] at hstep
  split at hstep
  case h_2 => cases hstep
  obtain rfl := Option.some.inj hstep
  have hread := h.readState
  unfold Breaker.beforeRequest
  split
  · refine ⟨hread.log, hread.openGen, fun k time jitter hold hmem => ?_⟩
    exact (hread.holds k time jitter hold hmem).imp_right fun ⟨hexpiry, hstate, hnone⟩ =>
      ⟨hexpiry, hstate, forall_mem_set hnone rfl⟩
  next hstate =>
  -- The circuit is not open, so that every hold is over, whoever is let through.
  have hover : ∀ k time jitter hold, .opened k time jitter hold ∈ (p.readState cfg).log →
      time + hold ≤ (p.readState cfg).now := fun k time jitter hold hmem =>
    hread.elapsed (Or.inl hstate) hmem
  split
  · exact ⟨hread.log, hread.openGen, fun k time jitter hold hmem =>
      Or.inl (hover k time jitter hold hmem)⟩
  · exact ⟨hread.log, hread.openGen, fun k time jitter hold hmem =>
      Or.inl (hover k time jitter hold hmem)⟩

theorem Held.call (h : Held cfg p) (hstep : p.step cfg (.call i) = some p') :
    Held cfg p' := by
  simp only [Provider.step] at hstep
  split at hstep
  case h_2 => cases hstep
  next generation hcall =>
  obtain rfl := Option.some.inj hstep
  have hadmitted : ∃ c ∈ p.calls, c.isAdmitted = true :=
    ⟨_, mem_of_getElem? hcall, rfl⟩
  have hover : ∀ k time jitter hold, .opened k time jitter hold ∈ p.log →
      time + hold ≤ p.now := fun k time jitter hold hmem => h.elapsed (Or.inr hadmitted) hmem
  refine ⟨h.log.called hover, h.openGen, fun k time jitter hold hmem => Or.inl ?_⟩
  rcases mem_cons.mp hmem with heq | hmem
  · cases heq
  · exact hover k time jitter hold hmem

theorem Held.finish {success : Bool} (h : Held cfg p)
    (hok : Orderly cfg p (.finish i success jitter))
    (hstep : p.step cfg (.finish i success jitter) = some p') : Held cfg p' := by
  simp only [Provider.step] at hstep
  split at hstep
  case h_2 => cases hstep
  next generation hcall =>
  obtain rfl := Option.some.inj hstep
  obtain ⟨hlog, hgen, hcalls, hnow⟩ := readState_spec cfg p
  have hread := h.readState
  have hspec := (p.readState cfg).cb.afterRequest_spec cfg.settings generation success
    (p.readState cfg).now
  simp only [Orderly, Provider.stateAfter, hcall] at hok
  generalize (p.readState cfg).cb.afterRequest cfg.settings generation success
    (p.readState cfg).now = r at hspec hok
  rcases hspec with ⟨hnone, hstate, hexpiry⟩ | ⟨hclosed, hstate⟩ |
    ⟨hopened, hstate, hstate', hexpiry⟩
  · rw [hnone]
    refine ⟨hread.log, hread.openGen, fun k time jitter hold hmem => ?_⟩
    refine (hread.holds k time jitter hold hmem).imp_right fun ⟨hlater, hopen, hquiet⟩ => ?_
    exact ⟨hexpiry ▸ hlater, hstate.trans hopen, forall_mem_set hquiet rfl⟩
  · rw [hclosed]
    refine ⟨hread.log.cons nofun nofun, rfl, fun k time jitter hold hmem => Or.inl ?_⟩
    rcases mem_cons.mp hmem with heq | hmem
    · cases heq
    · exact hread.elapsed (Or.inl (by rw [hstate]; decide)) hmem
  · rw [hopened]
    obtain ⟨hshort, hquiet⟩ := hok hopened
    rw [← hcalls] at hquiet
    have hattempt : (p.readState cfg).openGen + 1 - 1 = (p.readState cfg).openGen :=
      UInt32.add_sub_cancel _ _
    refine ⟨hread.log.cons nofun ?_, ?_, fun k time jitter' hold hmem => ?_⟩
    · rintro k time jitter' hold heq
      cases heq
      refine ⟨Nat.le_add_left 1 _, ?_⟩
      rw [hattempt, hread.openGen]
      rfl
    · exact (congrArg (· + 1) hread.openGen).trans (UInt32.ofNat_add _ _).symm
    · rcases mem_cons.mp hmem with heq | hmem
      · cases heq
        refine Or.inr ⟨?_, hstate', forall_mem_set hquiet rfl⟩
        refine le_of_le_of_eq ?_ hexpiry.symm
        rw [hattempt, hgen]
        exact Int.add_le_add_left hshort _
      · exact Or.inl (hread.elapsed (Or.inl hstate) hmem)

theorem Held.step (h : Held cfg p) (hok : Orderly cfg p a) (hstep : p.step cfg a = some p') :
    Held cfg p' := by
  cases a with
  | tick d =>
    obtain rfl := Option.some.inj hstep
    refine ⟨h.log, h.openGen, fun k time jitter hold hmem => ?_⟩
    refine (h.holds k time jitter hold hmem).imp_left fun hover => ?_
    dsimp only
    omega
  | check => exact h.check hstep
  | enter i => exact h.enter hstep
  | call i => exact h.call hstep
  | finish i success jitter => exact h.finish hok hstep

end

/-- **The hold is respected** in every orderly run. -/
theorem hold_respected (cfg : CircuitBreakerConfig) (now : Int) {p : Provider}
    (hrun : Steps (Provider.step cfg) (Orderly cfg) (wrapWithCircuitBreaker now) p) :
    HoldRespected cfg p.log := by
  have hstart : Held cfg (wrapWithCircuitBreaker now) := ⟨⟨nofun, List.Pairwise.nil⟩, rfl, nofun⟩
  exact (hrun.invariant (fun _ _ _ hu hok hstep => hu.step hok hstep) hstart).log

def oneFailure : CircuitBreakerConfig := ⟨1, 30 * 10 ^ 9, 300 * 10 ^ 9, 1⟩

def failThenProbe (jitter : Int → Int) : List Action :=
  [.check, .enter 0, .call 0, .finish 0 false jitter, .tick 30000000001, .check, .enter 1, .call 1]

def timesOf (log : List Event) : List (Bool × Int) :=
  log.filterMap fun
    | .opened _ time _ hold => some (false, time + hold)
    | .closed => none
    | .called time => some (true, time)

theorem hold_respected_short :
    ∃ p, Steps (Provider.step oneFailure) (Orderly oneFailure) (wrapWithCircuitBreaker 0) p ∧
      timesOf p.log = [(true, 30000000001), (false, 22500000000), (true, 0)] ∧
      HoldRespected oneFailure p.log :=
  exists_steps (failThenProbe fun d => d * 3 / 4) (by decide +kernel) fun _ =>
    hold_respected oneFailure 0

/-- The factor `9 / 8` makes a hold of 33.75 s; the breaker waits 30 s. -/
theorem hold_not_respected :
    ∃ p, Reaches (Provider.step oneFailure) (wrapWithCircuitBreaker 0) p ∧
      ¬ HoldRespected oneFailure p.log := by
  have hend : (runAll (Provider.step oneFailure) (wrapWithCircuitBreaker 0)
      (failThenProbe fun d => d * 9 / 8)).map (fun p => p.log) =
      some [.called 30000000001, .opened 1 0 (fun d => d * 9 / 8) 33750000000, .called 0] := rfl
  obtain ⟨p, hp, hlog⟩ := Option.map_eq_some_iff.mp hend
  refine ⟨p, reaches_runAll (.refl _) hp, fun h => ?_⟩
  have hpair := h.respects
  rw [hlog] at hpair
  have hlate := (pairwise_cons.mp hpair).1 _ mem_cons_self _ _ _ _ _ rfl rfl
  exact absurd hlate (by decide)

end Pcmi.Embedding
