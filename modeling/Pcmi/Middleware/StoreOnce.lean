import Pcmi.Lib.Slots
import Pcmi.Middleware.Idempotency

/-!
# A store is executed once

Two requests with one key may both find nothing and both store, and so may two spellings of one
UUID. Requests that take turns with one spelling go through four stages: nobody has stored yet, one
is storing, it is saving its response, and the response is in the cache.
-/

namespace Pcmi.Middleware

open List Pcmi.Lib

variable {Body Uuid : Type}

/-! ## Requests that take their turn -/

def Phase.inFlight : Phase Body → Bool
  | .handling | .saving _ => true
  | .received | .answered _ | .gone => false

def Phase.isSaving : Phase Body → Bool
  | .saving _ => true
  | .received | .handling | .answered _ | .gone => false

def Phase.isExecuted : Phase Body → Bool
  | .answered (.executed _) => true
  | .answered (.replayed _) | .answered (.failed _) | .received | .handling | .saving _ | .gone =>
    false

section

variable [DecidableEq Uuid] (parse : String → Option Uuid)

/-- A look-up comes when no request of the same tenant and UUID is in flight, with the text of those
executed, in the lifetime of the response. What is stored gets into the cache. -/
def Orderly (s : State Body) : Action Body → Prop
  | .lookup i now _ =>
    ∀ slot ∈ s.slots[i]?, ∀ c ∈ slot.request.identity parse,
      (∀ other ∈ s.slots, other.request.identity parse = some c →
        other.phase.inFlight = false ∧
          (other.phase.isExecuted = true → other.request.key = slot.request.key)) ∧
      ∀ e ∈ s.cache c.1 slot.request.key, now < e.expiresAt
  | .put _ _ ok => ok = true
  | .crash i => ∀ slot ∈ s.slots[i]?, slot.phase.isSaving = false
  | .arrive _ | .handle .. => True

instance (s : State Body) : (a : Action Body) → Decidable (Orderly parse s a)
  | .lookup i now _ =>
    inferInstanceAs (Decidable (∀ slot ∈ s.slots[i]?, ∀ c ∈ slot.request.identity parse,
      (∀ other ∈ s.slots, _ → _ ∧ _) ∧ ∀ e ∈ s.cache c.1 slot.request.key, now < e.expiresAt))
  | .put _ _ ok => inferInstanceAs (Decidable (ok = true))
  | .crash i => inferInstanceAs (Decidable (∀ slot ∈ s.slots[i]?, slot.phase.isSaving = false))
  | .arrive _ | .handle .. => isTrue trivial

/-- The successful runs of the handler, for one tenant and UUID. -/
def State.executionsOf (s : State Body) (c : String × Uuid) : List (Execution Body) :=
  s.executions.filter fun e => e.request.identity parse = some c

end

/-! ## The other requests -/

/-- Not in flight and without a response of the handler. -/
def Phase.Idle : Phase Body → Prop
  | .received | .gone | .answered (.failed _) => True
  | .handling | .saving _ | .answered (.executed _) | .answered (.replayed _) => False

/-- What the other requests may be up to when `response` is in the cache. -/
def Phase.Quiet (response : Option Body) (phase : Phase Body) : Prop :=
  phase.Idle ∨ ∃ body, response = some body ∧ phase = .answered (.replayed body)

section

variable (parse : String → Option Uuid) (c : String × Uuid)

/-- The requests of the tenant and UUID but an active one are quiet. -/
def Others (s : State Body) (active : Option Nat) (response : Option Body) : Prop :=
  ∀ j slot, s.slots[j]? = some slot → slot.request.identity parse = some c → some j ≠ active →
    slot.phase.Quiet response

/-- No response is cached, in any spelling. -/
def Uncached (s : State Body) : Prop := ∀ key, parse key = some c.2 → s.cache c.1 key = none

end

section

variable {parse : String → Option Uuid} {c : String × Uuid} {s : State Body} {i : Nat}
  {slot : Slot Body} {phase : Phase Body} {j : Nat} {active : Option Nat}

theorem setPhase_cases (hi : s.slots[i]? = some slot) {slot' : Slot Body}
    (hj : (s.setPhase i slot phase).slots[j]? = some slot') :
    (j = i ∧ slot' = { slot with phase }) ∨ (j ≠ i ∧ s.slots[j]? = some slot') := by
  obtain ⟨hlt, -⟩ := List.getElem?_eq_some_iff.mp hi
  by_cases hji : j = i
  · subst hji
    refine Or.inl ⟨rfl, ?_⟩
    rw [State.setPhase, getElem?_set_self hlt] at hj
    exact (Option.some.inj hj).symm
  · rw [State.setPhase, getElem?_set_ne (Ne.symm hji)] at hj
    exact Or.inr ⟨hji, hj⟩

theorem setPhase_self (hi : s.slots[i]? = some slot) :
    (s.setPhase i slot phase).slots[i]? = some { slot with phase } := by
  obtain ⟨hlt, -⟩ := List.getElem?_eq_some_iff.mp hi
  exact getElem?_set_self hlt

theorem setPhase_ne (hji : j ≠ i) :
    (s.setPhase i slot phase).slots[j]? = s.slots[j]? :=
  getElem?_set_ne (Ne.symm hji)

theorem Others.setPhase {active : Option Nat} {response : Option Body}
    (h : Others parse c s active response) (hi : s.slots[i]? = some slot)
    (hquiet : some i ≠ active → phase.Quiet response) :
    Others parse c (s.setPhase i slot phase) active response := by
  intro j slot' hj hc hne
  rcases setPhase_cases hi hj with ⟨rfl, rfl⟩ | ⟨-, hj⟩
  · exact hquiet hne
  · exact h j slot' hj hc hne

variable {response : Option Body}

theorem Others.activate (h : Others parse c s none response) (hi : s.slots[i]? = some slot) :
    Others parse c (s.setPhase i slot phase) (some i) response := by
  refine Others.setPhase ?_ hi fun hne => absurd rfl hne
  exact fun j slot' hj hc _ => h j slot' hj hc nofun

theorem Others.deactivate (h : Others parse c s (some i) response) (hi : s.slots[i]? = some slot)
    (hquiet : phase.Quiet response) : Others parse c (s.setPhase i slot phase) none response := by
  intro j slot' hj hc _
  rcases setPhase_cases hi hj with ⟨rfl, rfl⟩ | ⟨hji, hj⟩
  · exact hquiet
  · exact h j slot' hj hc fun he => hji (Option.some.inj he)

theorem Others.none_response (h : Others parse c s active none) (response : Option Body) :
    Others parse c s active response := by
  intro j slot' hj hc hne
  rcases h j slot' hj hc hne with hidle | ⟨body, hnone, -⟩
  · exact Or.inl hidle
  · cases hnone

/-- A request that is in flight is the active one. -/
theorem Others.eq_active (h : Others parse c s active response) (hi : s.slots[i]? = some slot)
    (hc : slot.request.identity parse = some c) (hflight : slot.phase.inFlight = true) :
    some i = active := by
  by_contra hne
  rcases h i slot hi hc hne with hidle | ⟨body, -, hreplayed⟩
  · revert hidle hflight
    cases slot.phase with
    | received | gone | answered a => exact fun h => nomatch h
    | handling | saving body => exact fun _ => id
  · rw [hreplayed] at hflight
    cases hflight

theorem Others.eq_slot {i₀ : Nat} {slot₀ : Slot Body} (h : Others parse c s (some i₀) response)
    (hi₀ : s.slots[i₀]? = some slot₀) (hi : s.slots[i]? = some slot)
    (hc : slot.request.identity parse = some c) (hflight : slot.phase.inFlight = true) :
    i = i₀ ∧ slot = slot₀ := by
  obtain rfl := Option.some.inj (h.eq_active hi hc hflight)
  exact ⟨rfl, Option.some.inj (hi.symm.trans hi₀)⟩

end

/-! ## Stages -/

section

variable [DecidableEq Uuid] (parse : String → Option Uuid) (c : String × Uuid)

/-- How far the requests of the tenant and UUID have come. -/
inductive Stage (s : State Body) : Prop where
  | fresh (hothers : Others parse c s none none) (hexecs : s.executionsOf parse c = [])
      (hcache : Uncached parse c s)
  | handling {i : Nat} {slot : Slot Body} (hi : s.slots[i]? = some slot)
      (hc : slot.request.identity parse = some c) (hphase : slot.phase = .handling)
      (hothers : Others parse c s (some i) none) (hexecs : s.executionsOf parse c = [])
      (hcache : Uncached parse c s)
  | saving {i : Nat} {slot : Slot Body} {body : Body} (hi : s.slots[i]? = some slot)
      (hc : slot.request.identity parse = some c) (hphase : slot.phase = .saving body)
      (hothers : Others parse c s (some i) none)
      (hexecs : s.executionsOf parse c = [⟨i, slot.request, body⟩]) (hcache : Uncached parse c s)
  | cached {i : Nat} {slot : Slot Body} {body : Body} {expiresAt : Time}
      (hi : s.slots[i]? = some slot) (hc : slot.request.identity parse = some c)
      (hphase : slot.phase = .answered (.executed body))
      (hothers : Others parse c s (some i) (some body))
      (hexecs : s.executionsOf parse c = [⟨i, slot.request, body⟩])
      (hcache : s.cache c.1 slot.request.key = some ⟨body, expiresAt⟩)

/-- A step that does not concern the tenant and UUID. -/
structure Frame (s s' : State Body) : Prop where
  cache : ∀ key, parse key = some c.2 → s'.cache c.1 key = s.cache c.1 key
  executions : s'.executionsOf parse c = s.executionsOf parse c
  new : ∀ (j : Nat) (slot : Slot Body), s'.slots[j]? = some slot →
    slot.request.identity parse = some c → s.slots[j]? = some slot ∨ slot.phase.Idle
  old : ∀ (j : Nat) (slot : Slot Body), s.slots[j]? = some slot →
    slot.request.identity parse = some c → slot.phase.Idle ∨ s'.slots[j]? = some slot

end

section

variable [DecidableEq Uuid] {parse : String → Option Uuid} {c : String × Uuid} {s s' : State Body}
  {i : Nat} {slot : Slot Body} {phase : Phase Body}

theorem Others.frame {active : Option Nat} {response : Option Body}
    (h : Others parse c s active response) (hframe : Frame parse c s s') :
    Others parse c s' active response := by
  intro j slot hj hc hne
  rcases hframe.new j slot hj hc with hold | hidle
  · exact h j slot hold hc hne
  · exact Or.inl hidle

theorem Stage.frame (h : Stage parse c s) (hframe : Frame parse c s s') : Stage parse c s' := by
  have huncached : Uncached parse c s → Uncached parse c s' := fun hcache key hkey =>
    (hframe.cache key hkey).trans (hcache key hkey)
  cases h with
  | fresh hothers hexecs hcache =>
    exact .fresh (hothers.frame hframe) (hframe.executions.trans hexecs) (huncached hcache)
  | handling hi hc hphase hothers hexecs hcache =>
    have hi' := (hframe.old _ _ hi hc).resolve_left (by rw [hphase]; exact id)
    exact .handling hi' hc hphase (hothers.frame hframe) (hframe.executions.trans hexecs)
      (huncached hcache)
  | saving hi hc hphase hothers hexecs hcache =>
    have hi' := (hframe.old _ _ hi hc).resolve_left (by rw [hphase]; exact id)
    exact .saving hi' hc hphase (hothers.frame hframe) (hframe.executions.trans hexecs)
      (huncached hcache)
  | cached hi hc hphase hothers hexecs hcache =>
    have hi' := (hframe.old _ _ hi hc).resolve_left (by rw [hphase]; exact id)
    have hparse := (Request.route_of_identity hc).2.2
    exact .cached hi' hc hphase (hothers.frame hframe) (hframe.executions.trans hexecs)
      ((hframe.cache _ hparse).trans hcache)

/-- The step of another identity, or between idle phases. -/
theorem Frame.setPhase (hi : s.slots[i]? = some slot)
    (h : slot.request.identity parse ≠ some c ∨ (slot.phase.Idle ∧ phase.Idle)) :
    Frame parse c s (s.setPhase i slot phase) := by
  refine ⟨fun _ _ => rfl, rfl, fun j slot' hj hc => ?_, fun j slot' hj hc => ?_⟩
  · rcases setPhase_cases hi hj with ⟨rfl, rfl⟩ | ⟨-, hj⟩
    · rcases h with hne | ⟨-, hidle⟩
      · exact absurd hc hne
      · exact Or.inr hidle
    · exact Or.inl hj
  · by_cases hji : j = i
    · subst hji
      obtain rfl := Option.some.inj (hi.symm.trans hj)
      rcases h with hne | ⟨hidle, -⟩
      · exact absurd hc hne
      · exact Or.inl hidle
    · exact Or.inr ((setPhase_ne hji).trans hj)

/-! ## From stage to stage -/

theorem Frame.arrive (r : Request) :
    Frame parse c s { s with slots := s.slots ++ [⟨r, .received⟩] } := by
  refine ⟨fun _ _ => rfl, rfl, fun j slot hj _ => ?_, fun j slot hj _ => Or.inr ?_⟩
  · by_cases hlt : j < s.slots.length
    · exact Or.inl ((getElem?_append_left hlt).symm.trans hj)
    · rw [getElem?_append_right (Nat.le_of_not_lt hlt)] at hj
      rw [mem_singleton.mp (mem_of_getElem? hj)]
      exact Or.inr trivial
  · obtain ⟨hlt, -⟩ := List.getElem?_eq_some_iff.mp hj
    exact (getElem?_append_left hlt).trans hj

theorem executionsOf_record (parse : String → Option Uuid) (c : String × Uuid) (s : State Body)
    (e : Execution Body) :
    (s.record e).executionsOf parse c =
      if e.request.identity parse = some c then s.executionsOf parse c ++ [e]
      else s.executionsOf parse c := by
  by_cases he : e.request.identity parse = some c <;> simp [State.executionsOf, State.record, he]

theorem executionsOf_setPhase (c : String × Uuid) :
    (s.setPhase i slot phase).executionsOf parse c = s.executionsOf parse c := rfl

variable {now : Time}

/-- **A look-up** finds the response in the last stage only. -/
theorem Stage.lookup (h : Stage parse c s) (hi : s.slots[i]? = some slot)
    (hc : slot.request.identity parse = some c) (hphase : slot.phase = .received)
    (hturn : ∀ other ∈ s.slots, other.request.identity parse = some c → other.phase.inFlight =
      false ∧ (other.phase.isExecuted = true → other.request.key = slot.request.key))
    (hlife : ∀ e ∈ s.cache c.1 slot.request.key, now < e.expiresAt) :
    Stage parse c (s.setPhase i slot (State.lookupPhase parse s.cache slot.request now true)) := by
  obtain ⟨-, -, hparse⟩ := Request.route_of_identity hc
  rw [State.lookupPhase_of_identity hc]
  cases h with
  | fresh hothers hexecs hcache =>
    rw [Cache.get, hcache _ hparse]
    exact .handling (setPhase_self hi) hc rfl (hothers.activate hi) hexecs hcache
  | handling hi₀ hc₀ hphase₀ _ _ _ | saving hi₀ hc₀ hphase₀ _ _ _ =>
    have hflight := (hturn _ (mem_of_getElem? hi₀) hc₀).1
    rw [hphase₀] at hflight
    cases hflight
  | @cached i₀ slot₀ body expiresAt hi₀ hc₀ hphase₀ hothers hexecs hcache =>
    have hkey := (hturn _ (mem_of_getElem? hi₀) hc₀).2 (by rw [hphase₀]; rfl)
    have hget : s.cache.get c.1 slot.request.key now = some body := by
      rw [hkey] at hcache
      rw [Cache.get, hcache]
      exact if_pos (hlife _ hcache)
    rw [hget]
    have hne : i₀ ≠ i := by
      rintro rfl
      obtain rfl := Option.some.inj (hi.symm.trans hi₀)
      rw [hphase] at hphase₀
      cases hphase₀
    refine .cached ((setPhase_ne hne).trans hi₀) hc₀ hphase₀ ?_ hexecs hcache
    exact hothers.setPhase hi fun _ => Or.inr ⟨body, rfl, rfl⟩

/-- Who is in the handler is the one active request. -/
theorem Stage.of_handling (h : Stage parse c s) (hi : s.slots[i]? = some slot)
    (hc : slot.request.identity parse = some c) (hphase : slot.phase = .handling) :
    Others parse c s (some i) none ∧ s.executionsOf parse c = [] ∧ Uncached parse c s := by
  have hflight : slot.phase.inFlight = true := by rw [hphase]; rfl
  cases h with
  | fresh hothers _ _ => cases hothers.eq_active hi hc hflight
  | handling _ _ _ hothers hexecs hcache =>
    exact ⟨hothers.eq_active hi hc hflight ▸ hothers, hexecs, hcache⟩
  | saving hi₀ _ hphase₀ hothers _ _ | cached hi₀ _ hphase₀ hothers _ _ =>
    obtain ⟨rfl, rfl⟩ := hothers.eq_slot hi₀ hi hc hflight
    cases hphase.symm.trans hphase₀

/-- Who is about to save its response has executed the one store. -/
theorem Stage.of_saving (h : Stage parse c s) (hi : s.slots[i]? = some slot)
    (hc : slot.request.identity parse = some c) {body : Body} (hphase : slot.phase = .saving body) :
    Others parse c s (some i) none ∧ s.executionsOf parse c = [⟨i, slot.request, body⟩] := by
  have hflight : slot.phase.inFlight = true := by rw [hphase]; rfl
  cases h with
  | fresh hothers _ _ => cases hothers.eq_active hi hc hflight
  | handling hi₀ _ hphase₀ hothers _ _ | cached hi₀ _ hphase₀ hothers _ _ =>
    obtain ⟨rfl, rfl⟩ := hothers.eq_slot hi₀ hi hc hflight
    cases hphase.symm.trans hphase₀
  | saving hi₀ _ hphase₀ hothers hexecs _ =>
    obtain ⟨rfl, rfl⟩ := hothers.eq_slot hi₀ hi hc hflight
    obtain rfl := Phase.saving.inj (hphase.symm.trans hphase₀)
    exact ⟨hothers, hexecs⟩

/-- **The handler** of the one active request succeeds. -/
theorem Stage.stored (h : Stage parse c s) (hi : s.slots[i]? = some slot)
    (hc : slot.request.identity parse = some c) (hphase : slot.phase = .handling) (body : Body) :
    Stage parse c ((s.setPhase i slot (State.storedPhase parse slot.request body)).record
      ⟨i, slot.request, body⟩) := by
  obtain ⟨hothers, hexecs, hcache⟩ := h.of_handling hi hc hphase
  rw [State.storedPhase_of_identity hc]
  have hexecs' : State.executionsOf parse
      ((s.setPhase i slot (.saving body)).record ⟨i, slot.request, body⟩) c =
        [⟨i, slot.request, body⟩] := by
    rw [executionsOf_record, if_pos hc, executionsOf_setPhase, hexecs, nil_append]
  exact .saving (setPhase_self hi) hc rfl (hothers.setPhase hi fun hne => absurd rfl hne) hexecs'
    hcache

/-- The active request gives up before it has stored anything. -/
theorem Stage.giveUp (h : Stage parse c s) (hi : s.slots[i]? = some slot)
    (hc : slot.request.identity parse = some c) (hphase : slot.phase = .handling)
    (hidle : phase.Idle) : Stage parse c (s.setPhase i slot phase) := by
  obtain ⟨hothers, hexecs, hcache⟩ := h.of_handling hi hc hphase
  exact .fresh (hothers.deactivate hi (Or.inl hidle)) hexecs hcache

/-- **`Put`** makes the response known to everybody else. -/
theorem Stage.put (h : Stage parse c s) (hi : s.slots[i]? = some slot)
    (hc : slot.request.identity parse = some c) {body : Body} (hphase : slot.phase = .saving body)
    (now : Time) :
    Stage parse c ((s.setPhase i slot (.answered (.executed body))).setCache
      (s.cache.put slot.request.tenantId slot.request.key body now)) := by
  obtain ⟨hothers, hexecs⟩ := h.of_saving hi hc hphase
  have hcache : s.cache.put slot.request.tenantId slot.request.key body now c.1 slot.request.key =
      some ⟨body, now + idempotencyTTL⟩ :=
    (Request.route_of_identity hc).2.1 ▸ Cache.put_self _ _ _ _ _
  refine .cached (setPhase_self hi) hc rfl ?_ hexecs hcache
  exact (hothers.none_response (some body)).setPhase hi fun hne => absurd rfl hne

theorem Frame.record (h : Frame parse c s s') {e : Execution Body}
    (he : e.request.identity parse ≠ some c) : Frame parse c s (s'.record e) where
  cache := h.cache
  executions := by rw [executionsOf_record, if_neg he, h.executions]
  new := h.new
  old := h.old

/-- A response that is cached for another tenant or UUID. -/
theorem Frame.put (h : Frame parse c s s') {r : Request} {key : String}
    (hroute : r.route parse = .keyed key) (hne : r.identity parse ≠ some c) (body : Body)
    (now : Time) : Frame parse c s (s'.setCache (s.cache.put r.tenantId key body now)) where
  cache key' hkey' := by
    obtain ⟨-, u, hparse, hidentity⟩ := Request.identity_of_route hroute
    refine Cache.put_of_ne ?_ body now
    rintro ⟨htenant, rfl⟩
    obtain rfl := Option.some.inj (hparse.symm.trans hkey')
    exact hne (hidentity.trans (congrArg some (Prod.ext htenant.symm rfl)))
  executions := h.executions
  new := h.new
  old := h.old

theorem Stage.step_lookup (h : Stage parse c s) {ok : Bool}
    (hok : Orderly parse s (.lookup i now ok)) (hi : s.slots[i]? = some slot)
    (hphase : slot.phase = .received) :
    Stage parse c (s.setPhase i slot (State.lookupPhase parse s.cache slot.request now ok)) := by
  have hidle : slot.phase.Idle := by rw [hphase]; trivial
  by_cases hc : slot.request.identity parse = some c
  · cases ok with
    | true =>
      obtain ⟨hturn, hlife⟩ := hok slot hi c hc
      exact h.lookup hi hc hphase hturn hlife
    | false =>
      refine h.frame (.setPhase hi (Or.inr ⟨hidle, ?_⟩))
      simp [State.lookupPhase, (Request.route_of_identity hc).1, Phase.Idle]
  · exact h.frame (.setPhase hi (Or.inl hc))

theorem Stage.step_crash (h : Stage parse c s) (hok : Orderly parse s (.crash i))
    (hi : s.slots[i]? = some slot) (hunanswered : ∀ a, slot.phase ≠ .answered a) :
    Stage parse c (s.setPhase i slot .gone) := by
  by_cases hc : slot.request.identity parse = some c
  · cases hphase : slot.phase with
    | received | gone => exact h.frame (.setPhase hi (Or.inr ⟨by rw [hphase]; trivial, trivial⟩))
    | handling => exact h.giveUp hi hc hphase trivial
    | saving body =>
      have hsaving := hok slot hi
      rw [hphase] at hsaving
      cases hsaving
    | answered a => exact absurd hphase (hunanswered a)
  · exact h.frame (.setPhase hi (Or.inl hc))

theorem Stage.step (h : Stage parse c s) {a : Action Body} (hok : Orderly parse s a)
    (hs : State.step parse s a = some s') : Stage parse c s' := by
  cases State.effect_of_step hs with
  | arrived r => exact h.frame (.arrive r)
  | lookedUp hi hphase => exact h.step_lookup hok hi hphase
  | @stored i slot body hi hphase =>
    by_cases hc : slot.request.identity parse = some c
    · exact h.stored hi hc hphase body
    · exact h.frame (.record (.setPhase hi (Or.inl hc)) hc)
  | @refused i slot status hi hphase =>
    by_cases hc : slot.request.identity parse = some c
    · exact h.giveUp hi hc hphase trivial
    · exact h.frame (.setPhase hi (Or.inl hc))
  | @saved i slot body key now ok hi hphase hroute =>
    obtain rfl : ok = true := hok
    rw [if_pos rfl]
    by_cases hc : slot.request.identity parse = some c
    · rw [(Request.identity_of_route hroute).1]
      exact h.put hi hc hphase now
    · exact h.frame (.put (.setPhase hi (Or.inl hc)) hroute hc body now)
  | crashed hi hunanswered => exact h.step_crash hok hi hunanswered

theorem Stage.start : Stage parse c (State.start Body) :=
  .fresh nofun rfl fun _ _ => rfl

/-! ## Once -/

theorem Stage.length_executionsOf_le (h : Stage parse c s) :
    (s.executionsOf parse c).length ≤ 1 := by
  cases h with
  | fresh _ hexecs _ | handling _ _ _ _ hexecs _ =>
    rw [hexecs]
    exact Nat.zero_le 1
  | saving _ _ _ _ hexecs _ | cached _ _ _ _ hexecs _ =>
    rw [hexecs]
    exact Nat.le_refl 1

theorem Phase.Quiet.answered {response : Option Body} {a : Answer Body}
    (h : Phase.Quiet response (.answered a)) :
    (∃ body, response = some body ∧ a = .replayed body) ∨ ∃ status, a = .failed status := by
  rcases h with hidle | ⟨body, hresponse, ha⟩
  · cases a with
    | executed body | replayed body => exact hidle.elim
    | failed status => exact Or.inr ⟨status, rfl⟩
  · exact Or.inl ⟨body, hresponse, Phase.answered.inj ha⟩

/-- Who did not execute the store gets its response, or an error. -/
theorem Stage.replayed (h : Stage parse c s) {e : Execution Body}
    (he : e ∈ s.executionsOf parse c) {j : Nat} (hj : s.slots[j]? = some slot)
    (hc : slot.request.identity parse = some c) {a : Answer Body} (ha : slot.phase = .answered a)
    (hne : j ≠ e.slot) : a = .replayed e.body ∨ ∃ status, a = .failed status := by
  have hother : ∀ {i : Nat} {response : Option Body}, Others parse c s (some i) response →
      e.slot = i → (∃ body, response = some body ∧ a = .replayed body) ∨
        ∃ status, a = .failed status := fun {i response} hothers hslot =>
    Phase.Quiet.answered
      (ha ▸ hothers j slot hj hc fun h => hne ((Option.some.inj h).trans hslot.symm))
  cases h with
  | fresh _ hexecs _ | handling _ _ _ _ hexecs _ =>
    rw [hexecs] at he
    cases he
  | saving _ _ _ hothers hexecs _ =>
    rw [hexecs] at he
    obtain rfl := mem_singleton.mp he
    rcases hother hothers rfl with ⟨body, hnone, -⟩ | hfailed
    · cases hnone
    · exact Or.inr hfailed
  | cached _ _ _ hothers hexecs _ =>
    rw [hexecs] at he
    obtain rfl := mem_singleton.mp he
    rcases hother hothers rfl with ⟨body, hbody, hreplayed⟩ | hfailed
    · exact Or.inl (Option.some.inj hbody ▸ hreplayed)
    · exact Or.inr hfailed

end

/-! ## Without faults -/

/-- The look-up and the handler succeed. -/
def Faultless : Action Body → Prop
  | .lookup _ _ ok => ok = true
  | .handle _ (.failed _) => False
  | .handle _ (.stored _) | .arrive _ | .put .. | .crash _ => True

instance : (a : Action Body) → Decidable (Faultless a)
  | .lookup _ _ ok => inferInstanceAs (Decidable (ok = true))
  | .handle _ (.failed _) => isFalse id
  | .handle _ (.stored _) | .arrive _ | .put .. | .crash _ => isTrue trivial

section

variable {parse : String → Option Uuid} {c : String × Uuid} {s s' : State Body} {i : Nat}
  {slot : Slot Body} {phase : Phase Body}

/-- No request of the tenant and UUID was answered with an error. -/
def Unfailed (parse : String → Option Uuid) (c : String × Uuid) (s : State Body) : Prop :=
  ∀ slot ∈ s.slots, slot.request.identity parse = some c →
    ∀ status, slot.phase ≠ .answered (.failed status)

theorem Unfailed.setPhase (h : Unfailed parse c s)
    (hphase : slot.request.identity parse = some c → ∀ status, phase ≠ .answered (.failed status)) :
    Unfailed parse c (s.setPhase i slot phase) :=
  forall_mem_set h hphase

theorem lookupPhase_ne_failed (hc : slot.request.identity parse = some c) (cache : Cache Body)
    (now : Time) (status : Nat) :
    State.lookupPhase parse cache slot.request now true ≠ .answered (.failed status) := by
  rw [State.lookupPhase_of_identity hc]
  split <;> exact nofun

theorem Unfailed.step (h : Unfailed parse c s) {a : Action Body} (hok : Faultless a)
    (hs : State.step parse s a = some s') : Unfailed parse c s' := by
  cases State.effect_of_step hs with
  | arrived r =>
    exact forall_mem_concat h fun _ _ => nofun
  | @lookedUp i slot now ok hi hphase =>
    obtain rfl : ok = true := hok
    exact h.setPhase fun hc => lookupPhase_ne_failed hc s.cache now
  | stored hi hphase =>
    refine h.setPhase fun hc status => ?_
    rw [State.storedPhase_of_identity hc]
    exact nofun
  | refused _ _ => exact hok.elim
  | saved _ _ _ | crashed _ _ => exact h.setPhase fun _ _ => nofun

end

/-- **A store is executed once** if requests with one UUID take turns with one spelling, within the
lifetime of the cache, and nothing fails; every other request gets a replay. -/
theorem store_executed_once [DecidableEq Uuid] {parse : String → Option Uuid} {s : State Body}
    (hrun : Steps (State.step parse) (fun s a => Orderly parse s a ∧ Faultless a) (.start Body) s)
    (c : String × Uuid) :
    (s.executionsOf parse c).length ≤ 1 ∧
      ∀ e ∈ s.executionsOf parse c, ∀ (j : Nat) (slot : Slot Body) (a : Answer Body),
        s.slots[j]? = some slot → slot.request.identity parse = some c →
        slot.phase = .answered a → j ≠ e.slot → a = .replayed e.body := by
  have hstage : Stage parse c s := hrun.invariant (fun _ _ _ h hok hs => h.step hok.1 hs) .start
  have hunfailed : Unfailed parse c s :=
    hrun.invariant (fun _ _ _ h hok hs => h.step hok.2 hs) nofun
  refine ⟨hstage.length_executionsOf_le, fun e he j slot a hj hc ha hne => ?_⟩
  rcases hstage.replayed he hj hc ha hne with hreplayed | ⟨status, rfl⟩
  · exact hreplayed
  · exact absurd ha (hunfailed slot (mem_of_getElem? hj) hc status)

/-! ## Two requests -/

def isHexDigit (c : Char) : Bool :=
  ('0' ≤ c ∧ c ≤ '9') ∨ ('a' ≤ c ∧ c ≤ 'f') ∨ ('A' ≤ c ∧ c ≤ 'F')

/-- `uuid.Parse` on the plain and the hyphenated form. -/
def parseUuid (s : String) : Option (List Char) :=
  let digits := s.toList.filter fun c => c ≠ '-'
  if (s.toList.length = 32 ∨ s.toList.length = 36) ∧ digits.length = 32 ∧ digits.all isHexDigit then
    some (digits.map Char.toLower)
  else none

def lowerKey : String := "6ba7b810-9dad-11d1-80b4-00c04fd430c8"

def upperKey : String := "6BA7B810-9DAD-11D1-80B4-00C04FD430C8"

def arrivals (first second : String) : List (Action Nat) :=
  [.arrive ⟨"t", first⟩, .arrive ⟨"t", second⟩]

def stateAfter (acts : List (Action Nat)) : State Nat :=
  (runAll (State.step parseUuid) (.start Nat) acts).getD (.start Nat)

def inTurn (first second : String) : List (Action Nat) :=
  arrivals first second ++
    [.lookup 0 0 true, .handle 0 (.stored 7), .put 0 0 true, .lookup 1 hour true]

theorem second_request_replayed :
    ∃ slot, (stateAfter (inTurn lowerKey lowerKey)).slots[1]? = some slot ∧
      ∃ a, slot.phase = .answered a ∧ a = .replayed 7 := by
  have hrun : Steps (State.step parseUuid) (fun s a => Orderly parseUuid s a ∧ Faultless a)
      (.start Nat) (stateAfter (inTurn lowerKey lowerKey)) :=
    steps_runAll (.refl _)
      (show runAll (guarded _ fun s a => Orderly parseUuid s a ∧ Faultless a) _
        (inTurn lowerKey lowerKey) = some _ from rfl)
  have honce := (store_executed_once hrun ("t", lowerKey.toList.filter fun c => c ≠ '-')).2
  refine ⟨_, rfl, _, rfl, ?_⟩
  exact honce ⟨0, ⟨"t", lowerKey⟩, 7⟩ (by decide +kernel) 1 _ _ rfl (by decide +kernel) rfl
    (by decide)

/-- Both requests look before either has stored. -/
def overlapping (key : String) : List (Action Nat) :=
  arrivals key key ++
    [.lookup 0 0 true, .lookup 1 0 true, .handle 0 (.stored 7), .handle 1 (.stored 8),
     .put 0 0 true, .put 1 0 true]

/-- The requests take their turn, in two spellings. -/
def respelled : List (Action Nat) := inTurn lowerKey upperKey ++ [.handle 1 (.stored 8)]

/-- **The store is executed twice** by overlapping requests, and by two spellings. -/
theorem store_executed_twice :
    (∃ s, Reaches (State.step parseUuid) (.start Nat) s ∧ ∃ c, s.executionsOf parseUuid c =
      [⟨0, ⟨"t", lowerKey⟩, 7⟩, ⟨1, ⟨"t", lowerKey⟩, 8⟩]) ∧
    ∃ s, Reaches (State.step parseUuid) (.start Nat) s ∧ ∃ c, s.executionsOf parseUuid c =
      [⟨0, ⟨"t", lowerKey⟩, 7⟩, ⟨1, ⟨"t", upperKey⟩, 8⟩] := by
  have hrun : ∀ acts l, (∃ s ∈ runAll (State.step parseUuid) (.start Nat) acts, s.executionsOf
      parseUuid ("t", lowerKey.toList.filter fun c => c ≠ '-') = l) →
      ∃ s, Reaches (State.step parseUuid) (.start Nat) s ∧ ∃ c, s.executionsOf parseUuid c = l :=
    fun _ _ ⟨s, hs, hl⟩ => ⟨s, reaches_runAll (.refl _) hs, _, hl⟩
  exact ⟨hrun (overlapping lowerKey) _ (by decide +kernel), hrun respelled _ (by decide +kernel)⟩

end Pcmi.Middleware
