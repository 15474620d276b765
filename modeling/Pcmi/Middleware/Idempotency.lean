import Mathlib.Data.Option.Basic
import Pcmi.Go.Space
import Pcmi.Lib.Steps
import Pcmi.Values

/-!
# Idempotency keys

`POST /v1/memories` runs behind a middleware: look for a cached response under the tenant and the
key, run the handler, cache its response. Requests interleave between the three statements. The key
is checked to be a UUID (`uuid.Parse` is a parameter) and used as the text that was sent.

A response is its JSON value, since the column is `jsonb`.
-/

namespace Pcmi.Middleware

open Pcmi.Go Option

def idempotencyTTL : Time := 24 * hour

/-! ## Requests -/

/-- The authenticated tenant and the `X-Idempotency-Key` header. -/
structure Request where
  tenantId : String
  header : String
  deriving DecidableEq

/-- What the middleware does with a request. -/
inductive Route where
  /-- To the handler, without the cache. -/
  | bypass
  | invalid
  | keyed (key : String)

namespace Request

variable {Uuid : Type} (parse : String → Option Uuid)

def key (r : Request) : String := trimSpaceText r.header

def route (r : Request) : Route :=
  if r.key = "" then .bypass
  else
    match parse r.key with
    | none => .invalid
    | some _ => if r.tenantId = "" then .bypass else .keyed r.key

/-- The tenant and the UUID of a request that uses the cache. -/
def identity (r : Request) : Option (String × Uuid) :=
  match r.route parse with
  | .keyed key => (parse key).map fun u => (r.tenantId, u)
  | .bypass | .invalid => none

variable {parse} {r : Request}

theorem route_of_identity {c : String × Uuid} (h : r.identity parse = some c) :
    r.route parse = .keyed r.key ∧ r.tenantId = c.1 ∧ parse r.key = some c.2 := by
  unfold identity at h
  unfold route at h ⊢
  split
  · next hkey =>
    rw [if_pos hkey] at h
    cases h
  · next hkey =>
    rw [if_neg hkey] at h
    split
    · next hparse =>
      rw [hparse] at h
      cases h
    · next u hparse =>
      rw [hparse] at h
      split
      · next htenant =>
        rw [if_pos htenant] at h
        cases h
      · next htenant =>
        simp only [if_neg htenant, hparse, map_some, Option.some.injEq] at h
        exact ⟨rfl, by rw [← h], by rw [hparse, ← h]⟩

theorem identity_of_route {key : String} (h : r.route parse = .keyed key) :
    key = r.key ∧ ∃ u, parse key = some u ∧ r.identity parse = some (r.tenantId, u) := by
  have hroute := h
  unfold route at h
  split at h
  · cases h
  split at h
  · cases h
  next u hparse =>
  split at h <;> cases h
  refine ⟨rfl, u, hparse, ?_⟩
  simp only [identity, hroute, hparse, map_some]

end Request

/-! ## The cache -/

structure CacheEntry (Body : Type) where
  response : Body
  expiresAt : Time

/-- `idempotency_cache` by its primary key, the tenant and the key. -/
abbrev Cache (Body : Type) := String → String → Option (CacheEntry Body)

namespace Cache

variable {Body : Type}

def get (cache : Cache Body) (tenantId key : String) (now : Time) : Option Body :=
  (cache tenantId key).bind fun e => if now < e.expiresAt then some e.response else none

def put (cache : Cache Body) (tenantId key : String) (response : Body) (now : Time) : Cache Body :=
  fun tenantId' key' =>
    if tenantId' = tenantId ∧ key' = key then some ⟨response, now + idempotencyTTL⟩
    else cache tenantId' key'

theorem put_self (cache : Cache Body) (tenantId key : String) (response : Body) (now : Time) :
    cache.put tenantId key response now tenantId key = some ⟨response, now + idempotencyTTL⟩ :=
  if_pos ⟨rfl, rfl⟩

theorem put_of_ne {cache : Cache Body} {tenantId key tenantId' key' : String}
    (h : ¬ (tenantId' = tenantId ∧ key' = key)) (response : Body) (now : Time) :
    cache.put tenantId key response now tenantId' key' = cache tenantId' key' :=
  if_neg h

end Cache

/-! ## The middleware -/

inductive Answer (Body : Type) where
  /-- By the handler, with status 200. -/
  | executed (body : Body)
  | replayed (body : Body)
  | failed (status : Nat)

/-- Where a request is. -/
inductive Phase (Body : Type) where
  | received
  /-- Behind a look-up that found nothing. -/
  | handling
  /-- Behind the handler, before `Put`. -/
  | saving (body : Body)
  | answered (a : Answer Body)
  | gone

structure Slot (Body : Type) where
  request : Request
  phase : Phase Body

/-- A run of the handler to a successful response. -/
structure Execution (Body : Type) where
  slot : Nat
  request : Request
  body : Body
  deriving DecidableEq

structure State (Body : Type) where
  cache : Cache Body
  slots : List (Slot Body)
  executions : List (Execution Body)

def State.start (Body : Type) : State Body := ⟨fun _ _ => none, [], []⟩

/-- What the store handler answers. -/
inductive Handled (Body : Type) where
  | stored (body : Body)
  | failed (status : Nat)

inductive Action (Body : Type) where
  | arrive (r : Request)
  /-- The middleware up to the handler; with `ok = false` the query fails. -/
  | lookup (i : Nat) (now : Time) (ok : Bool)
  | handle (i : Nat) (result : Handled Body)
  | put (i : Nat) (now : Time) (ok : Bool)
  | crash (i : Nat)

namespace State

variable {Body Uuid : Type} (parse : String → Option Uuid)

def setPhase (s : State Body) (i : Nat) (slot : Slot Body) (phase : Phase Body) : State Body :=
  { s with slots := s.slots.set i { slot with phase } }

def record (s : State Body) (e : Execution Body) : State Body :=
  { s with executions := s.executions ++ [e] }

def setCache (s : State Body) (cache : Cache Body) : State Body := { s with cache }

def lookupPhase (cache : Cache Body) (r : Request) (now : Time) (ok : Bool) : Phase Body :=
  match r.route parse with
  | .bypass => .handling
  | .invalid => .answered (.failed 400)
  | .keyed key =>
    if ok then
      match cache.get r.tenantId key now with
      | some body => .answered (.replayed body)
      | none => .handling
    else .answered (.failed 500)

def storedPhase (r : Request) (body : Body) : Phase Body :=
  match r.route parse with
  | .keyed _ => .saving body
  | .bypass | .invalid => .answered (.executed body)

section

variable {parse} {r : Request} {c : String × Uuid}

theorem lookupPhase_of_identity (hc : r.identity parse = some c) (cache : Cache Body)
    (now : Time) :
    lookupPhase parse cache r now true =
      match cache.get c.1 r.key now with
      | some body => .answered (.replayed body)
      | none => .handling := by
  obtain ⟨hroute, htenant, -⟩ := Request.route_of_identity hc
  simp only [lookupPhase, hroute, htenant, if_true]

theorem storedPhase_of_identity (hc : r.identity parse = some c) (body : Body) :
    storedPhase parse r body = .saving body := by
  rw [storedPhase, (Request.route_of_identity hc).1]

end

def step (s : State Body) : Action Body → Option (State Body)
  | .arrive r => some { s with slots := s.slots ++ [⟨r, .received⟩] }
  | .lookup i now ok =>
    (s.slots[i]?).bind fun slot =>
      match slot.phase with
      | .received => some (s.setPhase i slot (lookupPhase parse s.cache slot.request now ok))
      | _ => none
  | .handle i result =>
    (s.slots[i]?).bind fun slot =>
      match slot.phase, result with
      | .handling, .stored body =>
        some ((s.setPhase i slot (storedPhase parse slot.request body)).record
          ⟨i, slot.request, body⟩)
      | .handling, .failed status => some (s.setPhase i slot (.answered (.failed status)))
      | _, _ => none
  | .put i now ok =>
    (s.slots[i]?).bind fun slot =>
      match slot.phase, slot.request.route parse with
      | .saving body, .keyed key =>
        some ((s.setPhase i slot (.answered (.executed body))).setCache
          (if ok then s.cache.put slot.request.tenantId key body now else s.cache))
      | _, _ => none
  | .crash i =>
    (s.slots[i]?).bind fun slot =>
      match slot.phase with
      | .answered _ => none
      | _ => some (s.setPhase i slot .gone)

/-- What a step can do. -/
inductive Effect (s : State Body) : Action Body → State Body → Prop where
  | arrived (r : Request) : Effect s (.arrive r) { s with slots := s.slots ++ [⟨r, .received⟩] }
  | lookedUp {i : Nat} {slot : Slot Body} {now : Time} {ok : Bool} (hi : s.slots[i]? = some slot)
      (hphase : slot.phase = .received) :
      Effect s (.lookup i now ok)
        (s.setPhase i slot (lookupPhase parse s.cache slot.request now ok))
  | stored {i : Nat} {slot : Slot Body} {body : Body} (hi : s.slots[i]? = some slot)
      (hphase : slot.phase = .handling) :
      Effect s (.handle i (.stored body))
        ((s.setPhase i slot (storedPhase parse slot.request body)).record ⟨i, slot.request, body⟩)
  | refused {i : Nat} {slot : Slot Body} {status : Nat} (hi : s.slots[i]? = some slot)
      (hphase : slot.phase = .handling) :
      Effect s (.handle i (.failed status)) (s.setPhase i slot (.answered (.failed status)))
  | saved {i : Nat} {slot : Slot Body} {body : Body} {key : String} {now : Time} {ok : Bool}
      (hi : s.slots[i]? = some slot) (hphase : slot.phase = .saving body)
      (hroute : slot.request.route parse = .keyed key) :
      Effect s (.put i now ok)
        ((s.setPhase i slot (.answered (.executed body))).setCache
          (if ok then s.cache.put slot.request.tenantId key body now else s.cache))
  | crashed {i : Nat} {slot : Slot Body} (hi : s.slots[i]? = some slot)
      (hunanswered : ∀ a, slot.phase ≠ .answered a) :
      Effect s (.crash i) (s.setPhase i slot .gone)

variable {parse} in
theorem effect_of_step {s s' : State Body} {a : Action Body} (h : s.step parse a = some s') :
    s.Effect parse a s' := by
  cases a with
  | arrive r =>
    cases h
    exact .arrived r
  | lookup i now ok =>
    obtain ⟨slot, hi, hstep⟩ := bind_eq_some_iff.mp h
    split at hstep
    · next hphase =>
      rw [← Option.some.inj hstep]
      exact .lookedUp hi hphase
    · cases hstep
  | handle i result =>
    obtain ⟨slot, hi, hstep⟩ := bind_eq_some_iff.mp h
    split at hstep
    · next hphase =>
      rw [← Option.some.inj hstep]
      exact .stored hi hphase
    · next hphase =>
      rw [← Option.some.inj hstep]
      exact .refused hi hphase
    · cases hstep
  | put i now ok =>
    obtain ⟨slot, hi, hstep⟩ := bind_eq_some_iff.mp h
    split at hstep
    · next hphase hroute =>
      rw [← Option.some.inj hstep]
      exact .saved hi hphase hroute
    · cases hstep
  | crash i =>
    obtain ⟨slot, hi, hstep⟩ := bind_eq_some_iff.mp h
    split at hstep
    · cases hstep
    next hunanswered =>
    rw [← Option.some.inj hstep]
    exact .crashed hi hunanswered

end State

end Pcmi.Middleware
