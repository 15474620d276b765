import Pcmi.Go.Space
import Pcmi.Values

/-!
# Ingesting an event

`EventService.Ingest` checks a payload against the schema registry, persists and publishes it.
`EventRepository.Insert` writes the authenticated tenant into the very map that `Ingest` then
publishes; the model returns that map.
-/

namespace Pcmi.Events

open Pcmi.Go

/-! ## The schema registry -/

/-- A registered event type; of its fields, the names of the required ones. -/
structure Schema where
  eventType : String
  strict : Bool
  required : List String

def registry : List Schema :=
  [⟨"memory.stored", true, ["id", "tenant_id", "path", "version"]⟩,
   ⟨"memory.updated", true, ["id", "tenant_id", "path", "version", "superseded_id"]⟩,
   ⟨"knowledge.distilled", true, ["tenant_id", "path"]⟩,
   ⟨"agent.step.completed", true, ["step"]⟩,
   ⟨"agent.step.failed", true, ["step", "error"]⟩,
   ⟨"tool.call.executed", true, ["tool"]⟩,
   ⟨"workflow.finished", false, []⟩,
   ⟨"reasoning.generated", false, []⟩,
   ⟨"contradiction.detected", true, ["tenant_id", "from_path", "to_path", "confidence"]⟩]

def missingFields (schema : Schema) (payload : JsonMap) : List String :=
  schema.required.filter fun name => (payload.lookup name).isNone

def validate (eventType : String) (payload : JsonMap) : Except String Unit :=
  let eventType := trimSpaceText eventType
  if eventType = "" then .error "event_type is required"
  else
    match registry.find? fun schema => schema.eventType == eventType with
    | none => .ok ()
    | some schema =>
      if !schema.strict then .ok ()
      else
        let missing := missingFields schema payload
        if missing = [] then .ok ()
        else .error ("payload missing required fields for " ++ eventType ++ ": " ++
          ", ".intercalate missing)

/-! ## Ingest -/

/-- A tenant id from the database: a `uuid` text, never empty. -/
structure TenantId where
  text : String
  nonempty : text ≠ ""

structure IngestEventRequest where
  eventType : String
  agentId : String := ""
  correlationId : String := ""
  payload : Option JsonMap := none

/-- `for k, v := range payload { base[k] = v }`. -/
def copyInto (payload base : JsonMap) : JsonMap :=
  payload.foldl (fun m k v => m.insert k v) base

/-- What `INSERT INTO events` returns: id and timestamp, or an error. -/
abbrev InsertResult := Except String (String × String)

/-- `EventRepository.Insert`: the caller's map afterwards, and the result. -/
def insert (db : InsertResult) (tenantId : TenantId) (eventType : String) (payload : JsonMap) :
    JsonMap × InsertResult :=
  if trimSpaceText eventType = "" then (payload, .error "event_type is required")
  else (payload.insert "tenant_id" (.str tenantId.text), db.mapError ("insert event: " ++ ·))

/-- An event on the bus. -/
structure Event where
  type : String
  payload : JsonMap

/-- `EventService.Ingest`, up to the event handed to `event.PublishEvent`. -/
def ingest (db : InsertResult) (req : IngestEventRequest) (tenantId : TenantId) :
    Except String Event :=
  let eventType := trimSpaceText req.eventType
  if eventType = "" then .error "event_type is required"
  else
    match validate eventType (req.payload.getD ∅) with
    | .error e => .error e
    | .ok () =>
      let payload := req.payload.getD ∅
      let payload :=
        if req.correlationId ≠ "" then payload.insert "correlation_id" (.str req.correlationId)
        else payload
      let agentId := trimSpaceText req.agentId
      match insert db tenantId eventType payload with
      | (_, .error e) => .error e
      | (payload, .ok (id, ts)) =>
        let base : JsonMap :=
          ((AList.singleton "id" (.str id)).insert "tenant_id" (.str tenantId.text)).insert
            "timestamp" (.str ts)
        let redisPayload := copyInto payload base
        let redisPayload :=
          if agentId ≠ "" then redisPayload.insert "agent_id" (.str agentId) else redisPayload
        .ok ⟨eventType, redisPayload⟩

/-! ## The tenant of the published payload -/

theorem lookup_foldl_insert (k : String) :
    ∀ (l : List (Sigma fun _ : String => Json)) (base : JsonMap), l.NodupKeys →
      (l.foldl (fun m e => m.insert e.1 e.2) base).lookup k =
        (l.dlookup k).or (base.lookup k)
  | [], base, _ => by simp
  | ⟨k', v⟩ :: rest, base, hnodup => by
    obtain ⟨hfresh, hrest⟩ := List.nodupKeys_cons.mp hnodup
    rw [List.foldl_cons, lookup_foldl_insert k rest _ hrest]
    by_cases hk : k = k'
    · subst hk
      have hnone : rest.dlookup k = none := List.dlookup_eq_none.mpr hfresh
      rw [hnone, AList.lookup_insert, List.dlookup_cons_eq]
      rfl
    · rw [AList.lookup_insert_ne hk, List.dlookup_cons_ne _ _ hk]

theorem lookup_copyInto (payload base : JsonMap) (k : String) :
    (copyInto payload base).lookup k = (payload.lookup k).or (base.lookup k) :=
  lookup_foldl_insert k payload.entries base payload.nodupKeys

def OwnedBy (tenantId : TenantId) (payload : JsonMap) : Prop :=
  payload.lookup "tenant_id" = some (.str tenantId.text)

theorem OwnedBy.insert {tenantId : TenantId} {payload : JsonMap} (h : OwnedBy tenantId payload)
    {k : String} (hk : "tenant_id" ≠ k) (v : Json) : OwnedBy tenantId (payload.insert k v) := by
  unfold OwnedBy
  rw [AList.lookup_insert_ne hk]
  exact h

variable {tenantId : TenantId} {payload : JsonMap} {db : InsertResult}

theorem OwnedBy.copyInto (h : OwnedBy tenantId payload) (base : JsonMap) :
    OwnedBy tenantId (copyInto payload base) := by
  unfold OwnedBy
  rw [lookup_copyInto, h]
  rfl

theorem insert_ownedBy {eventType : String} {payload' : JsonMap} {r : String × String}
    (h : Events.insert db tenantId eventType payload = (payload', .ok r)) :
    OwnedBy tenantId payload' := by
  unfold Events.insert at h
  split at h
  · cases h
  · obtain ⟨rfl, -⟩ := Prod.mk.inj h
    exact AList.lookup_insert payload

/-- **Every accepted event is published under the authenticated tenant.** -/
theorem ingest_ownedBy {req : IngestEventRequest} {evt : Event}
    (h : ingest db req tenantId = .ok evt) : OwnedBy tenantId evt.payload := by
  simp only [ingest] at h
  split at h
  · cases h
  split at h
  · cases h
  split at h <;> cases h
  next hins =>
  have hcopy := (insert_ownedBy hins).copyInto
  split
  · exact (hcopy _).insert (by decide) _
  · exact hcopy _

end Pcmi.Events
