import Pcmi.Events.Ingest

/-!
# Delivery of events

An event leaves through a Redis stream or a pub/sub channel and has three readers: the webhook
notifier of the publishing process, the event streams of the API (`eventAllowed`) and the worker.
Each reads the tenant from the payload in its own way.
-/

namespace Pcmi.Events

/-! ## Transport -/

/-- A stream entry; `data` gives back the event marshalled into it. -/
structure StreamMessage where
  id : String
  typeField : Option String
  data : Option Event

/-- The entry that `StreamPublisher.Publish` adds; Redis assigns `id`. -/
def streamMessage (id : String) (evt : Event) : StreamMessage :=
  ⟨id, some evt.type, some evt⟩

def decodeStreamMessage (msg : StreamMessage) : Except String Event :=
  match msg.data with
  | none => .error "missing \"data\" field"
  | some evt =>
    .ok
      { type := if evt.type = "" then msg.typeField.getD "" else evt.type
        payload := evt.payload.insert "stream_id" (.str msg.id) }

/-- What a subscriber of either backend reads of `evt`. -/
inductive Delivered (evt : Event) : Event → Prop
  | pubsub : Delivered evt evt
  | stream {id : String} {evt' : Event} (h : decodeStreamMessage (streamMessage id evt) =
    .ok evt') :
      Delivered evt evt'

/-! ## Readers -/

/-- The calls of the registered notifier, as tenant and event. -/
def notifyWebhook (registered : Bool) (evt : Event) : List (String × Event) :=
  if registered then
    match evt.payload.lookup "tenant_id" with
    | some (.str tenantId) => if tenantId ≠ "" then [(tenantId, evt)] else []
    | _ => []
  else []

/-- `eventAllowed`: whether the stream of `tenantId` shows the event. -/
def eventAllowed (evt : Event) (allowed : Option (List String)) (tenantId : String) : Bool :=
  let typeAllowed :=
    match allowed with
    | none => true
    | some types => types.contains evt.type
  if !typeAllowed then false
  else if tenantId = "" then true
  else
    match evt.payload.lookup "tenant_id" with
    | some (.str evtTenant) => if evtTenant ≠ "" then evtTenant == tenantId else true
    | _ => true

/-- A call that the worker makes for an event. -/
inductive WorkerCall where
  | policyEngine (tenantId path : String)
  | consolidation (tenantId path : String)
  | contradiction (tenantId path : String)
  | extraction (tenantId path : String) (memoryId version : Int)
  | distillation (tenantId pathPrefix : String)

def WorkerCall.tenantId : WorkerCall → String
  | .policyEngine t _ | .consolidation t _ | .contradiction t _ | .extraction t _ _ _
  | .distillation t _ => t

structure WorkerConfig where
  policyEngine : Bool
  contradiction : Bool
  extraction : Bool

def asInt : Option Json → Int
  | some (.num m scale) => m.tdiv (10 ^ scale)
  | _ => 0

/-- `handleMemoryEvent` of the worker. -/
def handleMemoryEvent (cfg : WorkerConfig) (evt : Event) : List WorkerCall :=
  let tenantId := Json.asString (evt.payload.lookup "tenant_id")
  if evt.type = "memory.stored" || evt.type = "memory.updated" then
    let path := Json.asString (evt.payload.lookup "path")
    (if cfg.policyEngine then [.policyEngine tenantId path] else []) ++
      [.consolidation tenantId path] ++
      (if cfg.contradiction then [.contradiction tenantId path] else []) ++
      (if cfg.extraction then
        [.extraction tenantId path (asInt (evt.payload.lookup "id"))
          (asInt (evt.payload.lookup "version"))]
      else [])
  else if evt.type = "memory.refine.requested" then
    [.distillation tenantId (Json.asString (evt.payload.lookup "path_prefix"))]
  else []

/-! ## Isolation -/

variable {evt : Event} {tenantId : TenantId}

theorem Delivered.ownedBy {evt' : Event} (h : Delivered evt evt')
    (hown : OwnedBy tenantId evt.payload) : OwnedBy tenantId evt'.payload := by
  cases h with
  | pubsub => exact hown
  | stream h =>
    cases h
    exact hown.insert (by decide) _

theorem notifyWebhook_ownedBy (h : OwnedBy tenantId evt.payload) (registered : Bool) :
    notifyWebhook registered evt = if registered then [(tenantId.text, evt)] else [] := by
  unfold notifyWebhook
  rw [h]
  simp [tenantId.nonempty]

theorem eventAllowed_ownedBy {other : TenantId} (h : OwnedBy tenantId evt.payload)
    (hne : other.text ≠ tenantId.text) (allowed : Option (List String)) :
    eventAllowed evt allowed other.text = false := by
  unfold eventAllowed
  rw [h]
  simp [tenantId.nonempty, other.nonempty, hne.symm]

theorem handleMemoryEvent_ownedBy (h : OwnedBy tenantId evt.payload) (cfg : WorkerConfig) :
    ∀ call ∈ handleMemoryEvent cfg evt, call.tenantId = tenantId.text := by
  have htenant : Json.asString (evt.payload.lookup "tenant_id") = tenantId.text := by
    rw [h]
    rfl
  intro call hcall
  simp only [handleMemoryEvent, htenant] at hcall
  split at hcall
  · simp only [List.mem_append] at hcall
    rcases hcall with ((hcall | hcall) | hcall) | hcall
    · split at hcall <;> simp_all [WorkerCall.tenantId]
    · simp_all [WorkerCall.tenantId]
    · split at hcall <;> simp_all [WorkerCall.tenantId]
    · split at hcall <;> simp_all [WorkerCall.tenantId]
  · split at hcall <;> simp_all [WorkerCall.tenantId]

/-- **An accepted event reaches its own tenant only**: payload, webhook, streams and worker calls
are the authenticated tenant's. -/
theorem ingest_isolates {db : InsertResult} {req : IngestEventRequest} {tenantId : TenantId}
    {evt : Event} (h : ingest db req tenantId = .ok evt) :
    evt.payload.lookup "tenant_id" = some (.str tenantId.text) ∧
    (∀ registered, notifyWebhook registered evt =
      if registered then [(tenantId.text, evt)] else []) ∧
    ∀ evt', Delivered evt evt' →
      (∀ (other : TenantId) allowed, other.text ≠ tenantId.text →
        eventAllowed evt' allowed other.text = false) ∧
      ∀ cfg, ∀ call ∈ handleMemoryEvent cfg evt', call.tenantId = tenantId.text := by
  have hown := ingest_ownedBy h
  refine ⟨hown, notifyWebhook_ownedBy hown, fun evt' hdel => ?_⟩
  have hown' := hdel.ownedBy hown
  exact ⟨fun other allowed hne => eventAllowed_ownedBy hown' hne allowed,
    handleMemoryEvent_ownedBy hown'⟩

def forgedRequest : IngestEventRequest where
  eventType := " memory.refine.requested "
  payload := some ((AList.singleton "tenant_id" (.str "other")).insert "path_prefix" (.str "root"))

theorem ingest_isolates_forgedRequest :
    ∃ evt, ingest (.ok ("1", "now")) forgedRequest ⟨"tenant", by decide⟩ = .ok evt ∧
      evt.type = "memory.refine.requested" ∧
      evt.payload.lookup "tenant_id" = some (.str "tenant") ∧
      eventAllowed evt none "other" = false := by
  have hok : ∃ evt, ingest (.ok ("1", "now")) forgedRequest ⟨"tenant", by decide⟩ = .ok evt ∧
      evt.type = "memory.refine.requested" := ⟨_, rfl, rfl⟩
  obtain ⟨evt, hevt, htype⟩ := hok
  obtain ⟨htenant, -, hread⟩ := ingest_isolates hevt
  exact ⟨evt, hevt, htype, htenant,
    (hread evt .pubsub).1 ⟨"other", by decide⟩ none (by decide)⟩

end Pcmi.Events
