import Pcmi.Lib.Search
import Pcmi.Session.Promote

/-!
# `SessionService`

`StoreMemory` and `Promote` read the session and refuse when it has ended; the write follows in a
transaction of its own. `End` sets `ended_at` once. A stored memory carries the session's id in its
metadata.
-/

namespace Pcmi.Session

open Pcmi.Go Pcmi.Lib Pcmi.Memory

/-- A row of `agent_sessions`, without what the service only returns. -/
structure AgentSession where
  /-- The text of the `uuid`. -/
  id : String
  tenantId : String
  endedAt : Option Time
  deriving DecidableEq

/-- `WHERE id = $1::uuid AND tenant_id = $2::uuid`. -/
def AgentSession.is (id tenantId : String) (sess : AgentSession) : Bool :=
  sess.id == id && sess.tenantId == tenantId

/-- `SessionRepository.Get`, on the sessions that the read pool sees. -/
def getSession (env : Env) (tenantId sessionId : String) (sessions : List AgentSession) :
    Except String AgentSession :=
  match env.castUuid sessionId with
  | none => .error "get session: invalid uuid"
  | some id =>
    match sessions.find? (AgentSession.is id tenantId) with
    | none => .error "session not found"
    | some sess => .ok sess

def endSession (env : Env) (tenantId sessionId : String) (now : Time)
    (sessions : List AgentSession) : Except String (List AgentSession) :=
  match env.castUuid sessionId with
  | none => .error "end session: invalid uuid"
  | some id =>
    if sessions.any (AgentSession.is id tenantId) then
      .ok (sessions.map fun sess =>
        if sess.is id tenantId then { sess with endedAt := some (sess.endedAt.getD now) } else sess)
    else .error "session not found"

structure SessionStoreMemoryRequest where
  path : String
  content : String
  metadata : Option JsonMap := none
  tags : Option (List String) := none
  embeddingModel : String := ""
  sourceAgentId : String := ""
  importance : Option ℚ := none

/-- `"sessions." + strings.ReplaceAll(sessionID, "-", "_")`. -/
def sessionPrefix (sessionId : String) : List Char := "sessions.".toList ++ underscored sessionId

/-- The path of `SessionScopedStoreRequest`. -/
def sessionScopedPath (sessionId reqPath : String) : String :=
  let path := trimSpaceText reqPath
  let scope := sessionPrefix sessionId
  if path = "" then String.ofList (scope ++ ".note".toList)
  else if !(scope ++ ['.']).isPrefixOf path.toList &&
      !"sessions.".toList.isPrefixOf path.toList then
    String.ofList (scope ++ ['.'] ++ trimPrefix path.toList ['.'])
  else path

def sessionScopedStoreRequest (sessionId : String) (req : SessionStoreMemoryRequest) :
    StoreRequest where
  path := sessionScopedPath sessionId req.path
  content := req.content
  metadata := some (((req.metadata.getD ∅).insert "session_id" (.str sessionId)).insert
    "memory_scope" (.str "working"))
  tags := req.tags
  embeddingModel := if req.embeddingModel = "" then "unspecified" else req.embeddingModel
  sourceAgentId := req.sourceAgentId
  importance := req.importance

/-- The check of `StoreMemory` and `Promote`. -/
def checkActive (env : Env) (tenantId sessionId : String) (sessions : List AgentSession) :
    Except String Unit :=
  match getSession env tenantId sessionId sessions with
  | .error e => .error e
  | .ok sess => if sess.endedAt.isSome then .error "session ended" else .ok ()

/-- `SessionService.StoreMemory`, up to what it writes. -/
def storeMemory (env : Env) (settings : DedupSettings) (tenantId sessionId : String)
    (req : SessionStoreMemoryRequest) (sessions : List AgentSession) (rows : List Row) :
    Except String Plan :=
  match checkActive env tenantId sessionId sessions with
  | .error e => .error e
  | .ok () => serviceStore env settings (sessionScopedStoreRequest sessionId req) tenantId rows

/-- The answer of a handler that fails. -/
structure Failure where
  status : Nat
  error : String
  deriving DecidableEq

def storeFailure (e : String) : Failure where
  status :=
    if contains e.toList "not found".toList then 404
    else if contains e.toList "session ended".toList then 409
    else 500
  error := e

/-- `POST /sessions/:id/memories`, up to what it writes. -/
def postMemories (env : Env) (settings : DedupSettings) (tenantId idParam : String)
    (req : SessionStoreMemoryRequest) (sessions : List AgentSession) (rows : List Row) :
    Except Failure Plan :=
  let sessionId := trimSpaceText idParam
  if sessionId = "" then .error ⟨400, "session id is required"⟩
  else if trimSpaceText req.path = "" || trimSpaceText req.content = "" then
    .error ⟨400, "path and content are required"⟩
  else (storeMemory env settings tenantId sessionId req sessions rows).mapError storeFailure

theorem storeMemory_of_postMemories {env : Env} {settings : DedupSettings}
    {tenantId idParam : String} {req : SessionStoreMemoryRequest} {sessions : List AgentSession}
    {rows : List Row} {plan : Plan}
    (h : postMemories env settings tenantId idParam req sessions rows = .ok plan) :
    trimSpaceText req.path ≠ "" ∧
      serviceStore env settings (sessionScopedStoreRequest (trimSpaceText idParam) req) tenantId
        rows = .ok plan := by
  unfold postMemories storeMemory at h
  dsimp only at h
  split at h
  · cases h
  split at h
  · cases h
  next hfields =>
  split at h
  · cases h
  refine ⟨fun hpath => hfields (by simp [hpath]), ?_⟩
  revert h
  cases serviceStore env settings (sessionScopedStoreRequest (trimSpaceText idParam) req) tenantId
    rows with
  | error e => exact nofun
  | ok plan' => exact fun h => congrArg Except.ok (Except.ok.inj h)

end Pcmi.Session
