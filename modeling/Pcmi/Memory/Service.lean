import Pcmi.Lib.Results
import Pcmi.Memory.Store

/-!
# `MemoryService.Store` and `MemoryService.Rollback`

`Rollback` reads a historical version and stores it again; a store first looks for a current row
with the same content hash (`tryDedup`). Both end in a `Plan`: what is written, if anything.
-/

namespace Pcmi.Memory

open Pcmi.Go

/-! ## History reads -/

/-- `scanMemoryEntry`: an encrypted content is decrypted. -/
def scanMemoryEntry (env : Env) (r : Row) : Except String Row :=
  if r.contentEncrypted then
    match env.decryptContent r.content with
    | .ok plain => .ok { r with content := plain }
    | .error e => .error ("decrypt content id=" ++ toString r.id ++ ": " ++ e)
  else .ok r

theorem scanMemoryEntry_ok {env : Env} {r e : Row} (h : scanMemoryEntry env r = .ok e) :
    ∃ content, e = { r with content := content } := by
  unfold scanMemoryEntry at h
  split at h
  · split at h <;> cases h
    next plain _ => exact ⟨plain, rfl⟩
  · cases h
    exact ⟨r.content, rfl⟩

/-- `ORDER BY version DESC LIMIT 1`. -/
def latestVersion : List Row → Option Row
  | [] => none
  | r :: rest =>
    match latestVersion rest with
    | none => some r
    | some r' => if r.version < r'.version then some r' else some r

def versionRows (tenantId : String) (path : Ltree) (version : Int) (rows : List Row) : List Row :=
  rows.filter fun r => r.at tenantId path && r.version == version

/-- The rows of the path that `temporalClause` selects. -/
def temporalRows (tenantId : String) (path : Ltree) (asOf : Option Time) (rows : List Row) :
    List Row :=
  rows.filter fun r => r.at tenantId path && temporalClause asOf r

/-- `GetHistoricalVersion`: an exact version or the row valid at `asOf`. -/
def historicalRow (tenantId : String) (path : Ltree) (version : Option Int) (asOf : Option Time)
    (rows : List Row) : Option Row :=
  match version with
  | some v => (versionRows tenantId path v rows).head?
  | none => latestVersion (temporalRows tenantId path asOf rows)

def getHistoricalVersion (env : Env) (tenantId path : String) (version : Option Int)
    (asOf : Option Time) (rows : List Row) : Except String Row :=
  let path := trimSpaceText path
  if path = "" then .error "path is required"
  else if version.isNone && asOf.isNone then .error "version or as_of is required"
  else if version.isSome && asOf.isSome then .error "provide only one of version or as_of"
  else
    match env.castLtree path with
    | none => .error "get historical version: invalid ltree"
    | some ltree =>
      match historicalRow tenantId ltree version asOf rows with
      | none => .error ("no historical version found for path " ++ path)
      | some r => (scanMemoryEntry env r).mapError ("get historical version: " ++ ·)

/-! ## Dedup -/

inductive DedupMode where
  | none | skip | link | merge
  deriving DecidableEq, Repr

/-- `unicode.ToLower` into ASCII, with the Kelvin sign and dotted I. -/
def lowerAscii (c : Char) : Char :=
  if c.toNat = 0x212A then 'k' else if c.toNat = 0x130 then 'i' else c.toLower

def parseDedupMode (env : Env) (s : String) : Except String DedupMode :=
  let m := String.ofList ((trimSpaceText s).toList.map lowerAscii)
  if m = "" || m = "none" then .ok .none
  else if m = "skip" then .ok .skip
  else if m = "link" then .ok .link
  else if m = "merge" then .ok .merge
  else .error ("invalid dedup_mode " ++ env.quote s ++ " (want none|skip|link|merge)")

/-- The dedup settings: `GetTenantDedupMode` and the service's default. -/
structure DedupSettings where
  tenantMode : Except String DedupMode := .ok .none
  defaultDedup : DedupMode := .none

def resolveDedupMode (env : Env) (settings : DedupSettings) (req : StoreRequest) :
    Except String DedupMode :=
  let m := trimSpaceText req.dedupMode
  if m ≠ "" then parseDedupMode env m
  else
    match settings.tenantMode with
    | .error e => .error e
    | .ok tenantMode => .ok (if tenantMode ≠ .none then tenantMode else settings.defaultDedup)

/-- `ORDER BY created_at DESC LIMIT 1`. -/
def newestCreated : List Row → Option Row
  | [] => none
  | r :: rest =>
    match newestCreated rest with
    | none => some r
    | some r' => if r.createdAt < r'.createdAt then some r' else some r

def findCurrentByContentHash (env : Env) (tenantId hash : String) (rows : List Row) :
    Except String (Option Row) :=
  let hash := trimSpaceText hash
  if hash = "" then .ok none
  else
    match newestCreated (rows.filter fun r =>
        r.tenantId == tenantId && r.contentHash == some hash && r.isOpen) with
    | none => .ok none
    | some r => ((scanMemoryEntry env r).map some).mapError ("find by content hash: " ++ ·)

def Ltree.text (p : Ltree) : String := ".".intercalate p.labels

/-- What a store through the service is about to do. -/
inductive Plan where
  /-- The content is already current at the path. -/
  | skipped (existing : Row)
  /-- Only `memory_links` is written. -/
  | linked (existing : Row) (linkedFrom : String)
  /-- `MergeCurrentMetadata` on the current row of the path. -/
  | merged (tenantId : String) (path : Ltree) (metadata : JsonMap) (tags : List String)
  /-- `storeVersion` with these columns. -/
  | insert (tenantId : String) (c : Columns)

/-- `UpsertDedupLink`: its checks, and the link to the existing row. -/
def upsertDedupLink (env : Env) (fromPath : String) (existing : Row) : Except String Plan :=
  if trimSpaceText fromPath = "" || trimSpaceText existing.path.text = "" then
    .error "from_path and to_path are required"
  else
    match env.castLtree (trimSpaceText fromPath) with
    | none => .error "upsert dedup link: invalid ltree"
    | some _ => .ok (.linked existing fromPath)

/-- `MergeCurrentMetadata`, up to its `UPDATE`. -/
def mergeCurrentMetadata (env : Env) (tenantId path : String) (metadata : Option JsonMap)
    (tags : Option (List String)) : Except String Plan :=
  let path := trimSpaceText path
  if path = "" then .error "path is required"
  else
    match env.castLtree path with
    | none => .error "merge metadata: invalid ltree"
    | some ltree => .ok (.merged tenantId ltree (metadata.getD ∅) (tags.getD []))

/-- `MemoryService.tryDedup`; `none` leaves it to the store. -/
def tryDedup (env : Env) (settings : DedupSettings) (req : StoreRequest) (tenantId path : String)
    (rows : List Row) : Except String (Option Plan) :=
  match resolveDedupMode env settings req with
  | .error e => .error ("dedup mode: " ++ e)
  | .ok .none => .ok none
  | .ok mode =>
    let hash := env.contentHash req.content
    match findCurrentByContentHash env tenantId hash rows with
    | .error e => .error e
    | .ok none => .ok none
    | .ok (some existing) =>
      if env.contentHash existing.content ≠ hash then .ok none
      else
        let samePath := existing.path.text == path
        match mode with
        | .none => .ok none
        | .skip => .ok (if samePath then some (.skipped existing) else none)
        | .link =>
          if samePath then .ok (some (.skipped existing))
          else (upsertDedupLink env path existing).map some
        | .merge =>
          if samePath then (mergeCurrentMetadata env tenantId path req.metadata req.tags).map some
          else .ok none

/-- `MemoryRepository.Store`, up to its transaction. -/
def repositoryStore (env : Env) (req : StoreRequest) (tenantId : String) : Except String Plan :=
  (storeColumns env req).map (Plan.insert tenantId)

def serviceStore (env : Env) (settings : DedupSettings) (req : StoreRequest) (tenantId : String)
    (rows : List Row) : Except String Plan :=
  match tryDedup env settings req tenantId (trimSpaceText req.path) rows with
  | .error e => .error e
  | .ok (some plan) => .ok plan
  | .ok none =>
    (repositoryStore env { req with contentHash := env.contentHash req.content } tenantId).mapError
      ("store failed: " ++ ·)

/-! ## Rollback -/

structure RollbackRequest where
  path : String
  version : Option Int := none
  asOf : Option Time := none

/-- The request that `Rollback` stores again. -/
def rollbackStoreRequest (path : String) (historical : Row) : StoreRequest :=
  { path := path
    content := historical.content
    metadata := some historical.metadata
    tags := some historical.tags
    embedding := historical.embedding.getD []
    embeddingModel := historical.embeddingModel
    embeddingSpace := historical.embeddingSpace
    sourceAgentId := historical.sourceAgentId.getD "" }

def rollback (env : Env) (settings : DedupSettings) (req : RollbackRequest) (tenantId : String)
    (rows : List Row) : Except String Plan :=
  let path := trimSpaceText req.path
  if path = "" then .error "path is required"
  else
    match getHistoricalVersion env tenantId path req.version req.asOf rows with
    | .error e => .error e
    | .ok historical =>
      serviceStore env settings (rollbackStoreRequest path historical) tenantId rows

/-! ## Carrying out a plan -/

/-- `metadata || $3` and the union of the tags; the order of the tags is not specified. -/
def Row.mergeMetadata (metadata : JsonMap) (tags : List String) (r : Row) : Row :=
  { r with metadata := metadata ∪ r.metadata, tags := (r.tags ++ tags).dedup }

/-- The `UPDATE` of `MergeCurrentMetadata`. -/
def mergeCurrent (tenantId : String) (path : Ltree) (metadata : JsonMap) (tags : List String)
    (rows : List Row) : List Row :=
  rows.map fun r => if r.current tenantId path then r.mergeMetadata metadata tags else r

/-- The table after the plan, run alone. -/
def Plan.run (now : Time) (t : Table) : Plan → Except String Table
  | .skipped _ => .ok t
  | .linked _ _ => .ok t
  | .merged tenantId path metadata tags =>
    if t.rows.any (Row.current tenantId path) then
      .ok { t with rows := mergeCurrent tenantId path metadata tags t.rows }
    else .error ("memory not found at path " ++ path.text)
  | .insert tenantId c => (storeVersion tenantId c now t).map Prod.snd

end Pcmi.Memory
