import Pcmi.Go.Space
import Pcmi.Memory.Row

/-!
# `MemoryRepository.Store`

The request is turned into columns, then `storeVersion` closes the current row of the path and
inserts the next version, in one transaction. Here it runs alone.
-/

namespace Pcmi.Memory

open Pcmi.Go

/-- The content cipher and hash, and the casts of the database. -/
structure Env where
  encryptContent : String → Except String String
  decryptContent : String → Except String String
  contentHash : String → String
  castLtree : String → Option Ltree
  castUuid : String → Option String
  /-- The `%q` verb of `fmt`. -/
  quote : String → String

structure StoreRequest where
  path : String
  content : String
  metadata : Option JsonMap := none
  tags : Option (List String) := none
  embedding : List ℚ := []
  embeddingModel : String := ""
  embeddingSpace : String := ""
  sourceAgentId : String := ""
  encryptContent : Bool := false
  expiresAt : Option Time := none
  importance : Option ℚ := none
  dedupMode : String := ""
  contentHash : String := ""

/-- `model.NormalizeImportance`: clamped to `[0, 1]`, `0.5` when absent. -/
def normalizeImportance : Option ℚ → ℚ
  | none => 1 / 2
  | some v => if v < 0 then 0 else if 1 < v then 1 else v

def shouldEncrypt (reqEncrypt : Bool) (metadata : Option JsonMap) : Bool :=
  reqEncrypt ||
    match metadata.bind (fun m => m.lookup "sensitive") with
    | some (.bool b) => b
    | some (.str s) => s.toList.map Char.toLower == "true".toList || s == "1"
    | _ => false

def nullIfEmpty (s : String) : Option String := if s = "" then none else some s

/-- `source_agent_id`: `NULL` if empty, else cast to `uuid`. -/
def castAgent (env : Env) (agentId : String) : Except String (Option String) :=
  if agentId = "" then .ok none
  else
    match env.castUuid agentId with
    | none => .error "store insert: invalid uuid"
    | some u => .ok (some u)

/-- `Store` before the transaction: checks, defaults, encryption, cast. -/
def storeColumns (env : Env) (req : StoreRequest) : Except String Columns :=
  let path := trimSpaceText req.path
  if path = "" then .error "path is required"
  else
    let metadata := req.metadata.getD ∅
    let encrypted := shouldEncrypt req.encryptContent (some metadata)
    match if encrypted then env.encryptContent req.content else .ok req.content with
    | .error e => .error ("encrypt content: " ++ e)
    | .ok content =>
      -- `$2::ltree` is first evaluated by the closing statement
      match env.castLtree path with
      | none => .error "store close current: invalid ltree"
      | some ltree =>
        match castAgent env (trimSpaceText req.sourceAgentId) with
        | .error e => .error e
        | .ok agentId => .ok {
            path := ltree
            content := content
            metadata := metadata
            tags := req.tags.getD []
            embedding := if req.embedding = [] then none else some req.embedding
            embeddingModel :=
              if req.embeddingModel = "" then "unspecified" else req.embeddingModel
            embeddingSpace :=
              let s := trimSpaceText req.embeddingSpace
              if s = "" then "default" else s
            sourceAgentId := agentId
            contentEncrypted := encrypted
            expiresAt := req.expiresAt
            importance := normalizeImportance req.importance
            contentHash := nullIfEmpty (trimSpaceText req.contentHash) }

/-- The largest value of the `INTEGER` column `version`. -/
def maxInt4 : Int := 2147483647

/-- The row the `INSERT` writes in a transaction that began at `now`. -/
def Columns.toRow (c : Columns) (tenantId : String) (id : Nat) (version : Int) (now : Time) : Row :=
  { c with
    id := id, tenantId := tenantId, version := version, validFrom := now, validTo := none,
    createdAt := now }

/-- The columns of a request that gives a content only. -/
def plainColumns (path : Ltree) (content : String) : Columns :=
  { path := path, content := content, metadata := ∅, tags := [], embedding := none,
    embeddingModel := "unspecified", embeddingSpace := "default", sourceAgentId := none,
    contentEncrypted := false, expiresAt := none, importance := 1 / 2, contentHash := none }

/-- `id, version, supersededID` of a successful store. -/
structure StoreOutcome where
  id : Nat
  version : Int
  supersededId : Option Nat
  deriving DecidableEq, Repr

/-- The table and its `BIGSERIAL` sequence. -/
structure Table where
  rows : List Row
  nextId : Nat

/-- Every current row of the path gets `valid_to = now`. -/
def closeCurrent (tenantId : String) (path : Ltree) (now : Time) (rows : List Row) : List Row :=
  rows.map fun r => if r.current tenantId path then r.close now else r

/-- The version after the closed row's, `1` when nothing was closed. -/
def nextVersion : Option Row → Int
  | some r => r.version + 1
  | none => 1

/-- `storeVersion`, run alone: close, insert the next version. -/
def storeVersion (tenantId : String) (c : Columns) (now : Time) (t : Table) :
    Except String (StoreOutcome × Table) :=
  let closed := t.rows.find? (Row.current tenantId c.path)
  let ver := nextVersion closed
  if maxInt4 < ver then .error "store insert: version out of range"
  else .ok (⟨t.nextId, ver, closed.map (·.id)⟩,
    { rows := closeCurrent tenantId c.path now t.rows ++ [c.toRow tenantId t.nextId ver now]
      nextId := t.nextId + 1 })

/-- `MemoryRepository.Store` with no other writer. -/
def store (env : Env) (req : StoreRequest) (tenantId : String) (now : Time) (t : Table) :
    Except String (StoreOutcome × Table) :=
  match storeColumns env req with
  | .error e => .error e
  | .ok c => storeVersion tenantId c now t

@[simp] theorem Columns.toRow_validFrom (c : Columns) (tn : String) (i : Nat) (v : Int)
    (now : Time) : (c.toRow tn i v now).validFrom = now := rfl
@[simp] theorem Columns.toRow_isOpen (c : Columns) (tn : String) (i : Nat) (v : Int)
    (now : Time) : (c.toRow tn i v now).isOpen = true := rfl
@[simp] theorem Columns.toRow_at (c : Columns) (tn tn' : String) (p : Ltree) (i : Nat) (v : Int)
    (now : Time) : (c.toRow tn i v now).at tn' p = (tn == tn' && c.path == p) := rfl

end Pcmi.Memory
