import Pcmi.Extraction.Repair
import Pcmi.Extraction.Service
import Pcmi.Review.Proposals

/-!
# The targets of link proposals (`GenerateForMemory`)

The LLM is shown the related memories that are current and readable. Its answer is held against all
related ids, also those it was not shown.
-/

namespace Pcmi.Review

open List Pcmi.Extraction Pcmi.Go Pcmi.Memory
open Pcmi.Extraction.Schema (fromBraces unmarshalFloat)

/-! ## The answer of the LLM (`linkproposal.ParseLLMResponse`) -/

structure LLMProposal where
  toMemoryId : Int := 0
  linkType : Bytes := []
  confidence : ℚ := 0
  reason : Bytes := []
  deriving DecidableEq

inductive ProposalField where
  | toMemoryId | linkType | confidence | reason

def proposalFields : List (Bytes × ProposalField) :=
  [(ascii "to_memory_id", .toMemoryId), (ascii "link_type", .linkType),
    (ascii "confidence", .confidence), (ascii "reason", .reason)]

/-- `strings.ToLower` into ASCII, with U+0130 and the Kelvin sign. -/
def toLower (s : Bytes) : Bytes :=
  (runes s).flatMap fun r =>
    if r.1 = 0x130 then [0x69]
    else if r.1 = 0x212A then [0x6B]
    else if 0x41 ≤ r.1 ∧ r.1 ≤ 0x5A then [UInt8.ofNat (r.1 + 32)]
    else r.2

/-- `model.NormalizeLinkType`, whose error text is dropped. -/
def normalizeType (s : Bytes) : Option Bytes :=
  let t := toLower (trimSpace s)
  if t = [] then some (ascii defaultLinkType)
  else if (publicLinkTypes.map ascii).contains t then some t
  else none

section

variable (parseFloat : Bytes → Option ℚ)

def LLMProposal.store (p : LLMProposal) (field : ProposalField) (value : RawJson) :
    Option LLMProposal :=
  match field with
  | .toMemoryId => (unmarshalInt p.toMemoryId value).map fun id => { p with toMemoryId := id }
  | .linkType => (unmarshalText p.linkType value).map fun linkType => { p with linkType }
  | .confidence =>
    (unmarshalFloat parseFloat p.confidence value).map fun confidence => { p with confidence }
  | .reason => (unmarshalText p.reason value).map fun reason => { p with reason }

/-- `json.Unmarshal` into an `LLMResponse`: its proposals. -/
def unmarshalProposals (raw : Bytes) : Option (List LLMProposal) :=
  (readJson raw).bind fun value =>
    (unmarshalStruct [(ascii "proposals", ())] (fun old _ value =>
      unmarshalSlice (unmarshalStruct proposalFields (LLMProposal.store parseFloat)) {} old value)
      {} value).map Slice.elems

/-- A proposal of the answer as it is taken over. -/
def takeProposal (sourceId : Int) (allowed : List Int) (p : LLMProposal) : Option LLMProposal :=
  if p.toMemoryId ≤ 0 ∨ p.toMemoryId = sourceId then none
  else if !allowed.contains p.toMemoryId then none
  else
    match normalizeType p.linkType with
    | none => none
    | some linkType =>
      let reason := trimSpace p.reason
      if reason = [] then none
      else
        let conf := if p.confidence < 0 then 0 else p.confidence
        let conf := if conf > 1 then 1 else conf
        some ⟨p.toMemoryId, linkType, conf, reason⟩

def takeProposals (sourceId : Int) (allowed : List Int) (seen : List (Int × Bytes)) :
    List LLMProposal → List LLMProposal
  | [] => []
  | p :: ps =>
    match takeProposal sourceId allowed p with
    | none => takeProposals sourceId allowed seen ps
    | some q =>
      let key := (q.toMemoryId, q.linkType)
      if seen.contains key then takeProposals sourceId allowed seen ps
      else q :: takeProposals sourceId allowed (key :: seen) ps

def parseLLMResponse (raw : Bytes) (sourceId : Int) (allowed : List Int) :
    Option (List LLMProposal) :=
  (unmarshalProposals parseFloat (fromBraces raw)).map (takeProposals sourceId allowed [])

end

section

variable {sourceId : Int} {allowed : List Int} {p q : LLMProposal}

theorem takeProposal_ok (h : takeProposal sourceId allowed p = some q) :
    0 < q.toMemoryId ∧ q.toMemoryId ≠ sourceId ∧ q.toMemoryId ∈ allowed := by
  unfold takeProposal at h
  split at h
  · cases h
  next hid =>
  split at h
  · cases h
  next hallowed =>
  split at h
  · cases h
  dsimp only at h
  split at h <;> cases h
  obtain ⟨hpos, hsource⟩ := not_or.mp hid
  exact ⟨Int.not_le.mp hpos, hsource, by simpa using hallowed⟩

theorem takeProposals_ok {seen : List (Int × Bytes)} {ps : List LLMProposal}
    (h : q ∈ takeProposals sourceId allowed seen ps) :
    0 < q.toMemoryId ∧ q.toMemoryId ≠ sourceId ∧ q.toMemoryId ∈ allowed := by
  induction ps generalizing seen with
  | nil => cases h
  | cons p ps ih =>
    rw [takeProposals] at h
    split at h
    · exact ih h
    next q' htake =>
    dsimp only at h
    split at h
    · exact ih h
    rcases mem_cons.mp h with rfl | h
    · exact takeProposal_ok htake
    · exact ih h

end

/-! ## The call -/

/-- A memory that the LLM is shown. -/
structure Candidate where
  memoryId : Nat
  path : Ltree
  content : String
  extraction : Option Record

/-- What a call gets from its service and from outside. -/
structure LinkService where
  enabled : Bool
  graphAvailable : Bool
  llmConfigured : Bool
  profile : Except String (Option Profile)
  /-- The ids of `FindRelatedViaEntity`. -/
  related : Except String (List Int64)
  /-- `Complete` on the prompt for these candidates. -/
  complete : List Candidate → Except String Bytes
  /-- `InsertPending`, and whether it returns a row. -/
  insert : LLMProposal → Except String Bool

/-- What has been in the prompt, what was created, and the error. -/
structure Generated where
  prompted : List Candidate := []
  stored : List LLMProposal := []
  error : Option String := none

def storeProposals (insert : LLMProposal → Except String Bool) :
    List LLMProposal → List LLMProposal × Option String
  | [] => ([], none)
  | p :: ps =>
    match insert p with
    | .error e => ([], some e)
    | .ok false => storeProposals insert ps
    | .ok true => ((p :: (storeProposals insert ps).1), (storeProposals insert ps).2)

theorem mem_of_stored {insert : LLMProposal → Except String Bool} {ps : List LLMProposal}
    {p : LLMProposal} (h : p ∈ (storeProposals insert ps).1) : p ∈ ps := by
  induction ps with
  | nil => exact h
  | cons p' ps ih =>
    rw [storeProposals] at h
    split at h
    · cases h
    · exact mem_cons_of_mem _ (ih h)
    rcases mem_cons.mp h with rfl | h
    · exact mem_cons_self
    · exact mem_cons_of_mem _ (ih h)

section

variable (env : Env) (parseFloat : Bytes → Option ℚ) (svc : LinkService) (tenantId : String)
  (memoryId : Int) (rows : List Row)

/-- `GenerateForMemory` up to the related memories. -/
def relatedTargets : Except String (List Int64) :=
  if !svc.enabled then .error "link proposals are disabled"
  else if !svc.graphAvailable then .error "cognitive graph not available"
  else if !svc.llmConfigured then .error "LLM not configured"
  else
    match getCurrentMemoryById env tenantId memoryId rows with
    | .error e => .error e
    | .ok none => .error "memory not found"
    | .ok (some entry) =>
      if (recordFromMetadata entry.metadata).all (·.status ≠ "ok") then
        .error "memory has no successful extraction"
      else
        match svc.profile with
        | .error e => .error e
        | .ok none => .error "no matching extraction profile"
        | .ok (some _) => svc.related

/-- The memory is current and can be read. -/
def Shown (id : Int) : Prop := ∃ entry, getCurrentMemoryById env tenantId id rows = .ok (some entry)

def candidate (id : Int64) : Option Candidate :=
  match getCurrentMemoryById env tenantId id.toInt rows with
  | .ok (some entry) =>
    some ⟨entry.id, entry.path, entry.content, recordFromMetadata entry.metadata⟩
  | _ => none

def generateForMemory : Generated :=
  match relatedTargets env svc tenantId memoryId rows with
  | .error e => { error := some e }
  | .ok related =>
    if related = [] then {}
    else
      let candidates := related.filterMap (candidate env tenantId rows)
      if candidates.isEmpty then {}
      else
        match svc.complete candidates with
        | .error e => { prompted := candidates, error := some ("llm link proposals: " ++ e) }
        | .ok raw =>
          match parseLLMResponse parseFloat raw memoryId (related.map Int64.toInt) with
          | none => { prompted := candidates, error := some "parse llm json: invalid answer" }
          | some parsed =>
            let stored := storeProposals svc.insert parsed
            { prompted := candidates, stored := stored.1, error := stored.2 }

end

section

variable {env : Env} {parseFloat : Bytes → Option ℚ} {svc : LinkService} {tenantId : String}
  {memoryId : Int} {rows : List Row} {related : List Int64} {id : Int64}

theorem candidate_memoryId {c : Candidate} (h : candidate env tenantId rows id = some c) :
    (c.memoryId : Int) = id.toInt := by
  unfold candidate at h
  split at h <;> cases h
  next entry hentry =>
  obtain ⟨r, -, hscan, hid, -⟩ := getCurrentMemoryById_ok hentry
  obtain ⟨content, rfl⟩ := scanMemoryEntry_ok hscan
  exact hid

/-- What is created names a related memory other than the source. -/
theorem generateForMemory_stored {p : LLMProposal}
    (h : p ∈ (generateForMemory env parseFloat svc tenantId memoryId rows).stored) :
    ∃ related, relatedTargets env svc tenantId memoryId rows = .ok related ∧
      (generateForMemory env parseFloat svc tenantId memoryId rows).prompted =
        related.filterMap (candidate env tenantId rows) ∧
      0 < p.toMemoryId ∧ p.toMemoryId ≠ memoryId ∧ p.toMemoryId ∈ related.map Int64.toInt := by
  unfold generateForMemory at h ⊢
  split at h
  · cases h
  next related hrelated =>
  split at h
  · cases h
  next hne =>
  dsimp only at h ⊢
  split at h
  · cases h
  next hcandidates =>
  rw [if_neg hne, if_neg hcandidates]
  split at h
  · cases h
  split at h
  · cases h
  next raw _ parsed hparse =>
  obtain ⟨ps, -, rfl⟩ := Option.map_eq_some_iff.mp hparse
  exact ⟨related, hrelated, rfl, takeProposals_ok (mem_of_stored h)⟩

end

def rowsOfThree : List Row :=
  [{ dedupRow 1 "a" "a" with metadata := recordToMetadataMap { status := "ok" } },
    dedupRow 2 "b" "b", (dedupRow 3 "c" "c").close 0]

/-- The LLM answers with this text, and every insert goes through. -/
def answering (raw : String) (related : List Int64) : LinkService where
  enabled := true
  graphAvailable := true
  llmConfigured := true
  profile := .ok (some ⟨"p", 1⟩)
  related := .ok related
  complete _ := .ok (ascii raw)
  insert _ := .ok true

end Pcmi.Review
