import Pcmi.Extraction.Record
import Pcmi.Lib.Search
import Pcmi.Memory.Dedup

/-!
# Extractions next to stores

`ExtractMemory` (forced) and `ExtractPath` (not forced) read the current row of a memory, ask the
LLM, and merge the record into whatever row is current at the path by then. Read and merge are
statements of their own; a store commits as a whole.
-/

namespace Pcmi.Extraction

open Pcmi.Go Pcmi.Lib Pcmi.Memory

/-! ## One extraction -/

def shouldSkipPath (path : String) : Bool :=
  let path := trimSpaceText path
  path = "" || contains path.toList ".distilled".toList ||
    contains path.toList ".consolidated".toList

/-- What an extraction reads of its profile. -/
structure Profile where
  profileId : String
  version : Int

/-- What `ParseLLMResponse` takes from an answer. -/
structure Answer where
  confidence : Int × Nat
  slots : List (String × Json)
  evidenceSpans : List EvidenceSpan

structure Service where
  enabled : Bool
  model : String
  /-- There is an `llm` and it is configured. -/
  llmConfigured : Bool
  parseLLMResponse : String → Profile → Except String Answer

/-- What a call of `extractEntry` gets from outside. -/
structure Inputs where
  profile : Except String (Option Profile)
  completion : Except String String
  extractedAt : String := ""
  now : Time := 0

/-- The LLM answers, and its answer is valid. -/
def Inputs.succeeds (inp : Inputs) (svc : Service) : Bool :=
  match inp.profile, inp.completion with
  | .ok (some profile), .ok raw => svc.llmConfigured && (svc.parseLLMResponse raw profile).toBool
  | _, _ => false

def existingOkExtraction (entry : Row) : Option Record :=
  match recordFromMetadata entry.metadata with
  | none => none
  | some rec =>
    if rec.status ≠ "ok" then none
    else if rec.memoryId ≠ entry.id ∨ rec.memoryVersion ≠ entry.version then none
    else some rec

/-- The rows that the `UPDATE` of `MergeCurrentMetadata` leaves. -/
def writtenRows (tenantId : String) (rows : List Row) : Plan → List Row
  | .merged _ path metadata tags =>
    (rows.filter (Row.current tenantId path)).map (Row.mergeMetadata metadata tags)
  | _ => []

/-- What an extraction returns and what it has done to the table. -/
structure Extracted where
  record : Option Record
  error : Option String
  written : List Row
  table : Table

section

variable (env : Env) (svc : Service) (tenantId : String)

/-- `persistRecord`: the rows it has written and the table behind it. -/
def persistRecord (path : String) (rec : Record) (now : Time) (t : Table) :
    Except String (List Row × Table) :=
  match mergeCurrentMetadata env tenantId path (some (recordToMetadataMap rec)) none with
  | .error e => .error e
  | .ok plan => (plan.run now t).map fun t' => (writtenRows tenantId t.rows plan, t')

def persistFailureRecord (entry : Row) (rec : Record) (force : Bool) (now : Time) (t : Table) :
    Except String (List Row × Table) :=
  if !force && (existingOkExtraction entry).isSome then .ok ([], t)
  else persistRecord env tenantId entry.path.text rec now t

def failedRecord (entry : Row) (inp : Inputs) (profile : Profile) (status error : String) :
    Record where
  profileId := profile.profileId
  profileVersion := profile.version
  memoryId := entry.id
  memoryVersion := entry.version
  extractedAt := inp.extractedAt
  model := svc.model
  status := status
  error := error

def okRecord (entry : Row) (inp : Inputs) (profile : Profile) (answer : Answer) : Record where
  profileId := profile.profileId
  profileVersion := profile.version
  memoryId := entry.id
  memoryVersion := entry.version
  extractedAt := inp.extractedAt
  model := svc.model
  confidence := answer.confidence
  slots := some answer.slots
  evidenceSpans := answer.evidenceSpans
  status := "ok"

/-- A failure, whose own failure to be written is ignored. -/
def extractFailed (entry : Row) (force : Bool) (rec : Record) (error : String) (now : Time)
    (t : Table) : Extracted :=
  match persistFailureRecord env tenantId entry rec force now t with
  | .error _ => ⟨some rec, some error, [], t⟩
  | .ok (written, t') => ⟨some rec, some error, written, t'⟩

def extractEntry (entry : Row) (force : Bool) (inp : Inputs) (t : Table) : Extracted :=
  match if force then none else existingOkExtraction entry with
  | some rec => ⟨some rec, none, [], t⟩
  | none =>
    if shouldSkipPath entry.path.text then
      ⟨none, some "path not eligible for extraction", [], t⟩
    else if trimSpaceText entry.content = "" then ⟨none, some "empty content", [], t⟩
    else
      match inp.profile with
      | .error e => ⟨none, some e, [], t⟩
      | .ok none => ⟨none, some "no matching extraction profile", [], t⟩
      | .ok (some profile) =>
        if !svc.llmConfigured then
          extractFailed env tenantId entry force
            (failedRecord svc entry inp profile "llm_failed" "LLM not configured")
            "LLM not configured" inp.now t
        else
          match inp.completion with
          | .error e =>
            extractFailed env tenantId entry force
              (failedRecord svc entry inp profile "llm_failed" e) ("llm extract: " ++ e) inp.now t
          | .ok raw =>
            match svc.parseLLMResponse raw profile with
            | .error e =>
              extractFailed env tenantId entry force
                (failedRecord svc entry inp profile "validation_failed" e)
                ("validate extraction: " ++ e) inp.now t
            | .ok answer =>
              let parsed := okRecord svc entry inp profile answer
              match persistRecord env tenantId entry.path.text parsed inp.now t with
              | .error e => ⟨some parsed, some e, [], t⟩
              | .ok (written, t') => ⟨some parsed, none, written, t'⟩

/-- **What an extraction can do to the table.** -/
inductive Extracts (entry : Row) (inp : Inputs) (t : Table) : Extracted → Prop where
  | untouched (record : Option Record) (error : Option String) :
      Extracts entry inp t ⟨record, error, [], t⟩
  | wrote (rec : Record) (p : Ltree) (error : Option String)
      (hcast : env.castLtree (trimSpaceText entry.path.text) = some p)
      (hid : rec.memoryId = entry.id) (hversion : rec.memoryVersion = entry.version)
      (hstatus : rec.status ≠ "") (hok : rec.status = "ok" → inp.succeeds svc = true) :
      Extracts entry inp t ⟨some rec, error,
        (t.rows.filter (Row.current tenantId p)).map
          (Row.mergeMetadata (recordToMetadataMap rec) []),
        { t with rows := mergeCurrent tenantId p (recordToMetadataMap rec) [] t.rows }⟩

end

section

variable {env : Env} {svc : Service} {tenantId : String}

theorem persistRecord_ok {path : String} {rec : Record} {now : Time} {t t' : Table}
    {written : List Row}
    (h : persistRecord env tenantId path rec now t = .ok (written, t')) :
    ∃ p, env.castLtree (trimSpaceText path) = some p ∧
      written = (t.rows.filter (Row.current tenantId p)).map
        (Row.mergeMetadata (recordToMetadataMap rec) []) ∧
      t' = { t with rows := mergeCurrent tenantId p (recordToMetadataMap rec) [] t.rows } := by
  unfold persistRecord at h
  split at h
  · cases h
  next plan hplan =>
  obtain ⟨p, hcast, rfl⟩ := mergeCurrentMetadata_ok hplan
  rw [Plan.run] at h
  split at h <;> cases h
  exact ⟨p, hcast, rfl, rfl⟩

variable {entry : Row} {force : Bool} {inp : Inputs} {t : Table}

theorem extractFailed_extracts {profile : Profile} {status message : String} (error : String)
    (now : Time) (hstatus : status ≠ "") (hfail : status ≠ "ok") :
    Extracts env svc tenantId entry inp t
      (extractFailed env tenantId entry force
        (failedRecord svc entry inp profile status message) error now t) := by
  unfold extractFailed
  split
  · exact .untouched _ _
  next written t' hpersist =>
  unfold persistFailureRecord at hpersist
  split at hpersist
  · cases hpersist
    exact .untouched _ _
  · obtain ⟨p, hcast, rfl, rfl⟩ := persistRecord_ok hpersist
    exact .wrote _ p _ hcast rfl rfl hstatus fun hok => absurd hok hfail

theorem extractEntry_extracts :
    Extracts env svc tenantId entry inp t
      (extractEntry env svc tenantId entry force inp t) := by
  unfold extractEntry
  split
  · exact .untouched _ _
  split
  · exact .untouched _ _
  split
  · exact .untouched _ _
  split
  · exact .untouched _ _
  · exact .untouched _ _
  next profile hprofile =>
  split
  · exact extractFailed_extracts _ _ (by decide) (by decide)
  next hllm =>
  split
  · exact extractFailed_extracts _ _ (by decide) (by decide)
  next raw hraw =>
  split
  · exact extractFailed_extracts _ _ (by decide) (by decide)
  next answer hanswer =>
  dsimp only
  split
  · exact .untouched _ _
  next written t' hpersist =>
  obtain ⟨p, hcast, rfl, rfl⟩ := persistRecord_ok hpersist
  refine .wrote _ p _ hcast rfl rfl (show "ok" ≠ "" by decide) fun _ => ?_
  rw [Inputs.succeeds, hprofile, hraw]
  dsimp only
  rw [hanswer, Bool.and_eq_true]
  exact ⟨by simpa using hllm, rfl⟩

end

/-! ## Starting an extraction -/

section

variable (env : Env) (svc : Service) (tenantId : String)

def getCurrentMemoryById (memoryId : Int) (rows : List Row) : Except String (Option Row) :=
  match rows.find? fun r => r.tenantId = tenantId ∧ (r.id : Int) = memoryId ∧ r.isOpen with
  | none => .ok none
  | some r =>
    match scanMemoryEntry env r with
    | .error e => .error ("get memory by id: " ++ e)
    | .ok entry => .ok (some entry)

/-- `ExtractMemory`, up to `extractEntry`. -/
def extractMemory (memoryId : Int) (rows : List Row) : Except String Row :=
  if !svc.enabled then .error "extraction is disabled"
  else
    match getCurrentMemoryById env tenantId memoryId rows with
    | .error e => .error e
    | .ok none => .error "memory not found"
    | .ok (some entry) => .ok entry

/-- `ExtractPath`, up to `extractEntry`; `none` without an extraction. -/
def extractPath (path : String) (memoryId version : Int) (rows : List Row) :
    Except String (Option Row) :=
  let path := trimSpaceText path
  if !svc.enabled || shouldSkipPath path then .ok none
  else
    match getCurrentMemoryById env tenantId memoryId rows with
    | .error e => .error e
    | .ok none => .ok none
    | .ok (some entry) =>
      if entry.path.text ≠ path then .ok none
      else if entry.version ≠ version ∧ 0 < version then .ok none
      else if (existingOkExtraction entry).isSome then .ok none
      else .ok (some entry)

/-- `OnMemoryEvent`, up to `extractEntry`. -/
def onMemoryEvent (path : String) (memoryId version : Int) (rows : List Row) :
    Except String (Option Row) :=
  if !svc.enabled || tenantId = "" || path = "" || memoryId ≤ 0 then .ok none
  else extractPath env svc tenantId path memoryId version rows

end

section

variable {env : Env} {svc : Service} {tenantId : String} {memoryId : Int} {rows : List Row}
  {entry : Row}

theorem getCurrentMemoryById_ok
    (h : getCurrentMemoryById env tenantId memoryId rows = .ok (some entry)) :
    ∃ r ∈ rows, scanMemoryEntry env r = .ok entry ∧ (r.id : Int) = memoryId ∧
      r.current tenantId r.path = true := by
  unfold getCurrentMemoryById at h
  split at h
  · cases h
  next r hfind =>
  split at h <;> cases h
  next e hscan =>
  have hfound := List.find?_some hfind
  obtain ⟨htenant, hid, hopen⟩ := of_decide_eq_true hfound
  refine ⟨r, List.mem_of_find?_eq_some hfind, hscan, hid, ?_⟩
  simp [Row.current, Row.at, htenant, hopen]

theorem extractMemory_ok (h : extractMemory env svc tenantId memoryId rows = .ok entry) :
    getCurrentMemoryById env tenantId memoryId rows = .ok (some entry) := by
  unfold extractMemory at h
  split at h
  · cases h
  split at h <;> cases h
  next e hget => exact hget

variable {path : String} {version : Int}

theorem extractPath_ok
    (h : extractPath env svc tenantId path memoryId version rows = .ok (some entry)) :
    getCurrentMemoryById env tenantId memoryId rows = .ok (some entry) ∧
      existingOkExtraction entry = none := by
  unfold extractPath at h
  dsimp only at h
  split at h
  · cases h
  split at h
  · cases h
  · cases h
  next e hget =>
  split at h
  · cases h
  split at h
  · cases h
  split at h <;> cases h
  next hnone => exact ⟨hget, Option.not_isSome_iff_eq_none.mp hnone⟩

theorem onMemoryEvent_ok
    (h : onMemoryEvent env svc tenantId path memoryId version rows = .ok (some entry)) :
    extractPath env svc tenantId path memoryId version rows = .ok (some entry) := by
  unfold onMemoryEvent at h
  split at h
  · cases h
  · exact h

end

end Pcmi.Extraction
