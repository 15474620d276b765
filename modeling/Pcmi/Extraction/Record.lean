import Pcmi.Go.Unmarshal
import Pcmi.Lib.Steps

/-!
# Extraction records in metadata

A record is marshalled and decoded again into a map, so its integers pass through `float64`.
Whatever is under the key of a row's metadata is read as a record if `json.Unmarshal` accepts it.
-/

namespace Pcmi.Extraction

open List Pcmi.Go Pcmi.Lib

def metadataKey : String := "pcmi_extract"

structure EvidenceSpan where
  slot : String := ""
  quote : String := ""
  start : Int := 0
  stop : Int := 0

structure Record where
  profileId : String := ""
  profileVersion : Int := 0
  memoryId : Int := 0
  memoryVersion : Int := 0
  extractedAt : String := ""
  model : String := ""
  /-- Mantissa and scale. -/
  confidence : Int × Nat := (0, 0)
  /-- `none` is the `nil` map. -/
  slots : Option (List (String × Json)) := none
  evidenceSpans : List EvidenceSpan := []
  status : String := ""
  error : String := ""

def members (fields : List (String × Bool × Json)) : List (String × Json) :=
  (fields.filter fun f => !f.2.1).map fun f => (f.1, f.2.2)

def EvidenceSpan.toJson (span : EvidenceSpan) : Json :=
  .obj (members [("end", span.stop = 0, .num (throughFloat64 span.stop) 0),
    ("quote", false, .str span.quote), ("slot", false, .str span.slot),
    ("start", span.start = 0, .num (throughFloat64 span.start) 0)])

/-! ## The fields of a record -/

/-- The fields of the struct, in the order of their names. -/
inductive Field where
  | confidence | error | evidenceSpans | extractedAt | memoryId | memoryVersion | model
  | profileId | profileVersion | slots | status
  deriving DecidableEq, Repr

def allFields : List Field :=
  [.confidence, .error, .evidenceSpans, .extractedAt, .memoryId, .memoryVersion, .model,
    .profileId, .profileVersion, .slots, .status]

def Field.name : Field → String
  | .confidence => "confidence"
  | .error => "error"
  | .evidenceSpans => "evidence_spans"
  | .extractedAt => "extracted_at"
  | .memoryId => "memory_id"
  | .memoryVersion => "memory_version"
  | .model => "model"
  | .profileId => "profile_id"
  | .profileVersion => "profile_version"
  | .slots => "slots"
  | .status => "status"

/-- The field that a key is decoded into. -/
def fieldOf (key : String) : Option Field :=
  allFields.find? fun f => foldName key = f.name.toList

theorem fieldOf_name (f : Field) : fieldOf f.name = some f := by
  cases f <;> decide +kernel

theorem mem_allFields (f : Field) : f ∈ allFields := by
  cases f <;> decide

/-! ## Writing -/

def Record.json (rec : Record) : Field → Json
  | .confidence => .num rec.confidence.1 rec.confidence.2
  | .error => .str rec.error
  | .evidenceSpans => .arr (rec.evidenceSpans.map EvidenceSpan.toJson)
  | .extractedAt => .str rec.extractedAt
  | .memoryId => .num (throughFloat64 rec.memoryId) 0
  | .memoryVersion => .num (throughFloat64 rec.memoryVersion) 0
  | .model => .str rec.model
  | .profileId => .str rec.profileId
  | .profileVersion => .num (throughFloat64 rec.profileVersion) 0
  | .slots => (rec.slots.map Json.obj).getD .null
  | .status => .str rec.status

def Record.omits (rec : Record) : Field → Bool
  | .error => rec.error = ""
  | .evidenceSpans => rec.evidenceSpans.isEmpty
  | .model => rec.model = ""
  | .status => rec.status = ""
  | _ => false

def Record.toJson (rec : Record) : Json :=
  .obj (members (allFields.map fun f => (f.name, rec.omits f, rec.json f)))

def recordToMetadataMap (rec : Record) : JsonMap := AList.singleton metadataKey rec.toJson

/-! ## Reading -/

/-- One key of a span's object. -/
def EvidenceSpan.set (span : EvidenceSpan) (kv : String × Json) : Option EvidenceSpan :=
  if foldName kv.1 = "slot".toList then
    (decodeText span.slot kv.2).map fun slot => { span with slot }
  else if foldName kv.1 = "quote".toList then
    (decodeText span.quote kv.2).map fun quote => { span with quote }
  else if foldName kv.1 = "start".toList then
    (decodeInt span.start kv.2).map fun start => { span with start }
  else if foldName kv.1 = "end".toList then
    (decodeInt span.stop kv.2).map fun stop => { span with stop }
  else some span

def EvidenceSpan.ofJson : Json → Option EvidenceSpan
  | .null => some {}
  | .obj fields => runAll EvidenceSpan.set {} fields
  | _ => none

def decodeSpans : Json → Option (List EvidenceSpan)
  | .null => some []
  | .arr items => items.mapM EvidenceSpan.ofJson
  | _ => none

def decodeSlots : Json → Option (Option (List (String × Json)))
  | .null => some none
  | .obj fields => some (some fields)
  | _ => none

/-- One value decoded into its field. -/
def Record.set (rec : Record) (v : Json) : Field → Option Record
  | .confidence => (decodeFloat rec.confidence v).map fun confidence => { rec with confidence }
  | .error => (decodeText rec.error v).map fun error => { rec with error }
  | .evidenceSpans => (decodeSpans v).map fun evidenceSpans => { rec with evidenceSpans }
  | .extractedAt => (decodeText rec.extractedAt v).map fun extractedAt => { rec with extractedAt }
  | .memoryId => (decodeInt rec.memoryId v).map fun memoryId => { rec with memoryId }
  | .memoryVersion =>
    (decodeInt rec.memoryVersion v).map fun memoryVersion => { rec with memoryVersion }
  | .model => (decodeText rec.model v).map fun model => { rec with model }
  | .profileId => (decodeText rec.profileId v).map fun profileId => { rec with profileId }
  | .profileVersion =>
    (decodeInt rec.profileVersion v).map fun profileVersion => { rec with profileVersion }
  | .slots => (decodeSlots v).map fun slots => { rec with slots }
  | .status => (decodeText rec.status v).map fun status => { rec with status }

/-- One key of the object; a key that names no field is skipped. -/
def Record.setKey (rec : Record) (kv : String × Json) : Option Record :=
  match fieldOf kv.1 with
  | some f => rec.set kv.2 f
  | none => some rec

/-- The keys come in the order in which `json.Marshal` writes a map. -/
def Record.ofJson : Json → Option Record
  | .obj fields => runAll Record.setKey {} fields
  | _ => none

def recordFromMetadata (metadata : JsonMap) : Option Record :=
  match metadata.lookup metadataKey with
  | some raw => Record.ofJson raw
  | none => none

/-! ## What is read back -/

def jsonField (key : String) : Json → Option Json
  | .obj fields => (fields.find? fun kv => kv.1 = key).map Prod.snd
  | _ => none

variable {kv : String × Json} {rec : Record} {f : Field}

theorem mem_members {fields : List (String × Bool × Json)} :
    kv ∈ members fields ↔ (kv.1, false, kv.2) ∈ fields := by
  unfold members
  constructor
  · intro h
    obtain ⟨⟨key, empty, v⟩, hf, rfl⟩ := mem_map.mp h
    obtain ⟨hf, hkept⟩ := mem_filter.mp hf
    cases empty with
    | false => exact hf
    | true => cases hkept
  · intro h
    exact mem_map.mpr ⟨_, mem_filter.mpr ⟨h, rfl⟩, rfl⟩

theorem mem_toJson :
    kv ∈ members (allFields.map fun f => (f.name, rec.omits f, rec.json f)) ↔
      ∃ f, rec.omits f = false ∧ kv = (f.name, rec.json f) := by
  rw [mem_members, mem_map]
  constructor
  · rintro ⟨f, -, hf⟩
    obtain ⟨hname, homit, hv⟩ : f.name = kv.1 ∧ rec.omits f = false ∧ rec.json f = kv.2 := by
      simpa using hf
    exact ⟨f, homit, Prod.ext hname.symm hv.symm⟩
  · rintro ⟨f, homit, rfl⟩
    exact ⟨f, mem_allFields f, by rw [homit]⟩

theorem name_injective {g : Field} (h : f.name = g.name) : f = g := by
  have hf := fieldOf_name f
  rw [h, fieldOf_name g] at hf
  exact (Option.some.inj hf).symm

/-- **A record's member is found under its name.** -/
theorem jsonField_toJson (h : rec.omits f = false) :
    jsonField f.name rec.toJson = some (rec.json f) := by
  unfold Record.toJson jsonField
  dsimp only
  cases hfind : (members (allFields.map fun f => (f.name, rec.omits f, rec.json f))).find?
      fun kv => kv.1 = f.name with
  | none =>
    have hnone := find?_eq_none.mp hfind _ (mem_toJson.mpr ⟨f, h, rfl⟩)
    exact absurd (decide_eq_true rfl) hnone
  | some kv =>
    have hkey := find?_some hfind
    have hkey : kv.1 = f.name := of_decide_eq_true hkey
    obtain ⟨g, -, rfl⟩ := mem_toJson.mp (mem_of_find?_eq_some hfind)
    rw [name_injective (f := g) (g := f) hkey]
    rfl

theorem Record.set_other {rec' : Record} {v : Json} (h : rec.set v f = some rec') :
    (f ≠ .memoryId → rec'.memoryId = rec.memoryId) ∧
    (f ≠ .memoryVersion → rec'.memoryVersion = rec.memoryVersion) ∧
    (f ≠ .status → rec'.status = rec.status) := by
  cases f
  all_goals
    obtain ⟨x, -, rfl⟩ := Option.map_eq_some_iff.mp h
    refine ⟨fun hne => ?_, fun hne => ?_, fun hne => ?_⟩
  all_goals first
    | rfl
    | exact absurd rfl hne

section

variable {rec rec' : Record}

/-- Decoding gives a field the value that `rec` was written with. -/
theorem ofJson_toJson {P : Record → Prop} {f : Field} (hf : rec.omits f = false)
    (hset : ∀ u v : Record, u.set (rec.json f) f = some v → P v)
    (hother : ∀ (u v : Record) (j : Json) (g : Field), g ≠ f → P u → u.set j g = some v → P v)
    (h : Record.ofJson rec.toJson = some rec') : P rec' := by
  refine runAll_establishes ?_ (Or.inr ⟨_, mem_toJson.mpr ⟨f, hf, rfl⟩, ?_⟩) h
  · intro kv hkv u v hu hstep
    obtain ⟨g, -, rfl⟩ := mem_toJson.mp hkv
    rw [Record.setKey, fieldOf_name] at hstep
    by_cases hg : g = f
    · rw [hg] at hstep
      exact hset u v hstep
    · exact hother u v _ g hg hu hstep
  · intro u v hstep
    rw [Record.setKey, fieldOf_name] at hstep
    exact hset u v hstep

/-- **A record read back names its memory version and status.** -/
theorem Record.ofJson_toJson_ids (hstatus : rec.status ≠ "")
    (h : Record.ofJson rec.toJson = some rec') :
    rec'.memoryId = throughFloat64 rec.memoryId ∧
    rec'.memoryVersion = throughFloat64 rec.memoryVersion ∧ rec'.status = rec.status := by
  refine ⟨?_, ?_, ?_⟩
  · refine ofJson_toJson (P := fun u => u.memoryId = _) (f := .memoryId) rfl ?_ ?_ h
    · intro u v hstep
      obtain ⟨n, hn, rfl⟩ := Option.map_eq_some_iff.mp hstep
      exact decodeInt_integer hn
    · intro u v j g hg hu hstep
      exact ((Record.set_other hstep).1 hg).trans hu
  · refine ofJson_toJson (P := fun u => u.memoryVersion = _) (f := .memoryVersion) rfl ?_ ?_ h
    · intro u v hstep
      obtain ⟨n, hn, rfl⟩ := Option.map_eq_some_iff.mp hstep
      exact decodeInt_integer hn
    · intro u v j g hg hu hstep
      exact ((Record.set_other hstep).2.1 hg).trans hu
  · refine ofJson_toJson (P := fun u => u.status = _) (f := .status)
      (decide_eq_false hstatus) ?_ ?_ h
    · intro u v hstep
      cases hstep
      rfl
    · intro u v j g hg hu hstep
      exact ((Record.set_other hstep).2.2 hg).trans hu

end

end Pcmi.Extraction
