import Mathlib.Data.List.AList
import Pcmi.Go.Net
import Pcmi.Go.Strings
import Pcmi.Lib.Results

/-!
# Profiles and slots (`internal/extraction/profile.go`)

`validateProfile` normalises a profile, the slots of an extraction and their types; `validateSlots`
checks an answer against it. Strings are bytes; lower case, `%q` and the parsing of times are Go's
(`Library`).
-/

namespace Pcmi.Extraction.Schema

open List Pcmi.Go Pcmi.Lib

/-- What `encoding/json` decodes; a number is left as its text. -/
inductive Value where
  | null
  | bool (b : Bool)
  | num (text : Bytes)
  | str (s : Bytes)
  | arr (items : List Value)
  | obj (members : List (Bytes × Value))

abbrev SlotMap := AList (fun _ : Bytes => Value)

/-- Functions of Go's library. -/
structure Library where
  toLower : Bytes → Bytes
  quote : Bytes → Bytes
  parsesRFC3339 : Bytes → Bool
  parsesRFC3339Nano : Bytes → Bool

structure SlotDef where
  name : Bytes
  type : Bytes
  values : List Bytes
  nullable : Bool

/-- `Profile`, as far as slots are concerned. -/
structure Profile where
  profileId : Bytes
  version : Int
  requiredSlots : List SlotDef

def stringType : Bytes := ascii "string"
def enumType : Bytes := ascii "enum"
def ipType : Bytes := ascii "ip"
def hostnameType : Bytes := ascii "hostname"
def datetimeType : Bytes := ascii "datetime"

def slotTypes : List Bytes := [stringType, enumType, ipType, hostnameType, datetimeType]

section

variable (lib : Library)

/-! ## Profiles -/

/-- One round of `ValidateProfile`, with the names seen so far. -/
def validateSlotDef (i : Nat) (seen : List Bytes) (slot : SlotDef) : Except Bytes SlotDef :=
  let name := trimSpace slot.name
  let typ := trimSpace (lib.toLower slot.type)
  let typ := if typ = [] then stringType else typ
  if name = [] then
    .error (ascii "required_slots[" ++ formatInteger i ++ ascii "].name is required")
  else if seen.contains name then .error (ascii "duplicate slot name " ++ lib.quote name)
  else if slotTypes.contains typ = false then
    .error (ascii "unsupported slot type " ++ lib.quote slot.type ++ ascii " for " ++ name)
  else if typ = enumType ∧ slot.values = [] then
    .error (ascii "enum slot " ++ name ++ ascii " requires values")
  else .ok { slot with name, type := typ }

def validateSlotDefs (i : Nat) (seen : List Bytes) : List SlotDef → Except Bytes (List SlotDef)
  | [] => .ok []
  | slot :: slots =>
    match validateSlotDef lib i seen slot with
    | .error err => .error err
    | .ok slot => (validateSlotDefs (i + 1) (slot.name :: seen) slots).map (slot :: ·)

def validateProfile (p : Option Profile) : Except Bytes Profile :=
  match p with
  | none => .error (ascii "profile is nil")
  | some p =>
    let profileId := trimSpace p.profileId
    if profileId = [] then .error (ascii "profile_id is required")
    else if p.requiredSlots = [] then .error (ascii "required_slots must not be empty")
    else
      (validateSlotDefs lib 0 [] p.requiredSlots).map fun requiredSlots =>
        { profileId, version := if p.version < 1 then 1 else p.version, requiredSlots }

/-! ## Slots -/

def isAlphanumeric (c : UInt8) : Bool :=
  (0x61 ≤ c && c ≤ 0x7A) || (0x41 ≤ c && c ≤ 0x5A) || (0x30 ≤ c && c ≤ 0x39)

def hostnameRE : Bytes → Bool
  | [] => false
  | c :: rest =>
    isAlphanumeric c &&
      (rest.isEmpty ||
        rest.dropLast.length ≤ 253 &&
          rest.dropLast.all (fun c => isAlphanumeric c || c == 0x2D || c == 0x5F || c == 0x2E) &&
          rest.getLast?.any isAlphanumeric)

def isIP (s : Bytes) : Bool := (parseIP s).isSome

def isHostname (s : Bytes) : Bool := s.length ≤ 255 && hostnameRE s

def isDatetime (s : Bytes) : Bool := lib.parsesRFC3339 s || lib.parsesRFC3339Nano s

def slotError (slot : SlotDef) (text : String) : Bytes :=
  ascii "slot " ++ lib.quote slot.name ++ ascii text

/-- A slot whose text has to pass a test. An empty text stands for `null`. -/
def validateTested (what called : String) (test : Bytes → Bool) (slot : SlotDef) (val : Value) :
    Except Bytes Value :=
  match val with
  | .str s =>
    let s := trimSpace s
    if s = [] then
      if slot.nullable then .ok .null else .error (slotError lib slot " must not be empty")
    else if test s then .ok (.str s)
    else .error (slotError lib slot (" invalid " ++ called ++ " ") ++ lib.quote s)
  | _ => .error (slotError lib slot (" must be " ++ what))

/-- The case of strings and enums in `validateSlotValue`. -/
def validateText (slot : SlotDef) (val : Value) : Except Bytes Value :=
  match val with
  | .str s =>
    let s := trimSpace s
    if s = [] ∧ slot.nullable = false then .error (slotError lib slot " must not be empty")
    else if slot.type = enumType ∧ s ≠ [] ∧ slot.values.contains s = false then
      .error (slotError lib slot " value " ++ lib.quote s ++ ascii " not in enum")
    else .ok (.str s)
  | _ => .error (slotError lib slot " must be a string")

def validateSlotValue (slot : SlotDef) (val : Value) : Except Bytes Value :=
  if slot.type = stringType ∨ slot.type = enumType then validateText lib slot val
  else if slot.type = ipType then validateTested lib "a string IP" "IP" isIP slot val
  else if slot.type = hostnameType then
    validateTested lib "a string hostname" "hostname" isHostname slot val
  else if slot.type = datetimeType then
    validateTested lib "an RFC3339 string" "datetime" (isDatetime lib) slot val
  else .ok val

/-- One round of the loop of `ValidateSlots`. -/
def validateEntry (slot : SlotDef) : Option Value → Except Bytes Value
  | none =>
    if slot.nullable then .ok .null
    else .error (ascii "missing required slot " ++ lib.quote slot.name)
  | some .null =>
    if slot.nullable then .ok .null else .error (slotError lib slot " must not be null")
  | some val => validateSlotValue lib slot val

def validateEntries (slots : SlotMap) : SlotMap → List SlotDef → Except Bytes SlotMap
  | out, [] => .ok out
  | out, slot :: rest =>
    match validateEntry lib slot (slots.lookup slot.name) with
    | .error err => .error err
    | .ok val => validateEntries slots (out.insert slot.name val) rest

def validateSlots (p : Profile) (slots : SlotMap) : Except Bytes SlotMap :=
  validateEntries lib slots ∅ p.requiredSlots

/-! ## What a profile guarantees -/

def SlotDef.Passes (slot : SlotDef) (s : Bytes) : Prop :=
  (slot.type = stringType ∧ s ≠ []) ∨ (slot.type = enumType ∧ s ∈ slot.values) ∨
    (slot.type = ipType ∧ isIP s = true) ∨ (slot.type = hostnameType ∧ isHostname s = true) ∨
    (slot.type = datetimeType ∧ isDatetime lib s = true)

/-- A value that a slot may have in the end. -/
def SlotDef.Accepts (slot : SlotDef) (val : Value) : Prop :=
  (val = .null ∧ slot.nullable = true) ∨
    ∃ s, val = .str s ∧ trimSpace s = s ∧ (slot.Passes lib s ∨
      s = [] ∧ slot.nullable = true ∧ (slot.type = stringType ∨ slot.type = enumType))

variable {lib} {slot slot' : SlotDef} {seen : List Bytes} {i : Nat}

theorem validateSlotDef_ok (h : validateSlotDef lib i seen slot = .ok slot') :
    slot'.name ∉ seen ∧ slot'.type ∈ slotTypes := by
  unfold validateSlotDef at h
  dsimp only at h
  generalize (if trimSpace (lib.toLower slot.type) = [] then stringType
    else trimSpace (lib.toLower slot.type)) = typ at h
  split at h
  · cases h
  split at h
  · cases h
  next hseen =>
  split at h
  · cases h
  next htype =>
  split at h <;> cases h
  exact ⟨by simpa using hseen, by simpa using htype⟩

theorem validateSlotDefs_ok {slots slots' : List SlotDef}
    (h : validateSlotDefs lib i seen slots = .ok slots') :
    (slots'.map SlotDef.name).Nodup ∧ (∀ slot ∈ slots', slot.name ∉ seen) ∧
      ∀ slot ∈ slots', slot.type ∈ slotTypes := by
  induction slots generalizing i seen slots' with
  | nil =>
    cases h
    exact ⟨nodup_nil, nofun, nofun⟩
  | cons slot slots ih =>
    rw [validateSlotDefs] at h
    split at h
    · cases h
    next slot₁ hslot =>
    obtain ⟨hseen, htype⟩ := validateSlotDef_ok hslot
    obtain ⟨rest, hrest, rfl⟩ := map_eq_ok h
    obtain ⟨hnodup, hfresh, htypes⟩ := ih hrest
    refine ⟨nodup_cons.mpr ⟨fun hmem => ?_, hnodup⟩, ?_, ?_⟩
    · obtain ⟨slot₂, hslot₂, heq⟩ := mem_map.mp hmem
      exact hfresh slot₂ hslot₂ (heq ▸ mem_cons_self)
    · refine forall_mem_cons.mpr ⟨hseen, fun slot₂ hslot₂ hmem => ?_⟩
      exact hfresh slot₂ hslot₂ (mem_cons_of_mem _ hmem)
    · exact forall_mem_cons.mpr ⟨htype, htypes⟩

/-- An accepted profile has each slot once, of one of five types. -/
theorem validateProfile_ok {p₀ : Option Profile} {p : Profile}
    (h : validateProfile lib p₀ = .ok p) :
    (p.requiredSlots.map SlotDef.name).Nodup ∧ ∀ slot ∈ p.requiredSlots, slot.type ∈ slotTypes := by
  unfold validateProfile at h
  split at h
  · cases h
  next p₁ =>
  dsimp only at h
  split at h
  · cases h
  split at h
  · cases h
  obtain ⟨slots, hslots, rfl⟩ := map_eq_ok h
  obtain ⟨hnodup, -, htypes⟩ := validateSlotDefs_ok hslots
  exact ⟨hnodup, htypes⟩

/-! ## One slot -/

variable {val val' : Value} {what called : String} {test : Bytes → Bool} {s : Bytes}
  {out slots : SlotMap} {defs : List SlotDef}

theorem validateTested_ok (h : validateTested lib what called test slot val = .ok val') :
    (val' = .null ∧ slot.nullable = true) ∨
      ∃ s, val' = .str s ∧ trimSpace s = s ∧ s ≠ [] ∧ test s = true := by
  unfold validateTested at h
  split at h
  case h_2 => cases h
  next s =>
  dsimp only at h
  split at h
  · split at h <;> cases h
    next hnullable => exact Or.inl ⟨rfl, hnullable⟩
  next hne =>
  split at h <;> cases h
  next htest => exact Or.inr ⟨_, rfl, trimSpace_trimSpace s, hne, htest⟩

theorem validateTested_again (htrim : trimSpace s = s) (hne : s ≠ []) (htest : test s = true) :
    validateTested lib what called test slot (.str s) = .ok (.str s) := by
  simp [validateTested, htrim, hne, htest]

theorem validateText_ok (h : validateText lib slot val = .ok val') :
    ∃ s, val' = .str s ∧ trimSpace s = s ∧ (s = [] → slot.nullable = true) ∧
      (slot.type = enumType → s ≠ [] → s ∈ slot.values) := by
  unfold validateText at h
  split at h
  case h_2 => cases h
  next s =>
  dsimp only at h
  split at h
  · cases h
  next hempty =>
  split at h <;> cases h
  next henum =>
  refine ⟨_, rfl, trimSpace_trimSpace s, fun hnil => ?_, fun htype hne => ?_⟩
  · exact Bool.not_eq_false _ ▸ fun hnot => hempty ⟨hnil, hnot⟩
  · exact by_contra fun hmem => henum ⟨htype, hne, by simpa using hmem⟩

theorem validateText_again (htrim : trimSpace s = s) (hempty : s = [] → slot.nullable = true)
    (henum : slot.type = enumType → s ≠ [] → s ∈ slot.values) :
    validateText lib slot (.str s) = .ok (.str s) := by
  simp only [validateText, htrim]
  rw [if_neg, if_neg]
  · exact fun h => by simp [henum h.1 h.2.1] at h
  · exact fun h => by simp [hempty h.1] at h

theorem validateTested_accepts (hpasses : ∀ s, test s = true → slot.Passes lib s)
    (h : validateTested lib what called test slot val = .ok val') :
    slot.Accepts lib val' ∧
      (val' = .null ∨ validateTested lib what called test slot val' = .ok val') := by
  rcases validateTested_ok h with hnull | ⟨s, rfl, htrim, hne, htest⟩
  · exact ⟨Or.inl hnull, Or.inl hnull.1⟩
  · exact ⟨Or.inr ⟨s, rfl, htrim, Or.inl (hpasses s htest)⟩,
      Or.inr (validateTested_again htrim hne htest)⟩

theorem validateText_accepts (htype : slot.type = stringType ∨ slot.type = enumType)
    (h : validateText lib slot val = .ok val') :
    slot.Accepts lib val' ∧ validateText lib slot val' = .ok val' := by
  obtain ⟨s, rfl, htrim, hempty, henum⟩ := validateText_ok h
  refine ⟨Or.inr ⟨s, rfl, htrim, ?_⟩, validateText_again htrim hempty henum⟩
  by_cases hnil : s = []
  · exact Or.inr ⟨hnil, hempty hnil, htype⟩
  · refine Or.inl (htype.imp (fun hstring => ⟨hstring, hnil⟩) fun henumType => Or.inl ?_)
    exact ⟨henumType, henum henumType hnil⟩

theorem validateSlotValue_accepts (htype : slot.type ∈ slotTypes)
    (h : validateSlotValue lib slot val = .ok val') :
    slot.Accepts lib val' ∧ (val' = .null ∨ validateSlotValue lib slot val' = .ok val') := by
  unfold validateSlotValue at h ⊢
  split
  · next htext =>
    rw [if_pos htext] at h
    exact (validateText_accepts htext h).imp_right Or.inr
  next htext =>
  rw [if_neg htext] at h
  split
  · next hip =>
    rw [if_pos hip] at h
    exact validateTested_accepts (fun s hs => Or.inr (Or.inr (Or.inl ⟨hip, hs⟩))) h
  next hip =>
  rw [if_neg hip] at h
  split
  · next hhost =>
    rw [if_pos hhost] at h
    exact validateTested_accepts (fun s hs => Or.inr (Or.inr (Or.inr (Or.inl ⟨hhost, hs⟩)))) h
  next hhost =>
  rw [if_neg hhost] at h
  split
  · next htime =>
    rw [if_pos htime] at h
    exact validateTested_accepts (fun s hs => Or.inr (Or.inr (Or.inr (Or.inr ⟨htime, hs⟩)))) h
  · next htime =>
    simp only [slotTypes, mem_cons, not_mem_nil, or_false] at htype
    rcases htype with hstring | henum | hother | hother | hother
    · exact absurd (Or.inl hstring) htext
    · exact absurd (Or.inr henum) htext
    · exact absurd hother hip
    · exact absurd hother hhost
    · exact absurd hother htime

theorem validateEntry_null (h : slot.nullable = true) :
    validateEntry lib slot (some .null) = .ok .null := if_pos h

/-- **One slot.** What is accepted is accepted again as it is. -/
theorem validateEntry_ok {found : Option Value} (htype : slot.type ∈ slotTypes)
    (h : validateEntry lib slot found = .ok val) :
    slot.Accepts lib val ∧ validateEntry lib slot (some val) = .ok val := by
  have hnull : slot.nullable = true → val = .null →
      slot.Accepts lib val ∧ validateEntry lib slot (some val) = .ok val := by
    rintro hnullable rfl
    exact ⟨Or.inl ⟨rfl, hnullable⟩, validateEntry_null hnullable⟩
  unfold validateEntry at h
  split at h
  · split at h
    · next hnullable => exact hnull hnullable (Except.ok.inj h).symm
    · cases h
  · split at h
    · next hnullable => exact hnull hnullable (Except.ok.inj h).symm
    · cases h
  · obtain ⟨haccepts, hagain⟩ := validateSlotValue_accepts htype h
    rcases haccepts with ⟨hnullval, hnullable⟩ | ⟨s, rfl, hs⟩
    · exact hnull hnullable hnullval
    · exact ⟨Or.inr ⟨s, rfl, hs⟩, hagain.resolve_left nofun⟩

/-! ## All slots -/

theorem validateEntries_ok {out' : SlotMap} (hnodup : (defs.map SlotDef.name).Nodup)
    (h : validateEntries lib slots out defs = .ok out') :
    (∀ slot ∈ defs, ∃ val, validateEntry lib slot (slots.lookup slot.name) = .ok val ∧
        out'.lookup slot.name = some val) ∧
      ∀ k, k ∉ defs.map SlotDef.name → out'.lookup k = out.lookup k := by
  induction defs generalizing out with
  | nil =>
    cases h
    exact ⟨nofun, fun _ _ => rfl⟩
  | cons slot defs ih =>
    obtain ⟨hslot, hdefs⟩ := nodup_cons.mp hnodup
    rw [validateEntries] at h
    split at h
    · cases h
    next val hval =>
    obtain ⟨hchecked, hother⟩ := ih hdefs h
    refine ⟨forall_mem_cons.mpr ⟨⟨val, hval, ?_⟩, hchecked⟩, fun k hk => ?_⟩
    · rw [hother _ hslot, AList.lookup_insert]
    · rw [map_cons, mem_cons, not_or] at hk
      rw [hother k hk.2, AList.lookup_insert_ne hk.1]

theorem validateEntries_congr {slots' : SlotMap}
    (h : ∀ slot ∈ defs, validateEntry lib slot (slots'.lookup slot.name) = validateEntry lib slot
      (slots.lookup slot.name)) :
    validateEntries lib slots' out defs = validateEntries lib slots out defs := by
  induction defs generalizing out with
  | nil => rfl
  | cons slot defs ih =>
    obtain ⟨hslot, hdefs⟩ := forall_mem_cons.mp h
    rw [validateEntries, validateEntries, hslot]
    split
    · rfl
    · exact ih hdefs

/-- **Slot validation is a projection**: the keys are the profile's slots, each value is `null` in a
nullable slot or passes its test, and the result validates to itself. -/
theorem validateSlots_projection (lib : Library) {p₀ : Option Profile} {p : Profile}
    (hp : validateProfile lib p₀ = .ok p) {slots out : SlotMap}
    (h : validateSlots lib p slots = .ok out) :
    (∀ k, k ∈ out ↔ ∃ slot ∈ p.requiredSlots, slot.name = k) ∧
      (∀ slot ∈ p.requiredSlots, ∃ val, out.lookup slot.name = some val ∧ slot.Accepts lib val) ∧
      validateSlots lib p out = .ok out := by
  obtain ⟨hnodup, htypes⟩ := validateProfile_ok hp
  obtain ⟨hchecked, hother⟩ := validateEntries_ok hnodup h
  refine ⟨fun k => ?_, fun slot hslot => ?_, ?_⟩
  · rw [← AList.lookup_isSome]
    constructor
    · intro hk
      by_contra hnone
      have hout : k ∉ p.requiredSlots.map SlotDef.name := fun hmem =>
        hnone (mem_map.mp hmem)
      rw [hother k hout, AList.lookup_empty] at hk
      cases hk
    · rintro ⟨slot, hslot, rfl⟩
      obtain ⟨val, -, hval⟩ := hchecked slot hslot
      rw [hval]
      rfl
  · obtain ⟨val, hval, hlookup⟩ := hchecked slot hslot
    exact ⟨val, hlookup, (validateEntry_ok (htypes slot hslot) hval).1⟩
  · refine (validateEntries_congr fun slot hslot => ?_).trans h
    obtain ⟨val, hval, hlookup⟩ := hchecked slot hslot
    rw [hval, hlookup]
    exact (validateEntry_ok (htypes slot hslot) hval).2

end

def plainLibrary : Library := ⟨id, id, fun _ => false, fun _ => false⟩

def hostProfile : Profile where
  profileId := [0x70]
  version := 1
  requiredSlots := [⟨[0x68], hostnameType, [], false⟩, ⟨[0x73], enumType, [[0x61], [0x62]], true⟩]

/-- `{"h":" a.b ","x":null}` -/
def hostSlots : SlotMap :=
  (AList.insert [0x68] (.str [0x20, 0x61, 0x2E, 0x62, 0x20]) ∅).insert [0x78] .null

theorem validateSlots_projection_host :
    ∃ out, validateSlots plainLibrary hostProfile hostSlots = .ok out ∧
      out.lookup [0x68] = some (.str [0x61, 0x2E, 0x62]) ∧ out.lookup [0x73] = some .null ∧
      validateSlots plainLibrary hostProfile out = .ok out := by
  have hprofile : validateProfile plainLibrary (some hostProfile) = .ok hostProfile := rfl
  have hslots : validateSlots plainLibrary hostProfile hostSlots = .ok
      ((AList.insert [0x68] (.str [0x61, 0x2E, 0x62]) ∅).insert [0x73] .null) := rfl
  exact ⟨_, hslots, rfl, rfl, (validateSlots_projection plainLibrary hprofile hslots).2.2⟩

end Pcmi.Extraction.Schema
