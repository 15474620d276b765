import Mathlib.Data.Rat.Defs
import Pcmi.Extraction.Schema
import Pcmi.Go.JsonDecode
import Pcmi.Go.JsonGrammar

/-!
# Answers of the model (`ParseLLMResponse`)

An answer is repaired before it is decoded: the text around the braces is cut off, and a comma in
front of a closing bracket is taken out. The repair does not know strings.
-/

namespace Pcmi.Extraction.Schema

open List Pcmi.Go Pcmi.Lib

/-! ## The repair -/

/-- `\s` in a regular expression. -/
def isRegexpSpace (c : UInt8) : Bool :=
  c == 0x20 || c == 0x09 || c == 0x0A || c == 0x0C || c == 0x0D

/-- `\s*[}\]]` matches here. -/
def closes (s : Bytes) : Bool :=
  (s.dropWhile isRegexpSpace).head?.any fun c => c == 0x7D || c == 0x5D

/-- `trailingCommaBeforeClose.ReplaceAllString(s, "$1")`. -/
def replaceTrailingCommas : Bytes → Bytes
  | [] => []
  | c :: rest =>
    if c = 0x2C ∧ closes rest then replaceTrailingCommas rest
    else c :: replaceTrailingCommas rest

def sanitizeJSON (raw : Bytes) : Bytes :=
  let s := trimSpace raw
  let s :=
    match index s (ascii "\x7b") with
    | some i => s.drop i
    | none => s
  let s :=
    match lastIndex s (ascii "\x7d") with
    | some j => s.take (j + 1)
    | none => s
  replaceTrailingCommas s

/-- What `sanitizeJSON` cuts out of an answer. -/
def fromBraces (raw : Bytes) : Bytes :=
  let s := trimSpace raw
  let s :=
    match index s (ascii "\x7b") with
    | some i => s.drop i
    | none => s
  match lastIndex s (ascii "\x7d") with
  | some j => s.take (j + 1)
  | none => s

/-! ## The answer -/

structure EvidenceSpan where
  slot : Bytes := []
  quote : Bytes := []
  start : Int := 0
  stop : Int := 0

inductive SpanField where
  | slot | quote | start | stop

def spanFields : List (Bytes × SpanField) :=
  [(ascii "slot", .slot), (ascii "quote", .quote), (ascii "start", .start), (ascii "end", .stop)]

def EvidenceSpan.store (span : EvidenceSpan) (field : SpanField) (value : RawJson) :
    Option EvidenceSpan :=
  match field with
  | .slot => (unmarshalText span.slot value).map fun slot => { span with slot }
  | .quote => (unmarshalText span.quote value).map fun quote => { span with quote }
  | .start => (unmarshalInt span.start value).map fun start => { span with start }
  | .stop => (unmarshalInt span.stop value).map fun stop => { span with stop }

/-- `LLMResponse`. `none` is the `nil` map. -/
structure LLMResponse where
  confidence : ℚ := 0
  slots : Option SlotMap := none
  evidenceSpans : Slice EvidenceSpan := {}

inductive ResponseField where
  | confidence | slots | evidenceSpans

def responseFields : List (Bytes × ResponseField) :=
  [(ascii "confidence", .confidence), (ascii "slots", .slots),
    (ascii "evidence_spans", .evidenceSpans)]

/-- `Record`, as far as `ParseLLMResponse` fills it. -/
structure Record where
  profileId : Bytes
  profileVersion : Int
  confidence : ℚ
  slots : SlotMap
  evidenceSpans : Slice EvidenceSpan
  status : Bytes

inductive ParseError where
  /-- `parse llm json`, and what `json.Unmarshal` said. -/
  | json
  /-- The error of `ValidateSlots`. -/
  | slots (message : Bytes)

section

variable (lib : Library) (parseFloat : Bytes → Option ℚ)

mutual

/-- Into `interface{}`. A number has to be in the range of a `float64`. -/
def unmarshalValue : RawJson → Option Value
  | .literal text =>
    if isNull text then some .null
    else if text = ascii "true" then some (.bool true)
    else if text = ascii "false" then some (.bool false)
    else (parseFloat text).map fun _ => .num text
  | .str raw => some (.str (unquote raw))
  | .arr items => (unmarshalValues items).map .arr
  | .obj members => (unmarshalMembers members).map fun ms => .obj ms

def unmarshalValues : List RawJson → Option (List Value)
  | [] => some []
  | item :: items =>
    (unmarshalValue item).bind fun v => (unmarshalValues items).map (v :: ·)

/-- A map as its members: a repeated one is left out. -/
def unmarshalMembers : List (Bytes × RawJson) → Option (List (Bytes × Value))
  | [] => some []
  | (key, value) :: members =>
    (unmarshalValue value).bind fun v =>
      (unmarshalMembers members).map fun ms =>
        if ms.any (fun m => m.1 = unquote key) then ms else (unquote key, v) :: ms

end

/-- Into a `map[string]interface{}`: members are added. -/
def unmarshalMap (old : Option SlotMap) : RawJson → Option (Option SlotMap)
  | .obj members =>
    (unmarshalMembers parseFloat members).map fun ms =>
      some (ms.foldl (fun slots m => slots.insert m.1 m.2) (old.getD ∅))
  | .literal text => if isNull text then some none else none
  | _ => none

def unmarshalFloat (old : ℚ) : RawJson → Option ℚ
  | .literal text =>
    if isNull text then some old
    else if text = ascii "true" ∨ text = ascii "false" then none
    else parseFloat text
  | _ => none

def LLMResponse.store (resp : LLMResponse) (field : ResponseField) (value : RawJson) :
    Option LLMResponse :=
  match field with
  | .confidence =>
    (unmarshalFloat parseFloat resp.confidence value).map fun confidence =>
      { resp with confidence }
  | .slots => (unmarshalMap parseFloat resp.slots value).map fun slots => { resp with slots }
  | .evidenceSpans =>
    (unmarshalSlice (unmarshalStruct spanFields EvidenceSpan.store) {} resp.evidenceSpans value).map
      fun evidenceSpans => { resp with evidenceSpans }

/-- `json.Unmarshal` into an `LLMResponse`. -/
def unmarshalResponse (raw : Bytes) : Option LLMResponse :=
  (readJson raw).bind fun value =>
    unmarshalStruct responseFields (LLMResponse.store parseFloat) {} value

def parseLLMResponse (raw : Bytes) (p : Profile) : Except ParseError Record :=
  let cleaned := sanitizeJSON raw
  match unmarshalResponse parseFloat cleaned with
  | none => .error .json
  | some resp =>
    match validateSlots lib p (resp.slots.getD ∅) with
    | .error message => .error (.slots message)
    | .ok slots =>
      let conf := if resp.confidence < 0 then 0 else resp.confidence
      let conf := if conf > 1 then 1 else conf
      .ok {
        profileId := p.profileId
        profileVersion := p.version
        confidence := conf
        slots := slots
        evidenceSpans := resp.evidenceSpans
        status := ascii "ok" }

end

/-! ## The repair of valid answers -/

mutual

/-- The strings of a value as they are written, keys included. -/
def stringsOf : RawJson → List Bytes
  | .literal _ => []
  | .str raw => [raw]
  | .arr items => stringsOfItems items
  | .obj members => stringsOfMembers members

def stringsOfItems : List RawJson → List Bytes
  | [] => []
  | item :: items => stringsOf item ++ stringsOfItems items

def stringsOfMembers : List (Bytes × RawJson) → List Bytes
  | [] => []
  | (key, value) :: members => key :: (stringsOf value ++ stringsOfMembers members)

end

def stringsOfPart : Part → List Bytes
  | .value v => stringsOf v
  | .members ms => stringsOfMembers ms
  | .items vs => stringsOfItems vs

/-- A comma, then white space, then a closing bracket. -/
def HasTrailingComma (s : Bytes) : Prop :=
  ∃ front rest, s = front ++ 0x2C :: rest ∧ closes rest = true

variable {c : UInt8} {ms : List (Bytes × RawJson)}

theorem hasTrailingComma_cons_iff {s : Bytes} :
    HasTrailingComma (c :: s) ↔ (c = 0x2C ∧ closes s = true) ∨ HasTrailingComma s := by
  constructor
  · rintro ⟨_ | ⟨d, front⟩, rest, heq, hcloses⟩
    · cases heq
      exact Or.inl ⟨rfl, hcloses⟩
    · cases heq
      exact Or.inr ⟨front, rest, rfl, hcloses⟩
  · rintro (⟨rfl, hcloses⟩ | ⟨front, rest, rfl, hcloses⟩)
    · exact ⟨[], s, rfl, hcloses⟩
    · exact ⟨c :: front, rest, rfl, hcloses⟩

instance : DecidablePred HasTrailingComma :=
  List.rec (isFalse fun ⟨_, _, heq, _⟩ => absurd heq.symm (by simp))
    fun _ _ _ => decidable_of_iff _ hasTrailingComma_cons_iff.symm

theorem replaceTrailingCommas_cons (hc : c ≠ 0x2C) (rest : Bytes) :
    replaceTrailingCommas (c :: rest) = c :: replaceTrailingCommas rest :=
  if_neg fun h => hc h.1

theorem replaceTrailingCommas_comma {rest : Bytes} (h : closes rest = false) :
    replaceTrailingCommas (0x2C :: rest) = 0x2C :: replaceTrailingCommas rest := by
  refine if_neg fun hand => ?_
  rw [h] at hand
  cases hand.2

/-- Text without a comma is left as it is, whatever follows. -/
theorem replaceTrailingCommas_append : ∀ {s : Bytes}, 0x2C ∉ s → ∀ rest,
    replaceTrailingCommas (s ++ rest) = s ++ replaceTrailingCommas rest
  | [], _, _ => rfl
  | c :: s, h, rest => by
    rw [mem_cons, not_or] at h
    rw [cons_append, replaceTrailingCommas_cons (Ne.symm h.1),
      replaceTrailingCommas_append h.2, cons_append]

/-- A quote keeps what is in front of it apart from what is behind it. -/
theorem closes_quote (s rest : Bytes) : closes (s ++ 0x22 :: rest) = closes s := by
  unfold closes
  induction s with
  | nil => rfl
  | cons c s ih =>
    rw [cons_append, dropWhile_cons, dropWhile_cons]
    split
    · exact ih
    · rfl

theorem replaceTrailingCommas_string : ∀ {raw : Bytes}, ¬ HasTrailingComma raw → ∀ rest,
    replaceTrailingCommas (raw ++ 0x22 :: rest) = raw ++ 0x22 :: replaceTrailingCommas rest
  | [], _, rest => replaceTrailingCommas_cons (by decide) rest
  | c :: raw, h, rest => by
    rw [hasTrailingComma_cons_iff, not_or] at h
    have hkept : ¬ (c = 0x2C ∧ closes (raw ++ 0x22 :: rest)) := by
      rw [closes_quote]
      exact h.1
    rw [cons_append, replaceTrailingCommas, if_neg hkept, replaceTrailingCommas_string h.2,
      cons_append]

section

variable {depth : Nat} {u rest : Bytes} {part : Part} {sp : Bytes}

theorem replaceTrailingCommas_spaces (hsp : Spaces sp) (rest : Bytes) :
    replaceTrailingCommas (sp ++ rest) = sp ++ replaceTrailingCommas rest :=
  replaceTrailingCommas_append (fun h => absurd (hsp _ h) (by decide)) rest

/-- A bracket, a colon or a quote behind space. -/
theorem replaceTrailingCommas_mark (hsp : Spaces sp) {c : UInt8} (hc : c ≠ 0x2C) (rest : Bytes) :
    replaceTrailingCommas (sp ++ c :: rest) = sp ++ c :: replaceTrailingCommas rest := by
  rw [replaceTrailingCommas_spaces hsp, replaceTrailingCommas_cons hc]

theorem comma_not_mem_literal {t : Bytes} (ht : LiteralText t) : 0x2C ∉ t := by
  intro h
  exact absurd (ht.chars _ h) (by decide)

theorem closes_derives (h : Derives depth u part) : closes (u ++ rest) = false := by
  obtain ⟨sp, c, tail, rfl, hsp, hc⟩ := h.exists_first
  have hspaces : ∀ x ∈ sp, isRegexpSpace x = true := by
    intro x hx
    have hspace := hsp x hx
    simp only [isJsonSpace, Bool.or_eq_true, beq_iff_eq] at hspace
    rcases hspace with ((rfl | rfl) | rfl) | rfl <;> rfl
  have hfirst : isRegexpSpace c = false := by
    simp only [isRegexpSpace, Bool.or_eq_false_iff, beq_eq_false_iff_ne]
    exact ⟨⟨⟨⟨hc.ne (by decide), hc.ne (by decide)⟩, hc.ne (by decide)⟩, hc.ne (by decide)⟩,
      hc.ne (by decide)⟩
  unfold closes
  rw [append_assoc, dropWhile_append_of_pos hspaces, cons_append,
    dropWhile_cons_of_neg (by simp [hfirst])]
  simp [hc.ne (show ¬ BeginsPart 0x7D by decide), hc.ne (show ¬ BeginsPart 0x5D by decide)]

/-- **The repair leaves valid JSON alone** if no string has a trailing comma. -/
theorem replaceTrailingCommas_derives (h : Derives depth u part)
    (hstrings : ∀ t ∈ stringsOfPart part, ¬ HasTrailingComma t) (rest : Bytes) :
    replaceTrailingCommas (u ++ rest) = u ++ replaceTrailingCommas rest := by
  induction h generalizing rest with
  | str hsp _ =>
    simp only [stringsOfPart, stringsOf, forall_mem_singleton] at hstrings
    simp only [append_assoc, cons_append, nil_append]
    rw [replaceTrailingCommas_mark hsp (by decide), replaceTrailingCommas_string hstrings]
  | literal hsp ht =>
    rw [append_assoc, replaceTrailingCommas_spaces hsp,
      replaceTrailingCommas_append (comma_not_mem_literal ht), append_assoc]
  | emptyObj hsp hsp' | emptyArr hsp hsp' =>
    simp only [append_assoc, cons_append, nil_append]
    rw [replaceTrailingCommas_mark hsp (by decide), replaceTrailingCommas_mark hsp' (by decide)]
  | obj hsp _ ih | arr hsp _ ih =>
    rw [append_assoc, cons_append, replaceTrailingCommas_mark hsp (by decide),
      ih hstrings, append_assoc, cons_append]
  | lastMember hsp _ hsp' _ hsp'' ih =>
    simp only [stringsOfPart, stringsOfMembers, forall_mem_cons, append_nil] at hstrings
    simp only [append_assoc, cons_append, nil_append]
    rw [replaceTrailingCommas_mark hsp (by decide), replaceTrailingCommas_string hstrings.1,
      replaceTrailingCommas_mark hsp' (by decide), ih hstrings.2,
      replaceTrailingCommas_mark hsp'' (by decide)]
  | member hsp _ hsp' _ hsp'' hu' ih ih' =>
    simp only [stringsOfPart, stringsOfMembers, forall_mem_cons, forall_mem_append]
      at hstrings
    simp only [append_assoc, cons_append]
    rw [replaceTrailingCommas_mark hsp (by decide), replaceTrailingCommas_string hstrings.1,
      replaceTrailingCommas_mark hsp' (by decide), ih hstrings.2.1,
      replaceTrailingCommas_spaces hsp'', replaceTrailingCommas_comma (closes_derives hu'),
      ih' hstrings.2.2]
  | lastItem _ hsp ih =>
    simp only [stringsOfPart, stringsOfItems, append_nil] at hstrings
    simp only [append_assoc, cons_append, nil_append]
    rw [ih hstrings, replaceTrailingCommas_mark hsp (by decide)]
  | item _ hsp hu' ih ih' =>
    simp only [stringsOfPart, stringsOfItems, forall_mem_append] at hstrings
    simp only [append_assoc, cons_append]
    rw [ih hstrings.1, replaceTrailingCommas_spaces hsp,
      replaceTrailingCommas_comma (closes_derives hu'), ih' hstrings.2]

end

/-! ## What is cut off -/

/-- JSON's white space is Go's, and no other space has it at an end. -/
theorem jsonSpace_encoding (hc : isJsonSpace c = true) :
    [c] ∈ spaceRunes.map encodeRune ∧
      (∀ e ∈ spaceRunes.map encodeRune, ∀ d ∈ e.head?, d = c → e = [c]) ∧
        ∀ e ∈ (spaceRunes.map encodeRune).map List.reverse, ∀ d ∈ e.head?, d = c → e = [c] := by
  simp only [isJsonSpace, Bool.or_eq_true, beq_iff_eq] at hc
  rcases hc with ((rfl | rfl) | rfl) | rfl <;> decide +kernel

variable {sp sp' : Bytes}

theorem dropEncodings_spaces (hsp : Spaces sp) (rest : Bytes) :
    dropEncodings (spaceRunes.map encodeRune) 0 (sp ++ rest) =
        dropEncodings (spaceRunes.map encodeRune) 0 rest ∧
      dropEncodings ((spaceRunes.map encodeRune).map List.reverse) 0 (sp ++ rest) =
        dropEncodings ((spaceRunes.map encodeRune).map List.reverse) 0 rest := by
  induction sp with
  | nil => exact ⟨rfl, rfl⟩
  | cons c sp ih =>
    obtain ⟨hc, hsp⟩ := forall_mem_cons.mp hsp
    obtain ⟨hmem, hfront, hback⟩ := jsonSpace_encoding hc
    have hmem' : [c] ∈ (spaceRunes.map encodeRune).map List.reverse :=
      mem_map.mpr ⟨[c], hmem, rfl⟩
    rw [cons_append, dropEncodings_cons hmem hfront fun _ => space_ne_nil,
      dropEncodings_cons hmem' hback fun _ => reverse_space_ne_nil]
    exact ih hsp

theorem trimSpace_braces (hsp : Spaces sp) (hsp' : Spaces sp') (inner : Bytes) :
    trimSpace (sp ++ (0x7B :: (inner ++ [0x7D]) ++ sp')) = 0x7B :: (inner ++ [0x7D]) := by
  have hfront : ∀ e ∈ spaceRunes.map encodeRune, ¬ e <+: 0x7B :: (inner ++ [0x7D]) ++ sp' := by
    intro e he hpre
    obtain ⟨⟨x, rest, rfl, hx⟩, -⟩ := space_ends he
    exact hx (cons_prefix_cons.mp hpre).1
  have hback : ∀ e ∈ (spaceRunes.map encodeRune).map List.reverse,
      ¬ e <+: (0x7B :: (inner ++ [0x7D])).reverse := by
    intro e he hpre
    obtain ⟨e, he', rfl⟩ := mem_map.mp he
    obtain ⟨-, front, x, rfl, hx⟩ := space_ends he'
    rw [reverse_cons, reverse_concat, reverse_concat] at hpre
    exact hx (cons_prefix_cons.mp hpre).1
  have hspaces : Spaces sp'.reverse := fun c hc => hsp' c (mem_reverse.mp hc)
  unfold trimSpace
  dsimp only
  rw [(dropEncodings_spaces hsp _).1, dropEncodings_eq_self hfront, reverse_append,
    (dropEncodings_spaces hspaces _).2, dropEncodings_eq_self hback, reverse_reverse]

/-- Braces, and space in front of them. -/
theorem exists_braces {depth : Nat} {u : Bytes} (h : Derives depth u (.value (.obj ms))) :
    ∃ sp inner,
      u = sp ++ 0x7B :: (inner ++ [0x7D]) ∧ Spaces sp ∧
        Derives depth (0x7B :: (inner ++ [0x7D])) (.value (.obj ms)) := by
  have hnone : Spaces [] := nofun
  cases h with
  | emptyObj hsp hsp' => exact ⟨_, _, rfl, hsp, .emptyObj hnone hsp'⟩
  | obj hsp hu =>
    obtain ⟨inner, rfl⟩ := getLast?_eq_some_iff.mp (getLast_members hu rfl)
    exact ⟨_, inner, rfl, hsp, .obj hnone hu⟩

theorem fromBraces_braces (hsp : Spaces sp) (hsp' : Spaces sp') (inner : Bytes) :
    fromBraces (sp ++ (0x7B :: (inner ++ [0x7D]) ++ sp')) = 0x7B :: (inner ++ [0x7D]) := by
  have hindex : index (0x7B :: (inner ++ [0x7D])) (ascii "\x7b") = some 0 :=
    if_pos ⟨inner ++ [0x7D], rfl⟩
  have hlast : lastIndex (0x7B :: (inner ++ [0x7D])) (ascii "\x7d") = some (0x7B :: inner).length :=
    lastIndex_append_cons not_mem_nil (0x7B :: inner)
  unfold fromBraces
  dsimp only
  rw [trimSpace_braces hsp hsp', hindex]
  dsimp only
  rw [drop_zero, hlast]
  dsimp only
  rw [take_of_length_le (by simp)]

theorem sanitizeJSON_eq (raw : Bytes) : sanitizeJSON raw = replaceTrailingCommas (fromBraces raw) :=
  rfl

/-- **A valid answer is the same JSON after the repair.** -/
theorem readJson_sanitizeJSON {raw : Bytes} (hvalid : readJson raw = some (.obj ms))
    (hstrings : ∀ t ∈ stringsOfMembers ms, ¬ HasTrailingComma t) :
    readJson (sanitizeJSON raw) = some (.obj ms) := by
  obtain ⟨u, sp', rfl, hsp', hu⟩ := readJson_iff.mp hvalid
  obtain ⟨sp, inner, rfl, hsp, hbraces⟩ := exists_braces hu
  have hkept := replaceTrailingCommas_derives hbraces hstrings []
  rw [append_nil, replaceTrailingCommas, append_nil] at hkept
  rw [append_assoc, sanitizeJSON_eq, fromBraces_braces hsp hsp', hkept]
  exact readJson_iff.mpr ⟨_, [], (append_nil _).symm, nofun, hbraces⟩

/-! ## Parsing -/

def directSlots (lib : Library) (parseFloat : Bytes → Option ℚ) (raw : Bytes) (p : Profile) :
    Except ParseError SlotMap :=
  match unmarshalResponse parseFloat raw with
  | none => .error .json
  | some resp => (validateSlots lib p (resp.slots.getD ∅)).mapError .slots

theorem parseLLMResponse_slots (lib : Library) (parseFloat : Bytes → Option ℚ) (raw : Bytes)
    (p : Profile) : (parseLLMResponse lib parseFloat raw p).map Record.slots =
      directSlots lib parseFloat (sanitizeJSON raw) p := by
  unfold parseLLMResponse directSlots
  dsimp only
  cases unmarshalResponse parseFloat (sanitizeJSON raw) with
  | none => rfl
  | some resp =>
    dsimp only
    cases validateSlots lib p (resp.slots.getD ∅) with
    | error message => rfl
    | ok slots => rfl

def noteProfile : Profile where
  profileId := [0x70]
  version := 1
  requiredSlots := [⟨[0x61], stringType, [], false⟩]

def slotText (name : Bytes) : Except ParseError SlotMap → Option Bytes
  | .ok slots =>
    match slots.lookup name with
    | some (.str s) => some s
    | _ => none
  | .error _ => none

/-- ` {"slots":{"a":"x, y"}} ` -/
def noteAnswer : Bytes :=
  [0x20, 0x7B, 0x22, 0x73, 0x6C, 0x6F, 0x74, 0x73, 0x22, 0x3A, 0x7B, 0x22, 0x61, 0x22, 0x3A,
   0x22, 0x78, 0x2C, 0x20, 0x79, 0x22, 0x7D, 0x7D, 0x20]

/-- `{"slots":{"a":"x,}"}}` -/
def bracketAnswer : Bytes :=
  [0x7B, 0x22, 0x73, 0x6C, 0x6F, 0x74, 0x73, 0x22, 0x3A, 0x7B, 0x22, 0x61, 0x22, 0x3A, 0x22,
   0x78, 0x2C, 0x7D, 0x22, 0x7D, 0x7D]

end Pcmi.Extraction.Schema
