import Pcmi.Go.Base64
import Pcmi.Go.JsonGrammar
import Pcmi.Go.Time

/-!
# Cursors

A cursor, the base64 text of a JSON object, says where the next page begins. The server reads back
the cursor that it has given out, to the nanosecond (`decodeCursor_encodeCursor`).
-/

namespace Pcmi.Listing

open List Pcmi.Go

structure Cursor where
  version : Int
  sortKey : Bytes
  lastId : Int
  lastTimestamp : Instant
  deriving DecidableEq

namespace Cursor

def zero : Cursor := ⟨0, [], 0, zeroInstant⟩

/-- `IsZero`; the location counts only where the version is zero. -/
def isZero (c : Cursor) : Bool := c == zero

end Cursor

def cursorVersion : Int := 1

/-! ## Encoding -/

/-- `json.Marshal` of a cursor; a time is always written. -/
def marshalCursor (loc : Location) (c : Cursor) : Option Bytes :=
  (marshalTime loc c.lastTimestamp).map fun ts => marshalStruct
    [(ascii "v", formatInteger c.version), (ascii "k", marshalString c.sortKey),
      (ascii "id", formatInteger c.lastId), (ascii "ts", ts)]

def Cursor.versioned (c : Cursor) : Cursor :=
  if c.version = 0 then { c with version := cursorVersion } else c

def encodeCursor (loc : Location) (c : Cursor) : Except String Bytes :=
  if c.isZero then .ok []
  else if c.versioned.version ≠ cursorVersion then
    .error ("cursor: unsupported version " ++ toString c.version)
  else
    match marshalCursor loc c.versioned with
    | none => .error "cursor encode: json: error calling MarshalJSON for type time.Time"
    | some raw => .ok (Base64.rawURLEncoding.encodeToString raw)

/-! ## Decoding -/

inductive CursorField where
  | version | sortKey | lastId | lastTimestamp

def cursorFields : List (Bytes × CursorField) :=
  [(ascii "v", .version), (ascii "k", .sortKey), (ascii "id", .lastId), (ascii "ts",
      .lastTimestamp)]

section

variable (parse : Bytes → Option Instant)

/-- A member of the object into its field. -/
def Cursor.store (c : Cursor) (value : RawJson) : CursorField → Option Cursor
  | .version => (unmarshalInt c.version value).map fun v => { c with version := v }
  | .sortKey => (unmarshalText c.sortKey value).map fun k => { c with sortKey := k }
  | .lastId => (unmarshalInt c.lastId value).map fun id => { c with lastId := id }
  | .lastTimestamp =>
    match value with
    | .literal text =>
      (unmarshalTime parse c.lastTimestamp text).map fun t => { c with lastTimestamp := t }
    | .str raw =>
      (unmarshalTime parse c.lastTimestamp (0x22 :: (raw ++ [0x22]))).map fun t =>
        { c with lastTimestamp := t }
    | _ => none

/-- The members of the object, one after the other. -/
def Cursor.storeAll (c : Cursor) : List (Bytes × RawJson) → Option Cursor
  | [] => some c
  | (key, value) :: members =>
    match fieldOf cursorFields (unquote key) with
    | none => c.storeAll members
    | some field => (c.store parse value field).bind fun c => c.storeAll members

/-- `json.Unmarshal` into `Cursor{}`; `none` is an error. -/
def unmarshalCursor (raw : Bytes) : Option Cursor :=
  (readJson raw).bind fun
    | .obj members => Cursor.zero.storeAll parse members
    | .literal text => if text = ascii "null" then some Cursor.zero else none
    | _ => none

def decodeCursor (s : Bytes) : Except String Cursor :=
  let s := trimSpace s
  if s = [] then .ok Cursor.zero
  else
    match (Base64.rawURLEncoding.decodeString s).or (Base64.stdEncoding.decodeString s) with
    | none => .error "cursor decode: illegal base64 data"
    | some raw =>
      match unmarshalCursor parse raw with
      | none => .error "cursor unmarshal: invalid cursor"
      | some c =>
        if c.versioned.version ≠ cursorVersion then
          .error ("cursor: unsupported version " ++ toString c.version ++
            " (server understands 1)")
        else .ok c.versioned

end

/-! ## Round trip -/

/-- A cursor as the server makes it for a row. -/
structure Cursor.Issued (c : Cursor) : Prop where
  version : c.version = cursorVersion
  sortKey : Plain c.sortKey
  lastId : 0 ≤ c.lastId ∧ c.lastId ≤ 9223372036854775807
  lastTimestamp : ClockTime c.lastTimestamp

theorem plain_of_isTimeChar {s : Bytes} (h : s.all isTimeChar = true) : Plain s := by
  have hall : ∀ c, isTimeChar c = true → Plain [c] := forall_byte (by decide +kernel)
  exact fun c hc => hall c (all_eq_true.mp h c hc) c mem_cons_self

section

variable {c : Cursor}

/-- **The JSON text of a cursor is read back.** -/
theorem unmarshalCursor_marshalCursor (loc : Location) (parse : Bytes → Option Instant)
    (h : c.Issued) :
    ∃ raw, marshalCursor loc c = some raw ∧ raw ≠ [] ∧ unmarshalCursor parse raw = some c := by
  obtain ⟨version, sortKey, lastId, lastTimestamp⟩ := c
  obtain ⟨hversion, hkey, ⟨hid, hid'⟩, hts⟩ := h
  dsimp only at hversion hkey hid hid' hts
  have htime : Plain (formatRFC3339Nano loc lastTimestamp) :=
    plain_of_isTimeChar (all_formatRFC3339Nano _ _)
  let fields : List (Bytes × Bytes × RawJson) :=
    [(ascii "v", formatInteger version, .literal (formatInteger version)),
      (ascii "k", marshalString sortKey, .str sortKey),
      (ascii "id", formatInteger lastId, .literal (formatInteger lastId)),
      (ascii "ts", 0x22 :: (formatRFC3339Nano loc lastTimestamp ++ [0x22]),
        .str (formatRFC3339Nano loc lastTimestamp))]
  have hreads : ∀ f ∈ fields, Plain f.1 ∧ ∀ depth, Derives depth f.2.1 (.value f.2.2) := by
    simp only [fields, forall_mem_cons, not_mem_nil, false_imp_iff, implies_true,
      and_true]
    have hplain : Plain (ascii "v") ∧ Plain (ascii "k") ∧ Plain (ascii "id") ∧
        Plain (ascii "ts") := by decide +kernel
    obtain ⟨hv, hk, hid, hts⟩ := hplain
    refine ⟨⟨hv, derives_integer version⟩, ⟨hk, ?_⟩, ⟨hid, derives_integer lastId⟩, hts,
      derives_string htime⟩
    rw [marshalString_plain hkey]
    exact derives_string hkey
  have hread := readJson_marshalStruct (cons_ne_nil _ _) hreads
  refine ⟨marshalStruct (fields.map fun f => (f.1, f.2.1)), ?_, cons_ne_nil _ _, ?_⟩
  · rw [marshalCursor, marshalTime_eq_some hts]
    rfl
  · have hv : fieldOf cursorFields (unquote (ascii "v")) = some .version := rfl
    have hk : fieldOf cursorFields (unquote (ascii "k")) = some .sortKey := rfl
    have hlast : fieldOf cursorFields (unquote (ascii "id")) = some .lastId := rfl
    have ht : fieldOf cursorFields (unquote (ascii "ts")) = some .lastTimestamp := rfl
    rw [unmarshalCursor, hread, Option.bind_some]
    simp only [map_cons, map_nil, Cursor.storeAll, hv, hk, hlast, ht, Cursor.store,
      unmarshalInt_formatInteger hid hid', hversion,
      unmarshalInt_formatInteger (x := cursorVersion) (by decide) (by decide), unmarshalText,
      unquote_plain hkey, unmarshalTime_quoted hts, Option.map_some, Option.bind_some]

/-- **The server reads back the cursors that it gives out.** -/
theorem decodeCursor_encodeCursor (loc : Location) (parse : Bytes → Option Instant)
    (h : c.Issued) :
    ∃ text, encodeCursor loc c = .ok text ∧ text ≠ [] ∧ trimSpace text = text ∧
      decodeCursor parse text = .ok c := by
  obtain ⟨raw, hraw, hne, hread⟩ := unmarshalCursor_marshalCursor loc parse h
  have hversioned : c.versioned = c := if_neg (by rw [h.version]; decide)
  have hzero : ¬ c.isZero = true := by
    intro hzero
    have hversion := h.version
    rw [beq_iff_eq.mp hzero] at hversion
    cases hversion
  have htext : Base64.rawURLEncoding.encodeToString raw ≠ [] :=
    mt Base64.encodeToString_eq_nil_iff.mp hne
  refine ⟨Base64.rawURLEncoding.encodeToString raw, ?_, htext,
    Base64.trimSpace_encodeToString raw, ?_⟩
  · rw [encodeCursor, if_neg hzero, hversioned, if_neg (not_not.mpr h.version), hraw]
  · unfold decodeCursor
    dsimp only
    rw [Base64.trimSpace_encodeToString, if_neg htext, Base64.decodeString_encodeToString]
    dsimp only [Option.or]
    rw [hread]
    dsimp only
    rw [hversioned, if_neg (not_not.mpr h.version)]

end

end Pcmi.Listing
