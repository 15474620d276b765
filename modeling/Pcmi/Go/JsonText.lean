import Pcmi.Go.Json

/-!
# Reading JSON texts

The scanner of `encoding/json`. `readJson` takes a text apart, with strings and numbers as they
stand: a `time.Time` looks at the text between the quotes.
-/

namespace Pcmi.Go

open List

/-- A value of a JSON text. -/
inductive RawJson where
  /-- `null`, `true`, `false` or a number. -/
  | literal (text : Bytes)
  /-- What stands between the quotes. -/
  | str (raw : Bytes)
  | arr (items : List RawJson)
  | obj (members : List (Bytes × RawJson))

/-! ## Literals -/

def isJsonSpace (c : UInt8) : Bool := c == 0x20 || c == 0x09 || c == 0x0D || c == 0x0A

def skipSpace (s : Bytes) : Bytes := s.dropWhile isJsonSpace

/-- The rest of a string behind its first quote, and what is behind it; the digits of a code are
read like other characters. -/
def readString : Bytes → Option (Bytes × Bytes)
  | [] => none
  | c :: rest =>
    if c = 0x22 then some ([], rest)
    else if c < 0x20 then none
    else if c = 0x5C then
      match rest with
      | [] => none
      | e :: rest =>
        if (ascii "bfnrt\\/\"").contains e ∨
            e = 0x75 ∧ 4 ≤ rest.length ∧ (rest.take 4).all (fun d => (fromHexChar d).isSome) then
          (readString rest).map fun x => (c :: e :: x.1, x.2)
        else none
    else (readString rest).map fun x => (c :: x.1, x.2)

def readFraction (s : Bytes) : Option (Bytes × Bytes) :=
  let digits := s.tail.takeWhile isDigit
  if s.head? ≠ some 0x2E then some ([], s)
  else if digits = [] then none
  else some (0x2E :: digits, s.tail.dropWhile isDigit)

def readExponent (s : Bytes) : Option (Bytes × Bytes) :=
  let sign := s.tail.take (if s.tail.head? = some 0x2B ∨ s.tail.head? = some 0x2D then 1 else 0)
  let rest := s.tail.drop sign.length
  if s.head? ≠ some 0x65 ∧ s.head? ≠ some 0x45 then some ([], s)
  else if rest.takeWhile isDigit = [] then none
  else some (s.take 1 ++ sign ++ rest.takeWhile isDigit, rest.dropWhile isDigit)

def readSign (s : Bytes) : Bytes × Bytes :=
  if s.head? = some 0x2D then ([0x2D], s.tail) else ([], s)

/-- A zero, or digits that begin with another one. -/
def readInteger (s : Bytes) : Option (Bytes × Bytes) :=
  if s.head? = some 0x30 then some ([0x30], s.tail)
  else if s.takeWhile isDigit = [] then none
  else some (s.takeWhile isDigit, s.dropWhile isDigit)

def readNumber (s : Bytes) : Option (Bytes × Bytes) :=
  (readInteger (readSign s).2).bind fun integer =>
    (readFraction integer.2).bind fun fraction =>
      (readExponent fraction.2).map fun exponent =>
        ((readSign s).1 ++ integer.1 ++ fraction.1 ++ exponent.1, exponent.2)

def readLiteral (s : Bytes) : Option (Bytes × Bytes) :=
  match [ascii "null", ascii "true", ascii "false"].find? (· <+: s) with
  | some word => some (word, s.drop word.length)
  | none => readNumber s

/-! ## Values -/

def maxNestingDepth : Nat := 10000

mutual

/-- A value and what is behind it; the numbers bound calls and brackets. -/
def readValue : Nat → Nat → Bytes → Option (RawJson × Bytes)
  | 0, _, _ => none
  | fuel + 1, depth, s =>
    match skipSpace s with
    | [] => none
    | c :: rest =>
      if c = 0x22 then (readString rest).map fun x => (.str x.1, x.2)
      else if c = 0x7B then
        if depth = 0 then none
        else if (skipSpace rest).head? = some 0x7D then some (.obj [], (skipSpace rest).tail)
        else (readMembers fuel (depth - 1) rest).map fun x => (.obj x.1, x.2)
      else if c = 0x5B then
        if depth = 0 then none
        else if (skipSpace rest).head? = some 0x5D then some (.arr [], (skipSpace rest).tail)
        else (readItems fuel (depth - 1) rest).map fun x => (.arr x.1, x.2)
      else (readLiteral (c :: rest)).map fun x => (.literal x.1, x.2)

/-- The members of an object up to its brace. -/
def readMembers : Nat → Nat → Bytes → Option (List (Bytes × RawJson) × Bytes)
  | 0, _, _ => none
  | fuel + 1, depth, s =>
    if (skipSpace s).head? ≠ some 0x22 then none
    else
      (readString (skipSpace s).tail).bind fun key =>
        if (skipSpace key.2).head? ≠ some 0x3A then none
        else
          (readValue fuel depth (skipSpace key.2).tail).bind fun value =>
            match skipSpace value.2 with
            | [] => none
            | c :: rest =>
              if c = 0x7D then some ([(key.1, value.1)], rest)
              else if c = 0x2C then
                (readMembers fuel depth rest).map fun x => ((key.1, value.1) :: x.1, x.2)
              else none

/-- The items of an array up to its bracket. -/
def readItems : Nat → Nat → Bytes → Option (List RawJson × Bytes)
  | 0, _, _ => none
  | fuel + 1, depth, s =>
    (readValue fuel depth s).bind fun value =>
      match skipSpace value.2 with
      | [] => none
      | c :: rest =>
        if c = 0x5D then some ([value.1], rest)
        else if c = 0x2C then (readItems fuel depth rest).map fun x => (value.1 :: x.1, x.2)
        else none

end

/-- `checkValid` with the value. Each call reads a character or more. -/
def readJson (s : Bytes) : Option RawJson :=
  (readValue (s.length + 2) maxNestingDepth s).bind fun x =>
    if skipSpace x.2 = [] then some x.1 else none

/-! ## Fields -/

/-- The runes of an escape and its length; half a surrogate pair is replaced. -/
def unescape (s : Bytes) : Nat × Nat :=
  match s with
  | [] => (runeError, 0)
  | e :: rest =>
    if e = 0x75 then
      let high := hexValue (rest.take 4)
      let low := hexValue ((rest.drop 6).take 4)
      if 0xD800 ≤ high ∧ high < 0xDC00 ∧ (rest.drop 4).take 2 = ascii "\\u" ∧ 0xDC00 ≤ low ∧
          low < 0xE000 then
        (0x10000 + (high - 0xD800) * 0x400 + (low - 0xDC00), 11)
      else (high, 5)
    else if e = 0x62 then (0x08, 1)
    else if e = 0x66 then (0x0C, 1)
    else if e = 0x6E then (0x0A, 1)
    else if e = 0x72 then (0x0D, 1)
    else if e = 0x74 then (0x09, 1)
    else (e.toNat, 1)

/-- `unquote`, after `skip` bytes. -/
def unquoteFrom : Nat → Bytes → Bytes
  | _, [] => []
  | skip + 1, _ :: rest => unquoteFrom skip rest
  | 0, c :: rest =>
    if c = 0x5C then encodeRune (unescape rest).1 ++ unquoteFrom (unescape rest).2 rest
    else encodeRune (decodeRune c rest).1 ++ unquoteFrom ((decodeRune c rest).2 - 1) rest

def unquote (raw : Bytes) : Bytes := unquoteFrom 0 raw

/-- Folding to ASCII letters, as `foldName` does it. -/
def foldCode (r : Nat) : Nat :=
  if r = 0x17F then 0x73 else if r = 0x212A then 0x6B
  else if 0x41 ≤ r ∧ r ≤ 0x5A then r + 32 else r

/-- The field of a struct with lower-case names that a key stands for. -/
def fieldOf {α : Type} (fields : List (Bytes × α)) (key : Bytes) : Option α :=
  (fields.find? fun f => (runes key).map (fun r => foldCode r.1) = f.1.map UInt8.toNat).map (·.2)

def unmarshalText (old : Bytes) : RawJson → Option Bytes
  | .literal text => if text = ascii "null" then some old else none
  | .str raw => some (unquote raw)
  | _ => none

/-- `strconv.ParseInt` of a JSON number, for 64 bits. -/
def parseInt64 (s : Bytes) : Option Int :=
  if (readSign s).2 = [] then none
  else
    (readDigits 0 (readSign s).2).bind fun n =>
      let x : Int := if (readSign s).1 = [] then n else -n
      if -9223372036854775808 ≤ x ∧ x ≤ 9223372036854775807 then some x else none

def unmarshalInt (old : Int) : RawJson → Option Int
  | .literal text => if text = ascii "null" then some old else parseInt64 text
  | _ => none

/-! ## What `json.Marshal` writes -/

/-- Texts that stand in JSON as they are. -/
def Plain (s : Bytes) : Prop :=
  ∀ c ∈ s, 0x20 ≤ c ∧ c < 0x80 ∧ c ≠ 0x22 ∧ c ≠ 0x5C ∧ c ≠ 0x3C ∧ c ≠ 0x3E ∧ c ≠ 0x26

instance (s : Bytes) : Decidable (Plain s) := inferInstanceAs (Decidable (∀ c ∈ s, _))

variable {s : Bytes} {c : UInt8} {x : Int}

theorem readString_plain (h : Plain s) (rest : Bytes) :
    readString (s ++ 0x22 :: rest) = some (s, rest) := by
  induction s with
  | nil =>
    rw [nil_append, readString.eq_def]
    exact if_pos rfl
  | cons c s ih =>
    obtain ⟨⟨hspace, -, hquote, hescape, -⟩, hs⟩ := forall_mem_cons.mp h
    rw [cons_append, readString.eq_def]
    dsimp only
    rw [if_neg hquote, if_neg (UInt8.not_lt.mpr hspace), if_neg hescape, ih hs]
    rfl

theorem runes_plain (h : Plain s) : runes s = s.map fun c => (c.toNat, [c]) := by
  unfold runes
  induction s with
  | nil => rfl
  | cons c s ih =>
    obtain ⟨⟨-, hascii, -⟩, hs⟩ := forall_mem_cons.mp h
    rw [runesFrom, decodeRune, if_pos hascii, Nat.sub_self, ih hs]
    rfl

theorem escapeRune_plain : ∀ c : UInt8, Plain [c] → escapeRune (c.toNat, [c]) = [c] :=
  forall_byte (by decide +kernel)

theorem marshalString_plain (h : Plain s) :
    marshalString s = 0x22 :: (s ++ [0x22]) := by
  have hself : (runes s).flatMap escapeRune = s := by
    rw [runes_plain h, flatMap_map]
    refine (flatMap_congr fun c hc => ?_).trans (flatMap_singleton' s)
    exact escapeRune_plain c fun d hd => mem_singleton.mp hd ▸ h c hc
  rw [marshalString, hself]
  rfl

theorem unquote_plain (h : Plain s) : unquote s = s := by
  unfold unquote
  induction s with
  | nil => rfl
  | cons c s ih =>
    obtain ⟨⟨-, hascii, -, hescape, -⟩, hs⟩ := forall_mem_cons.mp h
    rw [unquoteFrom, if_neg hescape, decodeRune, if_pos hascii, Nat.sub_self, ih hs, encodeRune,
      if_pos (show c.toNat < 0x80 from hascii), UInt8.ofNat_toNat]
    rfl

theorem skipSpace_cons (h : isJsonSpace c = false) (rest : Bytes) :
    skipSpace (c :: rest) = c :: rest := dropWhile_cons_of_neg (by simp [h])

/-- The first digit of a number is a zero only if it is the number zero. -/
theorem formatNat_zero_or (n : Nat) : formatNat n = [0x30] ∨
    ∃ d rest, formatNat n = d :: rest ∧ isDigit d = true ∧ d ≠ 0x30 := by
  induction n using Nat.strong_induction_on with
  | _ n ih =>
    by_cases hn : n < 10
    · have hdigit : ∀ n < 10, formatNat n = [0x30] ∨
          isDigit (UInt8.ofNat n.digitChar.toNat) = true ∧
            UInt8.ofNat n.digitChar.toNat ≠ 0x30 := by decide
      rcases hdigit n hn with h | h
      · exact Or.inl h
      · exact Or.inr ⟨_, [], formatNat_of_lt hn, h⟩
    · rcases ih (n / 10) (by omega) with h | ⟨d, rest, h, hd⟩
      · have := formatNat_inj (h.trans (show [0x30] = formatNat 0 by decide))
        omega
      · have hlast := formatNat_of_le (show 10 ≤ n by omega)
        rw [h] at hlast
        exact Or.inr ⟨d, _, hlast, hd⟩

theorem readInteger_formatNat (n : Nat) : readInteger (formatNat n) = some (formatNat n, []) := by
  have hdigits : ∀ x ∈ formatNat n, isDigit x = true := fun x hx => isDigit_of_mem_formatNat hx
  rcases formatNat_zero_or n with h | ⟨d, ds, h, -, hne⟩
  · rw [h]
    rfl
  have hhead : ¬ (d :: ds).head? = some 0x30 := fun heq => hne (Option.some.inj heq)
  rw [h] at hdigits ⊢
  rw [readInteger, if_neg hhead, takeWhile_eq_self_iff.mpr hdigits,
    dropWhile_eq_nil_iff.mpr hdigits, if_neg (cons_ne_nil d ds)]

theorem readSign_formatInteger (x : Int) : ∃ sign n, formatInteger x = sign ++ formatNat n ∧
    readSign (formatInteger x) = (sign, formatNat n) := by
  cases x with
  | ofNat n =>
    refine ⟨[], n, rfl, if_neg fun h => ?_⟩
    exact absurd (isDigit_of_mem_formatNat (mem_of_mem_head? h)) (by decide)
  | negSucc n => exact ⟨[0x2D], n + 1, rfl, if_pos rfl⟩

theorem readNumber_formatInteger (x : Int) :
    readNumber (formatInteger x) = some (formatInteger x, []) := by
  obtain ⟨sign, n, hx, hsign⟩ := readSign_formatInteger x
  rw [readNumber, hsign, readInteger_formatNat, hx]
  simp [readFraction, readExponent]

theorem formatInteger_first (x : Int) : ∃ d rest, formatInteger x = d :: rest ∧
    (isDigit d = true ∨ d = 0x2D) := by
  cases x with
  | ofNat n =>
    obtain ⟨d, rest, h⟩ := exists_cons_of_ne_nil (formatNat_ne_nil n)
    exact ⟨d, rest, h, Or.inl (isDigit_of_mem_formatNat (h ▸ mem_cons_self))⟩
  | negSucc n => exact ⟨0x2D, _, rfl, Or.inr rfl⟩

theorem parseInt64_formatInteger (h : 0 ≤ x) (h' : x ≤ 9223372036854775807) :
    parseInt64 (formatInteger x) = some x := by
  obtain ⟨n, rfl⟩ := Int.eq_ofNat_of_zero_le h
  have hsign : readSign (formatInteger n) = ([], formatNat n) := by
    refine if_neg fun heq => ?_
    have hmem : (0x2D : UInt8) ∈ formatNat n := mem_of_mem_head? heq
    exact absurd (isDigit_of_mem_formatNat hmem) (by decide)
  rw [parseInt64, hsign, if_neg (formatNat_ne_nil n), readDigits_formatNat, Option.bind_some,
    if_pos rfl]
  exact if_pos ⟨by omega, h'⟩

theorem unmarshalInt_formatInteger {old : Int} (h : 0 ≤ x) (h' : x ≤ 9223372036854775807) :
    unmarshalInt old (.literal (formatInteger x)) = some x := by
  have hnull : formatInteger x ≠ ascii "null" := by
    obtain ⟨d, ds, hx, hd⟩ := formatInteger_first x
    rw [hx]
    intro heq
    obtain rfl : d = 0x6E := (cons.inj heq).1
    revert hd
    decide
  rw [unmarshalInt, if_neg hnull, parseInt64_formatInteger h h']

end Pcmi.Go
