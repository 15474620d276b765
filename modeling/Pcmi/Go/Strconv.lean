import Pcmi.Go.Utf8

/-!
# Numbers and bytes as text

`strconv` and `encoding/hex`. Each text is read back, and none has a control character.
-/

namespace Pcmi.Go

open List

/-! ## Decimal numbers -/

def formatNat (n : Nat) : Bytes := (Nat.toDigits 10 n).map fun c => UInt8.ofNat c.toNat

def formatInteger : Int → Bytes
  | .ofNat n => formatNat n
  | .negSucc n => 0x2D :: formatNat (n + 1)

/-- `strconv.FormatInt(x, 10)` and `strconv.Itoa(x)`. -/
def formatInt (x : Int64) : Bytes := formatInteger x.toInt

def formatBool (b : Bool) : Bytes := if b then ascii "true" else ascii "false"

theorem isDigit_bounds {c : Char} (h : c.isDigit = true) : 0x30 ≤ c.toNat ∧ c.toNat ≤ 0x39 := by
  simp only [Char.isDigit, Bool.and_eq_true, decide_eq_true_eq] at h
  exact ⟨h.1, h.2⟩

variable {n : Nat} {b : UInt8}

theorem mem_formatNat (h : b ∈ formatNat n) : 0x30 ≤ b.toNat ∧ b.toNat ≤ 0x39 := by
  obtain ⟨c, hc, rfl⟩ := mem_map.mp h
  have hbounds := isDigit_bounds (Nat.isDigit_of_mem_toDigits (by omega) (by omega) hc)
  rw [UInt8.toNat_ofNat_of_lt' (show c.toNat < 256 by omega)]
  exact hbounds

def isDigit (c : UInt8) : Bool := decide (0x30 ≤ c) && decide (c ≤ 0x39)

theorem isDigit_of_mem_formatNat {c : UInt8} (h : c ∈ formatNat n) : isDigit c = true := by
  rw [isDigit, Bool.and_eq_true, decide_eq_true_iff, decide_eq_true_iff, UInt8.le_iff_toNat_le,
    UInt8.le_iff_toNat_le]
  exact mem_formatNat h

theorem formatNat_inj {m : Nat} (h : formatNat m = formatNat n) : m = n := by
  have hback : ∀ k, (formatNat k).map (fun b => Char.ofNat b.toNat) = Nat.toDigits 10 k := by
    intro k
    rw [formatNat, map_map]
    refine (map_congr_left fun c hc => ?_).trans (map_id _)
    have hbounds := isDigit_bounds (Nat.isDigit_of_mem_toDigits (by omega) (by omega) hc)
    have hbyte : (UInt8.ofNat c.toNat).toNat = c.toNat :=
      UInt8.toNat_ofNat_of_lt' (show c.toNat < 256 by omega)
    simp only [Function.comp_apply, hbyte, Char.ofNat_toNat, id]
  have hdigits : Nat.toDigits 10 m = Nat.toDigits 10 n := by rw [← hback m, h, hback n]
  have hm : Nat.ofDigitChars 10 (Nat.toDigits 10 m) 0 = m := Nat.ofDigitChars_ten_toDigits
  rw [← hm, hdigits, Nat.ofDigitChars_ten_toDigits]

theorem formatNat_ne_minus (n : Nat) (rest : Bytes) : formatNat n ≠ 0x2D :: rest := by
  intro h
  have hmem : (0x2D : UInt8) ∈ formatNat n := h ▸ mem_cons_self
  have := (mem_formatNat hmem).1
  simp at this

theorem mem_formatInteger {x : Int} (h : b ∈ formatInteger x) :
    b = 0x2D ∨ 0x30 ≤ b.toNat ∧ b.toNat ≤ 0x39 := by
  cases x with
  | ofNat n => exact .inr (mem_formatNat h)
  | negSucc n =>
    rcases mem_cons.mp h with h | h
    · exact .inl h
    · exact .inr (mem_formatNat h)

/-- **An integer is read back.** -/
theorem formatInteger_inj {x y : Int} (h : formatInteger x = formatInteger y) : x = y := by
  cases x with
  | ofNat m =>
    cases y with
    | ofNat n => rw [formatNat_inj h]
    | negSucc n => exact absurd h (formatNat_ne_minus m _)
  | negSucc m =>
    cases y with
    | ofNat n => exact absurd h.symm (formatNat_ne_minus n _)
    | negSucc n =>
      have := formatNat_inj (cons.inj h).2
      rw [Nat.succ.inj this]

/-! ### Reading digits -/

/-- The number that digits stand for, behind a number read so far. -/
def readDigits (acc : Nat) : Bytes → Option Nat
  | [] => some acc
  | c :: rest =>
    if isDigit c then readDigits (acc * 10 + (c.toNat - 0x30)) rest else none

theorem readDigits_append (acc : Nat) (s t : Bytes) :
    readDigits acc (s ++ t) = (readDigits acc s).bind (readDigits · t) := by
  induction s generalizing acc with
  | nil => rfl
  | cons c s ih =>
    rw [cons_append, readDigits, readDigits]
    split
    · exact ih _
    · rfl

theorem readDigits_digit (acc : Nat) {d : Nat} (hd : d < 10) :
    readDigits acc [UInt8.ofNat d.digitChar.toNat] = some (acc * 10 + d) := by
  have hdigit : ∀ d < 10, isDigit (UInt8.ofNat d.digitChar.toNat) = true ∧
      (UInt8.ofNat d.digitChar.toNat).toNat - 0x30 = d := by decide
  rw [readDigits, if_pos (hdigit d hd).1, (hdigit d hd).2, readDigits]

theorem formatNat_of_lt (h : n < 10) : formatNat n = [UInt8.ofNat n.digitChar.toNat] := by
  rw [formatNat, Nat.toDigits_of_lt_base h]
  rfl

theorem formatNat_of_le (h : 10 ≤ n) :
    formatNat n = formatNat (n / 10) ++ [UInt8.ofNat (n % 10).digitChar.toNat] := by
  rw [formatNat, Nat.toDigits_of_base_le (by decide) h, map_append]
  rfl

theorem formatNat_ne_nil (n : Nat) : formatNat n ≠ [] := by
  by_cases hn : n < 10
  · rw [formatNat_of_lt hn]
    exact cons_ne_nil _ _
  · rw [formatNat_of_le (by omega)]
    exact append_ne_nil_of_right_ne_nil _ (cons_ne_nil _ _)

/-- **The digits of a number give it back.** -/
theorem readDigits_formatNat (n : Nat) : readDigits 0 (formatNat n) = some n := by
  induction n using Nat.strong_induction_on with
  | _ n ih =>
    by_cases hn : n < 10
    · rw [formatNat_of_lt hn, readDigits_digit 0 hn, Nat.zero_mul, Nat.zero_add]
    rw [formatNat_of_le (by omega), readDigits_append, ih (n / 10) (by omega), Option.bind_some,
      readDigits_digit _ (by omega)]
    exact congrArg some (Nat.div_add_mod' n 10)

/-- The loop of `strconv.ParseUint`, and whether there is no error. -/
def parseUint (n : Nat) : Bytes → Nat × Bool
  | [] => (n, true)
  | c :: rest =>
    if isDigit c = false then (0, false)
    else if 18446744073709551615 < n * 10 + (c.toNat - 0x30) then (18446744073709551615, false)
    else parseUint (n * 10 + (c.toNat - 0x30)) rest

/-- The part of `strconv.ParseInt` behind the sign. -/
def parseMagnitude (negative : Bool) (digits : Bytes) : Int × Bool :=
  let (n, ok) := if digits = [] then (0, false) else parseUint 0 digits
  if negative then
    if 9223372036854775808 < n then (-9223372036854775808, false) else (-n, ok)
  else if 9223372036854775808 ≤ n then (9223372036854775807, false)
  else (n, ok)

/-- `strconv.ParseInt(s, 10, 64)`, in the form of `parseUint`. -/
def parseInt : Bytes → Int × Bool
  | [] => (0, false)
  | c :: rest =>
    if c = 0x2B then parseMagnitude false rest
    else if c = 0x2D then parseMagnitude true rest
    else parseMagnitude false (c :: rest)

theorem parseUint_of_readDigits : ∀ {s : Bytes} {acc : Nat}, readDigits acc s = some n →
    n ≤ 18446744073709551615 → acc ≤ n ∧ parseUint acc s = (n, true)
  | [], acc, h, _ => by
    cases h
    exact ⟨Nat.le_refl n, rfl⟩
  | c :: rest, acc, h, hn => by
    rw [readDigits] at h
    split at h
    · next hdigit =>
      obtain ⟨hle, hrest⟩ := parseUint_of_readDigits h hn
      refine ⟨by omega, ?_⟩
      rw [parseUint, if_neg (by simp [hdigit]), if_neg (by omega), hrest]
    · cases h

theorem isDigit_of_parseUint : ∀ {s : Bytes} {acc : Nat}, (parseUint acc s).2 = true →
    ∀ c ∈ s, isDigit c = true
  | [], _, _ => forall_mem_nil _
  | c :: rest, acc, h => by
    rw [parseUint] at h
    split at h
    · cases h
    next hdigit =>
    split at h
    · cases h
    · exact forall_mem_cons.mpr ⟨by simpa using hdigit, isDigit_of_parseUint h⟩

theorem isDigit_of_parseMagnitude {negative : Bool} {digits : Bytes}
    (h : (parseMagnitude negative digits).2 = true) : ∀ c ∈ digits, isDigit c = true := by
  by_cases hnil : digits = []
  · rw [hnil]
    exact forall_mem_nil _
  suffices huint : (parseUint 0 digits).2 = true from isDigit_of_parseUint huint
  simp only [parseMagnitude, if_neg hnil] at h
  split at h
  · split at h
    · cases h
    · exact h
  · split at h
    · cases h
    · exact h

/-- What is read as a number has no dot. -/
theorem dot_not_mem_of_parseInt {s : Bytes} (h : (parseInt s).2 = true) : 0x2E ∉ s := by
  have hdigits : ∀ negative digits, (parseMagnitude negative digits).2 = true → 0x2E ∉ digits :=
    fun _ _ h hdot => absurd (isDigit_of_parseMagnitude h _ hdot) (by decide)
  cases s with
  | nil => exact not_mem_nil
  | cons c rest =>
    rw [parseInt] at h
    split at h
    · next hc => simp [hc, hdigits _ _ h]
    split at h
    · next hc => simp [hc, hdigits _ _ h]
    · exact hdigits _ _ h

theorem parseInt_formatNat (h : n ≤ 9223372036854775807) : parseInt (formatNat n) = (↑n, true) := by
  have hread := (parseUint_of_readDigits (readDigits_formatNat n) (by omega)).2
  obtain ⟨c, rest, hcons⟩ := exists_cons_of_ne_nil (formatNat_ne_nil n)
  have hc : isDigit c = true := isDigit_of_mem_formatNat (n := n) (hcons ▸ mem_cons_self)
  rw [hcons] at hread ⊢
  rw [parseInt, if_neg (by rintro rfl; cases hc), if_neg (by rintro rfl; cases hc), parseMagnitude,
    if_neg (cons_ne_nil c rest), hread]
  exact if_neg (Nat.not_le.mpr (by omega))

theorem formatInt_inj {x y : Int64} (h : formatInt x = formatInt y) : x = y :=
  Int64.toInt_inj.mp (formatInteger_inj h)

theorem not_mem_formatInteger (hb : b.toNat < 0x20) (x : Int) : b ∉ formatInteger x := by
  intro h
  rcases mem_formatInteger h with rfl | hdigit
  · simp at hb
  · omega

theorem not_mem_formatInt (hb : b.toNat < 0x20) (x : Int64) : b ∉ formatInt x :=
  not_mem_formatInteger hb x.toInt

example : formatInt (-120) = ascii "-120" := by decide

theorem formatBool_inj {a b : Bool} (h : formatBool a = formatBool b) : a = b := by
  cases a <;> cases b <;> first | rfl | exact absurd h (by decide)

theorem not_mem_formatBool (hb : b.toNat < 0x20) (v : Bool) : b ∉ formatBool v := by
  have hall : ∀ v : Bool, (formatBool v).all (fun c => decide (0x20 ≤ c.toNat)) = true := by
    intro v
    cases v <;> decide
  intro h
  have := of_decide_eq_true (all_eq_true.mp (hall v) b h)
  omega

/-! ## Hexadecimal bytes -/

def hexDigit (n : Nat) : UInt8 := UInt8.ofNat (if n < 10 then 0x30 + n else 0x57 + n)

def encodeToString (src : Bytes) : Bytes :=
  src.flatMap fun b => [hexDigit (b.toNat / 16), hexDigit (b.toNat % 16)]

def fromHexChar (b : UInt8) : Option Nat :=
  if 0x30 ≤ b ∧ b ≤ 0x39 then some (b.toNat - 0x30)
  else if 0x61 ≤ b ∧ b ≤ 0x66 then some (b.toNat - 0x57)
  else if 0x41 ≤ b ∧ b ≤ 0x46 then some (b.toNat - 0x37)
  else none

def hexValue (digits : Bytes) : Nat :=
  digits.foldl (fun acc c => acc * 16 + (fromHexChar c).getD 0) 0

/-- `hex.DecodeString`; `none` is an error. -/
def decodeString : Bytes → Option Bytes
  | [] => some []
  | [_] => none
  | hi :: lo :: rest =>
    match fromHexChar hi, fromHexChar lo, decodeString rest with
    | some h, some l, some bytes => some (UInt8.ofNat (h * 16 + l) :: bytes)
    | _, _, _ => none

theorem fromHexChar_hexDigit : ∀ {n : Nat}, n < 16 → fromHexChar (hexDigit n) = some n := by
  decide

theorem hexDigit_toNat : ∀ {n : Nat}, n < 16 → 0x30 ≤ (hexDigit n).toNat := by
  decide

/-- **Bytes written in hexadecimal are read back.** -/
theorem decodeString_encodeToString (src : Bytes) : decodeString (encodeToString src) =
    some src := by
  induction src with
  | nil => rfl
  | cons b src ih =>
    have hb : b.toNat < 256 := UInt8.toNat_lt_size b
    have hvalue : b.toNat / 16 * 16 + b.toNat % 16 = b.toNat := by omega
    unfold encodeToString at ih ⊢
    rw [flatMap_cons, cons_append, cons_append, nil_append, decodeString,
      fromHexChar_hexDigit (by omega), fromHexChar_hexDigit (by omega), ih]
    simp only [hvalue, UInt8.ofNat_toNat]

theorem encodeToString_inj {src src' : Bytes} (h : encodeToString src = encodeToString src') :
    src = src' := by
  have hread := decodeString_encodeToString src
  rw [h, decodeString_encodeToString] at hread
  exact (Option.some.inj hread).symm

theorem not_mem_encodeToString (hb : b.toNat < 0x20) (src : Bytes) : b ∉ encodeToString src := by
  intro h
  obtain ⟨c, _, hc⟩ := mem_flatMap.mp h
  have hlt : c.toNat < 256 := UInt8.toNat_lt_size c
  have hhi := hexDigit_toNat (show c.toNat / 16 < 16 by omega)
  have hlo := hexDigit_toNat (show c.toNat % 16 < 16 by omega)
  rcases mem_pair.mp hc with rfl | rfl <;> omega

end Pcmi.Go
