import Pcmi.Go.Strings

/-!
# `encoding/base64`

Three bytes are four digits; what is left at the end is two or three, padded or not. The decoder
passes over line breaks and does not look at the unused bits of the last digit.
-/

namespace Pcmi.Go

open List

/-- `base64.Encoding`: its last two digits and whether it pads. -/
structure Base64 where
  digit62 : UInt8
  digit63 : UInt8
  padded : Bool

namespace Base64

def rawURLEncoding : Base64 := ⟨0x2D, 0x5F, false⟩

def stdEncoding : Base64 := ⟨0x2B, 0x2F, true⟩

variable (e : Base64)

def digit (n : Nat) : UInt8 :=
  if n < 26 then UInt8.ofNat (0x41 + n)
  else if n < 52 then UInt8.ofNat (0x61 + (n - 26))
  else if n < 62 then UInt8.ofNat (0x30 + (n - 52))
  else if n = 62 then e.digit62
  else e.digit63

def value (c : UInt8) : Option Nat :=
  if 0x41 ≤ c ∧ c ≤ 0x5A then some (c.toNat - 0x41)
  else if 0x61 ≤ c ∧ c ≤ 0x7A then some (c.toNat - 0x61 + 26)
  else if 0x30 ≤ c ∧ c ≤ 0x39 then some (c.toNat - 0x30 + 52)
  else if c = e.digit62 then some 62
  else if c = e.digit63 then some 63
  else none

def padding (n : Nat) : Bytes := if e.padded then List.replicate n 0x3D else []

def encodeToString : Bytes → Bytes
  | [] => []
  | [a] => [e.digit (a.toNat / 4), e.digit (a.toNat % 4 * 16)] ++ e.padding 2
  | [a, b] =>
    [e.digit (a.toNat / 4), e.digit (a.toNat % 4 * 16 + b.toNat / 16),
      e.digit (b.toNat % 16 * 4)] ++ e.padding 1
  | a :: b :: c :: rest =>
    e.digit (a.toNat / 4) :: e.digit (a.toNat % 4 * 16 + b.toNat / 16) ::
      e.digit (b.toNat % 16 * 4 + c.toNat / 64) :: e.digit (c.toNat % 64) :: encodeToString rest

/-- The bytes of four digits, as far as they are there. -/
def quantum (v₀ v₁ v₂ v₃ : Nat) : Bytes :=
  [UInt8.ofNat (v₀ * 4 + v₁ / 16), UInt8.ofNat (v₁ % 16 * 16 + v₂ / 4),
    UInt8.ofNat (v₂ % 4 * 64 + v₃)]

/-- `decodeQuantum` over a text without line breaks. -/
def decodeQuanta : Bytes → Option Bytes
  | [] => some []
  | [_] => none
  | [a, b] =>
    match e.padded, e.value a, e.value b with
    | false, some v₀, some v₁ => some ((quantum v₀ v₁ 0 0).take 1)
    | _, _, _ => none
  | [a, b, c] =>
    match e.padded, e.value a, e.value b, e.value c with
    | false, some v₀, some v₁, some v₂ => some ((quantum v₀ v₁ v₂ 0).take 2)
    | _, _, _, _ => none
  | a :: b :: c :: d :: rest =>
    match e.value a, e.value b, e.value c, e.value d with
    | some v₀, some v₁, some v₂, some v₃ => (decodeQuanta rest).map (quantum v₀ v₁ v₂ v₃ ++ ·)
    | some v₀, some v₁, some v₂, none =>
      if e.padded && d == 0x3D && rest.isEmpty then some ((quantum v₀ v₁ v₂ 0).take 2) else none
    | some v₀, some v₁, none, none =>
      if e.padded && c == 0x3D && d == 0x3D && rest.isEmpty then some ((quantum v₀ v₁ 0 0).take 1)
      else none
    | _, _, _, _ => none

/-- `DecodeString`; `none` is a `CorruptInputError`. -/
def decodeString (s : Bytes) : Option Bytes :=
  e.decodeQuanta (s.filter fun c => c != 0x0A && c != 0x0D)

/-! ## Round trip -/

theorem value_digit : ∀ {n : Nat}, n < 64 →
    rawURLEncoding.value (rawURLEncoding.digit n) = some n := by
  decide

theorem quantum_digits (a b c : UInt8) :
    quantum (a.toNat / 4) (a.toNat % 4 * 16 + b.toNat / 16) (b.toNat % 16 * 4 + c.toNat / 64)
      (c.toNat % 64) = [a, b, c] := by
  have ha : a.toNat < 256 := UInt8.toNat_lt_size a
  have hb : b.toNat < 256 := UInt8.toNat_lt_size b
  have hc : c.toNat < 256 := UInt8.toNat_lt_size c
  have ha' : a.toNat / 4 * 4 + (a.toNat % 4 * 16 + b.toNat / 16) / 16 = a.toNat := by omega
  have hb' : (a.toNat % 4 * 16 + b.toNat / 16) % 16 * 16 + (b.toNat % 16 * 4 + c.toNat / 64) / 4 =
      b.toNat := by omega
  have hc' : (b.toNat % 16 * 4 + c.toNat / 64) % 4 * 64 + c.toNat % 64 = c.toNat := by omega
  rw [quantum, ha', hb', hc', UInt8.ofNat_toNat, UInt8.ofNat_toNat, UInt8.ofNat_toNat]

/-- **A text of `base64.RawURLEncoding` is read back.** -/
theorem decodeQuanta_encodeToString (src : Bytes) :
    rawURLEncoding.decodeQuanta (rawURLEncoding.encodeToString src) = some src := by
  fun_induction encodeToString rawURLEncoding src with
  | case1 => rfl
  | case2 a =>
    have ha : a.toNat < 256 := UInt8.toNat_lt_size a
    have hquantum := quantum_digits a 0 0
    simp only [UInt8.toNat_zero, Nat.zero_div, Nat.zero_mod, Nat.zero_mul, Nat.add_zero] at hquantum
    rw [show rawURLEncoding.padding 2 = [] from rfl, append_nil, decodeQuanta,
      value_digit (by omega), value_digit (by omega)]
    dsimp only [rawURLEncoding]
    rw [hquantum]
    rfl
  | case3 a b =>
    have ha : a.toNat < 256 := UInt8.toNat_lt_size a
    have hb : b.toNat < 256 := UInt8.toNat_lt_size b
    have hquantum := quantum_digits a b 0
    simp only [UInt8.toNat_zero, Nat.zero_div, Nat.zero_mod, Nat.add_zero] at hquantum
    rw [show rawURLEncoding.padding 1 = [] from rfl, append_nil, decodeQuanta,
      value_digit (by omega), value_digit (by omega), value_digit (by omega)]
    dsimp only [rawURLEncoding]
    rw [hquantum]
    rfl
  | case4 a b c rest ih =>
    have ha : a.toNat < 256 := UInt8.toNat_lt_size a
    have hb : b.toNat < 256 := UInt8.toNat_lt_size b
    have hc : c.toNat < 256 := UInt8.toNat_lt_size c
    rw [decodeQuanta, value_digit (by omega), value_digit (by omega), value_digit (by omega),
      value_digit (by omega)]
    dsimp only
    rw [ih, quantum_digits]
    rfl

theorem digit_range (n : Nat) :
    0x2D ≤ (rawURLEncoding.digit n).toNat ∧ (rawURLEncoding.digit n).toNat ≤ 0x7A := by
  have hall : ∀ n < 64, 0x2D ≤ (rawURLEncoding.digit n).toNat ∧
      (rawURLEncoding.digit n).toNat ≤ 0x7A := by decide
  by_cases hn : n < 64
  · exact hall n hn
  · rw [digit, if_neg (by omega), if_neg (by omega), if_neg (by omega), if_neg (by omega)]
    decide

variable {src : Bytes}

theorem mem_encodeToString {x : UInt8} (h : x ∈ rawURLEncoding.encodeToString src) :
    0x2D ≤ x.toNat ∧ x.toNat ≤ 0x7A := by
  fun_induction encodeToString rawURLEncoding src with
  | case1 => cases h
  | case2 a =>
    rw [show rawURLEncoding.padding 2 = [] from rfl, append_nil] at h
    rcases mem_pair.mp h with rfl | rfl <;> exact digit_range _
  | case3 a b =>
    rw [show rawURLEncoding.padding 1 = [] from rfl, append_nil, mem_cons, mem_pair] at h
    rcases h with rfl | rfl | rfl <;> exact digit_range _
  | case4 a b c rest ih =>
    simp only [mem_cons] at h
    rcases h with rfl | rfl | rfl | rfl | h
    · exact digit_range _
    · exact digit_range _
    · exact digit_range _
    · exact digit_range _
    · exact ih h

theorem decodeString_encodeToString (src : Bytes) :
    rawURLEncoding.decodeString (rawURLEncoding.encodeToString src) = some src := by
  have hkept : (rawURLEncoding.encodeToString src).filter (fun c => c != 0x0A && c != 0x0D) =
      rawURLEncoding.encodeToString src := by
    refine filter_eq_self.mpr fun c hc => ?_
    have hrange := mem_encodeToString hc
    rw [Bool.and_eq_true, bne_iff_ne, bne_iff_ne]
    constructor
    · rintro rfl
      simp at hrange
    · rintro rfl
      simp at hrange
  rw [decodeString, hkept]
  exact decodeQuanta_encodeToString src

theorem trimSpace_encodeToString (src : Bytes) :
    trimSpace (rawURLEncoding.encodeToString src) = rawURLEncoding.encodeToString src :=
  trimSpace_of_forall fun _ hc => mem_encodeToString hc

theorem encodeToString_eq_nil_iff :
    rawURLEncoding.encodeToString src = [] ↔ src = [] := by
  constructor
  · intro h
    have hread := decodeQuanta_encodeToString src
    rw [h] at hread
    exact (Option.some.inj hread).symm
  · rintro rfl
    rfl

example : rawURLEncoding.encodeToString (ascii "light w") = ascii "bGlnaHQgdw" := by decide

example : stdEncoding.decodeString (ascii "bGln\naHQgdw==") = some (ascii "light w") := by decide

end Base64

end Pcmi.Go
