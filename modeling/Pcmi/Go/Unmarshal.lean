import Pcmi.Values

/-!
# Structs and `encoding/json`

`json.Unmarshal` into the fields of a struct, and the way of an integer through `map[string]any`, as
a `float64`. A field that is `null` keeps its value; a wrong type is `none`.
-/

namespace Pcmi.Go

/-! ## Names -/

/-- Folding to ASCII letters, as `strings.EqualFold` does it. -/
def foldRune (c : Char) : Char :=
  if c.toNat = 0x17F then 's' else if c.toNat = 0x212A then 'k' else c.toLower

/-- A key as it is compared with the names of fields. -/
def foldName (key : String) : List Char := key.toList.map foldRune

/-! ## Fields -/

def decodeText (old : String) : Json → Option String
  | .null => some old
  | .str s => some s
  | _ => none

def decodeInt (old : Int) : Json → Option Int
  | .null => some old
  | .num mantissa scale =>
    let unit : Int := Nat.pow 10 scale
    if mantissa % unit = 0 ∧ -9223372036854775808 ≤ mantissa / unit ∧
        mantissa / unit ≤ 9223372036854775807 then some (mantissa / unit)
    else none
  | _ => none

/-- Into a `float64`, as mantissa and scale. -/
def decodeFloat (old : Int × Nat) : Json → Option (Int × Nat)
  | .null => some old
  | .num mantissa scale => some (mantissa, scale)
  | _ => none

theorem decodeInt_integer {old n m : Int} (h : decodeInt old (.num n 0) = some m) : m = n := by
  simp only [decodeInt] at h
  split at h <;> cases h
  exact Int.ediv_one n

/-! ## Integers through `float64` -/

/-- The multiple of `unit` nearest to `n`, of two the even one. -/
def roundTo (unit n : Nat) : Nat :=
  if unit < 2 * (n % unit) ∨ (unit = 2 * (n % unit) ∧ n / unit % 2 = 1) then
    (n / unit + 1) * unit
  else n / unit * unit

/-- `float64(n)`: 53 binary digits. -/
def toFloat64 (n : Nat) : Nat := roundTo (Nat.pow 2 (n.log2 + 1 - 53)) n

/-- The shortest decimal number that is read as `f`. -/
def shortest (f : Nat) : Nat :=
  (((List.range 20).reverse.map fun zeros => roundTo (Nat.pow 10 zeros) f).find?
    fun n => toFloat64 n = f).getD f

/-- The integer that `json.Marshal` writes for `float64(n)`. -/
def throughFloat64 : Int → Int
  | .ofNat n => .ofNat (shortest (toFloat64 n))
  | .negSucc n => -.ofNat (shortest (toFloat64 (n + 1)))

theorem roundTo_one (n : Nat) : roundTo 1 n = n := by
  unfold roundTo
  rw [if_neg (by omega), Nat.div_one, Nat.mul_one]

theorem toFloat64_of_lt {n : Nat} (h : n < 9007199254740992) : toFloat64 n = n := by
  have hlog : n.log2 < 53 := by
    rcases Nat.eq_zero_or_pos n with rfl | hpos
    · decide
    · exact (Nat.log2_lt hpos.ne').mpr h
  rw [toFloat64, show n.log2 + 1 - 53 = 0 by omega]
  exact roundTo_one n

theorem le_toFloat64 {n : Nat} (h : 9007199254740992 ≤ n) : 9007199254740992 ≤ toFloat64 n := by
  have hlog : 53 ≤ n.log2 := (Nat.le_log2 (by omega)).mpr h
  obtain ⟨shift, hshift⟩ := Nat.exists_eq_add_of_le hlog
  have hunit : n.log2 + 1 - 53 = shift + 1 := by omega
  have hn : 2 ^ 52 * 2 ^ (shift + 1) ≤ n := by
    rw [← Nat.pow_add, show 52 + (shift + 1) = n.log2 by omega]
    exact Nat.log2_self_le (by omega)
  have hquot : 2 ^ 52 ≤ n / 2 ^ (shift + 1) :=
    (Nat.le_div_iff_mul_le (Nat.pow_pos (by decide))).mpr hn
  have hfloor : 9007199254740992 ≤ n / 2 ^ (shift + 1) * 2 ^ (shift + 1) :=
    calc 9007199254740992 = 2 ^ 52 * 2 ^ 1 := by decide
      _ ≤ n / 2 ^ (shift + 1) * 2 ^ (shift + 1) :=
        Nat.mul_le_mul hquot (Nat.pow_le_pow_right (by decide) (by omega))
  rw [toFloat64, hunit]
  unfold roundTo
  split
  · exact hfloor.trans (Nat.mul_le_mul_right _ (Nat.le_succ _))
  · exact hfloor

theorem shortest_of_lt {f : Nat} (h : f < 9007199254740992) : shortest f = f := by
  unfold shortest
  cases hfind : ((List.range 20).reverse.map fun zeros => roundTo (Nat.pow 10 zeros) f).find?
      fun n => toFloat64 n = f with
  | none => rfl
  | some n =>
    have hfound := List.find?_some hfind
    have hn : toFloat64 n = f := of_decide_eq_true hfound
    -- A candidate that is read as a number below the bound is below it, so it is read as itself.
    have hlt : n < 9007199254740992 := by
      by_contra hge
      have hle := le_toFloat64 (Nat.le_of_not_lt hge)
      omega
    rw [toFloat64_of_lt hlt] at hn
    exact hn

/-- **Integers of at most 53 bits come through a `float64` unchanged.** -/
theorem throughFloat64_of_lt {n : Int} (h : n.natAbs < 9007199254740992) :
    throughFloat64 n = n := by
  cases n with
  | ofNat n =>
    have h : n < 9007199254740992 := h
    show Int.ofNat (shortest (toFloat64 n)) = Int.ofNat n
    rw [toFloat64_of_lt h, shortest_of_lt h]
  | negSucc n =>
    have h : n + 1 < 9007199254740992 := h
    show -Int.ofNat (shortest (toFloat64 (n + 1))) = Int.negSucc n
    rw [toFloat64_of_lt h, shortest_of_lt h]
    rfl

example : throughFloat64 9007199254740993 = 9007199254740992 := by decide +kernel

end Pcmi.Go
