import Pcmi.Go.Strings

/-!
# Valid UTF-8

The first byte of an encoding tells its length and none of the others looks like a first byte, so a
valid text can be cut exactly in front of a first byte.
-/

namespace Pcmi.Go

open List
open String (utf8EncodeChar)

/-- `utf8.RuneStart`. -/
def runeStart (b : UInt8) : Bool := b &&& 0xC0 != 0x80

def encode (cs : List Char) : Bytes := cs.flatMap utf8EncodeChar

/-- `utf8.ValidString`. -/
def ValidUtf8 (s : Bytes) : Prop := ∃ cs, encode cs = s

instance (s : Bytes) : Decidable (ValidUtf8 s) := by
  refine decidable_of_iff s.toByteArray.IsValidUTF8 ⟨?_, ?_⟩
  · rintro ⟨cs, h⟩
    exact ⟨cs, (toByteArray_inj.mp h).symm⟩
  · rintro ⟨cs, rfl⟩
    exact ⟨cs, rfl⟩

/-- The number of bytes behind the first byte of an encoding. -/
def trailing (b : UInt8) : Nat :=
  if b < 0x80 then 0 else if b < 0xE0 then 1 else if b < 0xF0 then 2 else 3

theorem utf8EncodeChar_spec (c : Char) :
    ∃ b rest, utf8EncodeChar c = b :: rest ∧ runeStart b = true ∧ rest.length = trailing b ∧
      ∀ x ∈ rest, runeStart x = false := by
  have hone : ∀ n < 128, runeStart (.ofNat n) = true ∧ 0 = trailing (.ofNat n) := by decide
  have htwo : ∀ n < 32, runeStart (.ofNat (n + 192)) = true ∧ 1 = trailing (.ofNat (n + 192)) := by
    decide
  have hthree : ∀ n < 16, runeStart (.ofNat (n + 224)) = true ∧
      2 = trailing (.ofNat (n + 224)) := by decide
  have hfour : ∀ n < 8, runeStart (.ofNat (n + 240)) = true ∧
      3 = trailing (.ofNat (n + 240)) := by decide
  have hrest : ∀ n, runeStart (.ofNat (n % 64 + 128)) = false := fun n => by
    have hall : ∀ n < 64, runeStart (.ofNat (n + 128)) = false := by decide
    exact hall _ (Nat.mod_lt n (by decide))
  unfold utf8EncodeChar
  dsimp only
  split_ifs with h1
  · obtain ⟨hstart, hlength⟩ := hone c.val.toNat (Nat.lt_succ_of_le h1)
    exact ⟨_, _, rfl, hstart, hlength, nofun⟩
  · obtain ⟨hstart, hlength⟩ := htwo _ (Nat.mod_lt (c.val.toNat / 64) (by decide))
    exact ⟨_, _, rfl, hstart, hlength, by simp only [forall_mem_singleton, hrest]⟩
  · obtain ⟨hstart, hlength⟩ := hthree _ (Nat.mod_lt (c.val.toNat / 4096) (by decide))
    exact ⟨_, _, rfl, hstart, hlength, by
      simp only [forall_mem_cons, hrest, true_and, not_mem_nil, false_imp_iff, implies_true]⟩
  · obtain ⟨hstart, hlength⟩ := hfour _ (Nat.mod_lt (c.val.toNat / 262144) (by decide))
    exact ⟨_, _, rfl, hstart, hlength, by
      simp only [forall_mem_cons, hrest, true_and, not_mem_nil, false_imp_iff, implies_true]⟩

variable {s t : Bytes}

/-- Where texts begin with one byte, the first characters are equally long. -/
theorem length_eq_of_head {c d : Char} (h : utf8EncodeChar c ++ s = utf8EncodeChar d ++ t) :
    (utf8EncodeChar c).length = (utf8EncodeChar d).length := by
  obtain ⟨b, rest, hc, -, hlength, -⟩ := utf8EncodeChar_spec c
  obtain ⟨b', rest', hd, -, hlength', -⟩ := utf8EncodeChar_spec d
  rw [hc, hd] at h ⊢
  rw [length_cons, length_cons, hlength, hlength', (cons.inj h).1]

theorem validUtf8_append_iff (c : Char) : ValidUtf8 (utf8EncodeChar c ++ s) ↔ ValidUtf8 s := by
  constructor
  · rintro ⟨_ | ⟨d, ds⟩, h⟩
    · exact absurd (append_eq_nil_iff.mp h.symm).1 String.utf8EncodeChar_ne_nil
    · rw [encode, flatMap_cons] at h
      exact ⟨ds, (append_inj h (length_eq_of_head h)).2⟩
  · rintro ⟨cs, rfl⟩
    exact ⟨c :: cs, flatMap_cons⟩

/-- **A valid text can be cut exactly in front of a first byte.** -/
theorem validUtf8_take_iff (hs : ValidUtf8 s) (n : Nat) :
    ValidUtf8 (s.take n) ↔ ∀ b ∈ s[n]?, runeStart b = true := by
  obtain ⟨cs, rfl⟩ := hs
  induction cs generalizing n with
  | nil => exact iff_of_true ⟨[], take_nil.symm⟩ nofun
  | cons c cs ih =>
    obtain ⟨b, rest, hc, hstart, hlength, hrest⟩ := utf8EncodeChar_spec c
    have hcons : encode (c :: cs) = b :: (rest ++ encode cs) := by
      rw [encode, flatMap_cons, hc]
      rfl
    rw [hcons]
    cases n with
    | zero => exact iff_of_true ⟨[], rfl⟩ (by simpa using hstart)
    | succ n =>
      rw [take_succ_cons, getElem?_cons_succ]
      rcases Nat.lt_or_ge n rest.length with hn | hn
      · -- inside the first character
        rw [take_append_of_le_length hn.le, getElem?_append_left hn, getElem?_eq_getElem hn]
        refine iff_of_false ?_ fun h => ?_
        · rintro ⟨_ | ⟨d, ds⟩, h⟩
          · cases h
          obtain ⟨b', rest', hd, -, hlength', -⟩ := utf8EncodeChar_spec d
          rw [encode, flatMap_cons, hd, cons_append] at h
          obtain ⟨rfl, htail⟩ := cons.inj h
          have := congrArg length htail
          rw [length_append, length_take] at this
          omega
        · have := hrest _ (getElem_mem hn)
          rw [h _ rfl] at this
          cases this
      · rw [take_append, take_of_length_le hn, getElem?_append_right hn, ← ih, ← cons_append, ← hc]
        exact validUtf8_append_iff c

theorem validUtf8_trimSpace (hs : ValidUtf8 s) : ValidUtf8 (trimSpace s) := by
  have hspaces : ∀ n ∈ spaceRunes, encodeRune n = utf8EncodeChar (Char.ofNat n) := by decide
  have hfront : ValidUtf8 (dropEncodings (spaceRunes.map encodeRune) 0 s) := by
    refine (dropEncodings_spec (fun _ => space_ne_nil) (fun e he t ht => ?_) hs).1
    obtain ⟨n, hn, rfl⟩ := mem_map.mp he
    rw [hspaces n hn] at ht
    exact (validUtf8_append_iff _).mp ht
  refine (dropEncodings_spec (P := fun t => ValidUtf8 t.reverse) (fun _ => reverse_space_ne_nil)
    (fun e he t ht => ?_) ((reverse_reverse _).symm ▸ hfront)).1
  simp only [mem_map, exists_exists_and_eq_and] at he
  obtain ⟨n, hn, rfl⟩ := he
  obtain ⟨b, rest, hb, hstart, -, -⟩ := utf8EncodeChar_spec (Char.ofNat n)
  rw [reverse_append, reverse_reverse, hspaces n hn, hb] at ht
  have hcut := (validUtf8_take_iff ht t.reverse.length).mpr
  rw [take_left, getElem?_append_right (Nat.le_refl _), Nat.sub_self] at hcut
  exact hcut fun x hx => Option.some.inj hx ▸ hstart

end Pcmi.Go
