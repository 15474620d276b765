import Mathlib.Data.List.Induction
import Pcmi.Go.Strconv
import Pcmi.Go.Strings

/-!
# What `json.Marshal` writes

Strings and structs. Every control character of a string is escaped, so a marshalled struct is one
line of text between braces.
-/

namespace Pcmi.Go

open List

/-- One rune as `encoding/json` writes it, with HTML escaped. -/
def escapeRune (p : Nat × Bytes) : Bytes :=
  if p.1 < 0x80 then
    if p.1 = 0x5C ∨ p.1 = 0x22 then 0x5C :: p.2
    else if p.1 = 0x08 then ascii "\\b"
    else if p.1 = 0x0C then ascii "\\f"
    else if p.1 = 0x0A then ascii "\\n"
    else if p.1 = 0x0D then ascii "\\r"
    else if p.1 = 0x09 then ascii "\\t"
    else if p.1 < 0x20 ∨ p.1 = 0x3C ∨ p.1 = 0x3E ∨ p.1 = 0x26 then
      ascii "\\u00" ++ [hexDigit (p.1 / 16), hexDigit (p.1 % 16)]
    else p.2
  else if p.1 = runeError ∧ p.2.length = 1 then ascii "\\ufffd"
  else if p.1 = 0x2028 ∨ p.1 = 0x2029 then ascii "\\u202" ++ [hexDigit (p.1 % 16)]
  else p.2

def marshalString (s : Bytes) : Bytes := 0x22 :: (runes s).flatMap escapeRune ++ [0x22]

/-- A struct in JSON: its keys in order with the texts of their values. -/
def marshalStruct (fields : List (Bytes × Bytes)) : Bytes :=
  0x7B :: join (fields.map fun f => marshalString f.1 ++ 0x3A :: f.2) [0x2C] ++ [0x7D]

def Printable (s : Bytes) : Prop := ∀ b ∈ s, 0x20 ≤ b.toNat

variable {s : Bytes} {p : Nat × Bytes}

theorem printable_append {t : Bytes} : Printable (s ++ t) ↔ Printable s ∧ Printable t :=
  forall_mem_append

theorem printable_cons {b : UInt8} : Printable (b :: s) ↔ 0x20 ≤ b.toNat ∧ Printable s :=
  forall_mem_cons

theorem printable_nil : Printable [] := nofun

theorem printable_of_all (h : (s.all fun b => decide (0x20 ≤ b.toNat)) = true) :
    Printable s := fun b hb => of_decide_eq_true (all_eq_true.mp h b hb)

theorem printable_formatInteger (x : Int) : Printable (formatInteger x) := by
  intro b hb
  by_contra h
  exact not_mem_formatInteger (by omega) x hb

theorem printable_formatInt (x : Int64) : Printable (formatInt x) :=
  printable_formatInteger x.toInt

theorem printable_formatBool (v : Bool) : Printable (formatBool v) := by
  intro b hb
  by_contra h
  exact not_mem_formatBool (by omega) v hb

theorem printable_hexDigit {n : Nat} (h : n < 16) : Printable [hexDigit n] :=
  printable_cons.mpr ⟨(hexDigit_toNat h).trans' (by omega), printable_nil⟩

theorem printable_escapeRune (hp : p ∈ runes s) : Printable (escapeRune p) := by
  have hascii : ∀ b : UInt8, b < 0x80 → ∀ x ∈ escapeRune (b.toNat, [b]), 0x20 ≤ x.toNat :=
    forall_byte (by decide +kernel)
  rcases runesFrom_cases hp with ⟨b, hb, rfl⟩ | ⟨hrune, hbytes, -⟩
  · exact hascii b hb
  rw [escapeRune, if_neg (by omega)]
  split
  · exact printable_of_all (by decide)
  split
  · exact printable_append.mpr ⟨printable_of_all (by decide), printable_hexDigit (by omega)⟩
  · exact fun b hb => Nat.le_trans (by decide) (UInt8.le_iff_toNat_le.mp (hbytes b hb))

theorem printable_marshalString (s : Bytes) : Printable (marshalString s) := by
  refine printable_append.mpr ⟨printable_cons.mpr ⟨by decide, fun b hb => ?_⟩,
    printable_of_all (by decide)⟩
  obtain ⟨p, hp, hb⟩ := mem_flatMap.mp hb
  exact printable_escapeRune hp b hb

theorem printable_join {parts : List Bytes} {sep : Bytes} (hsep : Printable sep)
    (h : ∀ part ∈ parts, Printable part) : Printable (join parts sep) := by
  unfold join
  induction parts with
  | nil => exact printable_nil
  | cons part parts ih =>
    obtain ⟨hpart, hparts⟩ := forall_mem_cons.mp h
    cases parts with
    | nil =>
      rw [intercalate_singleton]
      exact hpart
    | cons part' parts =>
      rw [intercalate_cons_cons]
      exact printable_append.mpr ⟨printable_append.mpr ⟨hpart, hsep⟩, ih hparts⟩

/-- **A marshalled struct is one line.** -/
theorem printable_marshalStruct {fields : List (Bytes × Bytes)}
    (h : ∀ f ∈ fields, Printable f.2) : Printable (marshalStruct fields) := by
  refine printable_append.mpr ⟨printable_cons.mpr ⟨by decide, ?_⟩, printable_of_all (by decide)⟩
  refine printable_join (printable_of_all (by decide)) fun part hpart => ?_
  obtain ⟨f, hf, rfl⟩ := mem_map.mp hpart
  exact printable_append.mpr
    ⟨printable_marshalString f.1, printable_cons.mpr ⟨by decide, h f hf⟩⟩

theorem space_ends {e : Bytes} (he : e ∈ spaceRunes.map encodeRune) :
    (∃ x rest, e = x :: rest ∧ x ≠ 0x7B) ∧ ∃ front x, e = front ++ [x] ∧ x ≠ 0x7D := by
  have hspaces : ((spaceRunes.map encodeRune).all fun e =>
      e.head?.any (· != 0x7B) && e.getLast?.any (· != 0x7D)) = true := by decide
  obtain ⟨hhead, hlast⟩ := Bool.and_eq_true_iff.mp (all_eq_true.mp hspaces e he)
  constructor
  · cases e with
    | nil => cases hhead
    | cons x rest => exact ⟨x, rest, rfl, bne_iff_ne.mp hhead⟩
  · cases e using List.reverseRecOn with
    | nil => cases hlast
    | append_singleton front x =>
      rw [getLast?_concat] at hlast
      exact ⟨front, x, rfl, bne_iff_ne.mp hlast⟩

theorem trimSpace_marshalStruct (fields : List (Bytes × Bytes)) :
    trimSpace (marshalStruct fields) = marshalStruct fields := by
  refine trimSpace_eq_self fun e he => ⟨fun hpre => ?_, fun hsuf => ?_⟩
  · obtain ⟨⟨x, rest, rfl, hx⟩, -⟩ := space_ends he
    exact hx (cons_prefix_cons.mp hpre).1
  · obtain ⟨-, front, x, rfl, hx⟩ := space_ends he
    obtain ⟨before, hbefore⟩ := hsuf
    rw [← append_assoc] at hbefore
    exact hx (append_singleton_inj.mp hbefore).2

end Pcmi.Go
