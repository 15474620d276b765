import Mathlib.Data.List.Forall2
import Pcmi.Go.Space
import Pcmi.Lib.Search

/-!
# UTF-8 and upper case

A Go string is a list of bytes; a byte that starts no valid encoding decodes to `U+FFFD` with width
`1`. `toUpper` maps rune by rune, so its result may be shorter or longer; where every rune keeps its
width, the two are aligned byte by byte.
-/

namespace Pcmi.Go

open List

abbrev Bytes := List UInt8

def ascii (s : String) : Bytes := s.toList.map fun c => UInt8.ofNat c.toNat

/-- To evaluate the `toList` of a literal is slow. -/
theorem ascii_ofList (l : List Char) :
    ascii (String.ofList l) = l.map fun c => UInt8.ofNat c.toNat := by
  rw [ascii, String.toList_ofList]

/-! ## Runes -/

def runeError : Nat := 0xFFFD

/-- A continuation byte between the bounds, as its six bits. -/
def continuation (b lo hi : Nat) : Option Nat := if lo ≤ b ∧ b ≤ hi then some (b % 64) else none

/-- The least and greatest second byte after a first byte. -/
def secondBounds (b0 : Nat) : Nat × Nat :=
  if b0 = 0xE0 then (0xA0, 0xBF)
  else if b0 = 0xED then (0x80, 0x9F)
  else if b0 = 0xF0 then (0x90, 0xBF)
  else if b0 = 0xF4 then (0x80, 0x8F)
  else (0x80, 0xBF)

/-- The rune of a multi-byte encoding and its width. -/
def decodeMulti (b0 : Nat) (rest : Bytes) : Option (Nat × Nat) :=
  let (lo, hi) := secondBounds b0
  if 0xC2 ≤ b0 ∧ b0 ≤ 0xDF then
    match rest with
    | b1 :: _ => (continuation b1.toNat lo hi).map fun c1 => ((b0 % 32) * 64 + c1, 2)
    | _ => none
  else if 0xE0 ≤ b0 ∧ b0 ≤ 0xEF then
    match rest with
    | b1 :: b2 :: _ =>
      match continuation b1.toNat lo hi, continuation b2.toNat 0x80 0xBF with
      | some c1, some c2 => some (((b0 % 16) * 64 + c1) * 64 + c2, 3)
      | _, _ => none
    | _ => none
  else if 0xF0 ≤ b0 ∧ b0 ≤ 0xF4 then
    match rest with
    | b1 :: b2 :: b3 :: _ =>
      match continuation b1.toNat lo hi, continuation b2.toNat 0x80 0xBF,
          continuation b3.toNat 0x80 0xBF with
      | some c1, some c2, some c3 => some ((((b0 % 8) * 64 + c1) * 64 + c2) * 64 + c3, 4)
      | _, _, _ => none
    | _ => none
  else none

/-- `utf8.DecodeRuneInString` of a string that starts with `b0`. -/
def decodeRune (b0 : UInt8) (rest : Bytes) : Nat × Nat :=
  if b0 < 0x80 then (b0.toNat, 1)
  else (decodeMulti b0.toNat rest).getD (runeError, 1)

/-- `utf8.AppendRune`. -/
def encodeRune (r : Nat) : Bytes :=
  if r < 0x80 then [UInt8.ofNat r]
  else if r < 0x800 then [UInt8.ofNat (0xC0 + r / 64), UInt8.ofNat (0x80 + r % 64)]
  else if (0xD800 ≤ r ∧ r ≤ 0xDFFF) ∨ 0x10FFFF < r then [0xEF, 0xBF, 0xBD]
  else if r < 0x10000 then
    [UInt8.ofNat (0xE0 + r / 4096), UInt8.ofNat (0x80 + r / 64 % 64), UInt8.ofNat (0x80 + r % 64)]
  else
    [UInt8.ofNat (0xF0 + r / 262144), UInt8.ofNat (0x80 + r / 4096 % 64),
     UInt8.ofNat (0x80 + r / 64 % 64), UInt8.ofNat (0x80 + r % 64)]

/-- The runes of a string with their bytes, after `skip` bytes. -/
def runesFrom : Nat → Bytes → List (Nat × Bytes)
  | _, [] => []
  | skip + 1, _ :: rest => runesFrom skip rest
  | 0, b :: rest =>
    ((decodeRune b rest).1, (b :: rest).take (decodeRune b rest).2) ::
      runesFrom ((decodeRune b rest).2 - 1) rest

/-- `for _, r := range s`. -/
def runes (s : Bytes) : List (Nat × Bytes) := runesFrom 0 s

/-! ## Upper case -/

/-- Code points `lo, lo + stride, …, hi` whose upper case is `delta` away. -/
structure UpperRange where
  lo : Nat
  hi : Nat
  stride : Nat
  delta : Int

/-- Every second code point is a letter, the next its lower case. -/
def alternatingRanges : List (Nat × Nat) :=
  [(0x101, 0x12F), (0x133, 0x137), (0x13A, 0x148), (0x14B, 0x177), (0x17A, 0x17E), (0x183, 0x185),
   (0x1A1, 0x1A5), (0x1B4, 0x1B6), (0x1CE, 0x1DC), (0x1DF, 0x1EF), (0x1F9, 0x21F), (0x223, 0x233),
   (0x247, 0x24F), (0x371, 0x373), (0x3D9, 0x3EF), (0x461, 0x481), (0x48B, 0x4BF), (0x4C2, 0x4CE),
   (0x4D1, 0x52F), (0x1E01, 0x1E95), (0x1EA1, 0x1EFF), (0x2C68, 0x2C6C), (0x2C81, 0x2CE3),
   (0x2CEC, 0x2CEE), (0xA641, 0xA66D), (0xA681, 0xA69B), (0xA723, 0xA72F), (0xA733, 0xA76F),
   (0xA77A, 0xA77C), (0xA77F, 0xA787), (0xA791, 0xA793), (0xA797, 0xA7A9), (0xA7B5, 0xA7C3),
   (0xA7C8, 0xA7CA), (0xA7D7, 0xA7D9)]

/-- Single code points, and how far away their upper case is. -/
def upperDeltas : List (Nat × Int) :=
  [(0xB5, 743), (0xFF, 121), (0x131, -232), (0x17F, -300), (0x180, 195), (0x188, -1), (0x18C, -1),
   (0x192, -1), (0x195, 97), (0x199, -1), (0x19A, 163), (0x19E, 130), (0x1A8, -1), (0x1AD, -1),
   (0x1B0, -1), (0x1B9, -1), (0x1BD, -1), (0x1BF, 56), (0x1C5, -1), (0x1C6, -2), (0x1C8, -1),
   (0x1C9, -2), (0x1CB, -1), (0x1CC, -2), (0x1DD, -79), (0x1F2, -1), (0x1F3, -2), (0x1F5, -1),
   (0x23C, -1), (0x242, -1), (0x250, 10783), (0x251, 10780), (0x252, 10782), (0x253, -210),
   (0x254, -206), (0x259, -202), (0x25B, -203), (0x25C, 42319), (0x260, -205), (0x261, 42315),
   (0x263, -207), (0x265, 42280), (0x266, 42308), (0x268, -209), (0x269, -211), (0x26A, 42308),
   (0x26B, 10743), (0x26C, 42305), (0x26F, -211), (0x271, 10749), (0x272, -213), (0x275, -214),
   (0x27D, 10727), (0x280, -218), (0x282, 42307), (0x283, -218), (0x287, 42282), (0x288, -218),
   (0x289, -69), (0x28C, -71), (0x292, -219), (0x29D, 42261), (0x29E, 42258), (0x345, 84),
   (0x377, -1), (0x3AC, -38), (0x3C2, -31), (0x3CC, -64), (0x3D0, -62), (0x3D1, -57), (0x3D5, -47),
   (0x3D6, -54), (0x3D7, -8), (0x3F0, -86), (0x3F1, -80), (0x3F2, 7), (0x3F3, -116), (0x3F5, -96),
   (0x3F8, -1), (0x3FB, -1), (0x4CF, -15), (0x1C80, -6254), (0x1C81, -6253), (0x1C82, -6244),
   (0x1C85, -6243), (0x1C86, -6236), (0x1C87, -6181), (0x1C88, 35266), (0x1D79, 35332),
   (0x1D7D, 3814), (0x1D8E, 35384), (0x1E9B, -59), (0x1FB3, 9), (0x1FBE, -7205), (0x1FC3, 9),
   (0x1FE5, 7), (0x1FF3, 9), (0x214E, -28), (0x2184, -1), (0x2C61, -1), (0x2C65, -10795),
   (0x2C66, -10792), (0x2C73, -1), (0x2C76, -1), (0x2CF3, -1), (0x2D27, -7264), (0x2D2D, -7264),
   (0xA78C, -1), (0xA794, 48), (0xA7D1, -1), (0xA7F6, -1), (0xAB53, -928)]

/-- `unicode.CaseRanges` above ASCII (Unicode 15.0). -/
def upperRanges : List UpperRange :=
  alternatingRanges.map (fun p => ⟨p.1, p.2, 2, -1⟩) ++
    upperDeltas.map (fun p => ⟨p.1, p.1, 1, p.2⟩) ++
    [⟨0xE0, 0xF6, 1, -32⟩, ⟨0xF8, 0xFE, 1, -32⟩, ⟨0x23F, 0x240, 1, 10815⟩, ⟨0x256, 0x257, 1, -205⟩,
    ⟨0x28A, 0x28B, 1, -217⟩, ⟨0x37B, 0x37D, 1, 130⟩, ⟨0x3AD, 0x3AF, 1, -37⟩, ⟨0x3B1, 0x3C1, 1, -32⟩,
    ⟨0x3C3, 0x3CB, 1, -32⟩, ⟨0x3CD, 0x3CE, 1, -63⟩, ⟨0x430, 0x44F, 1, -32⟩, ⟨0x450, 0x45F, 1, -80⟩,
    ⟨0x561, 0x586, 1, -48⟩, ⟨0x10D0, 0x10FA, 1, 3008⟩, ⟨0x10FD, 0x10FF, 1, 3008⟩,
    ⟨0x13F8, 0x13FD, 1, -8⟩, ⟨0x1C83, 0x1C84, 1, -6242⟩, ⟨0x1F00, 0x1F07, 1, 8⟩,
    ⟨0x1F10, 0x1F15, 1, 8⟩, ⟨0x1F20, 0x1F27, 1, 8⟩, ⟨0x1F30, 0x1F37, 1, 8⟩, ⟨0x1F40, 0x1F45, 1, 8⟩,
    ⟨0x1F51, 0x1F57, 2, 8⟩, ⟨0x1F60, 0x1F67, 1, 8⟩, ⟨0x1F70, 0x1F71, 1, 74⟩, ⟨0x1F72, 0x1F75, 1,
      86⟩,
    ⟨0x1F76, 0x1F77, 1, 100⟩, ⟨0x1F78, 0x1F79, 1, 128⟩, ⟨0x1F7A, 0x1F7B, 1, 112⟩,
    ⟨0x1F7C, 0x1F7D, 1, 126⟩, ⟨0x1F80, 0x1F87, 1, 8⟩, ⟨0x1F90, 0x1F97, 1, 8⟩, ⟨0x1FA0, 0x1FA7, 1,
      8⟩,
    ⟨0x1FB0, 0x1FB1, 1, 8⟩, ⟨0x1FD0, 0x1FD1, 1, 8⟩, ⟨0x1FE0, 0x1FE1, 1, 8⟩, ⟨0x2170, 0x217F, 1,
      -16⟩,
    ⟨0x24D0, 0x24E9, 1, -26⟩, ⟨0x2C30, 0x2C5F, 1, -48⟩, ⟨0x2D00, 0x2D25, 1, -7264⟩,
    ⟨0xAB70, 0xABBF, 1, -38864⟩, ⟨0xFF41, 0xFF5A, 1, -32⟩, ⟨0x10428, 0x1044F, 1, -40⟩,
    ⟨0x104D8, 0x104FB, 1, -40⟩, ⟨0x10597, 0x105A1, 1, -39⟩, ⟨0x105A3, 0x105B1, 1, -39⟩,
    ⟨0x105B3, 0x105B9, 1, -39⟩, ⟨0x105BB, 0x105BC, 1, -39⟩, ⟨0x10CC0, 0x10CF2, 1, -64⟩,
    ⟨0x118C0, 0x118DF, 1, -32⟩, ⟨0x16E60, 0x16E7F, 1, -32⟩, ⟨0x1E922, 0x1E943, 1, -34⟩]

def UpperRange.covers (c : UpperRange) (r : Nat) : Bool :=
  decide (c.lo ≤ r ∧ r ≤ c.hi) && (r - c.lo) % c.stride == 0

/-- `unicode.ToUpper`. -/
def upperRune (r : Nat) : Nat :=
  if r < 0x80 then (if 0x61 ≤ r ∧ r ≤ 0x7A then r - 32 else r)
  else
    match upperRanges.find? (·.covers r) with
    | some c => (r + c.delta).toNat
    | none => r

def toUpper (s : Bytes) : Bytes := (runes s).flatMap fun p => encodeRune (upperRune p.1)

def upperByte (b : UInt8) : UInt8 := if 0x61 ≤ b ∧ b ≤ 0x7A then b - 32 else b

/-- What holds of the 256 bytes one by one. -/
theorem forall_byte {P : UInt8 → Prop} (h : ∀ n < 256, P (UInt8.ofNat n)) (b : UInt8) : P b := by
  have hb := h b.toNat (UInt8.toNat_lt_size b)
  rwa [UInt8.ofNat_toNat] at hb

variable {s : Bytes} {r : Nat}

theorem forall_lt_of_all (h : (s.all fun b => decide (b < 0x80)) = true) :
    ∀ b ∈ s, b < 0x80 := fun b hb => of_decide_eq_true (all_eq_true.mp h b hb)

/-- Every rune has an upper case of its own width. -/
def UpperKeepsWidth (s : Bytes) : Prop :=
  ∀ p ∈ runes s, (encodeRune (upperRune p.1)).length = p.2.length

instance (s : Bytes) : Decidable (UpperKeepsWidth s) :=
  inferInstanceAs (Decidable (∀ p ∈ runes s, _))

/-! ## Alignment of the copy -/

/-- An ASCII byte and its upper case, or two bytes above ASCII. -/
def Aligned (b u : UInt8) : Prop := (b < 0x80 ∧ u = upperByte b) ∨ (0x80 ≤ b ∧ 0x80 ≤ u)

theorem continuation_eq_some {b lo hi c : Nat} (h : continuation b lo hi = some c) :
    lo ≤ b ∧ b ≤ hi ∧ c = b % 64 := by
  unfold continuation at h
  split at h
  · next hb => exact ⟨hb.1, hb.2, (Option.some.inj h).symm⟩
  · cases h

theorem secondBounds_ge (b0 : Nat) : 0x80 ≤ (secondBounds b0).1 ∧ (secondBounds b0).2 ≤ 0xBF := by
  unfold secondBounds
  split_ifs <;> decide

/-- A multi-byte encoding lies above ASCII, and so does its rune. -/
theorem decodeMulti_eq_some {b0 : Nat} {rest : Bytes} {w : Nat}
    (h : decodeMulti b0 rest = some (r, w)) :
    0x80 ≤ r ∧ 2 ≤ w ∧ w ≤ rest.length + 1 ∧ ∀ x ∈ rest.take (w - 1), 0x80 ≤ x.toNat := by
  have hbounds := secondBounds_ge b0
  unfold decodeMulti at h
  generalize hb : secondBounds b0 = bounds at h hbounds
  obtain ⟨lo, hi⟩ := bounds
  dsimp only at h hbounds
  split at h
  · split at h
    · obtain ⟨c1, hc1, he⟩ := Option.map_eq_some_iff.mp h
      obtain ⟨h1, -, -⟩ := continuation_eq_some hc1
      cases he
      refine ⟨by omega, by omega, by simp, ?_⟩
      simp
      omega
    · cases h
  split at h
  · split at h
    · split at h
      · next c1 c2 hc1 hc2 =>
        obtain ⟨h1, h1', rfl⟩ := continuation_eq_some hc1
        obtain ⟨h2, -, rfl⟩ := continuation_eq_some hc2
        cases h
        refine ⟨?_, by omega, by simp, ?_⟩
        · by_cases he0 : b0 = 0xE0
          · subst he0
            simp [secondBounds] at hb
            omega
          · omega
        · simp
          omega
      · cases h
    · cases h
  split at h
  · split at h
    · split at h
      · next c1 c2 c3 hc1 hc2 hc3 =>
        obtain ⟨h1, h1', rfl⟩ := continuation_eq_some hc1
        obtain ⟨h2, -, rfl⟩ := continuation_eq_some hc2
        obtain ⟨h3, -, rfl⟩ := continuation_eq_some hc3
        cases h
        refine ⟨?_, by omega, by simp, ?_⟩
        · by_cases hf0 : b0 = 0xF0
          · subst hf0
            simp [secondBounds] at hb
            omega
          · omega
        · simp
          omega
      · cases h
    · cases h
  · cases h

/-- An ASCII byte, or bytes above ASCII, a single one being an error. -/
theorem decodeRune_cases (b : UInt8) (rest : Bytes) :
    (b < 0x80 ∧ decodeRune b rest = (b.toNat, 1)) ∨
    (0x80 ≤ b ∧ decodeRune b rest = (runeError, 1)) ∨
    (0x80 ≤ b ∧ 0x80 ≤ (decodeRune b rest).1 ∧ 2 ≤ (decodeRune b rest).2 ∧
      (decodeRune b rest).2 ≤ rest.length + 1 ∧
      ∀ x ∈ rest.take ((decodeRune b rest).2 - 1), 0x80 ≤ x.toNat) := by
  unfold decodeRune
  by_cases hb : b < 0x80
  · exact .inl ⟨hb, if_pos hb⟩
  rw [if_neg hb]
  have hge : (0x80 : UInt8) ≤ b := UInt8.not_lt.mp hb
  cases hm : decodeMulti b.toNat rest with
  | none => exact .inr (.inl ⟨hge, rfl⟩)
  | some p => exact .inr (.inr ⟨hge, decodeMulti_eq_some hm⟩)

theorem decodeRune_width_pos (b : UInt8) (rest : Bytes) : 0 < (decodeRune b rest).2 := by
  rcases decodeRune_cases b rest with ⟨-, h⟩ | ⟨-, h⟩ | ⟨-, -, h, -⟩
  · simp [h]
  · simp [h]
  · omega

theorem runesFrom_flatMap : ∀ (skip : Nat) (s : Bytes),
    (runesFrom skip s).flatMap (·.2) = s.drop skip
  | _, [] => by simp [runesFrom]
  | skip + 1, _ :: rest => by
    rw [runesFrom, runesFrom_flatMap skip rest, drop_succ_cons]
  | 0, b :: rest => by
    obtain ⟨w, hw⟩ := Nat.exists_eq_add_of_lt (decodeRune_width_pos b rest)
    rw [runesFrom, flatMap_cons, runesFrom_flatMap, hw]
    simp

theorem runes_flatMap (s : Bytes) : (runes s).flatMap (·.2) = s := runesFrom_flatMap 0 s

/-- ASCII, or above ASCII and of one byte only when it is an error. -/
theorem runesFrom_cases : ∀ {skip : Nat} {s : Bytes} {p : Nat × Bytes}, p ∈ runesFrom skip s →
    (∃ b, b < 0x80 ∧ p = (b.toNat, [b])) ∨
    (0x80 ≤ p.1 ∧ (∀ x ∈ p.2, 0x80 ≤ x) ∧ (p.2.length = 1 → p.1 = runeError))
  | _, [], _, h => by cases h
  | skip + 1, _ :: rest, _, h => by
    rw [runesFrom] at h
    exact runesFrom_cases h
  | 0, b :: rest, p, h => by
    rw [runesFrom, mem_cons] at h
    rcases h with rfl | h
    · rcases decodeRune_cases b rest with ⟨hb, hd⟩ | ⟨hb, hd⟩ | ⟨hb, hr, hw, hlen, hrest⟩
      · exact .inl ⟨b, hb, by simp [hd]⟩
      · refine .inr ⟨by simp [hd, runeError], by simp [hd, hb], by simp [hd]⟩
      · obtain ⟨w, hw'⟩ := Nat.exists_eq_add_of_le hw
        refine .inr ⟨hr, ?_, ?_⟩
        · intro x hx
          rw [hw', show 2 + w = (w + 1) + 1 by omega, take_succ_cons, mem_cons] at hx
          rcases hx with rfl | hx
          · exact hb
          · rw [hw', show 2 + w - 1 = w + 1 by omega] at hrest
            exact UInt8.le_iff_toNat_le.mpr (hrest x hx)
        · intro h1
          rw [length_take, length_cons] at h1
          omega
    · exact runesFrom_cases h

theorem encodeRune_ge (h : 0x80 ≤ r) : ∀ x ∈ encodeRune r, 0x80 ≤ x := by
  intro x hx
  rw [UInt8.le_iff_toNat_le]
  unfold encodeRune at hx
  split_ifs at hx with h1 h2 h3 h4
  · omega
  · simp at hx
    rcases hx with rfl | rfl <;> simp <;> omega
  · simp at hx
    rcases hx with rfl | rfl | rfl <;> decide
  · simp at hx
    rcases hx with rfl | rfl | rfl <;> simp <;> omega
  · simp at hx
    rcases hx with rfl | rfl | rfl | rfl <;> simp <;> omega

theorem encodeRune_upperRune_ascii :
    ∀ b : UInt8, b < 0x80 → encodeRune (upperRune b.toNat) = [upperByte b] :=
  forall_byte (by decide +kernel)

theorem forall₂_flatMap {α β γ : Type} {R : β → γ → Prop} {f : α → List β} {g : α → List γ} :
    ∀ {l : List α}, (∀ a ∈ l, List.Forall₂ R (f a) (g a)) →
      List.Forall₂ R (l.flatMap f) (l.flatMap g)
  | [], _ => .nil
  | a :: l, h => by
    rw [flatMap_cons, flatMap_cons]
    exact rel_append (h a mem_cons_self)
      (forall₂_flatMap fun b hb => h b (mem_cons_of_mem _ hb))

theorem forall₂_of_length_eq {α β : Type} {P : α → Prop} {Q : β → Prop} :
    ∀ {l : List α} {m : List β}, l.length = m.length → (∀ a ∈ l, P a) → (∀ b ∈ m, Q b) →
      List.Forall₂ (fun a b => P a ∧ Q b) l m
  | [], [], _, _, _ => .nil
  | a :: _, b :: _, hlen, hl, hm =>
    .cons ⟨hl a mem_cons_self, hm b mem_cons_self⟩
      (forall₂_of_length_eq (Nat.succ.inj hlen) (fun x hx => hl x (mem_cons_of_mem _ hx))
        fun x hx => hm x (mem_cons_of_mem _ hx))

/-- **Where runes keep their width, the copy is aligned with the string.** -/
theorem toUpper_aligned (h : UpperKeepsWidth s) :
    List.Forall₂ Aligned s (toUpper s) := by
  have hrunes : List.Forall₂ Aligned ((runes s).flatMap (·.2)) (toUpper s) := by
    refine forall₂_flatMap fun p hp => ?_
    rcases runesFrom_cases hp with ⟨b, hb, rfl⟩ | ⟨hr, hbytes, hsingle⟩
    · rw [encodeRune_upperRune_ascii b hb]
      exact .cons (.inl ⟨hb, rfl⟩) .nil
    have hwidth := h p hp
    have hup : 0x80 ≤ upperRune p.1 := by
      -- a rune that became ASCII would have width one, so it is an error, which stays
      by_contra hlt
      have hone : p.2.length = 1 := by
        rw [← hwidth, encodeRune, if_pos (by omega)]
        rfl
      rw [hsingle hone] at hlt
      exact hlt (by decide)
    exact (forall₂_of_length_eq hwidth.symm hbytes (encodeRune_ge hup)).imp fun _ _ => .inr
  rwa [runes_flatMap] at hrunes

/-- An ASCII keyword stands in the copy where it stands in the string. -/
theorem occurs_toUpper_iff {keyword : Bytes} (h : UpperKeepsWidth s)
    (hkey : ∀ b ∈ keyword, b < 0x80) (i : Nat) :
    Lib.Occurs keyword (toUpper s) i ↔ Lib.Occurs keyword (s.map upperByte) i := by
  refine (Lib.occurs_iff_of_forall₂ (P := fun b => 0x80 ≤ b) ?_
    (fun b hb => UInt8.not_le.mpr (hkey b hb)) i).symm
  rw [forall₂_map_left_iff]
  refine (toUpper_aligned h).imp fun b u hbu => ?_
  rcases hbu with ⟨-, rfl⟩ | ⟨hb, hu⟩
  · exact .inl rfl
  refine .inr ⟨?_, hu⟩
  rw [upperByte, if_neg]
  · exact hb
  · rintro ⟨-, hle⟩
    exact absurd (UInt8.le_trans hb hle) (by decide)

end Pcmi.Go
