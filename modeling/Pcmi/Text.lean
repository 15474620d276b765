import Pcmi.Go.ValidUtf8

/-!
# Cutting text

`truncateUTF8`, which `internal/worker/text.go` and `internal/service/text.go` each have in the same
words.
-/

namespace Pcmi

open List
open Pcmi.Go

/-- The loop that steps back to the first byte of a character. -/
def backOff (s : Bytes) : Nat → Nat
  | 0 => 0
  | b + 1 => if s[b + 1]?.all runeStart then b + 1 else backOff s b

def truncateUTF8 (s : Bytes) (maxBytes : Int) : Bytes :=
  if maxBytes ≤ 0 then []
  else if s.length ≤ maxBytes then s
  else s.take (backOff s maxBytes.toNat)

variable {s : Bytes}

/-- The loop ends at the last place where a valid text can be cut. -/
theorem backOff_spec (hs : ValidUtf8 s) (n : Nat) :
    ValidUtf8 (s.take (backOff s n)) ∧ backOff s n ≤ n ∧
      ∀ m ≤ n, ValidUtf8 (s.take m) → m ≤ backOff s n := by
  induction n with
  | zero => exact ⟨⟨[], rfl⟩, Nat.le_refl 0, fun m hm _ => hm⟩
  | succ n ih =>
    obtain ⟨hvalid, hle, hlast⟩ := ih
    rw [backOff]
    split_ifs with hstart
    · rw [Option.all_eq_true] at hstart
      exact ⟨(validUtf8_take_iff hs _).mpr hstart, Nat.le_refl _, fun m hm _ => hm⟩
    · refine ⟨hvalid, Nat.le_succ_of_le hle, fun m hm hcut => ?_⟩
      rcases Nat.le_succ_iff.mp hm with hm | rfl
      · exact hlast m hm hcut
      · rw [Option.all_eq_true] at hstart
        exact absurd ((validUtf8_take_iff hs _).mp hcut) hstart

/-- **The result is the longest valid text at the front of `s` that fits.** -/
theorem truncateUTF8_longest (hs : ValidUtf8 s) {maxBytes : Int} (h : 0 ≤ maxBytes) :
    ValidUtf8 (truncateUTF8 s maxBytes) ∧ truncateUTF8 s maxBytes <+: s ∧
      (truncateUTF8 s maxBytes).length ≤ maxBytes ∧
      ∀ t, ValidUtf8 t → t <+: s → t.length ≤ maxBytes →
        t.length ≤ (truncateUTF8 s maxBytes).length := by
  unfold truncateUTF8
  split_ifs with hzero hshort
  · exact ⟨⟨[], rfl⟩, nil_prefix, h, fun t _ _ hlength => by
      rw [length_nil]
      omega⟩
  · exact ⟨hs, prefix_rfl, hshort, fun t _ hpre _ => hpre.length_le⟩
  · obtain ⟨hvalid, hle, hlast⟩ := backOff_spec hs maxBytes.toNat
    rw [length_take_of_le (by omega)]
    refine ⟨hvalid, take_prefix _ _, by omega, fun t ht hpre hlength => ?_⟩
    refine hlast _ (by omega) ?_
    rw [← prefix_iff_eq_take.mp hpre]
    exact ht

/-- Three bytes of "aéé" hold "aé"; two hold "a". -/
theorem truncateUTF8_longest_accents :
    ValidUtf8 [97, 195, 169, 195, 169] ∧ truncateUTF8 [97, 195, 169, 195, 169] 2 = [97] ∧
      ValidUtf8 (truncateUTF8 [97, 195, 169, 195, 169] 2) := by
  have hs : ValidUtf8 [97, 195, 169, 195, 169] := ⟨['a', 'é', 'é'], by decide⟩
  exact ⟨hs, by decide, (truncateUTF8_longest hs (by decide)).1⟩

end Pcmi
