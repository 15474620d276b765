import Pcmi.Go.Utf8

/-!
# Functions of Go's `strings` package

On byte strings; searches are those of `Pcmi/Lib/Search.lean`. Slicing out of range ends the program
in Go; here it is `none`.
-/

namespace Pcmi.Go

open List

def slice (s : Bytes) (i j : Nat) : Option Bytes :=
  if i ≤ j ∧ j ≤ s.length then some ((s.take j).drop i) else none

/-- `strings.ReplaceAll` for an old string of one byte. -/
def replaceAll (s : Bytes) (old : UInt8) (new : Bytes) : Bytes :=
  s.flatMap fun b => if b = old then new else [b]

/-- `strings.IndexAny` for ASCII characters. -/
def indexAny (s chars : Bytes) : Option Nat := s.findIdx? fun b => chars.contains b

theorem take_indexAny (chars : Bytes) : ∀ s : Bytes,
    (match indexAny s chars with
      | some idx => s.take idx
      | none => s) = s.takeWhile fun b => !chars.contains b
  | [] => rfl
  | b :: s => by
    have ih := take_indexAny chars s
    unfold indexAny at ih ⊢
    rw [findIdx?_cons, takeWhile_cons, ← ih]
    cases hb : chars.contains b with
    | true => rfl
    | false => cases hidx : s.findIdx? fun b => chars.contains b <;> rfl

def join (parts : List Bytes) (sep : Bytes) : Bytes := sep.intercalate parts

/-- `fmt.Sprintf` for a format whose verbs are `%s`. -/
def sprintf : Bytes → List Bytes → Bytes
  | 0x25 :: 0x73 :: rest, arg :: args => arg ++ sprintf rest args
  | b :: rest, args => b :: sprintf rest args
  | [], _ => []

theorem sprintf_append : ∀ {text : Bytes}, 0x25 ∉ text → ∀ (rest : Bytes) (args : List Bytes),
    sprintf (text ++ rest) args = text ++ sprintf rest args
  | [], _, _, _ => rfl
  | b :: text, h, rest, args => by
    rw [mem_cons, not_or] at h
    rw [cons_append, cons_append, ← sprintf_append h.2 rest args, sprintf]
    intro _ _ _ _ hb _
    exact h.1 hb.symm

theorem sprintf_verb (rest arg : Bytes) (args : List Bytes) :
    sprintf (ascii "%s" ++ rest) (arg :: args) = arg ++ sprintf rest args := rfl

/-- `strings.FieldsFunc`; every rune above ASCII separates. -/
def fieldsFunc (separates : UInt8 → Bool) (s : Bytes) : List Bytes :=
  (s.splitOnP separates).filter (· ≠ [])

/-- Drops the encodings at the front, `skip` bytes already recognised. -/
def dropEncodings (encodings : List Bytes) : Nat → Bytes → Bytes
  | _, [] => []
  | skip + 1, _ :: rest => dropEncodings encodings skip rest
  | 0, b :: rest =>
    match encodings.find? (· <+: b :: rest) with
    | some e => dropEncodings encodings (e.length - 1) rest
    | none => b :: rest

def trimSpace (s : Bytes) : Bytes :=
  let spaces := spaceRunes.map encodeRune
  (dropEncodings (spaces.map List.reverse) 0 (dropEncodings spaces 0 s).reverse).reverse

variable {encodings : List Bytes} {e s : Bytes}

theorem dropEncodings_eq_self (h : ∀ e ∈ encodings, ¬ e <+: s) :
    dropEncodings encodings 0 s = s := by
  cases s with
  | nil => rfl
  | cons b rest =>
    have hnone : encodings.find? (· <+: b :: rest) = none := by
      rw [find?_eq_none]
      intro e he hpre
      exact h e he (of_decide_eq_true hpre)
    rw [dropEncodings, hnone]

def Untrimmed (s : Bytes) : Prop := ∀ e ∈ spaceRunes.map encodeRune, ¬ e <+: s ∧ ¬ e <:+ s

instance (s : Bytes) : Decidable (Untrimmed s) := inferInstanceAs (Decidable (∀ e ∈ _, _))

theorem trimSpace_eq_self (h : Untrimmed s) : trimSpace s = s := by
  unfold trimSpace
  dsimp only
  rw [dropEncodings_eq_self fun e he => (h e he).1, dropEncodings_eq_self, reverse_reverse]
  intro e he hpre
  obtain ⟨e', he', rfl⟩ := mem_map.mp he
  have hsuf := reverse_prefix.mp hpre
  exact (h e' he').2 hsuf

theorem trimSpace_of_forall (h : ∀ c ∈ s, 0x2D ≤ c.toNat ∧ c.toNat ≤ 0x7A) : trimSpace s = s := by
  have hspaces : ∀ e ∈ spaceRunes.map encodeRune, ∃ c ∈ e, c.toNat < 0x2D ∨ 0x7A < c.toNat := by
    decide
  have hapart : ∀ e ∈ spaceRunes.map encodeRune, ¬ e ⊆ s := by
    intro e he hsub
    obtain ⟨c, hc, hrange⟩ := hspaces e he
    have hbounds := h c (hsub hc)
    omega
  exact trimSpace_eq_self fun e he =>
    ⟨fun hpre => hapart e he hpre.subset, fun hsuf => hapart e he hsuf.subset⟩

theorem dropEncodings_skip (encodings : List Bytes) (skip : Nat) (s : Bytes) :
    dropEncodings encodings skip s = dropEncodings encodings 0 (s.drop skip) := by
  induction skip generalizing s with
  | zero => rfl
  | succ skip ih =>
    cases s with
    | nil => rfl
    | cons b rest => exact ih rest

/-- One character that is an encoding, and begins no other, is dropped. -/
theorem dropEncodings_cons {c : UInt8} (hmem : [c] ∈ encodings)
    (hone : ∀ e ∈ encodings, ∀ d ∈ e.head?, d = c → e = [c]) (hne : ∀ e ∈ encodings, e ≠ [])
    (rest : Bytes) : dropEncodings encodings 0 (c :: rest) = dropEncodings encodings 0 rest := by
  rw [dropEncodings]
  cases hfind : encodings.find? (· <+: c :: rest) with
  | none =>
    have hnot := find?_eq_none.mp hfind [c] hmem
    exact absurd (decide_eq_true ⟨rest, rfl⟩) hnot
  | some e =>
    have he := mem_of_find?_eq_some hfind
    have hfound := find?_some hfind
    have hpre : e <+: c :: rest := of_decide_eq_true hfound
    obtain ⟨d, tail, rfl⟩ := exists_cons_of_ne_nil (hne e he)
    have heq := hone _ he d rfl (cons_prefix_cons.mp hpre).1
    rw [heq]
    rfl

/-- What is left has no encoding in front, and what a drop preserves. -/
theorem dropEncodings_spec {P : Bytes → Prop} (hne : ∀ e ∈ encodings, e ≠ [])
    (hP : ∀ e ∈ encodings, ∀ t, P (e ++ t) → P t) (hs : P s) :
    P (dropEncodings encodings 0 s) ∧ ∀ e ∈ encodings, ¬ e <+: dropEncodings encodings 0 s := by
  induction hn : s.length using Nat.strong_induction_on generalizing s with
  | _ n ih =>
    subst hn
    cases s with
    | nil => exact ⟨hs, fun e he hpre => hne e he (prefix_nil.mp hpre)⟩
    | cons b rest =>
      rw [dropEncodings]
      cases hfind : encodings.find? (· <+: b :: rest) with
      | none =>
        refine ⟨hs, fun e he hpre => ?_⟩
        exact find?_eq_none.mp hfind e he (decide_eq_true hpre)
      | some e =>
        have he := mem_of_find?_eq_some hfind
        have hfound := find?_some hfind
        obtain ⟨t, ht⟩ : e <+: b :: rest := of_decide_eq_true hfound
        obtain ⟨d, tail, rfl⟩ := exists_cons_of_ne_nil (hne e he)
        have hdrop : rest.drop ((d :: tail).length - 1) = t := by
          rw [← (cons.inj ht).2]
          exact drop_left
        dsimp only
        rw [dropEncodings_skip, hdrop]
        refine ih t.length ?_ (hP _ he t (ht ▸ hs)) rfl
        rw [← ht, length_append, length_cons]
        omega

theorem space_ne_nil (he : e ∈ spaceRunes.map encodeRune) : e ≠ [] := by
  have hspaces : ∀ e ∈ spaceRunes.map encodeRune, e ≠ [] := by decide
  exact hspaces e he

theorem reverse_space_ne_nil (he : e ∈ (spaceRunes.map encodeRune).map List.reverse) :
    e ≠ [] := by
  obtain ⟨e', he', rfl⟩ := mem_map.mp he
  exact reverse_ne_nil_iff.mpr (space_ne_nil he')

theorem untrimmed_trimSpace (s : Bytes) : Untrimmed (trimSpace s) := by
  obtain ⟨-, hfront⟩ :=
    dropEncodings_spec (s := s) (fun _ => space_ne_nil) (fun _ _ _ _ => trivial) trivial
  obtain ⟨hsuffix, hback⟩ :=
    dropEncodings_spec (P := (· <:+ (dropEncodings (spaceRunes.map encodeRune) 0 s).reverse))
      (fun _ => reverse_space_ne_nil) (fun e _ t => (suffix_append e t).trans) (suffix_refl _)
  have hprefix : trimSpace s <+: dropEncodings (spaceRunes.map encodeRune) 0 s := by
    rw [← reverse_suffix, trimSpace, reverse_reverse]
    exact hsuffix
  intro e he
  refine ⟨fun hpre => hfront e he (hpre.trans hprefix), fun hsuf => ?_⟩
  rw [← reverse_prefix, trimSpace, reverse_reverse] at hsuf
  exact hback e.reverse (mem_map_of_mem he) hsuf

theorem trimSpace_trimSpace (s : Bytes) : trimSpace (trimSpace s) = trimSpace s :=
  trimSpace_eq_self (untrimmed_trimSpace s)

example : trimSpace (ascii " \tMATCH (m) \n" ++ encodeRune 0x2003) = ascii "MATCH (m)" := by decide

end Pcmi.Go
