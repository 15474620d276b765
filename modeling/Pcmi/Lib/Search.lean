import Mathlib.Data.List.Forall2
import Mathlib.Data.List.Infix

/-!
# Searching a list for a sublist

`Occurs sep s i`: `sep` stands in `s` at offset `i`; `index` and `lastIndex` are the first and the
last such offset. An element foreign to `sep` splits the occurrences.
-/

namespace Pcmi.Lib

open List

variable {α : Type}

/-- `sep` stands in `s` at offset `i`. -/
def Occurs (sep s : List α) (i : Nat) : Prop := i ≤ s.length ∧ sep <+: s.drop i

/-! ## Occurrences -/

variable {sep s t : List α} {c : α} {i : Nat} {f : α → List α}

theorem occurs_zero_iff : Occurs sep s 0 ↔ sep <+: s := by
  simp [Occurs]

@[simp] theorem occurs_cons_succ : Occurs sep (c :: s) (i + 1) ↔ Occurs sep s i := by
  simp [Occurs]

theorem exists_occurs_cons_iff :
    (∃ i, Occurs sep (c :: s) i) ↔ sep <+: c :: s ∨ ∃ i, Occurs sep s i := by
  constructor
  · rintro ⟨i, h⟩
    cases i with
    | zero => exact .inl (occurs_zero_iff.mp h)
    | succ i => exact .inr ⟨i, occurs_cons_succ.mp h⟩
  · rintro (h | ⟨i, h⟩)
    · exact ⟨0, occurs_zero_iff.mpr h⟩
    · exact ⟨i + 1, occurs_cons_succ.mpr h⟩

theorem occurs_nil_iff : Occurs sep [] i ↔ sep = [] ∧ i = 0 := by
  constructor
  · rintro ⟨hi, hpre⟩
    simp_all
  · rintro ⟨rfl, rfl⟩
    simp [Occurs]

theorem Occurs.length_le {sep s : List α} {i : Nat} (h : Occurs sep s i) :
    i + sep.length ≤ s.length := by
  have hlen := h.2.length_le
  rw [length_drop] at hlen
  have := h.1
  omega

theorem Occurs.append_right (h : Occurs sep s i) (t : List α) : Occurs sep (s ++ t) i := by
  refine ⟨by simpa using Nat.le_add_right_of_le h.1, ?_⟩
  rw [drop_append_of_le_length h.1]
  exact h.2.trans (prefix_append _ _)

theorem occurs_append_left : Occurs sep (s ++ t) (s.length + i) ↔ Occurs sep t i := by
  unfold Occurs
  rw [length_append, Nat.add_le_add_iff_left, drop_length_add_append]

theorem Occurs.of_append (h : Occurs sep (s ++ t) i) (hle : i + sep.length ≤ s.length) :
    Occurs sep s i := by
  have hi : i ≤ s.length := le_trans (Nat.le_add_right _ _) hle
  have hpre := h.2
  rw [drop_append_of_le_length hi] at hpre
  refine ⟨hi, prefix_of_prefix_length_le hpre (prefix_append _ _) ?_⟩
  rw [length_drop]
  omega

/-- **An element foreign to `sep` splits the occurrences.** -/
theorem occurs_append_cons_iff (hc : c ∉ sep) :
    Occurs sep (s ++ c :: t) i ↔
      Occurs sep s i ∨ ∃ j, i = s.length + 1 + j ∧ Occurs sep t j := by
  constructor
  · intro h
    by_cases hleft : i + sep.length ≤ s.length
    · exact .inl (h.of_append hleft)
    by_cases hright : s.length + 1 ≤ i
    · obtain ⟨j, rfl⟩ := Nat.exists_eq_add_of_le hright
      refine .inr ⟨j, rfl, ?_⟩
      rwa [Nat.add_assoc, occurs_append_left, Nat.add_comm 1 j, occurs_cons_succ] at h
    · -- the occurrence would cover the foreign element
      exfalso
      obtain ⟨k, hk⟩ := Nat.exists_eq_add_of_le (show i ≤ s.length by omega)
      obtain ⟨rest, hrest⟩ := h.2
      have hget : (sep ++ rest)[k]? = some c := by
        rw [hrest, getElem?_drop, ← hk]
        simp
      rw [getElem?_append_left (by omega)] at hget
      exact hc (mem_of_getElem? hget)
  · rintro (h | ⟨j, rfl, h⟩)
    · exact h.append_right _
    · rw [Nat.add_assoc, occurs_append_left, Nat.add_comm 1 j, occurs_cons_succ]
      exact h

theorem occurs_append_of_not_mem (hc : c ∉ s) :
    Occurs (c :: sep) (s ++ t) i ↔ ∃ j, i = s.length + j ∧ Occurs (c :: sep) t j := by
  constructor
  · intro h
    by_cases hi : s.length ≤ i
    · obtain ⟨j, rfl⟩ := Nat.exists_eq_add_of_le hi
      exact ⟨j, rfl, occurs_append_left.mp h⟩
    exfalso
    obtain ⟨rest, hrest⟩ := h.2
    have hget : (s ++ t)[i]? = some c := by
      have hdrop : ((s ++ t).drop i)[0]? = some c := by rw [← hrest]; rfl
      rwa [getElem?_drop, Nat.add_zero] at hdrop
    rw [getElem?_append_left (Nat.lt_of_not_le hi)] at hget
    exact hc (mem_of_getElem? hget)
  · rintro ⟨j, rfl, h⟩
    exact occurs_append_left.mpr h

theorem occurs_self_iff : Occurs sep sep i ↔ i = 0 := by
  constructor
  · intro h
    have := h.length_le
    omega
  · rintro rfl
    exact occurs_zero_iff.mpr prefix_rfl

theorem occurs_self_append_cons_iff (hc : c ∉ sep) :
    Occurs sep (sep ++ c :: t) i ↔ i = 0 ∨ ∃ j, i = sep.length + 1 + j ∧ Occurs sep t j := by
  rw [occurs_append_cons_iff hc, occurs_self_iff]

theorem exists_occurs_append_cons_iff (hc : c ∉ sep) :
    (∃ i, Occurs sep (s ++ c :: t) i) ↔ (∃ i, Occurs sep s i) ∨ ∃ i, Occurs sep t i := by
  simp only [occurs_append_cons_iff hc]
  constructor
  · rintro ⟨i, h | ⟨j, -, h⟩⟩
    · exact .inl ⟨i, h⟩
    · exact .inr ⟨j, h⟩
  · rintro (⟨i, h⟩ | ⟨j, h⟩)
    · exact ⟨i, .inl h⟩
    · exact ⟨_, .inr ⟨j, rfl, h⟩⟩

/-! ## Lists that agree on the elements of `sep` -/

theorem prefix_iff_of_forall₂ {P : α → Prop} :
    ∀ {sep u v : List α}, List.Forall₂ (fun x y => x = y ∨ P x ∧ P y) u v →
      (∀ a ∈ sep, ¬ P a) → (sep <+: u ↔ sep <+: v)
  | [], _, _, _, _ => by simp
  | _ :: _, _, _, .nil, _ => by simp
  | a :: sep, x :: u, y :: v, .cons hxy h, hsep => by
    rw [cons_prefix_cons, cons_prefix_cons]
    have ih := prefix_iff_of_forall₂ h fun b hb => hsep b (mem_cons_of_mem _ hb)
    rcases hxy with rfl | ⟨hx, hy⟩
    · rw [ih]
    have ha := hsep a mem_cons_self
    constructor
    · rintro ⟨rfl, -⟩
      exact absurd hx ha
    · rintro ⟨rfl, -⟩
      exact absurd hy ha

/-- **Foreign elements may be exchanged** without moving `sep`. -/
theorem occurs_iff_of_forall₂ {P : α → Prop} {u v : List α}
    (h : List.Forall₂ (fun x y => x = y ∨ P x ∧ P y) u v) (hsep : ∀ a ∈ sep, ¬ P a) (i : Nat) :
    Occurs sep u i ↔ Occurs sep v i := by
  unfold Occurs
  rw [h.length_eq, prefix_iff_of_forall₂ (forall₂_drop i h) hsep]

/-! ## Rewriting element by element -/

theorem flatMap_eq_self (h : ∀ c ∈ s, f c = [c]) : s.flatMap f = s := by
  rw [flatMap_congr h, flatMap_singleton']

/-- Foreign elements in front change nothing about a separator further on. -/
theorem exists_occurs_append_iff_of_foreign (h : ∀ c ∈ s, c ∉ sep) :
    (∃ i, Occurs sep (s ++ t) i) ↔ ∃ i, Occurs sep t i := by
  induction s with
  | nil => rfl
  | cons c s ih =>
    have hc : c ∉ sep := h c mem_cons_self
    rw [← ih fun d hd => h d (mem_cons_of_mem _ hd)]
    refine (exists_occurs_append_cons_iff (s := []) hc).trans (or_iff_right_of_imp ?_)
    rintro ⟨i, hi⟩
    obtain ⟨rfl, -⟩ := occurs_nil_iff.mp hi
    exact ⟨0, by simp [Occurs]⟩

/-- `f` keeps an element, or replaces a foreign one by foreign ones. -/
def KeepsOccurrences (sep : List α) (f : α → List α) : Prop :=
  ∀ c, f c = [c] ∨ c ∉ sep ∧ f c ≠ [] ∧ ∀ d ∈ f c, d ∉ sep

theorem prefix_flatMap_iff (hf : KeepsOccurrences sep f) (s : List α) :
    sep <+: s.flatMap f ↔ sep <+: s := by
  induction s generalizing sep with
  | nil => simp
  | cons c s ih =>
    cases sep with
    | nil => simp
    | cons x sep =>
      have hf' : KeepsOccurrences sep f := fun d =>
        (hf d).imp_right fun ⟨hd, hne, hforeign⟩ =>
          ⟨fun h => hd (mem_cons_of_mem _ h), hne, fun e he h =>
            hforeign e he (mem_cons_of_mem _ h)⟩
      rw [flatMap_cons, cons_prefix_cons]
      rcases hf c with hkeep | ⟨hc, hne, hforeign⟩
      · rw [hkeep, singleton_append, cons_prefix_cons, ih hf']
      obtain ⟨d, l, hd⟩ := exists_cons_of_ne_nil hne
      have hxc : x ≠ c := fun he => hc (he ▸ mem_cons_self)
      have hxd : x ≠ d := fun he =>
        hforeign d (hd ▸ mem_cons_self) (he ▸ mem_cons_self)
      simp [hd, hxc, hxd]

/-- **Rewriting element by element neither adds nor removes occurrences.** -/
theorem exists_occurs_flatMap_iff (hf : KeepsOccurrences sep f) (s : List α) :
    (∃ i, Occurs sep (s.flatMap f) i) ↔ ∃ i, Occurs sep s i := by
  induction s with
  | nil => rfl
  | cons c s ih =>
    have hpre := prefix_flatMap_iff hf (c :: s)
    rw [flatMap_cons] at hpre ⊢
    rcases hf c with hkeep | ⟨hc, -, hforeign⟩
    · rw [hkeep, singleton_append] at hpre ⊢
      rw [exists_occurs_cons_iff, exists_occurs_cons_iff, hpre, ih]
    have hcs : (∃ i, Occurs sep (c :: s) i) ↔ ∃ i, Occurs sep s i :=
      exists_occurs_append_iff_of_foreign (s := [c]) fun d hd => mem_singleton.mp hd ▸ hc
    rw [exists_occurs_append_iff_of_foreign hforeign, hcs, ih]

/-! ## The first offset -/

variable [DecidableEq α]

instance (sep s : List α) (i : Nat) : Decidable (Occurs sep s i) :=
  inferInstanceAs (Decidable (_ ∧ _))

def index : List α → List α → Option Nat
  | [], sep => if sep = [] then some 0 else none
  | c :: rest, sep => if sep <+: c :: rest then some 0 else (index rest sep).map (· + 1)

def lastIndex : List α → List α → Option Nat
  | [], sep => if sep = [] then some 0 else none
  | c :: rest, sep =>
    match lastIndex rest sep with
    | some i => some (i + 1)
    | none => if sep <+: c :: rest then some 0 else none

/-- The offsets of `sep` without overlap; `skip` elements are passed. -/
def indicesFrom (sep : List α) : Nat → Nat → List α → List Nat
  | _, _, [] => []
  | skip + 1, pos, _ :: rest => indicesFrom sep skip (pos + 1) rest
  | 0, pos, c :: rest =>
    if sep <+: c :: rest then pos :: indicesFrom sep (sep.length - 1) (pos + 1) rest
    else indicesFrom sep 0 (pos + 1) rest

/-- What a loop of searches finds, each from behind the last match. -/
def indices (s sep : List α) : List Nat := indicesFrom sep 0 0 s

def contains (s sep : List α) : Bool := (index s sep).isSome

theorem index_eq_none_iff : index s sep = none ↔ ∀ i, ¬ Occurs sep s i := by
  induction s with
  | nil =>
    by_cases hsep : sep = []
    · simp [index, hsep, Occurs]
    · simp [index, hsep, occurs_nil_iff]
  | cons c rest ih =>
    unfold index
    by_cases hpre : sep <+: c :: rest
    · simp only [if_pos hpre]
      simpa using ⟨0, occurs_zero_iff.mpr hpre⟩
    simp only [if_neg hpre, Option.map_eq_none_iff, ih]
    constructor
    · intro h i
      cases i with
      | zero => rwa [occurs_zero_iff]
      | succ i => rw [occurs_cons_succ]; exact h i
    · intro h i hocc
      exact h (i + 1) (occurs_cons_succ.mpr hocc)

theorem index_eq_some_iff : index s sep = some i ↔ Occurs sep s i ∧ ∀ j < i, ¬ Occurs sep s j := by
  induction s generalizing i with
  | nil =>
    by_cases hsep : sep = []
    · subst hsep
      simp only [index, if_true, Option.some.injEq, occurs_nil_iff, true_and]
      constructor
      · rintro rfl
        simp
      · rintro ⟨rfl, -⟩
        rfl
    · simp [index, hsep, occurs_nil_iff]
  | cons c rest ih =>
    unfold index
    by_cases hpre : sep <+: c :: rest
    · have hzero : Occurs sep (c :: rest) 0 := occurs_zero_iff.mpr hpre
      simp only [if_pos hpre, Option.some.injEq]
      constructor
      · rintro rfl
        exact ⟨hzero, by simp⟩
      · rintro ⟨-, hfirst⟩
        by_contra hne
        exact hfirst 0 (by omega) hzero
    · simp only [if_neg hpre, Option.map_eq_some_iff]
      constructor
      · rintro ⟨j, hj, rfl⟩
        obtain ⟨hocc, hfirst⟩ := ih.mp hj
        refine ⟨occurs_cons_succ.mpr hocc, fun k hk => ?_⟩
        cases k with
        | zero => rwa [occurs_zero_iff]
        | succ k => rw [occurs_cons_succ]; exact hfirst k (by omega)
      · rintro ⟨hocc, hfirst⟩
        cases i with
        | zero => exact absurd (occurs_zero_iff.mp hocc) hpre
        | succ i =>
          refine ⟨i, ih.mpr ⟨occurs_cons_succ.mp hocc, fun k hk hk' => ?_⟩, rfl⟩
          exact hfirst (k + 1) (by omega) (occurs_cons_succ.mpr hk')

theorem contains_eq_true_iff : contains s sep = true ↔ ∃ i, Occurs sep s i := by
  unfold contains
  rw [Option.isSome_iff_ne_none, Ne, index_eq_none_iff]
  simp

theorem contains_eq_false_iff : contains s sep = false ↔ ∀ i, ¬ Occurs sep s i := by
  rw [Bool.eq_false_iff, Ne, contains_eq_true_iff, not_exists]

theorem index_congr (h : ∀ i, Occurs sep s i ↔ Occurs sep t i) : index s sep = index t sep := by
  cases hs : index s sep with
  | none =>
    rw [index_eq_none_iff] at hs
    exact (index_eq_none_iff.mpr fun i hi => hs i ((h i).mpr hi)).symm
  | some i =>
    obtain ⟨hocc, hfirst⟩ := index_eq_some_iff.mp hs
    exact (index_eq_some_iff.mpr ⟨(h i).mp hocc, fun j hj hj' => hfirst j hj ((h j).mpr hj')⟩).symm

/-! ## The last offset, and all offsets -/

omit [DecidableEq α] in
theorem exists_append_cons_of_mem (h : c ∈ s) :
    ∃ front part, s = front ++ c :: part ∧ c ∉ part := by
  obtain ⟨part, front, heq, hpart⟩ := eq_append_cons_of_mem (mem_reverse.mpr h)
  refine ⟨front.reverse, part.reverse, ?_, by simpa using hpart⟩
  rw [← reverse_reverse s, heq]
  simp

theorem lastIndex_of_not_mem {c : α} : ∀ {s : List α}, c ∉ s → lastIndex s [c] = none
  | [], _ => rfl
  | a :: s, h => by
    rw [mem_cons, not_or] at h
    rw [lastIndex, lastIndex_of_not_mem h.2]
    simp [h.1]

/-- The last offset of an element after which it does not come again. -/
theorem lastIndex_append_cons {c : α} {t : List α} (h : c ∉ t) :
    ∀ s : List α, lastIndex (s ++ c :: t) [c] = some s.length
  | [] => by simp [lastIndex, lastIndex_of_not_mem h]
  | a :: s => by
    rw [cons_append, lastIndex, lastIndex_append_cons h s]
    rfl

/-- The offsets found are all, when the first element is not repeated. -/
theorem mem_indicesFrom_iff {c : α} {tail : List α} (hc : c ∉ tail) :
    ∀ (s : List α) (skip pos i : Nat), (∀ j < skip, ¬ Occurs (c :: tail) s j) →
      (i ∈ indicesFrom (c :: tail) skip pos s ↔ ∃ j, i = pos + j ∧ Occurs (c :: tail) s j)
  | [], skip, pos, i, _ => by simp [indicesFrom, occurs_nil_iff]
  | a :: rest, skip + 1, pos, i, hskip => by
    have hrest : ∀ j < skip, ¬ Occurs (c :: tail) rest j := fun j hj h =>
      hskip (j + 1) (by omega) (occurs_cons_succ.mpr h)
    rw [indicesFrom, mem_indicesFrom_iff hc rest skip (pos + 1) i hrest]
    constructor
    · rintro ⟨j, rfl, h⟩
      exact ⟨j + 1, by omega, occurs_cons_succ.mpr h⟩
    · rintro ⟨j, rfl, h⟩
      cases j with
      | zero => exact absurd h (hskip 0 (by omega))
      | succ j => exact ⟨j, by omega, occurs_cons_succ.mp h⟩
  | a :: rest, 0, pos, i, _ => by
    unfold indicesFrom
    by_cases hpre : c :: tail <+: a :: rest
    · obtain ⟨rfl, htail⟩ := cons_prefix_cons.mp hpre
      -- the elements of `tail` begin no match
      have hskip : ∀ j < tail.length, ¬ Occurs (c :: tail) rest j := by
        intro j hj h
        obtain ⟨t, ht⟩ := h.2
        have hget : rest[j]? = some c := by
          rw [← head?_drop, ← ht]
          rfl
        obtain ⟨u, rfl⟩ := htail
        rw [getElem?_append_left hj] at hget
        exact hc (mem_of_getElem? hget)
      rw [if_pos hpre, mem_cons, length_cons, Nat.add_sub_cancel,
        mem_indicesFrom_iff hc rest tail.length (pos + 1) i hskip]
      constructor
      · rintro (rfl | ⟨j, rfl, h⟩)
        · exact ⟨0, rfl, occurs_zero_iff.mpr hpre⟩
        · exact ⟨j + 1, by omega, occurs_cons_succ.mpr h⟩
      · rintro ⟨j, rfl, h⟩
        cases j with
        | zero => exact .inl rfl
        | succ j => exact .inr ⟨j, by omega, occurs_cons_succ.mp h⟩
    · rw [if_neg hpre, mem_indicesFrom_iff hc rest 0 (pos + 1) i (by simp)]
      constructor
      · rintro ⟨j, rfl, h⟩
        exact ⟨j + 1, by omega, occurs_cons_succ.mpr h⟩
      · rintro ⟨j, rfl, h⟩
        cases j with
        | zero => exact absurd (occurs_zero_iff.mp h) hpre
        | succ j => exact ⟨j, by omega, occurs_cons_succ.mp h⟩

theorem mem_indices_iff {tail : List α} (hc : c ∉ tail) :
    i ∈ indices s (c :: tail) ↔ Occurs (c :: tail) s i := by
  unfold indices
  rw [mem_indicesFrom_iff hc s 0 0 i (by simp)]
  simp

end Pcmi.Lib
