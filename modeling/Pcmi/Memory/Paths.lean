import Pcmi.Lib.Separated
import Pcmi.Lib.Slots
import Pcmi.Memory.Dedup

/-!
# Texts of `ltree` values

The text of an `ltree` is its labels with dots between them. Which characters a label may have
depends on the locale of the database (`LabelRules`), but never a dot or white space.
-/

namespace Pcmi.Memory

open List Pcmi.Go Pcmi.Lib

/-! ## The cast -/

/-- The parts of a text between its dots. -/
def labelsOf (text : String) : List String :=
  if text = "" then [] else (text.toList.splitOn '.').map String.ofList

/-- What the database admits as a label. -/
structure LabelRules where
  admits : Char → Bool
  maxLength : Nat
  word : ∀ c : Char, c.isAlphanum = true ∨ c = '_' → admits c = true
  dot : admits '.' = false
  space : ∀ c : Char, c.toNat ∈ spaceRunes → admits c = false
  long : 255 ≤ maxLength

namespace LabelRules

variable (db : LabelRules)

def label (l : String) : Bool :=
  decide (l ≠ "") && decide (l.length ≤ db.maxLength) && l.toList.all db.admits

/-- `LTREE_MAX_LEVELS`. -/
def maxLevels : Nat := 65535

def stores (p : Ltree) : Bool := p.labels.all db.label && decide (p.nlevel ≤ maxLevels)

def castLtree (text : String) : Option Ltree :=
  if db.stores ⟨labelsOf text⟩ then some ⟨labelsOf text⟩ else none

end LabelRules

/-! ## Text and labels -/

theorem Ltree.toList_text (p : Ltree) :
    p.text.toList = ['.'].intercalate (p.labels.map String.toList) := by
  rw [Ltree.text, String.toList_intercalate]
  rfl

theorem Ltree.text_labelsOf (text : String) : Ltree.text ⟨labelsOf text⟩ = text := by
  refine String.toList_injective ?_
  rw [Ltree.toList_text]
  unfold labelsOf
  split
  · next h =>
    rw [h]
    rfl
  · have hparts : ((text.toList.splitOn '.').map String.ofList).map String.toList =
        text.toList.splitOn '.' := by simp [Function.comp_def]
    rw [hparts, intercalate_splitOn]

namespace LabelRules

variable {db : LabelRules} {p : Ltree} {l : String}

theorem label_iff : db.label l = true ↔
    l ≠ "" ∧ l.length ≤ db.maxLength ∧ ∀ c ∈ l.toList, db.admits c = true := by
  rw [label, Bool.and_eq_true, Bool.and_eq_true, decide_eq_true_iff, decide_eq_true_iff,
    all_eq_true, and_assoc]

theorem dot_not_mem (h : db.label l = true) : '.' ∉ l.toList := by
  intro hdot
  have hadmits := (label_iff.mp h).2.2 _ hdot
  rw [db.dot] at hadmits
  cases hadmits

theorem stores_iff : db.stores p = true ↔
    (∀ l ∈ p.labels, db.label l = true) ∧ p.nlevel ≤ maxLevels := by
  rw [stores, Bool.and_eq_true, all_eq_true, decide_eq_true_iff]

theorem stores_take (h : db.stores p = true) (n : Nat) :
    db.stores ⟨p.labels.take n⟩ = true := by
  obtain ⟨hlabels, hlevels⟩ := stores_iff.mp h
  refine stores_iff.mpr ⟨fun l hl => hlabels l (mem_of_mem_take hl), ?_⟩
  exact (length_take_le' n p.labels).trans hlevels

theorem splitOn_text (h : db.stores p = true) (hne : p.labels ≠ []) :
    p.text.toList.splitOn '.' = p.labels.map String.toList := by
  rw [Ltree.toList_text, splitOn_intercalate]
  · intro l hl
    obtain ⟨l, hmem, rfl⟩ := mem_map.mp hl
    exact dot_not_mem ((stores_iff.mp h).1 l hmem)
  · simpa using hne

theorem text_eq_empty_iff (h : db.stores p = true) : p.text = "" ↔ p.labels = [] := by
  constructor
  · intro htext
    by_contra hne
    have hsplit := splitOn_text h hne
    rw [htext] at hsplit
    obtain ⟨l, rest, hl⟩ := exists_cons_of_ne_nil hne
    rw [hl, map_cons] at hsplit
    have hfirst : l.toList = [] := (cons.inj hsplit).1.symm
    have hlabel := (stores_iff.mp h).1 l (hl ▸ mem_cons_self)
    exact (label_iff.mp hlabel).1 (String.toList_eq_nil_iff.mp hfirst)
  · intro hnil
    rw [Ltree.text, hnil]
    rfl

theorem labelsOf_text (h : db.stores p = true) : labelsOf p.text = p.labels := by
  unfold labelsOf
  by_cases hne : p.labels = []
  · rw [if_pos ((text_eq_empty_iff h).mpr hne), hne]
  · rw [if_neg (mt (text_eq_empty_iff h).mp hne), splitOn_text h hne]
    simp [Function.comp_def]

theorem labelsOf_text_append (h : db.stores p = true) (hne : p.labels ≠ []) (hl : '.' ∉ l.toList) :
    labelsOf (p.text ++ "." ++ l) = p.labels ++ [l] := by
  have htext : (p.text ++ "." ++ l).toList =
      ['.'].intercalate (p.labels.map String.toList ++ [l.toList]) := by
    rw [intercalate_append '.' (by simpa using hne) (cons_ne_nil _ _),
      intercalate_singleton, ← Ltree.toList_text, String.toList_append, String.toList_append,
      append_assoc]
    rfl
  have hsplit : (p.text ++ "." ++ l).toList.splitOn '.' =
      p.labels.map String.toList ++ [l.toList] := by
    rw [htext, splitOn_intercalate]
    · refine forall_mem_concat (fun part hpart => ?_) hl
      obtain ⟨l', hmem, rfl⟩ := mem_map.mp hpart
      exact dot_not_mem ((stores_iff.mp h).1 l' hmem)
    · simp
  have hnonempty : p.text ++ "." ++ l ≠ "" := by
    intro hempty
    have hchars := congrArg String.toList hempty
    simp at hchars
  rw [labelsOf, if_neg hnonempty, hsplit]
  simp [Function.comp_def]

/-- **The cast is the inverse of the text.** -/
theorem castLtree_eq_some_iff {text : String} :
    db.castLtree text = some p ↔ db.stores p = true ∧ p.text = text := by
  unfold castLtree
  constructor
  · intro h
    split at h <;> cases h
    next hstores => exact ⟨hstores, Ltree.text_labelsOf text⟩
  · rintro ⟨hstores, rfl⟩
    rw [labelsOf_text hstores, if_pos hstores]

theorem castLtree_text (h : db.stores p = true) : db.castLtree p.text = some p :=
  castLtree_eq_some_iff.mpr ⟨h, rfl⟩

theorem eq_of_text_eq {p' : Ltree} (h : db.stores p = true) (h' : db.stores p' = true)
    (htext : p.text = p'.text) : p = p' := by
  have hcast := castLtree_text h
  rw [htext, castLtree_text h'] at hcast
  exact (Option.some.inj hcast).symm

theorem trimSpaceText_text (h : db.stores p = true) : trimSpaceText p.text = p.text := by
  refine trimSpaceText_of_forall fun c hc hspace => ?_
  rw [Ltree.toList_text] at hc
  have hchars : ∀ (ls : List (List Char)), c ∈ ['.'].intercalate ls → c = '.' ∨ ∃ l ∈ ls,
      c ∈ l := by
    intro ls
    induction ls with
    | nil => exact fun h => absurd h not_mem_nil
    | cons l ls ih =>
      intro hc
      cases ls with
      | nil => exact Or.inr ⟨l, mem_cons_self, by simpa using hc⟩
      | cons l' ls =>
        rw [intercalate_cons_cons, append_assoc] at hc
        rcases mem_append.mp hc with hc | hc
        · exact Or.inr ⟨l, mem_cons_self, hc⟩
        rcases mem_append.mp hc with hc | hc
        · exact Or.inl (mem_singleton.mp hc)
        · exact (ih hc).imp_right fun ⟨l, hl, hc⟩ => ⟨l, mem_cons_of_mem _ hl, hc⟩
  have hadmits := db.space c hspace
  rcases hchars _ hc with rfl | ⟨l, hl, hc⟩
  · revert hspace
    decide
  obtain ⟨l, hmem, rfl⟩ := mem_map.mp hl
  rw [(label_iff.mp ((stores_iff.mp h).1 l hmem)).2.2 c hc] at hadmits
  cases hadmits

/-- A word of ASCII letters, digits and underscores is a label. -/
theorem label_of_word (hne : l ≠ "") (hlength : l.length ≤ 255)
    (hword : (l.toList.all fun c => c.isAlphanum || c == '_') = true) : db.label l = true := by
  refine label_iff.mpr ⟨hne, hlength.trans db.long, fun c hc => db.word c ?_⟩
  simpa using all_eq_true.mp hword c hc

end LabelRules

/-! ## A database -/

/-- A database that admits words and hyphens. -/
def wordRules : LabelRules where
  admits c := c.isAlphanum || c == '_' || c == '-'
  maxLength := 1000
  word c h := by
    rcases h with h | h <;> simp [h]
  dot := by decide
  space c h := by
    have hspace : ∀ n ∈ spaceRunes, ((Char.ofNat n).isAlphanum || Char.ofNat n == '_' ||
        Char.ofNat n == '-') = false := by decide
    have := hspace c.toNat h
    rwa [Char.ofNat_toNat] at this
  long := by decide

def wordEnv : Env := { dedupEnv with castLtree := wordRules.castLtree }

end Pcmi.Memory
