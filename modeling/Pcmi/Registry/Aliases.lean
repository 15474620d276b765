import Pcmi.Go.Unmarshal
import Pcmi.Lib.Alias
import Pcmi.Lib.Steps
import Pcmi.Memory.Service
import Pcmi.Registry.Entities

/-!
# Aliases as an equivalence

`ResolveCanonicalKey` makes one lookup, so keys fall into classes only while no canonical key is an
alias of another. `AddManualAlias` and `ApplyAliasMerge` do not look at this.
-/

namespace Pcmi.Registry

open Pcmi.Go Pcmi.Lib Option

/-! ## The operations -/

/-- `strings.ToLower` and `strings.ToUpper`. -/
structure Casing where
  toLower : String → String
  toUpper : String → String

def normalizeEntityKey (casing : Casing) (value normalize : String) : String :=
  let value := trimSpaceText value
  if value = "" then ""
  else
    let rule := (trimSpaceText normalize).toList.map Memory.lowerAscii
    if rule = "lower".toList then casing.toLower value
    else if rule = "upper".toList then casing.toUpper value
    else value

/-- A slot that `PromoteEntities` looks at, and what succeeds for it. -/
structure Slot where
  value : String
  vertexLabel : String
  normalize : String
  looksUp : Bool := true
  writes : Bool := true

/-- `strings.EqualFold(strings.TrimSpace(promo.Normalize), "alias_table")`. -/
def Slot.usesAliasTable (slot : Slot) : Bool :=
  (trimSpaceText slot.normalize).toList.map foldRune = "alias_table".toList

/-- The key of the entity, resolved if the profile says so. -/
def Slot.canonicalKey (slot : Slot) (s : Tables) (kind rawKey : String) : String :=
  if slot.usesAliasTable ∧ slot.looksUp then s.resolve kind rawKey else rawKey

/-- One round of the loop in `SyncFromExtraction`. -/
def syncSlot (casing : Casing) (s : Tables) (slot : Slot) : Tables :=
  let rawKey := normalizeEntityKey casing slot.value slot.normalize
  let kind := trimSpaceText slot.vertexLabel
  if rawKey = "" ∨ kind = "" then s
  else
    let canonicalKey := slot.canonicalKey s kind rawKey
    let s := s.upsertCanonical ⟨kind, canonicalKey⟩
    if rawKey ≠ canonicalKey ∧ slot.writes then s.upsertActiveAlias ⟨kind, rawKey⟩ canonicalKey
    else s

inductive Action where
  /-- `writes`: whether the statement for the alias succeeds. -/
  | addManualAlias (kind canonicalKey aliasKey : String) (writes : Bool)
  | applyAliasMerge (kind aliasKey canonicalKey : String) (writes : Bool)
  | syncFromExtraction (slots : List Slot)

/-- `UpsertCanonical` and `UpsertActiveAlias`, one after the other. -/
def Tables.merge (s : Tables) (kind aliasKey canonicalKey : String) (writes : Bool) : Tables :=
  let s := s.upsertCanonical ⟨kind, canonicalKey⟩
  if writes then s.upsertActiveAlias ⟨kind, aliasKey⟩ canonicalKey else s

def Tables.step (casing : Casing) (s : Tables) : Action → Option Tables
  | .addManualAlias kind canonicalKey aliasKey writes =>
    let aliasKey := normalizeEntityKey casing aliasKey "trim"
    let canonicalKey := normalizeEntityKey casing canonicalKey "trim"
    if aliasKey = "" ∨ canonicalKey = "" then some s
    else if aliasKey = canonicalKey then some (s.upsertCanonical ⟨kind, canonicalKey⟩)
    else some (s.merge kind aliasKey canonicalKey writes)
  | .applyAliasMerge kind aliasKey canonicalKey writes =>
    some (s.merge kind aliasKey canonicalKey writes)
  | .syncFromExtraction slots => some (slots.foldl (syncSlot casing) s)

/-! ## Merges that make no chain -/

def Clean (t : String) : Prop := trimSpaceText t = t ∧ t ≠ ""

instance (t : String) : Decidable (Clean t) := inferInstanceAs (Decidable (_ ∧ _))

/-- The canonical key is no alias, and the alias has no aliases. -/
def NoChain (s : Tables) (kind aliasKey canonicalKey : String) : Prop :=
  canonicalKey = aliasKey ∨
    (s.aliasOf kind canonicalKey = none ∨ s.aliasOf kind canonicalKey = some canonicalKey) ∧
      ∀ e ∈ s.aliases.entries, s.aliasOf kind e.1.key = some aliasKey → e.1.key = aliasKey

instance (s : Tables) (kind aliasKey canonicalKey : String) :
    Decidable (NoChain s kind aliasKey canonicalKey) :=
  inferInstanceAs (Decidable (_ ∨ (_ ∨ _) ∧ ∀ e ∈ s.aliases.entries, _))

/-- A merge is of clean keys and makes no chain. -/
def MergesApart (s : Tables) : Action → Prop
  | .addManualAlias kind canonicalKey aliasKey _ =>
    Clean kind ∧ NoChain s kind (trimSpaceText aliasKey) (trimSpaceText canonicalKey)
  | .applyAliasMerge kind aliasKey canonicalKey _ =>
    Clean kind ∧ Clean aliasKey ∧ Clean canonicalKey ∧ NoChain s kind aliasKey canonicalKey
  | .syncFromExtraction _ => True

instance (s : Tables) : (a : Action) → Decidable (MergesApart s a)
  | .addManualAlias .. => inferInstanceAs (Decidable (_ ∧ _))
  | .applyAliasMerge .. => inferInstanceAs (Decidable (_ ∧ _ ∧ _ ∧ _))
  | .syncFromExtraction _ => .isTrue trivial

/-! ## The invariant -/

/-- Aliases make no chains, and all kinds and keys are clean. -/
structure Tidy (s : Tables) : Prop where
  flat : ∀ kind, Alias.Flat (s.aliasOf kind)
  clean : ∀ kind a c, s.aliasOf kind a = some c → Clean kind ∧ Clean a ∧ Clean c

section

variable {casing : Casing} {s s' : Tables} {kind : String}

theorem Tidy.of_aliasOf_eq (h : Tidy s) (heq : ∀ kind, s'.aliasOf kind = s.aliasOf kind) :
    Tidy s' where
  flat kind := by
    rw [heq]
    exact h.flat kind
  clean kind a c hac := by
    rw [heq] at hac
    exact h.clean kind a c hac

theorem tidy_start : Tidy Tables.start where
  flat _ _ _ h := nomatch h
  clean _ _ _ h := nomatch h

theorem clean_trimSpaceText {t : String} (h : trimSpaceText t ≠ "") : Clean (trimSpaceText t) :=
  ⟨trimSpaceText_trimSpaceText t, h⟩

theorem NoChain.aliasOf {a c : String} (h : NoChain s kind a c) :
    c = a ∨ (s.aliasOf kind c = none ∨ s.aliasOf kind c = some c) ∧
      ∀ b, s.aliasOf kind b = some a → b = a := by
  refine h.imp_right fun ⟨hname, hnone⟩ => ⟨hname, fun b hb => ?_⟩
  obtain ⟨id, hid, -⟩ := Tables.aliasOf_eq_some.mp hb
  exact hnone ⟨⟨kind, b⟩, id⟩ (AList.mem_lookup_iff.mp hid) hb

theorem Tidy.upsertActiveAlias (h : Tidy s) {a c : String} {id : Nat}
    (hid : s.entities.lookup ⟨kind, c⟩ = some id) (hkind : Clean kind) (ha : Clean a)
    (hc : Clean c) (hchain : c = a ∨ (s.aliasOf kind c = none ∨ s.aliasOf kind c = some c) ∧
      ∀ b, s.aliasOf kind b = some a → b = a) :
    Tidy (s.upsertActiveAlias ⟨kind, a⟩ c) := by
  have hself : (s.upsertActiveAlias ⟨kind, a⟩ c).aliasOf kind =
      Function.update (s.aliasOf kind) a (some c) :=
    Tables.aliasOf_upsertActiveAlias_self (a := ⟨kind, a⟩) hid
  have hother : ∀ kind' ≠ kind,
      (s.upsertActiveAlias ⟨kind, a⟩ c).aliasOf kind' = s.aliasOf kind' :=
    fun kind' hne => Tables.aliasOf_upsertActiveAlias_of_ne (a := ⟨kind, a⟩) hne
  constructor
  · intro kind'
    by_cases heq : kind' = kind
    · rw [heq, hself]
      exact (h.flat kind).update hchain
    · rw [hother kind' heq]
      exact h.flat kind'
  · intro kind' a' c' hac
    by_cases heq : kind' = kind
    · rw [heq, hself, Function.update_apply] at hac
      rw [heq]
      split at hac
      · next ha' =>
        rw [ha', ← Option.some.inj hac]
        exact ⟨hkind, ha, hc⟩
      · exact h.clean kind a' c' hac
    · rw [hother kind' heq] at hac
      exact h.clean kind' a' c' hac

theorem Tidy.upsertCanonical (h : Tidy s) (key : EntityKey) : Tidy (s.upsertCanonical key) :=
  h.of_aliasOf_eq fun kind => Tables.aliasOf_upsertCanonical key kind

theorem Tidy.merge (h : Tidy s) {a c : String} (hkind : Clean kind) (ha : Clean a) (hc : Clean c)
    (hchain : NoChain s kind a c) (writes : Bool) : Tidy (s.merge kind a c writes) := by
  unfold Tables.merge
  dsimp only
  split
  · obtain ⟨id, hid⟩ := s.lookup_upsertCanonical ⟨kind, c⟩
    refine (h.upsertCanonical ⟨kind, c⟩).upsertActiveAlias hid hkind ha hc ?_
    rw [Tables.aliasOf_upsertCanonical]
    exact hchain.aliasOf
  · exact h.upsertCanonical _

/-! ## Resolving -/

variable {k : String} {slot : Slot}

theorem Tidy.resolve_eq (h : Tidy s) (hk : Clean k) :
    s.resolve kind k = Alias.root (s.aliasOf (trimSpaceText kind)) k := by
  unfold Tables.resolve Tables.resolveCanonicalKey
  dsimp only
  rw [hk.1]
  cases halias : s.aliasOf (trimSpaceText kind) k with
  | none =>
    rw [Alias.root_of_name (Or.inl halias), getD_none, ite_self]
    exact if_neg fun hne => hne rfl
  | some c =>
    obtain ⟨hkind, -, hc⟩ := h.clean _ k c halias
    have hasked : ¬ (trimSpaceText kind = "" ∨ k = "") := fun hor => hor.elim hkind.2 hk.2
    rw [Alias.root_of_some halias, if_neg hasked, getD_some, if_pos hc.2]

theorem Tidy.clean_root (h : Tidy s) (hk : Clean k) :
    Clean (Alias.root (s.aliasOf kind) k) := by
  cases halias : s.aliasOf kind k with
  | none =>
    rw [Alias.root_of_name (Or.inl halias)]
    exact hk
  | some c =>
    rw [Alias.root_of_some halias]
    exact (h.clean kind k c halias).2.2

theorem Tidy.aliasOf_of_resolve_ne (h : Tidy s) (hk : Clean k) (hne : k ≠ s.resolve kind k) :
    s.aliasOf (trimSpaceText kind) k = some (s.resolve kind k) := by
  rw [h.resolve_eq hk] at hne ⊢
  cases halias : s.aliasOf (trimSpaceText kind) k with
  | none => exact absurd (Alias.root_of_name (Or.inl halias)).symm hne
  | some c => rw [Alias.root_of_some halias]

/-! ## Synchronising -/

theorem normalizeEntityKey_of_usesAliasTable (h : slot.usesAliasTable = true) :
    normalizeEntityKey casing slot.value slot.normalize = trimSpaceText slot.value := by
  have hlength : (trimSpaceText slot.normalize).toList.length = 11 := by
    have hfold := congrArg List.length (of_decide_eq_true h)
    rwa [List.length_map] at hfold
  have hrule : ∀ word : List Char, word.length = 5 →
      (trimSpaceText slot.normalize).toList.map Memory.lowerAscii ≠ word := by
    rintro word hword rfl
    rw [List.length_map] at hword
    omega
  unfold normalizeEntityKey
  dsimp only
  split
  · next hempty => exact hempty.symm
  · rw [if_neg (hrule _ rfl), if_neg (hrule _ rfl)]

theorem Tidy.aliasOf_of_canonicalKey_ne (h : Tidy s) {rawKey : String}
    (hraw : normalizeEntityKey casing slot.value slot.normalize = rawKey) (hkey : rawKey ≠ "")
    (hne : rawKey ≠ slot.canonicalKey s kind rawKey) :
    s.aliasOf (trimSpaceText kind) rawKey = some (slot.canonicalKey s kind rawKey) := by
  unfold Slot.canonicalKey at hne ⊢
  split at hne
  swap
  · exact absurd rfl hne
  next hasked =>
  rw [if_pos hasked]
  rw [normalizeEntityKey_of_usesAliasTable hasked.1] at hraw
  refine h.aliasOf_of_resolve_ne ?_ hne
  rw [← hraw] at hkey ⊢
  exact clean_trimSpaceText hkey

/-- **A synchronised slot changes no alias.** -/
theorem Tidy.aliasOf_syncSlot (h : Tidy s) (slot : Slot) (kind : String) :
    (syncSlot casing s slot).aliasOf kind = s.aliasOf kind := by
  unfold syncSlot
  generalize hraw : normalizeEntityKey casing slot.value slot.normalize = rawKey
  dsimp only
  split
  · rfl
  next hkeys =>
  obtain ⟨hkey, -⟩ := not_or.mp hkeys
  split
  swap
  · exact Tables.aliasOf_upsertCanonical _ _
  next hwrites =>
  have halias := h.aliasOf_of_canonicalKey_ne hraw hkey hwrites.1
  rw [trimSpaceText_trimSpaceText] at halias
  obtain ⟨id, hid⟩ := s.lookup_upsertCanonical ⟨trimSpaceText slot.vertexLabel,
    slot.canonicalKey s (trimSpaceText slot.vertexLabel) rawKey⟩
  by_cases heq : kind = trimSpaceText slot.vertexLabel
  · rw [heq, Tables.aliasOf_upsertActiveAlias_self (a := ⟨trimSpaceText slot.vertexLabel, _⟩) hid,
      Tables.aliasOf_upsertCanonical, ← halias, Function.update_eq_self]
  · rw [Tables.aliasOf_upsertActiveAlias_of_ne heq, Tables.aliasOf_upsertCanonical]

theorem Tidy.foldl_syncSlot (slots : List Slot) (h : Tidy s) :
    Tidy (slots.foldl (syncSlot casing) s) := by
  induction slots generalizing s with
  | nil => exact h
  | cons slot slots ih =>
    rw [List.foldl_cons]
    exact ih (h.of_aliasOf_eq (h.aliasOf_syncSlot slot))

theorem normalizeEntityKey_trim (value : String) :
    normalizeEntityKey casing value "trim" = trimSpaceText value := by
  unfold normalizeEntityKey
  dsimp only
  split
  · next hempty => exact hempty.symm
  · rw [if_neg (by decide +kernel), if_neg (by decide +kernel)]

/-- **Every step that makes no chain keeps the registry tidy.** -/
theorem Tidy.step (h : Tidy s) {a : Action} (hok : MergesApart s a)
    (hstep : s.step casing a = some s') : Tidy s' := by
  cases a with
  | addManualAlias kind canonicalKey aliasKey writes =>
    obtain ⟨hkind, hchain⟩ := hok
    unfold Tables.step at hstep
    dsimp only at hstep
    rw [normalizeEntityKey_trim, normalizeEntityKey_trim] at hstep
    split at hstep
    · cases hstep
      exact h
    next hkeys =>
    obtain ⟨halias, hcanonical⟩ := not_or.mp hkeys
    split at hstep <;> cases hstep
    · exact h.upsertCanonical _
    exact h.merge hkind (clean_trimSpaceText halias) (clean_trimSpaceText hcanonical) hchain
      writes
  | applyAliasMerge kind aliasKey canonicalKey writes =>
    obtain ⟨hkind, halias, hcanonical, hchain⟩ := hok
    cases hstep
    exact h.merge hkind halias hcanonical hchain writes
  | syncFromExtraction slots =>
    cases hstep
    exact h.foldl_syncSlot slots

/-! ## Classes of keys -/

theorem Tidy.expandEntityKeys_eq (h : Tidy s) {k₁ k₂ : String} {l₁ : List String}
    (hl₁ : s.expandEntityKeys kind k₁ = .ok l₁) (hk₂ : k₂ ∈ l₁) :
    ∃ l₂, s.expandEntityKeys kind k₂ = .ok l₂ ∧ ∀ k, k ∈ l₂ ↔ k ∈ l₁ := by
  have hk₁ : Clean (trimSpaceText k₁) := by
    refine clean_trimSpaceText fun hempty => ?_
    rw [Tables.expandEntityKeys, if_pos hempty] at hl₁
    cases hl₁
  have hmem₁ := Tables.mem_expandEntityKeys hl₁
  rw [h.resolve_eq hk₁] at hmem₁
  -- the second key is clean and has the same root
  obtain ⟨hclean, hroot⟩ : Clean k₂ ∧ Alias.root (s.aliasOf (trimSpaceText kind)) k₂ =
      Alias.root (s.aliasOf (trimSpaceText kind)) (trimSpaceText k₁) := by
    rcases (hmem₁ k₂).mp hk₂ with rfl | halias
    · exact ⟨h.clean_root hk₁, (h.flat _).root_root _⟩
    obtain ⟨hkind, hk₂, -⟩ := h.clean kind k₂ _ halias
    rw [hkind.1] at halias ⊢
    exact ⟨hk₂, Alias.root_of_some halias⟩
  obtain ⟨l₂, hl₂⟩ : ∃ l₂, s.expandEntityKeys kind k₂ = .ok l₂ := by
    rw [Tables.expandEntityKeys, if_neg (by rw [hclean.1]; exact hclean.2)]
    exact ⟨_, rfl⟩
  refine ⟨l₂, hl₂, fun k => ?_⟩
  rw [Tables.mem_expandEntityKeys hl₂, hmem₁, hclean.1, h.resolve_eq hclean, hroot]

theorem Tidy.resolve_resolve (h : Tidy s) (k : String) :
    s.resolve kind (s.resolve kind k) = s.resolve kind k := by
  by_cases hknown : s.resolveCanonicalKey kind k = ""
  · have hself : s.resolve kind k = k := by
      rw [Tables.resolve, hknown]
      exact if_neg fun hne => hne rfl
    rw [hself, hself]
  have hresolved : s.resolve kind k = s.resolveCanonicalKey kind k := by
    rw [Tables.resolve]
    exact if_pos hknown
  -- a known key is an alias of what it is resolved to
  obtain ⟨c, halias⟩ : ∃ c, s.aliasOf (trimSpaceText kind) (trimSpaceText k) = some c := by
    cases halias : s.aliasOf (trimSpaceText kind) (trimSpaceText k) with
    | none =>
      rw [Tables.resolveCanonicalKey, halias, getD_none, ite_self] at hknown
      exact absurd rfl hknown
    | some c => exact ⟨c, rfl⟩
  have hc : s.resolveCanonicalKey kind k = c := by
    rw [Tables.resolveCanonicalKey] at hknown ⊢
    split at hknown
    · exact absurd rfl hknown
    · next hasked => rw [if_neg hasked, halias, getD_some]
  obtain ⟨-, -, hclean⟩ := h.clean _ _ c halias
  rw [hresolved, hc, h.resolve_eq hclean]
  exact Alias.root_of_name ((h.flat _) _ c halias)

/-- **Aliases form an equivalence** if merges are clean and make no chain. -/
theorem aliases_equivalence (hrun : Steps (Tables.step casing) MergesApart Tables.start s) :
    (∀ kind k₁ k₂ l₁, s.expandEntityKeys kind k₁ = .ok l₁ → k₂ ∈ l₁ →
        ∃ l₂, s.expandEntityKeys kind k₂ = .ok l₂ ∧ ∀ k, k ∈ l₂ ↔ k ∈ l₁) ∧
      ∀ kind k, s.resolve kind (s.resolve kind k) = s.resolve kind k := by
  have htidy : Tidy s := hrun.invariant (fun _ _ _ h hok hstep => h.step hok hstep) tidy_start
  exact ⟨fun kind k₁ k₂ l₁ hl₁ hk₂ => htidy.expandEntityKeys_eq hl₁ hk₂,
    fun kind k => htidy.resolve_resolve k⟩

end

/-! ## A star and a chain -/

def plainCasing : Casing := ⟨id, id⟩

/-- Two aliases of `b`, one of which is then found in a memory. -/
def starRun : List Action :=
  [.addManualAlias "host" "b" "a" true, .applyAliasMerge "host" "c" "b" true,
    .syncFromExtraction [{ value := " a ", vertexLabel := "host", normalize := "alias_table" }]]

def tidyAfter (acts : List Action) : Tables :=
  (runAll (guarded (Tables.step plainCasing) MergesApart) Tables.start acts).getD Tables.start

theorem aliases_equivalence_star :
    ((tidyAfter starRun).expandEntityKeys "host" "c").toOption = some ["b", "a", "c"] ∧
      (∀ kind k₁ k₂ l₁, (tidyAfter starRun).expandEntityKeys kind k₁ = .ok l₁ → k₂ ∈ l₁ →
        ∃ l₂, (tidyAfter starRun).expandEntityKeys kind k₂ = .ok l₂ ∧ ∀ k, k ∈ l₂ ↔ k ∈ l₁) ∧
      ∀ kind k, (tidyAfter starRun).resolve kind ((tidyAfter starRun).resolve kind k) =
        (tidyAfter starRun).resolve kind k := by
  have hrun : Steps (Tables.step plainCasing) MergesApart Tables.start (tidyAfter starRun) :=
    steps_getD Tables.start (by decide +kernel)
  exact ⟨by decide +kernel, aliases_equivalence hrun⟩

/-- `a` is an alias of `b`, which becomes one of `c`. -/
def chainRun : List Action :=
  [.addManualAlias "host" "b" "a" true, .addManualAlias "host" "c" "b" true]

def tablesAfter (acts : List Action) : Tables :=
  (runAll (Tables.step plainCasing) Tables.start acts).getD Tables.start

/-- **In a chain they differ**, and resolving goes on. -/
theorem aliases_chain :
    Reaches (Tables.step plainCasing) Tables.start (tablesAfter chainRun) ∧
      ((tablesAfter chainRun).expandEntityKeys "host" "a").toOption = some ["b", "a"] ∧
      ((tablesAfter chainRun).expandEntityKeys "host" "b").toOption = some ["c", "b"] ∧
      (tablesAfter chainRun).resolve "host" "a" = "b" ∧
      (tablesAfter chainRun).resolve "host" "b" = "c" :=
  ⟨reaches_getD _ (by decide +kernel), by decide +kernel, by decide +kernel, by decide +kernel,
    by decide +kernel⟩

end Pcmi.Registry
