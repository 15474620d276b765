import Mathlib.Data.List.AList
import Pcmi.Go.Space

/-!
# The entity registry of a tenant

`entity_registry` has one row for a kind and a canonical key, `entity_aliases` one active row for a
kind and an alias key; the unique indexes make maps of them. Columns that the lookups do not read
and the graph are left out.

A failed statement for an alias is an outcome of its operation; one for an entity ends it, which
then is a shorter one.
-/

namespace Pcmi.Registry

open List Pcmi.Go Option

/-! ## The tables -/

/-- A kind together with a canonical key or an alias key. -/
structure EntityKey where
  kind : String
  key : String
  deriving DecidableEq

abbrev Ids := AList fun _ : EntityKey => Nat

structure Tables where
  /-- `entity_registry`, by kind and canonical key. -/
  entities : Ids
  /-- The active rows of `entity_aliases`, with the id of their entity. -/
  aliases : Ids
  nextId : Nat
  fresh : ∀ key id, entities.lookup key = some id → id < nextId
  distinct : ∀ key key' id, entities.lookup key = some id → entities.lookup key' = some id →
    key = key'
  /-- An alias belongs to an entity of its kind. -/
  owned : ∀ a id, aliases.lookup a = some id →
    ∃ canonicalKey, entities.lookup ⟨a.kind, canonicalKey⟩ = some id

namespace Tables

def start : Tables where
  entities := ∅
  aliases := ∅
  nextId := 1
  fresh _ _ h := nomatch h
  distinct _ _ _ h := nomatch h
  owned _ _ h := nomatch h

def insertEntity (s : Tables) (key : EntityKey) (hnew : s.entities.lookup key = none) : Tables where
  entities := s.entities.insert key s.nextId
  aliases := s.aliases
  nextId := s.nextId + 1
  fresh key' id h := by
    by_cases hkey : key' = key
    · rw [hkey, AList.lookup_insert] at h
      rw [← Option.some.inj h]
      exact Nat.lt_succ_self _
    · rw [AList.lookup_insert_ne hkey] at h
      exact Nat.lt_succ_of_lt (s.fresh key' id h)
  distinct key₁ key₂ id h₁ h₂ := by
    have hold : ∀ key' ≠ key, (s.entities.insert key s.nextId).lookup key' = some id →
        s.entities.lookup key' = some id := fun key' hne h => by
      rwa [AList.lookup_insert_ne hne] at h
    have hself : ∀ key', key' = key → (s.entities.insert key s.nextId).lookup key' = some id →
        id = s.nextId := fun key' heq h => by
      rw [heq, AList.lookup_insert] at h
      exact (Option.some.inj h).symm
    by_cases hkey₁ : key₁ = key <;> by_cases hkey₂ : key₂ = key
    · exact hkey₁.trans hkey₂.symm
    · exact absurd (s.fresh key₂ id (hold key₂ hkey₂ h₂)) (by rw [hself key₁ hkey₁ h₁]; omega)
    · exact absurd (s.fresh key₁ id (hold key₁ hkey₁ h₁)) (by rw [hself key₂ hkey₂ h₂]; omega)
    · exact s.distinct key₁ key₂ id (hold key₁ hkey₁ h₁) (hold key₂ hkey₂ h₂)
  owned a id h := by
    obtain ⟨canonicalKey, hcanonical⟩ := s.owned a id h
    refine ⟨canonicalKey, ?_⟩
    rw [AList.lookup_insert_ne]
    · exact hcanonical
    · intro heq
      rw [heq, hnew] at hcanonical
      cases hcanonical

def upsertCanonical (s : Tables) (key : EntityKey) : Tables :=
  match h : s.entities.lookup key with
  | some _ => s
  | none => s.insertEntity key h

theorem lookup_upsertCanonical (s : Tables) (key : EntityKey) :
    ∃ id, (s.upsertCanonical key).entities.lookup key = some id := by
  unfold upsertCanonical
  split
  · next id h => exact ⟨id, h⟩
  · next h => exact ⟨s.nextId, AList.lookup_insert ..⟩

/-- `UpsertActiveAlias`, for the entity with the canonical key. -/
def upsertActiveAlias (s : Tables) (a : EntityKey) (canonicalKey : String) : Tables :=
  match h : s.entities.lookup ⟨a.kind, canonicalKey⟩ with
  | none => s
  | some id =>
    { s with
      aliases := s.aliases.insert a id
      owned := by
        intro a' id' h'
        by_cases heq : a' = a
        · rw [heq, AList.lookup_insert] at h'
          rw [heq, ← Option.some.inj h']
          exact ⟨canonicalKey, h⟩
        · rw [AList.lookup_insert_ne heq] at h'
          exact s.owned a' id' h' }

/-! ## Reads -/

/-- `JOIN entity_registry er ON er.id = ea.entity_id`. -/
def canonicalOf (s : Tables) (id : Nat) : Option EntityKey :=
  (s.entities.entries.find? fun e => e.2 = id).map (·.1)

/-- The canonical key that an alias stands for. -/
def aliasOf (s : Tables) (kind key : String) : Option String :=
  (s.aliases.lookup ⟨kind, key⟩).bind fun id => (s.canonicalOf id).map (·.key)

def resolveCanonicalKey (s : Tables) (kind aliasKey : String) : String :=
  let kind := trimSpaceText kind
  let aliasKey := trimSpaceText aliasKey
  if kind = "" ∨ aliasKey = "" then "" else (s.aliasOf kind aliasKey).getD ""

/-- The canonical key, or the key itself when that is unknown. -/
def resolve (s : Tables) (kind key : String) : String :=
  let canonical := s.resolveCanonicalKey kind key
  if canonical ≠ "" then canonical else key

def aliasKeys (s : Tables) (kind canonicalKey : String) : List String :=
  match s.entities.lookup ⟨kind, canonicalKey⟩ with
  | none => []
  | some id => (s.aliases.entries.filter fun e => e.1.kind = kind ∧ e.2 = id).map (·.1.key)

/-- `ExpandEntityKeys`, a set of keys. -/
def expandEntityKeys (s : Tables) (kind key : String) : Except String (List String) :=
  let key := trimSpaceText key
  if key = "" then .error "key is required"
  else
    let root := s.resolve kind key
    .ok (root :: (s.aliasKeys kind root).filter (· ≠ root))

/-! ## What an alias stands for -/

section

variable {s : Tables} {id : Nat} {c key kind : String} {a : EntityKey}

theorem canonicalOf_eq_some {key : EntityKey} :
    s.canonicalOf id = some key ↔ s.entities.lookup key = some id := by
  unfold canonicalOf
  constructor
  · intro h
    obtain ⟨e, he, rfl⟩ := map_eq_some_iff.mp h
    have hid : e.2 = id := by simpa using find?_some he
    rw [← hid]
    exact AList.mem_lookup_iff.mpr (mem_of_find?_eq_some he)
  · intro h
    have hmem : ⟨key, id⟩ ∈ s.entities.entries := AList.mem_lookup_iff.mp h
    cases hfind : s.entities.entries.find? fun e => e.2 = id with
    | none => exact absurd (decide_eq_true rfl) (find?_eq_none.mp hfind _ hmem)
    | some e =>
      have hid : e.2 = id := by simpa using find?_some hfind
      have hlookup : s.entities.lookup e.1 = some id := by
        rw [← hid]
        exact AList.mem_lookup_iff.mpr (mem_of_find?_eq_some hfind)
      exact congrArg some (s.distinct e.1 key id hlookup h)

theorem aliasOf_eq_some : s.aliasOf kind key = some c ↔
    ∃ id, s.aliases.lookup ⟨kind, key⟩ = some id ∧ s.entities.lookup ⟨kind, c⟩ = some id := by
  unfold aliasOf
  constructor
  · intro h
    obtain ⟨id, hid, h⟩ := bind_eq_some_iff.mp h
    obtain ⟨key', hkey', rfl⟩ := map_eq_some_iff.mp h
    have hlookup := canonicalOf_eq_some.mp hkey'
    -- the entity has the kind of its alias
    obtain ⟨c, hc⟩ := s.owned _ id hid
    obtain rfl := s.distinct _ _ id hc hlookup
    exact ⟨id, hid, hlookup⟩
  · rintro ⟨id, hid, hlookup⟩
    rw [hid, bind_some, canonicalOf_eq_some.mpr hlookup, map_some]

theorem aliasOf_upsertCanonical (key : EntityKey) (kind : String) :
    (s.upsertCanonical key).aliasOf kind = s.aliasOf kind := by
  unfold upsertCanonical
  split
  · rfl
  next hnew =>
  funext k
  refine Option.ext fun c => ?_
  rw [aliasOf_eq_some, aliasOf_eq_some]
  refine exists_congr fun id => and_congr_right fun hid => ?_
  by_cases hkey : (⟨kind, c⟩ : EntityKey) = key
  · -- the new entity has no aliases yet
    have hlt : id < s.nextId := by
      obtain ⟨c', hc'⟩ := s.owned _ id hid
      exact s.fresh _ id hc'
    rw [hkey]
    refine ⟨fun h => ?_, fun h => nomatch hnew.symm.trans h⟩
    have hid' : s.nextId = id := Option.some.inj ((AList.lookup_insert ..).symm.trans h)
    omega
  · rw [insertEntity, AList.lookup_insert_ne hkey]

theorem aliases_upsertActiveAlias (h : s.entities.lookup ⟨a.kind, c⟩ = some id) :
    (s.upsertActiveAlias a c).aliases = s.aliases.insert a id ∧
      (s.upsertActiveAlias a c).entities = s.entities := by
  unfold upsertActiveAlias
  split
  · next hnone => exact nomatch hnone.symm.trans h
  next id' hid' =>
  cases hid'.symm.trans h
  exact ⟨rfl, rfl⟩

theorem aliasOf_upsertActiveAlias_self (h : s.entities.lookup ⟨a.kind, c⟩ = some id) :
    (s.upsertActiveAlias a c).aliasOf a.kind =
      Function.update (s.aliasOf a.kind) a.key (some c) := by
  obtain ⟨haliases, hentities⟩ := aliases_upsertActiveAlias h
  funext k
  refine Option.ext fun c' => ?_
  rw [aliasOf_eq_some, haliases, hentities]
  by_cases hk : k = a.key
  · rw [hk, Function.update_self, AList.lookup_insert]
    constructor
    · rintro ⟨id', hid', hlookup⟩
      cases hid'
      obtain ⟨-, rfl⟩ := EntityKey.mk.inj (s.distinct _ _ id h hlookup)
      rfl
    · intro hc
      cases hc
      exact ⟨id, rfl, h⟩
  · rw [Function.update_of_ne hk, aliasOf_eq_some,
      AList.lookup_insert_ne fun heq => hk (congrArg EntityKey.key heq)]

theorem aliasOf_upsertActiveAlias_of_ne (hne : kind ≠ a.kind) :
    (s.upsertActiveAlias a c).aliasOf kind = s.aliasOf kind := by
  cases h : s.entities.lookup ⟨a.kind, c⟩ with
  | none =>
    unfold upsertActiveAlias
    split
    · rfl
    · next hsome => exact nomatch hsome.symm.trans h
  | some id =>
    obtain ⟨haliases, hentities⟩ := aliases_upsertActiveAlias h
    funext k
    refine Option.ext fun c' => ?_
    rw [aliasOf_eq_some, aliasOf_eq_some, haliases, hentities,
      AList.lookup_insert_ne fun heq => hne (congrArg EntityKey.kind heq)]

theorem mem_aliasKeys {k : String} :
    k ∈ s.aliasKeys kind c ↔ s.aliasOf kind k = some c := by
  rw [aliasOf_eq_some, aliasKeys]
  split
  · next hnone =>
    refine ⟨fun h => absurd h not_mem_nil, ?_⟩
    rintro ⟨id, -, hid⟩
    exact nomatch hnone.symm.trans hid
  · next id hid =>
    constructor
    · intro h
      obtain ⟨⟨⟨kind', k'⟩, id'⟩, he, rfl⟩ := mem_map.mp h
      obtain ⟨hmem, hcond⟩ := mem_filter.mp he
      obtain ⟨rfl, rfl⟩ := of_decide_eq_true hcond
      exact ⟨_, AList.mem_lookup_iff.mpr hmem, hid⟩
    · rintro ⟨id', hid', hlookup⟩
      cases hid.symm.trans hlookup
      refine mem_map.mpr ⟨⟨⟨kind, k⟩, id⟩, mem_filter.mpr ⟨?_, ?_⟩, rfl⟩
      · exact AList.mem_lookup_iff.mp hid'
      · exact decide_eq_true ⟨rfl, rfl⟩

theorem mem_expandEntityKeys {l : List String} (h : s.expandEntityKeys kind key = .ok l)
    (k : String) :
    k ∈ l ↔ k = s.resolve kind (trimSpaceText key) ∨
      s.aliasOf kind k = some (s.resolve kind (trimSpaceText key)) := by
  unfold expandEntityKeys at h
  dsimp only at h
  split at h <;> cases h
  rw [mem_cons, mem_filter, mem_aliasKeys]
  by_cases hroot : k = s.resolve kind (trimSpaceText key) <;> simp [hroot]

end

end Tables

end Pcmi.Registry
