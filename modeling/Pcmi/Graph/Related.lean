import Mathlib.Data.Finset.Card
import Pcmi.Graph.Chain
import Pcmi.Lib.Best

/-!
# Related memories (`FindRelated`, `FindEntitiesForMemory`, `FindRelatedViaEntity`)

A vertex is known by the number in its id. An id that holds none, such as a path, counts as 0: the
vertex is counted and never shown. Texts come as JSON strings, and are taken without the quotes,
with their escapes.
-/

namespace Pcmi.Graph

open List Pcmi.Go Pcmi.Lib

/-! ## Pages -/

structure GraphPage (α : Type) where
  memories : List α
  total : Nat
  nextCursor : Int
  deriving DecidableEq

/-- The end of `FindRelated`, and `paginateEntityMemories`. -/
def paginate {α : Type} (id : α → Int) (seen : List α) (cursor limit : Int) : GraphPage α :=
  let page := pageBehind id 0 (if cursor < 0 then 0 else cursor)
    (if limit ≤ 0 then 50 else limit).toNat seen
  ⟨page.1, seen.length, page.2⟩

/-! ## `FindRelated` -/

inductive TraversalDirection where
  | traversalOut | traversalIn | traversalBoth
  deriving DecidableEq

structure RelatedRow where
  path : Bytes
  id : Bytes
  linkType : Bytes
  depth : Bytes

structure RelatedMemory where
  id : Int
  linkType : Bytes
  depth : Int
  deriving DecidableEq

def RelatedRow.candidate (row : RelatedRow) : RelatedMemory where
  id := (parseMemoryVertexID row.id).1
  linkType := trimQuotes row.linkType
  depth := (parseInt (trimQuotes row.depth)).1

def RelatedMemory.closer (a b : RelatedMemory) : Bool :=
  a.depth < b.depth || a.depth == b.depth && a.linkType < b.linkType

/-- The rows that are not passed over. -/
def relatedRows (memoryId : Int) (linkTypes : List Bytes) (direction : TraversalDirection)
    (rows : List RelatedRow) : List RelatedRow :=
  rows.filter fun row => pathMatchesLinkTypes row.path linkTypes &&
    !(row.candidate.id == memoryId && decide (1 < row.candidate.depth) &&
      direction == .traversalBoth)

def findRelated (memoryId : Int) (linkTypes : List Bytes) (cursor limit : Int)
    (direction : TraversalDirection) (rows : List RelatedRow) : GraphPage RelatedMemory :=
  paginate (·.id) (best (·.id) RelatedMemory.closer
    ((relatedRows memoryId linkTypes direction rows).map (·.candidate))) cursor limit

/-- The record shows the vertex with its least depth and link type. -/
def Shows (rows : List RelatedRow) (vertex : Bytes) (m : RelatedMemory) : Prop :=
  ∃ row ∈ rows, row.id = vertex ∧ row.candidate = m ∧
    ∀ row' ∈ rows, row'.id = vertex → row'.candidate.closer m = false

/-- Every vertex is shown, `total` of them, and nothing else. -/
structure ShowsVertices (rows : List RelatedRow) (total : Nat) (memories : List RelatedMemory) :
    Prop where
  length : memories.length = total
  count : (rows.map (·.id)).dedup.length = total
  shown : ∀ row ∈ rows, ∃ m ∈ memories, Shows rows row.id m
  only : ∀ m ∈ memories, ∃ row ∈ rows, Shows rows row.id m

theorem bestOf_closer (l : List RelatedMemory) :
    BestOf (·.id) RelatedMemory.closer l (best (·.id) RelatedMemory.closer l) := by
  refine bestOf (fun a => ?_) (fun a b c hab hbc => ?_) l
  · simp [RelatedMemory.closer]
  · simp only [RelatedMemory.closer, Bool.or_eq_true, Bool.and_eq_true, decide_eq_true_eq,
      beq_iff_eq]
      at hab hbc ⊢
    rcases hab with hab | ⟨hab, hab'⟩ <;> rcases hbc with hbc | ⟨hbc, hbc'⟩
    · exact .inl (hab.trans hbc)
    · exact .inl (hbc ▸ hab)
    · exact .inl (hab ▸ hbc)
    · exact .inr ⟨hab.trans hbc, List.lt_trans hab' hbc'⟩

def vertexKey (vertex : Bytes) : Int := (parseMemoryVertexID vertex).1

section

variable {rows : List RelatedRow} {seen : List RelatedMemory}
  (hbest : BestOf (·.id) RelatedMemory.closer (rows.map (·.candidate)) seen)

include hbest

theorem mem_keys_iff {k : Int} : k ∈ seen.map (·.id) ↔ k ∈ rows.map fun row =>
    vertexKey row.id := by
  constructor
  · intro hk
    obtain ⟨m, hm, rfl⟩ := mem_map.mp hk
    obtain ⟨row, hrow, rfl⟩ := mem_map.mp (hbest.mem m hm)
    exact mem_map.mpr ⟨row, hrow, rfl⟩
  · intro hk
    obtain ⟨row, hrow, rfl⟩ := mem_map.mp hk
    obtain ⟨m, hm, hkey, -⟩ := hbest.best _ (mem_map_of_mem hrow)
    exact mem_map.mpr ⟨m, hm, hkey⟩

/-- There are as many keys as vertices exactly if no two share one. -/
theorem count_vertices_iff : (rows.map (·.id)).dedup.length = seen.length ↔
    ∀ row ∈ rows, ∀ row' ∈ rows, vertexKey row.id = vertexKey row'.id → row.id = row'.id := by
  have himage : (rows.map (·.id)).toFinset.image vertexKey = (seen.map (·.id)).toFinset := by
    ext k
    rw [mem_toFinset, mem_keys_iff hbest]
    simp
  have hcard : seen.length = (seen.map (·.id)).toFinset.card := by
    rw [toFinset_card_of_nodup hbest.nodup, length_map]
  rw [hcard, ← himage, ← card_toFinset, eq_comm, Finset.card_image_iff]
  simp [Set.InjOn]

theorem shows_of_mem (hinj : ∀ row ∈ rows, ∀ row' ∈ rows,
      vertexKey row.id = vertexKey row'.id → row.id = row'.id) {m : RelatedMemory} (hm : m ∈ seen)
    {row : RelatedRow} (hrow : row ∈ rows) (hkey : vertexKey row.id = m.id) :
    Shows rows row.id m := by
  obtain ⟨row₀, hrow₀, rfl⟩ := mem_map.mp (hbest.mem m hm)
  refine ⟨row₀, hrow₀, hinj row₀ hrow₀ row hrow hkey.symm, rfl, fun row' hrow' hid => ?_⟩
  exact hbest.least (mem_map_of_mem hrow') hm (by rw [← hkey, ← hid]; rfl)

end

/-- A client that goes on until the cursor is 0. -/
def relatedWalk (memoryId : Int) (linkTypes : List Bytes) (limit : Int)
    (direction : TraversalDirection) (rows : List RelatedRow) (memories : List RelatedMemory) :
    Prop :=
  Follows (fun cursor => ReadsPage 0 (((findRelated memoryId linkTypes cursor limit direction
    rows).memories, (findRelated memoryId linkTypes cursor limit direction rows).nextCursor))) 0
    memories

/-- **A walk shows every related vertex once, with its least depth and link type,** exactly if each
id holds a positive number of its own. -/
theorem relatedWalk_complete_iff (memoryId : Int) (linkTypes : List Bytes) (limit : Int)
    (direction : TraversalDirection) (rows : List RelatedRow) :
    (∃ memories, relatedWalk memoryId linkTypes limit direction rows memories ∧
      ShowsVertices (relatedRows memoryId linkTypes direction rows)
        (findRelated memoryId linkTypes 0 limit direction rows).total memories) ↔
    (∀ row ∈ relatedRows memoryId linkTypes direction rows, 0 < vertexKey row.id) ∧
      ∀ row ∈ relatedRows memoryId linkTypes direction rows,
        ∀ row' ∈ relatedRows memoryId linkTypes direction rows,
          vertexKey row.id = vertexKey row'.id → row.id = row'.id := by
  have hbest := bestOf_closer ((relatedRows memoryId linkTypes direction rows).map (·.candidate))
  have hwalk : ∀ memories, relatedWalk memoryId linkTypes limit direction rows memories ↔
      memories = above (·.id) 0 (sortedBy (·.id) (best (·.id) RelatedMemory.closer
        ((relatedRows memoryId linkTypes direction rows).map (·.candidate)))) := by
    intro memories
    refine follows_pageBehind_iff hbest.nodup (n := (if limit ≤ 0 then 50 else limit).toNat) ?_ ?_
    · split <;> omega
    · intro c hc
      simp only [findRelated, paginate, if_neg (not_lt.mpr hc)]
  change (∃ memories, _ ∧ ShowsVertices _ (best _ _ _).length memories) ↔ _
  simp only [hwalk, exists_eq_left]
  generalize relatedRows memoryId linkTypes direction rows = kept at *
  generalize best (·.id) RelatedMemory.closer (kept.map (·.candidate)) = seen at *
  have hperm : (sortedBy (·.id) seen).Perm seen := perm_insertionSort _ seen
  constructor
  · rintro ⟨hlength, hcount, hshown, -⟩
    refine ⟨fun row hrow => ?_, (count_vertices_iff hbest).mp hcount⟩
    obtain ⟨m, hm, row', hrow', hid, rfl, -⟩ := hshown row hrow
    rw [← hid]
    exact (mem_above.mp hm).2
  · rintro ⟨hpos, hinj⟩
    have hall : above (·.id) 0 (sortedBy (·.id) seen) = sortedBy (·.id) seen := by
      refine filter_eq_self.mpr fun m hm => decide_eq_true ?_
      obtain ⟨row, hrow, rfl⟩ := mem_map.mp (hbest.mem m (hperm.mem_iff.mp hm))
      exact hpos row hrow
    rw [hall]
    refine ⟨hperm.length_eq, (count_vertices_iff hbest).mpr hinj, fun row hrow => ?_, fun m hm =>
      ?_⟩
    · obtain ⟨m, hm, hkey, -⟩ := hbest.best _ (mem_map_of_mem hrow)
      exact ⟨m, hperm.mem_iff.mpr hm, shows_of_mem hbest hinj hm hrow hkey.symm⟩
    · have hm := hperm.mem_iff.mp hm
      obtain ⟨row, hrow, rfl⟩ := mem_map.mp (hbest.mem m hm)
      exact ⟨row, hrow, shows_of_mem hbest hinj hm hrow rfl⟩

/-- **A vertex whose id is a path is counted and not shown.** -/
theorem path_vertex_not_shown :
    findRelated 1 [] 0 0 .traversalBoth [⟨[], ascii "\"root.a\"", ascii "\"causes\"", ascii "1"⟩] =
      ⟨[], 1, 0⟩ := by
  decide +kernel

/-! ## Entities -/

/-- A row of the entity queries; `FindEntitiesForMemory` has no id. -/
structure EntityRow where
  id : Bytes := []
  kind : Bytes
  key : Bytes
  slot : Bytes
  confidence : Bytes

section

variable {F : Type} (parseFloat : Bytes → F) (gt : F → F → Bool)

structure EntityMemory (F : Type) where
  id : Int
  sharedKind : Bytes
  sharedKey : Bytes
  slot : Bytes
  confidence : F

/-- What is made of a row whose texts are taken by `text`. -/
def EntityRow.memory (text : Bytes → Bytes) (row : EntityRow) : EntityMemory F where
  id := vertexKey row.id
  sharedKind := text row.kind
  sharedKey := text row.key
  slot := text row.slot
  confidence := parseFloat (trimQuotes row.confidence)

/-- An `EntityMention` has no id. -/
def entitiesForMemory (text : Bytes → Bytes) (rows : List EntityRow) : List (EntityMemory F) :=
  rows.map fun row => { row.memory parseFloat text with id := 0 }

def findEntitiesForMemory (rows : List EntityRow) : List (EntityMemory F) :=
  entitiesForMemory parseFloat trimQuotes rows

def relatedViaEntity (text : Bytes → Bytes) (memoryId cursor limit : Int) (rows : List EntityRow) :
    GraphPage (EntityMemory F) :=
  paginate (·.id) (best (·.id) (fun a b => gt a.confidence b.confidence)
    ((rows.filter fun row => (parseMemoryVertexID row.id).2 && decide (0 < vertexKey row.id) &&
      vertexKey row.id != memoryId).map (·.memory parseFloat text))) cursor limit

def findRelatedViaEntity (memoryId cursor limit : Int) (rows : List EntityRow) :
    GraphPage (EntityMemory F) :=
  relatedViaEntity parseFloat gt trimQuotes memoryId cursor limit rows

end

def Unescaped (c : UInt8) : Prop := c ≠ 0x22 ∧ c ≠ 0x5C ∧ 0x20 ≤ c

instance : DecidablePred Unescaped := fun _ => inferInstanceAs (Decidable (_ ∧ _))

/-- A text as AGE returns it; control characters are not fixed. -/
def ageString (control : UInt8 → Bytes) (s : Bytes) : Bytes :=
  0x22 :: (s.flatMap (fun c => if Unescaped c then [c]
    else if c = 0x22 ∨ c = 0x5C then [0x5C, c] else 0x5C :: control c) ++ [0x22])

def EntityRow.returned (control : UInt8 → Bytes) (row : EntityRow) : EntityRow :=
  { row with kind := ageString control row.kind, key := ageString control row.key
             slot := ageString control row.slot }

/-- **A text comes back as it was stored if nothing in it is escaped.** -/
theorem trimQuotes_ageString (control : UInt8 → Bytes) {s : Bytes} (h : ∀ c ∈ s, Unescaped c) :
    trimQuotes (ageString control s) = s := by
  have hself : s.flatMap (fun c => if Unescaped c then [c]
      else if c = 0x22 ∨ c = 0x5C then [0x5C, c] else 0x5C :: control c) = s :=
    flatMap_eq_self fun c hc => if_pos (h c hc)
  have hquote : ∀ c ∈ s, (c == 0x22) = false := fun c hc => beq_eq_false_iff_ne.mpr (h c hc).1
  rw [ageString, hself]
  by_cases hne : s = []
  · rw [hne]
    rfl
  · exact trimBoth_between [0x22] (by simp) (by simp) hne (fun c hc => hquote c (mem_of_head? hc))
      fun c hc => hquote c (mem_of_getLast? hc)

/-! ## Rows that come back as they were stored -/

section

variable {F : Type} (parseFloat : Bytes → F) (gt : F → F → Bool)

def EntityMemory.returned (control : UInt8 → Bytes) (m : EntityMemory F) : EntityMemory F :=
  { m with sharedKind := trimQuotes (ageString control m.sharedKind)
           sharedKey := trimQuotes (ageString control m.sharedKey)
           slot := trimQuotes (ageString control m.slot) }

def EntityMemory.Plain (m : EntityMemory F) : Prop :=
  ∀ t ∈ [m.sharedKind, m.sharedKey, m.slot], ∀ c ∈ t, Unescaped c

theorem map_returned_eq_self (control : UInt8 → Bytes) {l : List (EntityMemory F)}
    (h : ∀ m ∈ l, m.Plain) : l.map (·.returned control) = l := by
  refine (map_congr_left fun m hm => ?_).trans (map_id l)
  obtain ⟨id, kind, key, slot, confidence⟩ := m
  obtain ⟨hkind, hkey, hslot, -⟩ := by simpa only [EntityMemory.Plain, forall_mem_cons] using h _ hm
  simp only [EntityMemory.returned, trimQuotes_ageString control hkind,
    trimQuotes_ageString control hkey, trimQuotes_ageString control hslot]
  rfl

/-- Which memories are shown does not depend on the texts. -/
theorem findRelatedViaEntity_returned (control : UInt8 → Bytes) (memoryId cursor limit : Int)
    (rows : List EntityRow) :
    findRelatedViaEntity parseFloat gt memoryId cursor limit (rows.map (·.returned control)) =
      { relatedViaEntity parseFloat gt id memoryId cursor limit rows with
        memories := (relatedViaEntity parseFloat gt id memoryId cursor limit rows).memories.map
          (·.returned control) } := by
  have hbest : ∀ l : List (EntityMemory F), best (·.id) (fun a b => gt a.confidence b.confidence)
      (l.map (·.returned control)) =
        (best (·.id) (fun a b => gt a.confidence b.confidence) l).map (·.returned control) :=
    best_map (fun _ => rfl) fun _ _ => rfl
  have hmemory : EntityRow.memory parseFloat trimQuotes ∘ EntityRow.returned control =
      EntityMemory.returned control ∘ EntityRow.memory parseFloat id := rfl
  unfold findRelatedViaEntity relatedViaEntity
  rw [filter_map, map_map, hmemory, ← map_map, hbest, paginate,
    pageBehind_map (f := EntityMemory.returned control) fun _ => rfl, length_map]
  rfl

end

def keyedRow (key : String) : EntityRow :=
  { kind := ascii "k", key := ascii key, slot := ascii "s", confidence := ascii "1" }

end Pcmi.Graph
