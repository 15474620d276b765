import Mathlib.Data.List.Induction
import Mathlib.Data.List.Nodup
import Mathlib.Data.List.Perm.Subperm
import Pcmi.Lib.Slots

/-!
# Items that move to a target one after the other

Items have different places. Those of a batch are taken in turn, and each moves to its target unless
another item is there at that moment. Which items move in some order does not depend on it.
-/

namespace Pcmi.Lib

open List

/-- Items known by a key, with a place and the one to move to. -/
structure Moves (ι κ π : Type) where
  key : ι → κ
  place : ι → π
  target : ι → π

namespace Moves

variable {ι κ π : Type} [DecidableEq κ] [DecidableEq π] (m : Moves ι κ π) (items : List ι)

/-- Where an item is once those with a key in `moved` have moved. -/
def placeAfter (moved : List κ) (i : ι) : π := if m.key i ∈ moved then m.target i else m.place i

def taken (moved : List κ) (i : ι) : Bool :=
  items.any fun j => m.key j ≠ m.key i ∧ m.placeAfter moved j = m.target i

def relocate (moved : List κ) (i : ι) : List κ :=
  if m.taken items moved i then moved else moved ++ [m.key i]

/-- The keys of the items that have moved at the end of a batch. -/
def relocateAll (batch : List ι) : List κ := batch.foldl (m.relocate items) []

theorem relocateAll_concat (batch : List ι) (i : ι) :
    m.relocateAll items (batch ++ [i]) = m.relocate items (m.relocateAll items batch) i := by
  unfold relocateAll
  rw [foldl_append, foldl_cons, foldl_nil]

variable {m items} {moved : List κ} {i : ι} {batch order : List ι}

theorem taken_eq_false : m.taken items moved i = false ↔
    ∀ j ∈ items, m.key j ≠ m.key i → m.placeAfter moved j ≠ m.target i := by
  simp [taken]

variable {k : κ} {j : ι}

theorem mem_relocate (h : k ∈ m.relocate items moved i) :
    k ∈ moved ∨ k = m.key i ∧ m.taken items moved i = false := by
  unfold relocate at h
  split at h
  · exact Or.inl h
  next hfree =>
  rcases mem_append.mp h with h | h
  · exact Or.inl h
  · exact Or.inr ⟨mem_singleton.mp h, Bool.eq_false_iff.mpr hfree⟩

theorem mem_relocate_of_mem (h : k ∈ moved) (i : ι) : k ∈ m.relocate items moved i := by
  unfold relocate
  split
  · exact h
  · exact mem_append_left _ h

theorem mem_relocateAll_append (h : k ∈ m.relocateAll items batch) (rest : List ι) :
    k ∈ m.relocateAll items (batch ++ rest) := by
  induction rest using List.reverseRecOn with
  | nil => rwa [append_nil]
  | append_singleton rest i ih =>
    rw [← append_assoc, relocateAll_concat]
    exact mem_relocate_of_mem ih i

/-- Only items of the batch move, and in their order. -/
theorem relocateAll_sublist (batch : List ι) :
    (m.relocateAll items batch).Sublist (batch.map m.key) := by
  induction batch using List.reverseRecOn with
  | nil => exact .refl _
  | append_singleton batch i ih =>
    rw [relocateAll_concat, map_append, relocate]
    split
    · exact ih.trans (sublist_append_left _ _)
    · exact ih.append (.refl _)

/-! ## No two items at one place -/

/-- Items with one key are the same, and no two are at one place. -/
structure Apart (m : Moves ι κ π) (items : List ι) (moved : List κ) : Prop where
  key : ∀ i ∈ items, ∀ j ∈ items, m.key i = m.key j → i = j
  place : ∀ i ∈ items, ∀ j ∈ items, m.placeAfter moved i = m.placeAfter moved j → i = j

omit [DecidableEq π] in
theorem placeAfter_concat_self (moved : List κ) (i : ι) :
    m.placeAfter (moved ++ [m.key i]) i = m.target i :=
  if_pos (mem_append_right _ mem_cons_self)

omit [DecidableEq π] in
theorem placeAfter_concat_of_ne (h : m.key j ≠ m.key i) (moved : List κ) :
    m.placeAfter (moved ++ [m.key i]) j = m.placeAfter moved j := by
  unfold placeAfter
  simp [h]

theorem Apart.relocate {moved : List κ} (h : m.Apart items moved) {i : ι} (hi : i ∈ items) :
    m.Apart items (m.relocate items moved i) := by
  unfold Moves.relocate
  split
  · exact h
  next hfree =>
  have hfree := taken_eq_false.mp (Bool.eq_false_iff.mpr hfree)
  -- an item other than `i` is not where `i` has gone
  have hother : ∀ j ∈ items, m.key j ≠ m.key i →
      m.placeAfter (moved ++ [m.key i]) j ≠ m.placeAfter (moved ++ [m.key i]) i := by
    intro j hj hne
    rw [placeAfter_concat_self, placeAfter_concat_of_ne hne]
    exact hfree j hj hne
  refine ⟨h.key, fun a ha b hb hab => ?_⟩
  by_cases hai : m.key a = m.key i
  · by_cases hbi : m.key b = m.key i
    · exact h.key a ha b hb (hai.trans hbi.symm)
    · rw [h.key a ha i hi hai] at hab
      exact absurd hab.symm (hother b hb hbi)
  · by_cases hbi : m.key b = m.key i
    · rw [h.key b hb i hi hbi] at hab
      exact absurd hab (hother a ha hai)
    · rw [placeAfter_concat_of_ne hai, placeAfter_concat_of_ne hbi] at hab
      exact h.place a ha b hb hab

/-- **No two items ever meet.** -/
theorem Apart.relocateAll (h : m.Apart items []) {batch : List ι} (hsub : ∀ i ∈ batch, i ∈ items) :
    m.Apart items (m.relocateAll items batch) := by
  induction batch using List.reverseRecOn with
  | nil => exact h
  | append_singleton batch i ih =>
    rw [relocateAll_concat]
    refine (ih fun j hj => hsub j (mem_append_left _ hj)).relocate (hsub i ?_)
    exact mem_append_right _ mem_cons_self

/-! ## The items that some order moves -/

/-- An item whose target is free, or held by one that can itself move. -/
inductive Movable (m : Moves ι κ π) (items batch : List ι) : ι → Prop where
  | intro (i : ι) (hi : i ∈ batch)
      (hleaves : ∀ j ∈ items, m.key j ≠ m.key i → m.place j = m.target i →
        j ∈ batch ∧ m.target j ≠ m.place j)
      (hmovable : ∀ j ∈ items, m.key j ≠ m.key i → m.place j = m.target i →
        Movable m items batch j) :
      Movable m items batch i

/-- What moves is movable, in whatever order. -/
theorem movable_of_mem (hkey : ∀ i ∈ items, ∀ j ∈ items, m.key i = m.key j → i = j)
    (hsub : ∀ i ∈ batch, i ∈ items) (horder : ∀ i ∈ order, i ∈ batch) (hi : i ∈ items)
    (h : m.key i ∈ m.relocateAll items order) : m.Movable items batch i := by
  induction order using List.reverseRecOn generalizing i with
  | nil => exact absurd h not_mem_nil
  | append_singleton order x ih =>
    have horder' : ∀ i ∈ order, i ∈ batch := fun j hj => horder j (mem_append_left _ hj)
    have hx : x ∈ batch := horder x (mem_append_right _ mem_cons_self)
    rw [relocateAll_concat] at h
    rcases mem_relocate h with h | ⟨heq, hfree⟩
    · exact ih horder' hi h
    obtain rfl : i = x := hkey i hi x (hsub x hx) heq
    have hfree := taken_eq_false.mp hfree
    -- who was at the target has left before
    have hleft : ∀ j ∈ items, m.key j ≠ m.key i → m.place j = m.target i →
        m.key j ∈ m.relocateAll items order ∧ m.target j ≠ m.place j := by
      intro j hj hne hplace
      have hfree := hfree j hj hne
      unfold placeAfter at hfree
      split at hfree
      · next hmem => exact ⟨hmem, fun hstay => hfree (hstay.trans hplace)⟩
      · exact absurd hplace hfree
    refine .intro i hx (fun j hj hne hplace => ?_) fun j hj hne hplace => ?_
    · obtain ⟨hmem, hstay⟩ := hleft j hj hne hplace
      obtain ⟨j', hj', hkeyj⟩ := mem_map.mp ((relocateAll_sublist order).subset hmem)
      obtain rfl := hkey j' (hsub j' (horder' j' hj')) j hj hkeyj
      exact ⟨horder' j' hj', hstay⟩
    · exact ih horder' hj (hleft j hj hne hplace).1

theorem relocateAll_of_taken {before behind : List ι}
    (h : m.taken items (m.relocateAll items before) i = true) :
    m.relocateAll items (before ++ i :: behind) = m.relocateAll items (before ++ behind) := by
  unfold relocateAll at h ⊢
  rw [foldl_append, foldl_cons, relocate, if_pos h, foldl_append]

/-- A place just left is free for an item still to have its turn. -/
theorem taken_of_left (hapart : m.Apart items []) (hsub : ∀ i ∈ order, i ∈ items) (hj : j ∈ items)
    (hjorder : m.key j ∉ order.map m.key) (hplace : m.place j = m.target i)
    (hstay : m.target j ≠ m.place j) (hfree : m.taken items (m.relocateAll items order) j = false) :
    m.taken items (m.relocateAll items (order ++ [j])) i = false := by
  have hnot : m.key j ∉ m.relocateAll items order :=
    fun h => hjorder ((relocateAll_sublist order).subset h)
  rw [relocateAll_concat, relocate, if_neg (Bool.eq_false_iff.mp hfree)]
  refine taken_eq_false.mpr fun k hk _ hat => ?_
  by_cases hkj : m.key k = m.key j
  · -- `j` itself has gone elsewhere
    rw [hapart.key k hk j hj hkj, placeAfter_concat_self] at hat
    exact hstay (hat.trans hplace.symm)
  · -- nobody else was there before
    rw [placeAfter_concat_of_ne hkj] at hat
    have hat' : m.placeAfter (m.relocateAll items order) k =
        m.placeAfter (m.relocateAll items order) j := by
      rw [hat, placeAfter, if_neg hnot, hplace]
    exact hkj (congrArg m.key ((hapart.relocateAll hsub).place k hk j hj hat'))

omit [DecidableEq κ] [DecidableEq π] in
theorem nodup_map_concat : ((order ++ [i]).map m.key).Nodup ↔
    (order.map m.key).Nodup ∧ m.key i ∉ order.map m.key := by
  rw [map_append, map_singleton, ← concat_eq_append, nodup_concat, and_comm]

/-- A movable item has its target free behind some of the batch. -/
theorem Movable.exists_order (hapart : m.Apart items []) (hsub : ∀ i ∈ batch, i ∈ items)
    (h : m.Movable items batch i) :
    ∃ order, (∀ j ∈ order, j ∈ batch) ∧ ((order ++ [i]).map m.key).Nodup ∧
      m.taken items (m.relocateAll items order) i = false := by
  induction h with
  | intro i hi hleaves hmovable ih =>
    by_cases hfree : m.taken items [] i = false
    · exact ⟨[], fun j hj => absurd hj not_mem_nil, nodup_singleton _, hfree⟩
    -- the one that holds the target
    obtain ⟨j, hj, hne, hplace⟩ : ∃ j ∈ items, m.key j ≠ m.key i ∧ m.place j = m.target i := by
      simpa [taken, placeAfter] using hfree
    obtain ⟨hjbatch, hstay⟩ := hleaves j hj hne hplace
    obtain ⟨order, horder, hnodup, hjfree⟩ := ih j hj hne hplace
    -- once `j` has gone, `i` can go, if it has not had its turn before
    have hgo : ∀ order' : List ι, (∀ j ∈ order', j ∈ batch) → ((order' ++ [j]).map m.key).Nodup →
        m.key i ∉ order'.map m.key → m.taken items (m.relocateAll items order') j = false →
        ∃ order, (∀ j ∈ order, j ∈ batch) ∧ ((order ++ [i]).map m.key).Nodup ∧
          m.taken items (m.relocateAll items order) i = false := by
      intro order' horder' hnodup' hi' hjfree'
      refine ⟨order' ++ [j], ?_, ?_, taken_of_left hapart (fun k hk => hsub k (horder' k hk)) hj
        ?_ hplace hstay hjfree'⟩
      · exact forall_mem_concat horder' hjbatch
      · refine nodup_map_concat.mpr ⟨hnodup', ?_⟩
        rw [map_append, map_singleton]
        exact fun hmem => (mem_append.mp hmem).elim hi' fun heq =>
          hne (mem_singleton.mp heq).symm
      · exact (nodup_map_concat.mp hnodup').2
    by_cases hiorder : m.key i ∈ order.map m.key
    · obtain ⟨i', hi', hkey⟩ := mem_map.mp hiorder
      obtain rfl := hapart.key i' (hsub i' (horder i' hi')) i (hsub i hi) hkey
      obtain ⟨before, behind, rfl⟩ := append_of_mem hi'
      by_cases hifree : m.taken items (m.relocateAll items before) i' = false
      · refine ⟨before, fun k hk => horder k (mem_append_left _ hk), ?_, hifree⟩
        obtain ⟨hnodup, -⟩ := nodup_map_concat.mp hnodup
        refine hnodup.sublist (List.Sublist.map _ ?_)
        exact (Sublist.refl before).append (singleton_sublist.mpr mem_cons_self)
      · -- its turn came to nothing and can be left out
        rw [relocateAll_of_taken (by simpa using hifree)] at hjfree
        have hsublist : (before ++ behind).Sublist (before ++ i' :: behind) :=
          (Sublist.refl before).append (sublist_cons_self i' behind)
        refine hgo (before ++ behind) (fun k hk => horder k (hsublist.subset hk)) ?_ ?_ hjfree
        · exact hnodup.sublist ((hsublist.append (.refl _)).map _)
        · obtain ⟨hnodup, -⟩ := nodup_map_concat.mp hnodup
          rw [map_append, map_cons, nodup_middle, nodup_cons] at hnodup
          rw [map_append]
          exact hnodup.1
    · exact hgo order horder hnodup hiorder hjfree

/-- **The movable items are those that some order of the batch moves.** -/
theorem exists_perm_iff_movable (hapart : m.Apart items []) (hsub : ∀ i ∈ batch, i ∈ items)
    (hi : i ∈ items) :
    (∃ order, order.Perm batch ∧ m.key i ∈ m.relocateAll items order) ↔
      m.Movable items batch i := by
  constructor
  · rintro ⟨order, hperm, hmem⟩
    exact movable_of_mem hapart.key hsub (fun j hj => hperm.subset hj) hi hmem
  · intro h
    obtain ⟨order, horder, hnodup, hfree⟩ := h.exists_order hapart hsub
    have hbatch : i ∈ batch := by
      cases h with
      | intro _ hi _ _ => exact hi
    have hsubset : order ++ [i] ⊆ batch := forall_mem_concat horder hbatch
    obtain ⟨rest, hrest⟩ : ∃ rest, (order ++ [i] ++ rest).Perm batch := by
      obtain ⟨l, hl, hsublist⟩ := subperm_of_subset (hnodup.of_map _) hsubset
      obtain ⟨rest, hrest⟩ := hsublist.exists_perm_append
      exact ⟨rest, (hl.symm.append_right rest).trans hrest.symm⟩
    refine ⟨_, hrest, mem_relocateAll_append ?_ rest⟩
    rw [relocateAll_concat, relocate, if_neg (Bool.eq_false_iff.mp hfree)]
    exact mem_append_right _ mem_cons_self

end Moves

end Pcmi.Lib
