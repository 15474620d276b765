import Mathlib.Data.List.Nodup

/-!
# What a list of workers holds

Workers in the slots of a list each hold some items; a step replaces one worker. When no two hold
the same key, an item that a worker lets go of is held by nobody.
-/

namespace Pcmi.Lib

open List

variable {ω ι κ : Type} {ws : List ω} {i : Nat} {w : ω}

theorem exists_slot (h : ws[i]? = some w) :
    ∃ before behind, ws = before ++ w :: behind ∧
      ∀ w', ws.set i w' = before ++ w' :: behind := by
  obtain ⟨hi, rfl⟩ := List.getElem?_eq_some_iff.mp h
  refine ⟨ws.take i, ws.drop (i + 1), ?_, fun w' => set_eq_take_append_cons_drop.trans ?_⟩
  · rw [← drop_eq_getElem_cons hi, take_append_drop]
  · rw [if_pos hi]

theorem mem_set_of_mem {v : ω} (h : ws[i]? = some w) (hv : v ∈ ws) (w' : ω) :
    v = w ∨ v ∈ ws.set i w' := by
  obtain ⟨before, behind, rfl, hset⟩ := exists_slot h
  rw [hset]
  rcases mem_append.mp hv with hv | hv
  · exact Or.inr (mem_append_left _ hv)
  rcases mem_cons.mp hv with rfl | hv
  · exact Or.inl rfl
  · exact Or.inr (mem_append_right _ (mem_cons_of_mem _ hv))

section

variable {P : ω → Prop} {ws : List ω} {w' : ω} (h : ∀ w ∈ ws, P w) (hw : P w')

include h hw

theorem forall_mem_set {i : Nat} : ∀ w ∈ ws.set i w', P w := by
  intro w hmem
  rcases mem_or_eq_of_mem_set hmem with hmem | rfl
  · exact h w hmem
  · exact hw

theorem forall_mem_concat : ∀ w ∈ ws ++ [w'], P w :=
  forall_mem_append.mpr ⟨h, forall_mem_singleton.mpr hw⟩

end

section

variable {held : ω → List ι} {key : ι → κ} {ws : List ω} {i : Nat} {w w' : ω}

theorem flatMap_set_sublist (h : ws[i]? = some w) (hless : (held w').Sublist (held w)) :
    ((ws.set i w').flatMap held).Sublist (ws.flatMap held) := by
  obtain ⟨before, behind, rfl, hset⟩ := exists_slot h
  rw [hset, flatMap_append, flatMap_append, flatMap_cons, flatMap_cons]
  exact (Sublist.refl _).append (hless.append (.refl _))

variable {x : ι}

/-- What is held behind a step was held before, or by its worker. -/
theorem mem_flatMap_set (hx : x ∈ (ws.set i w').flatMap held) :
    x ∈ held w' ∨ x ∈ ws.flatMap held := by
  obtain ⟨v, hv, hxv⟩ := mem_flatMap.mp hx
  rcases mem_or_eq_of_mem_set hv with hv | rfl
  · exact Or.inr (mem_flatMap.mpr ⟨v, hv, hxv⟩)
  · exact Or.inl hxv

/-- What was held before a step is held behind it, or was its worker's. -/
theorem mem_flatMap_of_set (h : ws[i]? = some w) (hx : x ∈ ws.flatMap held) :
    x ∈ held w ∨ x ∈ (ws.set i w').flatMap held := by
  obtain ⟨v, hv, hxv⟩ := mem_flatMap.mp hx
  rcases mem_set_of_mem h hv w' with rfl | hv
  · exact Or.inl hxv
  · exact Or.inr (mem_flatMap.mpr ⟨v, hv, hxv⟩)

theorem flatMap_set_of_eq (h : ws[i]? = some w) (heq : held w' = held w) :
    (ws.set i w').flatMap held = ws.flatMap held := by
  obtain ⟨before, behind, rfl, hset⟩ := exists_slot h
  rw [hset, flatMap_append, flatMap_append, flatMap_cons, flatMap_cons, heq]

theorem mem_flatMap_of_slot (h : ws[i]? = some w) (hx : x ∈ held w) :
    x ∈ ws.flatMap held :=
  mem_flatMap.mpr ⟨w, mem_of_getElem? h, hx⟩

/-- **The first item of a worker is nobody else's.** -/
theorem key_ne_of_nodup {y : ι} (h : ws[i]? = some w) (hw : held w = x :: held w')
    (hnodup : ((ws.flatMap held).map key).Nodup) (hy : y ∈ (ws.set i w').flatMap held) :
    key y ≠ key x := by
  obtain ⟨before, behind, rfl, hset⟩ := exists_slot h
  rw [hset] at hy
  rw [flatMap_append, flatMap_cons, hw, cons_append, map_append, map_cons]
    at hnodup
  have hx := (nodup_cons.mp (nodup_middle.mp hnodup)).1
  rw [← map_append, ← flatMap_cons, ← flatMap_append] at hx
  exact fun he => hx (he ▸ mem_map_of_mem hy)

end

end Pcmi.Lib
