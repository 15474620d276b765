import Pcmi.Go.JsonText

/-!
# Structs and slices from JSON texts

Into a struct the last member of one name counts. Into a slice the items go into the array that it
already has: an item is decoded into what an earlier member left there. An error is `none`.
-/

namespace Pcmi.Go

open Option

def isNull (text : Bytes) : Bool := text = ascii "null"

section

variable {σ φ : Type} (fields : List (Bytes × φ)) (store : σ → φ → RawJson → Option σ)

/-- The members of an object into the fields of a struct. -/
def storeMembers (old : σ) : List (Bytes × RawJson) → Option σ
  | [] => some old
  | (key, value) :: members =>
    match fieldOf fields (unquote key) with
    | none => storeMembers old members
    | some field => (store old field value).bind fun new => storeMembers new members

def unmarshalStruct (old : σ) : RawJson → Option σ
  | .obj members => storeMembers fields store old members
  | .literal text => if isNull text then some old else none
  | _ => none

end

/-- A slice, and what stands behind it in its array. -/
structure Slice (α : Type) where
  isNil : Bool := true
  elems : List α := []
  stale : List α := []

section

variable {α : Type} (unmarshal : α → RawJson → Option α) (zero : α)

/-- The items of an array, each into what stands at its place. -/
def unmarshalItems : List α → List RawJson → Option (List α)
  | _, [] => some []
  | old, item :: items =>
    (unmarshal (old.headD zero) item).bind fun x =>
      (unmarshalItems old.tail items).map (x :: ·)

def unmarshalSlice (old : Slice α) : RawJson → Option (Slice α)
  | .arr items =>
    let array := old.elems ++ old.stale
    (unmarshalItems unmarshal zero array items).map fun elems =>
      { isNil := false, elems, stale := if items.isEmpty then [] else array.drop items.length }
  | .literal text => if isNull text then some {} else none
  | _ => none

end

/-! ## Structs of one field -/

section

variable {σ τ β : Type}

/-- The values of the members that stand for the field of that name. -/
def valuesOf (name : Bytes) (members : List (Bytes × RawJson)) : List RawJson :=
  members.filterMap fun m => (fieldOf [(name, ())] (unquote m.1)).map fun _ => m.2

theorem storeMembers_single (name : Bytes) (store : σ → Unit → RawJson → Option σ) (old : σ)
    (members : List (Bytes × RawJson)) :
    storeMembers [(name, ())] store old members =
      (valuesOf name members).foldlM (fun old value => store old () value) old := by
  induction members generalizing old with
  | nil => rfl
  | cons m members ih =>
    rw [storeMembers, valuesOf, List.filterMap_cons]
    cases fieldOf [(name, ())] (unquote m.1) with
    | none => exact ih old
    | some field =>
      rw [map_some, List.foldlM_cons]
      exact bind_congr fun new _ => ih new

/-- All steps have to succeed, and the last one counts. -/
theorem foldlM_view_iff {step : σ → β → Option σ} {view : σ → τ} {decode : β → Option τ}
    (h : ∀ s b, (step s b).map view = decode b) {s : σ} {bs : List β} {t : τ} :
    (bs.foldlM step s).map view = some t ↔
      (∀ b ∈ bs, (decode b).isSome) ∧ (bs.getLast?.elim (some (view s)) decode = some t) := by
  induction bs generalizing s with
  | nil => simp
  | cons b bs ih =>
    rw [List.foldlM_cons, List.forall_mem_cons, ← h s b]
    cases hstep : step s b with
    | none => simp
    | some s' =>
      have hview : decode b = some (view s') := by rw [← h s b, hstep]; rfl
      rw [bind_eq_bind, bind_some, ih, List.getLast?_cons]
      cases bs.getLast? <;> simp [hview]

end

end Pcmi.Go
