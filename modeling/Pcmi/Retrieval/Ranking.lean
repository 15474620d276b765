import Pcmi.Go.JsonDecode

/-!
# Reranking (`internal/service/rerank.go`)

`parseRanking` takes the numbers of snippets it finds in an answer and completes them to an order.

A `json.RawMessage` stands for the value it holds. `null` is decoded into an `int` without an error
or a change, so an item `null` counts as the number 0.
-/

namespace Pcmi.Retrieval

open List Pcmi.Go

/-! ## The answer -/

def trimPrefix (s p : Bytes) : Bytes := if p.isPrefixOf s then s.drop p.length else s

def trimSuffix (s p : Bytes) : Bytes :=
  if p.isSuffixOf s then s.take (s.length - p.length) else s

def runeStart (b : UInt8) : Bool := b &&& 0xC0 != 0x80

def runeStartBefore (s : Bytes) : Nat → Nat
  | 0 => 0
  | b + 1 => if (s.drop (b + 1)).head?.any runeStart then b + 1 else runeStartBefore s b

def truncateUTF8 (s : Bytes) (maxBytes : Nat) : Bytes :=
  if maxBytes = 0 then []
  else if s.length ≤ maxBytes then s
  else s.take (runeStartBefore s maxBytes)

/-- The text without the fence of a code block. -/
def unfenced (raw : Bytes) : Bytes :=
  let raw := trimSpace raw
  let raw := trimPrefix (trimPrefix raw (ascii "```json")) (ascii "```")
  trimSpace (trimSuffix raw (ascii "```"))

def unmarshalRaws (old : Slice RawJson) (value : RawJson) : Option (Slice RawJson) :=
  unmarshalSlice (fun _ item => some item) (.literal []) old value

/-- What is in a slice that is not `nil`. -/
def nonNil (s : Slice RawJson) : Option (List RawJson) := if s.isNil then none else some s.elems

/-- The field `ranking` of an answer, or the answer itself. -/
def rankingItems (raw : Bytes) : Option (List RawJson) :=
  let wrapped := (readJson raw).bind
    (unmarshalStruct [(ascii "ranking", ())] (fun old _ value => unmarshalRaws old value) {})
  match wrapped.bind nonNil with
  | some items => some items
  | none => ((readJson raw).bind (unmarshalRaws {})).map (·.elems)

def unmarshalIntPointer (old : Option Int) (value : RawJson) : Option (Option Int) :=
  match value with
  | .literal text =>
    if isNull text then some none else (unmarshalInt (old.getD 0) (.literal text)).map some
  | _ => none

def itemIndex (item : RawJson) : Option Int :=
  match unmarshalInt 0 item with
  | some idx => some idx
  | none =>
    (unmarshalStruct [(ascii "index", ())] (fun old _ value => unmarshalIntPointer old value) none
      item).join

/-- `seen` and `order`. -/
structure Ranked where
  seen : List Bool
  order : List Nat

def Ranked.add (n : Nat) (st : Ranked) (item : RawJson) : Ranked :=
  match itemIndex item with
  | none => st
  | some idx =>
    if idx < 0 ∨ idx ≥ n ∨ st.seen.getD idx.toNat false = true then st
    else ⟨st.seen.set idx.toNat true, st.order ++ [idx.toNat]⟩

/-- `parseRanking`. `quote` is `%q`. -/
def parseRanking (quote : Bytes → Bytes) (raw : Bytes) (n : Nat) : Except Bytes (List Nat) :=
  let raw := unfenced raw
  match rankingItems raw with
  | none => .error (ascii "rerank: unparseable ranking " ++ quote (truncateUTF8 raw 200))
  | some items =>
    let st := items.foldl (Ranked.add n) ⟨List.replicate n false, []⟩
    if st.order = [] then .error (ascii "rerank: ranking has no valid snippet numbers")
    else .ok (st.order ++ (List.range n).filter fun i => !st.seen.getD i false)

/-- What the circuit breaker and the model say to a call. -/
inductive Completion where
  /-- The breaker lets no call through. -/
  | refused (err : Bytes)
  | failed (err : Bytes)
  | answered (raw : Bytes)

/-- What comes of `Rerank`. -/
inductive Reranked (α : Type) where
  | entries (out : List α)
  /-- `ErrRerankUnavailable`. -/
  | unavailable (err : Bytes)
  /-- `entries[i]` is out of range. -/
  | panicked

/-- `LLMReranker.Rerank`, with what was said to the call if there is one. -/
def rerank {α : Type} (quote : Bytes → Bytes) (configured : Bool) (completion : Completion)
    (entries : List α) : Reranked α :=
  if entries.length < 2 then .entries entries
  else if configured = false then .unavailable (ascii "rerank unavailable: no LLM configured")
  else
    let order : Except Bytes (List Nat) :=
      match completion with
      | .refused err => .error err
      | .failed err => .error err
      | .answered raw => parseRanking quote raw entries.length
    match order with
    | .error err => .unavailable (ascii "rerank unavailable: " ++ err)
    | .ok order =>
      match order.mapM fun i => entries[i]? with
      | none => .panicked
      | some out => .entries out

/-! ## What an answer says -/

def nullItem : RawJson := .literal (ascii "null")

/-- The accepted shapes; the last of several fields `ranking` counts. -/
inductive Shape : RawJson → List RawJson → Prop where
  | null : Shape nullItem []
  | list (items : List RawJson) : Shape (.arr items) items
  | ranking {members : List (Bytes × RawJson)} {items : List RawJson}
      (hlists : ∀ v ∈ valuesOf (ascii "ranking") members, v = nullItem ∨ ∃ vs, v = .arr vs)
      (hlast : (valuesOf (ascii "ranking") members).getLast? = some (.arr items)) :
      Shape (.obj members) items

/-- The value is an integer, written as one. -/
def IsInteger (v : RawJson) (x : Int) : Prop := ∃ text, v = .literal text ∧ parseInt64 text = some x

/-- A number, or an object with a field `index`. -/
inductive Gives : RawJson → Int → Prop where
  | number {item : RawJson} {x : Int} (h : IsInteger item x) : Gives item x
  | index {members : List (Bytes × RawJson)} {v : RawJson} {x : Int}
      (hintegers : ∀ v ∈ valuesOf (ascii "index") members, v = nullItem ∨ ∃ y, IsInteger v y)
      (hlast : (valuesOf (ascii "index") members).getLast? = some v) (hv : IsInteger v x) :
      Gives (.obj members) x

/-- The integers in range that the items give, in their order. -/
inductive Indices (n : Nat) : List RawJson → List Nat → Prop where
  | nil : Indices n [] []
  | give {item : RawJson} {items : List RawJson} {i : Nat} {l : List Nat} (h : Gives item i)
      (hi : i < n) (hl : Indices n items l) : Indices n (item :: items) (i :: l)
  | skip {item : RawJson} {items : List RawJson} {l : List Nat}
      (h : ∀ i : Nat, Gives item i → ¬ i < n) (hl : Indices n items l) : Indices n (item :: items) l

/-! ## Decoding -/

variable {text raw : Bytes} {item : RawJson} {items : List RawJson} {n : Nat} {l : List Nat}

theorem isNull_iff : isNull text = true ↔ RawJson.literal text = nullItem := by
  simp [isNull, nullItem]

theorem isNull_eq_false_iff : isNull text = false ↔ RawJson.literal text ≠ nullItem := by
  rw [Ne, ← isNull_iff, Bool.not_eq_true]

theorem not_isInteger_null (x : Int) : ¬ IsInteger nullItem x := by
  rintro ⟨text, htext, h⟩
  cases htext
  have hnone : parseInt64 (ascii "null") = none := by decide
  rw [hnone] at h
  cases h

variable {x : Int} {v : RawJson} {members : List (Bytes × RawJson)} {i : Nat}
  {quote : Bytes → Bytes} {order : List Nat} {α : Type}

theorem isInteger_literal_iff :
    IsInteger (.literal text) x ↔ parseInt64 text = some x := by
  constructor
  · rintro ⟨text, ⟨⟩, h⟩
    exact h
  · exact fun h => ⟨text, rfl, h⟩

theorem unmarshalInt_literal (h : isNull text = false) (old : Int) :
    unmarshalInt old (.literal text) = parseInt64 text :=
  if_neg (of_decide_eq_false h)

theorem unmarshalIntPointer_eq_some_iff {old : Option Int} {r : Option Int} :
    unmarshalIntPointer old v = some r ↔
      (v = nullItem ∧ r = none) ∨ ∃ x, IsInteger v x ∧ r = some x := by
  cases v with
  | literal text =>
    cases hnull : isNull text with
    | true =>
      rw [unmarshalIntPointer, if_pos hnull, isNull_iff.mp hnull]
      simp [not_isInteger_null, eq_comm]
    | false =>
      rw [unmarshalIntPointer, hnull, if_neg Bool.false_ne_true, unmarshalInt_literal hnull]
      rw [Option.map_eq_some_iff]
      simp [isNull_eq_false_iff.mp hnull, isInteger_literal_iff, eq_comm (a := r)]
  | str raw | arr items | obj members => simp [unmarshalIntPointer, nullItem, IsInteger]

/-- The last field of a name, each `null` or decoded. -/
theorem lastField_iff {σ τ : Type} {step : σ → RawJson → Option σ} {view : σ → Option τ}
    {IsA : RawJson → τ → Prop}
    (h : ∀ s v r, (step s v).map view = some r ↔
      (v = nullItem ∧ r = none) ∨ ∃ x, IsA v x ∧ r = some x)
    {s : σ} (hs : view s = none) {values : List RawJson} {x : τ} :
    ((values.foldlM step s).map view).join = some x ↔
      (∀ v ∈ values, v = nullItem ∨ ∃ y, IsA v y) ∧
        ∃ v, values.getLast? = some v ∧ IsA v x := by
  have hsame : ∀ s' v, (step s' v).map view = (step s v).map view := fun s' v =>
    Option.ext fun r => by rw [h, h]
  have hsome : ∀ v, ((step s v).map view).isSome ↔ v = nullItem ∨ ∃ y, IsA v y := by
    intro v
    rw [Option.isSome_iff_exists]
    constructor
    · rintro ⟨r, hr⟩
      obtain ⟨hv, -⟩ | ⟨y, hy, -⟩ := (h s v r).mp hr
      · exact Or.inl hv
      · exact Or.inr ⟨y, hy⟩
    · rintro (hv | ⟨y, hy⟩)
      · exact ⟨none, (h s v none).mpr (Or.inl ⟨hv, rfl⟩)⟩
      · exact ⟨some y, (h s v (some y)).mpr (Or.inr ⟨y, hy, rfl⟩)⟩
  rw [Option.join_eq_some_iff, foldlM_view_iff hsame]
  simp only [hsome, hs]
  refine and_congr_right fun _ => ?_
  cases values.getLast? with
  | none => simp
  | some v => simp [h]

theorem itemIndex_obj_iff :
    itemIndex (.obj members) = some x ↔
      (∀ v ∈ valuesOf (ascii "index") members, v = nullItem ∨ ∃ y, IsInteger v y) ∧
        ∃ v, (valuesOf (ascii "index") members).getLast? = some v ∧ IsInteger v x := by
  have hfold : itemIndex (.obj members) =
      (((valuesOf (ascii "index") members).foldlM unmarshalIntPointer none).map id).join := by
    rw [← storeMembers_single (ascii "index") fun old _ value => unmarshalIntPointer old value,
      Option.map_id]
    rfl
  rw [hfold]
  refine lastField_iff (fun old v r => ?_) rfl
  rw [Option.map_id, id, unmarshalIntPointer_eq_some_iff]

/-- **The loop takes the number of an item** that is not `null`. -/
theorem itemIndex_eq_some_iff (hitem : item ≠ nullItem) :
    itemIndex item = some x ↔ Gives item x := by
  cases item with
  | literal text =>
    have hnull := isNull_eq_false_iff.mpr hitem
    have hindex : itemIndex (.literal text) = parseInt64 text := by
      rw [itemIndex, unmarshalInt_literal hnull, unmarshalStruct, hnull]
      cases parseInt64 text <;> rfl
    rw [hindex, ← isInteger_literal_iff]
    constructor
    · exact .number
    · rintro ⟨h⟩
      exact h
  | str raw | arr items =>
    refine ⟨nofun, ?_⟩
    rintro ⟨⟨_, ⟨⟩, _⟩⟩
  | obj members =>
    rw [itemIndex_obj_iff]
    constructor
    · rintro ⟨hintegers, v, hlast, hv⟩
      exact .index hintegers hlast hv
    · rintro (⟨⟨_, ⟨⟩, _⟩⟩ | ⟨hintegers, hlast, hv⟩)
      exact ⟨hintegers, _, hlast, hv⟩

theorem unmarshalItems_raw (zero : RawJson) (old items : List RawJson) :
    unmarshalItems (fun _ item => some item) zero old items = some items := by
  induction items generalizing old with
  | nil => rfl
  | cons item items ih => rw [unmarshalItems, Option.bind_some, ih, Option.map_some]

theorem unmarshalRaws_eq_some_iff {old : Slice RawJson} {r : Option (List RawJson)} :
    (unmarshalRaws old v).map nonNil = some r ↔
      (v = nullItem ∧ r = none) ∨ ∃ vs, v = .arr vs ∧ r = some vs := by
  cases v with
  | literal text =>
    cases hnull : isNull text with
    | true =>
      rw [unmarshalRaws, unmarshalSlice, if_pos hnull, isNull_iff.mp hnull]
      simp [nonNil, nullItem, eq_comm]
    | false =>
      rw [unmarshalRaws, unmarshalSlice, hnull, if_neg Bool.false_ne_true]
      simp [isNull_eq_false_iff.mp hnull]
  | str raw | obj members => simp [unmarshalRaws, unmarshalSlice, nullItem]
  | arr items =>
    rw [unmarshalRaws, unmarshalSlice, unmarshalItems_raw]
    constructor
    · rintro ⟨⟩
      exact Or.inr ⟨items, rfl, rfl⟩
    · rintro (⟨⟨⟩, -⟩ | ⟨vs, ⟨⟩, rfl⟩)
      rfl

theorem wrapped_obj_iff :
    (unmarshalStruct [(ascii "ranking", ())] (fun old _ value => unmarshalRaws old value) {}
        (.obj members)).bind nonNil = some items ↔
      (∀ v ∈ valuesOf (ascii "ranking") members, v = nullItem ∨ ∃ vs, v = .arr vs) ∧
        ∃ v, (valuesOf (ascii "ranking") members).getLast? = some v ∧ v = .arr items := by
  have hfold : (unmarshalStruct [(ascii "ranking", ())]
      (fun old _ value => unmarshalRaws old value) {} (.obj members)).bind nonNil =
        (((valuesOf (ascii "ranking") members).foldlM unmarshalRaws {}).map nonNil).join := by
    rw [unmarshalStruct, storeMembers_single]
    cases (valuesOf (ascii "ranking") members).foldlM unmarshalRaws {} <;> rfl
  rw [hfold]
  exact lastField_iff (fun _ _ _ => unmarshalRaws_eq_some_iff) rfl

theorem rankingItems_eq_some_iff :
    rankingItems raw = some items ↔ ∃ v, readJson raw = some v ∧ Shape v items := by
  unfold rankingItems
  dsimp only
  cases readJson raw with
  | none => simp
  | some v =>
    simp only [Option.bind_some, Option.some.injEq, exists_eq_left']
    cases v with
    | literal text =>
      cases hnull : isNull text with
      | true =>
        rw [isNull_iff.mp hnull]
        constructor
        · rintro ⟨⟩
          exact .null
        · rintro ⟨⟩
          rfl
      | false =>
        rw [unmarshalStruct, unmarshalRaws, unmarshalSlice, hnull]
        refine ⟨nofun, fun h => ?_⟩
        cases h
        exact absurd rfl (isNull_eq_false_iff.mp hnull)
    | str raw => exact ⟨nofun, nofun⟩
    | arr vs =>
      have hwrapped : unmarshalStruct [(ascii "ranking", ())]
          (fun old _ value => unmarshalRaws old value) {} (.arr vs) = none := rfl
      rw [hwrapped, unmarshalRaws, unmarshalSlice, unmarshalItems_raw]
      constructor
      · rintro ⟨⟩
        exact .list vs
      · rintro ⟨⟩
        rfl
    | obj members =>
      constructor
      · intro h
        split at h <;> cases h
        next hsome =>
        obtain ⟨hlists, v, hv, rfl⟩ := wrapped_obj_iff.mp hsome
        exact .ranking hlists hv
      · rintro (_ | _ | ⟨hlists, hv⟩)
        rw [wrapped_obj_iff.mpr ⟨hlists, _, hv, rfl⟩]

/-! ## The loop -/

/-- The number of an item as the loop takes it, if it is in range. -/
def indexIn (n : Nat) (item : RawJson) : Option Nat :=
  (itemIndex item).bind fun idx => if 0 ≤ idx ∧ idx < n then some idx.toNat else none

/-- What the loop has found so far: these numbers, in this order. -/
structure Ranked.Tracks (n : Nat) (st : Ranked) (l : List Nat) : Prop where
  length : st.seen.length = n
  seen : ∀ i, st.seen.getD i false = true ↔ i ∈ l
  order : st.order = l.eraseDups

/-- A number that was there already changes nothing, another one comes last. -/
theorem eraseDups_concat (l : List Nat) (i : Nat) :
    (l ++ [i]).eraseDups = if i ∈ l then l.eraseDups else l.eraseDups ++ [i] := by
  rw [eraseDups_append, List.removeAll, filter_singleton]
  split
  · next hi => simp [hi]
  · next hi => simp [hi]; rfl

theorem Ranked.Tracks.add {n : Nat} {st : Ranked} {l : List Nat} (h : st.Tracks n l)
    (item : RawJson) : (st.add n item).Tracks n (l ++ (indexIn n item).toList) := by
  unfold Ranked.add indexIn
  cases itemIndex item with
  | none => simpa using h
  | some idx =>
    by_cases hrange : 0 ≤ idx ∧ idx < n
    · obtain ⟨i, rfl⟩ := Int.eq_ofNat_of_zero_le hrange.1
      have hi : i < n := by omega
      rw [Option.bind_some, if_pos hrange, Int.toNat_natCast, Option.toList_some]
      have hseen := h.seen i
      by_cases hmem : i ∈ l
      · have hstays : (i : Int) < 0 ∨ (i : Int) ≥ n ∨ st.seen.getD i false = true :=
          Or.inr (Or.inr (hseen.mpr hmem))
        simp only [Int.toNat_natCast, if_pos hstays]
        refine ⟨h.length, fun j => ?_, ?_⟩
        · rw [h.seen, mem_append, mem_singleton]
          exact ⟨Or.inl, fun hj => hj.elim id fun hj => hj ▸ hmem⟩
        · rw [h.order, eraseDups_concat, if_pos hmem]
      · have hnew : ¬ ((i : Int) < 0 ∨ (i : Int) ≥ n ∨ st.seen.getD i false = true) := by
          rintro (hneg | hge | hsee)
          · omega
          · omega
          · exact hmem (hseen.mp hsee)
        simp only [Int.toNat_natCast, if_neg hnew]
        refine ⟨?_, fun j => ?_, ?_⟩
        · rw [length_set, h.length]
        · rw [mem_append, mem_singleton, ← h.seen]
          by_cases hj : j = i
          · subst hj
            simp [getD_eq_getElem?_getD, h.length, hi]
          · simp [getD_eq_getElem?_getD, getElem?_set_ne (Ne.symm hj), hj]
        · rw [h.order, eraseDups_concat, if_neg hmem]
    · have hout : idx < 0 ∨ idx ≥ n ∨ st.seen.getD idx.toNat false = true := by omega
      rw [Option.bind_some, if_neg hrange]
      dsimp only
      rw [if_pos hout, Option.toList_none, append_nil]
      exact h

theorem tracks_foldl (items : List RawJson) :
    (items.foldl (Ranked.add n) ⟨List.replicate n false, []⟩).Tracks n
      (items.filterMap (indexIn n)) := by
  induction items using List.reverseRecOn with
  | nil =>
    refine ⟨length_replicate, fun i => ?_, rfl⟩
    simp only [foldl_nil, getD_eq_getElem?_getD, getElem?_replicate,
      filterMap_nil, not_mem_nil, iff_false]
    split <;> exact Bool.false_ne_true
  | append_singleton items item ih =>
    rw [foldl_append, filterMap_append, foldl_cons, foldl_nil]
    have hadd := ih.add item
    cases hindex : indexIn n item with
    | none | some i => simpa [hindex] using hadd

theorem indexIn_lt (h : indexIn n item = some i) : i < n := by
  obtain ⟨idx, -, hidx⟩ := Option.bind_eq_some_iff.mp h
  split at hidx <;> cases hidx
  next hrange => omega

theorem indexIn_eq_some_iff (hitem : item ≠ nullItem) :
    indexIn n item = some i ↔ Gives item i ∧ i < n := by
  constructor
  · intro h
    obtain ⟨idx, hindex, hidx⟩ := Option.bind_eq_some_iff.mp h
    split at hidx <;> cases hidx
    next hrange =>
    rw [Int.toNat_of_nonneg hrange.1, ← itemIndex_eq_some_iff hitem]
    exact ⟨hindex, by omega⟩
  · rintro ⟨hgives, hi⟩
    rw [indexIn, (itemIndex_eq_some_iff hitem).mpr hgives, Option.bind_some,
      if_pos ⟨by omega, by omega⟩, Int.toNat_natCast]

/-- Without `null` among the items, the loop finds what they give. -/
theorem indices_iff (hnull : nullItem ∉ items) :
    Indices n items l ↔ l = items.filterMap (indexIn n) := by
  induction items generalizing l with
  | nil =>
    constructor
    · rintro ⟨⟩
      rfl
    · rintro rfl
      exact .nil
  | cons item items ih =>
    rw [mem_cons, not_or] at hnull
    have hiff : ∀ i, indexIn n item = some i ↔ _ := fun i => indexIn_eq_some_iff (Ne.symm hnull.1)
    constructor
    · rintro (_ | ⟨hgives, hi, hl⟩ | ⟨hnone, hl⟩)
      · rw [filterMap_cons_some ((hiff _).mpr ⟨hgives, hi⟩), (ih hnull.2).mp hl]
      · have hindex : indexIn n item = none :=
          Option.eq_none_iff_forall_ne_some.mpr fun i hi =>
            hnone i ((hiff i).mp hi).1 ((hiff i).mp hi).2
        rw [filterMap_cons_none hindex, (ih hnull.2).mp hl]
    · rintro rfl
      cases hindex : indexIn n item with
      | none =>
        rw [filterMap_cons_none hindex]
        refine .skip (fun i hgives hi => ?_) ((ih hnull.2).mpr rfl)
        rw [(hiff i).mpr ⟨hgives, hi⟩] at hindex
        cases hindex
      | some i =>
        obtain ⟨hgives, hi⟩ := (hiff i).mp hindex
        rw [filterMap_cons_some hindex]
        exact .give hgives hi ((ih hnull.2).mpr rfl)

/-! ## The order -/

/-- Numbers by their first occurrence, and then the others below `n`. -/
def completed (n : Nat) (l : List Nat) : List Nat :=
  l.eraseDups ++ (List.range n).filter fun i => i ∉ l

theorem eraseDups_eq_nil_iff : l.eraseDups = [] ↔ l = [] := by
  simp only [eq_nil_iff_forall_not_mem, mem_eraseDups]

theorem nodup_eraseDups (l : List Nat) : l.eraseDups.Nodup := by
  induction l using List.reverseRecOn with
  | nil => exact nodup_nil
  | append_singleton l i ih =>
    rw [eraseDups_concat]
    split
    · exact ih
    next hi =>
    refine nodup_append.mpr ⟨ih, pairwise_singleton _ i, ?_⟩
    rintro j hj k hk rfl
    exact hi (mem_singleton.mp hk ▸ mem_eraseDups.mp hj)

theorem completed_perm (h : ∀ i ∈ l, i < n) : (completed n l).Perm (List.range n) := by
  have hnodup : (completed n l).Nodup := by
    refine nodup_append.mpr ⟨nodup_eraseDups l, nodup_range.filter _, ?_⟩
    rintro i hi j hj rfl
    exact of_decide_eq_true (mem_filter.mp hj).2 (mem_eraseDups.mp hi)
  rw [perm_ext_iff_of_nodup hnodup nodup_range]
  intro i
  rw [completed, mem_append, mem_eraseDups, mem_filter, mem_range,
    decide_eq_true_iff]
  constructor
  · rintro (hi | ⟨hi, -⟩)
    · exact h i hi
    · exact hi
  · intro hi
    by_cases hmem : i ∈ l
    · exact Or.inl hmem
    · exact Or.inr ⟨hi, hmem⟩

theorem parseRanking_of_items (h : rankingItems (unfenced raw) = some items) :
    parseRanking quote raw n =
      if items.filterMap (indexIn n) = [] then
        .error (ascii "rerank: ranking has no valid snippet numbers")
      else .ok (completed n (items.filterMap (indexIn n))) := by
  have htracks := tracks_foldl (n := n) items
  have hseen : (fun i => !(items.foldl (Ranked.add n) ⟨List.replicate n false, []⟩).seen.getD i
      false) = fun i => decide (i ∉ items.filterMap (indexIn n)) := by
    funext i
    rw [Bool.eq_iff_iff, Bool.not_eq_true', ← Bool.not_eq_true, htracks.seen, decide_eq_true_iff]
  unfold parseRanking
  dsimp only
  rw [h]
  dsimp only
  rw [hseen, htracks.order]
  simp only [eraseDups_eq_nil_iff]
  rfl

theorem parseRanking_perm (h : parseRanking quote raw n = .ok order) :
    order.Perm (List.range n) := by
  cases hitems : rankingItems (unfenced raw) with
  | none =>
    rw [parseRanking, hitems] at h
    cases h
  | some items =>
    rw [parseRanking_of_items hitems] at h
    split at h <;> cases h
    refine completed_perm fun i hi => ?_
    obtain ⟨item, -, hindex⟩ := mem_filterMap.mp hi
    exact indexIn_lt hindex

theorem mapM_getElem {entries : List α} (first : α) (h : ∀ i ∈ order, i < entries.length) :
    order.mapM (fun i => entries[i]?) = some (order.map fun i => entries.getD i first) := by
  induction order with
  | nil => rfl
  | cons i order ih =>
    obtain ⟨hi, horder⟩ := forall_mem_cons.mp h
    rw [mapM_cons, ih horder, map_cons, getD_eq_getElem?_getD,
      getElem?_eq_getElem hi]
    rfl

theorem map_range_getD (entries : List α) (first : α) :
    ((List.range entries.length).map fun i => entries.getD i first) = entries := by
  refine ext_getElem (by simp) fun i hi hi' => ?_
  rw [getElem_map, getElem_range, getD_eq_getElem?_getD,
    getElem?_eq_getElem hi', Option.getD_some]

/-- An order of the entries, or an error. -/
def Reranked.Permutes {α : Type} (entries : List α) : Reranked α → Prop
  | .entries out => out.Perm entries
  | .unavailable _ => True
  | .panicked => False

section

variable {α : Type} {quote : Bytes → Bytes} {entries : List α}

theorem rerank_answered (hlength : 2 ≤ entries.length) {raw : Bytes} {order : List Nat}
    (h : parseRanking quote raw entries.length = .ok order) :
    ∃ out, rerank quote true (.answered raw) entries = .entries out ∧ out.Perm entries ∧
      out.map some = order.map fun i => entries[i]? := by
  have hperm := parseRanking_perm h
  have hbounds : ∀ i ∈ order, i < entries.length := fun i hi =>
    mem_range.mp (hperm.subset hi)
  obtain ⟨first, rest, hentries⟩ :=
    exists_cons_of_length_pos (show 0 < entries.length by omega)
  refine ⟨order.map fun i => entries.getD i first, ?_, ?_, ?_⟩
  · rw [rerank, if_neg (by omega), if_neg (by decide)]
    dsimp only
    rw [h]
    dsimp only
    rw [mapM_getElem first hbounds]
  · have hmap := hperm.map fun i => entries.getD i first
    rw [map_range_getD] at hmap
    exact hmap
  · rw [map_map]
    refine map_congr_left fun i hi => ?_
    rw [Function.comp_apply, getD_eq_getElem?_getD, getElem?_eq_getElem (hbounds i hi)]
    rfl

/-- **`Rerank` returns its entries in another order, or an error.** -/
theorem rerank_permutes (configured : Bool) (completion : Completion) :
    (rerank quote configured completion entries).Permutes entries := by
  by_cases hlength : entries.length < 2
  · unfold rerank
    rw [if_pos hlength]
    exact List.Perm.refl entries
  · rw [Nat.not_lt] at hlength
    cases configured with
    | false =>
      unfold rerank
      rw [if_neg (by omega), if_pos rfl]
      trivial
    | true =>
      cases completion with
      | refused err | failed err =>
        rw [rerank, if_neg (by omega), if_neg (by decide)]
        trivial
      | answered raw =>
        cases hparse : parseRanking quote raw entries.length with
        | error err =>
          rw [rerank, if_neg (by omega), if_neg (by decide)]
          dsimp only
          rw [hparse]
          trivial
        | ok order =>
          obtain ⟨out, hout, hperm, -⟩ := rerank_answered hlength hparse
          rw [hout]
          exact hperm

end

/-! ## Exactness -/

/-- `[1,9,0,1]` -/
def listAnswer : Bytes := [0x5B, 0x31, 0x2C, 0x39, 0x2C, 0x30, 0x2C, 0x31, 0x5D]

/-- `[null,1]` -/
def nullAnswer : Bytes := [0x5B, 0x6E, 0x75, 0x6C, 0x6C, 0x2C, 0x31, 0x5D]

end Pcmi.Retrieval
