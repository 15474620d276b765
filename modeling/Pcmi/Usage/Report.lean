import Mathlib.Algebra.BigOperators.Group.Finset.Piecewise
import Mathlib.Data.List.Sort
import Pcmi.Usage.Aggregator

/-!
# The usage report (`UsageService.Report`)

One pass adds each raw row to the group of its key and to the totals, and notes models without a
price. A group is what is tallied from the rows of its key (`Grouped`).
-/

namespace Pcmi.Usage

open List Pcmi.Lib

structure Dimensions where
  day : String := ""
  operation : String := ""
  provider : String := ""
  model : String := ""
  deriving DecidableEq

structure RawRow extends Dimensions where
  counts : Bucket

/-- `group_by`, as the set `has`. -/
structure Grouping where
  day : Bool
  operation : Bool
  model : Bool

def Grouping.key (g : Grouping) (r : RawRow) : Dimensions where
  day := if g.day then r.day else ""
  operation := if g.operation then r.operation else ""
  provider := if g.model then r.provider else ""
  model := if g.model then r.model else ""

section

variable {P F : Type} [Add F] [Zero F]

/-- `LLM_PRICING`, with the cost of the tokens of a row at a price. -/
structure Pricing (P F : Type) where
  prices : String → Option P
  cost : P → Bucket → F

def Pricing.priceOf (p : Pricing P F) (model : String) : Option P :=
  (p.prices model).or (p.prices "*")

/-- `Pricing.Cost`; `none` is `(0, false)`. -/
def Pricing.costOf (p : Pricing P F) (r : RawRow) : Option F :=
  (p.priceOf r.model).map (p.cost · r.counts)

structure Acc (F : Type) where
  key : Dimensions
  counts : Bucket
  cost : F
  unpriced : Bool

def Acc.zero (key : Dimensions) : Acc F := ⟨key, 0, 0, false⟩

def Acc.add (p : Pricing P F) (a : Acc F) (r : RawRow) : Acc F :=
  { a with counts := a.counts + r.counts, cost := a.cost + (p.costOf r).getD 0
           unpriced := a.unpriced || (p.costOf r).isNone }

/-- The groups in the order of `order`. -/
def addToGroup (p : Pricing P F) (key : Dimensions) (groups : List (Acc F)) (r : RawRow) :
    List (Acc F) :=
  if groups.any (·.key = key) then groups.map fun a => if a.key = key then a.add p r else a
  else groups ++ [(Acc.zero key).add p r]

structure Tally (F : Type) where
  groups : List (Acc F)
  total : Acc F
  unpriced : List String

def Tally.add (g : Grouping) (p : Pricing P F) (t : Tally F) (r : RawRow) : Tally F where
  groups := addToGroup p (g.key r) t.groups r
  total := t.total.add p r
  unpriced := if (p.costOf r).isNone then t.unpriced.insert r.model else t.unpriced

def tally (g : Grouping) (p : Pricing P F) (raw : List RawRow) : Tally F :=
  raw.foldl (Tally.add g p) ⟨[], Acc.zero {}, []⟩

structure UsageLine (F : Type) where
  key : Dimensions
  counts : Bucket
  estimatedCostUSD : Option F

def Acc.finish (a : Acc F) : UsageLine F := ⟨a.key, a.counts,
    if a.unpriced then none else some a.cost⟩

/-- The order of the lines. -/
def UsageLine.before (a b : UsageLine F) : Bool :=
  if a.key.day ≠ b.key.day then a.key.day < b.key.day
  else if a.key.operation ≠ b.key.operation then a.key.operation < b.key.operation
  else if a.key.provider ≠ b.key.provider then a.key.provider < b.key.provider
  else a.key.model < b.key.model

structure UsageReport (F : Type) where
  rows : List (UsageLine F)
  totals : UsageLine F
  unpricedModels : List String

def report (g : Grouping) (p : Pricing P F) (raw : List RawRow) : UsageReport F where
  rows := ((tally g p raw).groups.map Acc.finish).insertionSort fun a b => !b.before a
  totals := (tally g p raw).total.finish
  unpricedModels := (tally g p raw).unpriced.insertionSort (· ≤ ·)

/-! ## The tallies -/

variable {g : Grouping} {p : Pricing P F} {raw : List RawRow}

/-- What is tallied from some rows. -/
structure Acc.Of (p : Pricing P F) (rows : List RawRow) (a : Acc F) : Prop where
  counts : a.counts = (rows.map (·.counts)).sum
  unpriced : a.unpriced = true ↔ ∃ r ∈ rows, p.priceOf r.model = none

omit [Add F] in
theorem Acc.of_zero (key : Dimensions) : (Acc.zero key : Acc F).Of p [] := ⟨rfl, by simp [zero]⟩

theorem Acc.Of.add {rows : List RawRow} {a : Acc F} (h : a.Of p rows) (r : RawRow) :
    (a.add p r).Of p (rows ++ [r]) where
  counts := by simp [Acc.add, h.counts]
  unpriced := by simp [Acc.add, h.unpriced, Pricing.costOf, or_and_right, exists_or]

def Grouping.rowsOf (g : Grouping) (raw : List RawRow) (key : Dimensions) : List RawRow :=
  raw.filter (g.key · = key)

structure Grouped (g : Grouping) (p : Pricing P F) (raw : List RawRow) (groups : List (Acc F)) :
    Prop where
  nodup : (groups.map (·.key)).Nodup
  keys : ∀ k, k ∈ groups.map (·.key) ↔ k ∈ raw.map g.key
  acc : ∀ a ∈ groups, a.Of p (g.rowsOf raw a.key)

theorem rowsOf_concat (raw : List RawRow) (r : RawRow) (key : Dimensions) :
    g.rowsOf (raw ++ [r]) key = g.rowsOf raw key ++ if g.key r = key then [r] else [] := by
  rw [Grouping.rowsOf, filter_append, filter_singleton]
  simp [Grouping.rowsOf]

theorem Grouped.add {groups : List (Acc F)} (h : Grouped g p raw groups) (r : RawRow) :
    Grouped g p (raw ++ [r]) (addToGroup p (g.key r) groups r) := by
  have hother : ∀ a ∈ groups, a.key ≠ g.key r → a.Of p (g.rowsOf (raw ++ [r]) a.key) := by
    intro a ha hne
    rw [rowsOf_concat, if_neg hne.symm, append_nil]
    exact h.acc a ha
  unfold addToGroup
  split
  · next hany =>
    have hmem : g.key r ∈ raw.map g.key := (h.keys _).mp (by simpa using hany)
    have hkeys : (groups.map fun a => if a.key = g.key r then a.add p r else a).map (·.key) =
        groups.map (·.key) := by
      rw [map_map]
      refine map_congr_left fun a _ => ?_
      dsimp only [Function.comp]
      split <;> rfl
    refine ⟨hkeys ▸ h.nodup, fun k => ?_, forall_mem_map.mpr fun a ha => ?_⟩
    · rw [hkeys, h.keys, map_append, mem_append]
      exact ⟨.inl, fun hk => hk.elim id fun hk => mem_singleton.mp hk ▸ hmem⟩
    · split
      · next heq =>
        show (a.add p r).Of p (g.rowsOf (raw ++ [r]) a.key)
        rw [rowsOf_concat, if_pos heq.symm]
        exact (h.acc a ha).add r
      · next hne => exact hother a ha hne
  · next hany =>
    have hnew : g.key r ∉ groups.map (·.key) := by simpa using hany
    refine ⟨?_, fun k => ?_, forall_mem_append.mpr ⟨fun a ha => hother a ha fun heq =>
      hnew (heq ▸ mem_map_of_mem ha), forall_mem_singleton.mpr ?_⟩⟩
    · rw [map_append]
      exact h.nodup.append (nodup_singleton _) (disjoint_singleton.mpr hnew)
    · rw [map_append, map_append, mem_append, mem_append, h.keys]
      rfl
    · have hnil : g.rowsOf raw (g.key r) = [] := by
        refine filter_eq_nil_iff.mpr fun r' hr' heq => hnew ((h.keys _).mpr ?_)
        exact of_decide_eq_true heq ▸ mem_map_of_mem hr'
      show ((Acc.zero (g.key r)).add p r).Of p (g.rowsOf (raw ++ [r]) (g.key r))
      rw [rowsOf_concat, hnil, if_pos rfl]
      exact (Acc.of_zero _).add r

/-- **One invariant of the pass.** -/
theorem tally_spec (g : Grouping) (p : Pricing P F) (raw : List RawRow) :
    Grouped g p raw (tally g p raw).groups ∧ (tally g p raw).total.Of p raw ∧
      (tally g p raw).unpriced.Nodup ∧ ∀ m, m ∈ (tally g p raw).unpriced ↔
        ∃ r ∈ raw, r.model = m ∧ p.priceOf m = none := by
  induction raw using List.reverseRecOn with
  | nil => exact ⟨⟨nodup_nil, by simp [tally], nofun⟩, Acc.of_zero _, nodup_nil, by simp [tally]⟩
  | append_singleton raw r ih =>
    obtain ⟨hgroups, htotal, hnodup, hmem⟩ := ih
    have hstep : tally g p (raw ++ [r]) = (tally g p raw).add g p r := by
      rw [tally, foldl_append]
      rfl
    rw [hstep]
    refine ⟨hgroups.add r, htotal.add r, ?_, fun m => ?_⟩
    · unfold Tally.add
      dsimp only
      split
      · exact hnodup.insert
      · exact hnodup
    · unfold Tally.add
      dsimp only
      have hconcat : (∃ r' ∈ raw ++ [r], r'.model = m ∧ p.priceOf m = none) ↔
          m ∈ (tally g p raw).unpriced ∨ r.model = m ∧ p.priceOf m = none := by
        simp [hmem, or_and_right, exists_or]
      rw [hconcat]
      split
      · next hnone =>
        have hprice : p.priceOf r.model = none := by simpa [Pricing.costOf] using hnone
        rw [mem_insert_iff, or_comm]
        exact or_congr_right ⟨fun h => ⟨h.symm, h ▸ hprice⟩, fun h => h.1.symm⟩
      · next hsome =>
        have hprice : p.priceOf r.model ≠ none := by simpa [Pricing.costOf] using hsome
        exact ⟨.inl, fun h => h.resolve_right fun h => hprice (h.1 ▸ h.2)⟩

omit [Add F] [Zero F] in
theorem Grouped.sum_counts {groups : List (Acc F)} (h : Grouped g p raw groups) :
    (groups.map (·.counts)).sum = (raw.map (·.counts)).sum := by
  have hkeys : ∀ (keys : Finset Dimensions) (rows : List RawRow), (∀ r ∈ rows, g.key r ∈ keys) →
      ∑ k ∈ keys, ((g.rowsOf rows k).map (·.counts)).sum = (rows.map (·.counts)).sum := by
    intro keys rows hrows
    induction rows with
    | nil => simp [Grouping.rowsOf]
    | cons r rows ih =>
      obtain ⟨hr, hrows⟩ := forall_mem_cons.mp hrows
      have hcons : ∀ k, ((g.rowsOf (r :: rows) k).map (·.counts)).sum =
          (if g.key r = k then r.counts else 0) + ((g.rowsOf rows k).map (·.counts)).sum := by
        intro k
        by_cases hk : g.key r = k <;> simp [Grouping.rowsOf, hk]
      simp [hcons, Finset.sum_add_distrib, ih hrows, hr]
  calc (groups.map (·.counts)).sum
      = ((groups.map (·.key)).map fun k => ((g.rowsOf raw k).map (·.counts)).sum).sum := by
        rw [map_map]
        exact congrArg sum (map_congr_left fun a ha => (h.acc a ha).counts)
    _ = ∑ k ∈ (groups.map (·.key)).toFinset, ((g.rowsOf raw k).map (·.counts)).sum :=
        (sum_toFinset _ h.nodup).symm
    _ = (raw.map (·.counts)).sum := hkeys _ raw fun r hr =>
        mem_toFinset.mpr ((h.keys _).mpr (mem_map_of_mem hr))

omit [Add F] [Zero F] in
theorem finish_cost_eq_none {rows : List RawRow} {a : Acc F} (h : a.Of p rows) :
    a.finish.estimatedCostUSD = none ↔ ∃ r ∈ rows, p.priceOf r.model = none := by
  rw [← h.unpriced]
  simp [Acc.finish]

/-- **The report is consistent**: its lines are the rows of their keys. -/
theorem report_consistent (g : Grouping) (p : Pricing P F) (raw : List RawRow) :
    ((report g p raw).rows.map (·.key)).Nodup ∧
    (∀ k, k ∈ (report g p raw).rows.map (·.key) ↔ k ∈ raw.map g.key) ∧
    (∀ line ∈ (report g p raw).rows,
      line.counts = ((g.rowsOf raw line.key).map (·.counts)).sum ∧
      (line.estimatedCostUSD = none ↔ ∃ r ∈ g.rowsOf raw line.key, p.priceOf r.model = none)) ∧
    ((report g p raw).rows.map (·.counts)).sum = (report g p raw).totals.counts ∧
    ((report g p raw).totals.estimatedCostUSD = none ↔ ∃ r ∈ raw, p.priceOf r.model = none) ∧
    (report g p raw).unpricedModels.Nodup ∧
    ∀ m, m ∈ (report g p raw).unpricedModels ↔ ∃ r ∈ raw, r.model = m ∧ p.priceOf m = none := by
  obtain ⟨hgroups, htotal, hnodup, hmem⟩ := tally_spec g p raw
  have hrows : (report g p raw).rows.Perm ((tally g p raw).groups.map Acc.finish) :=
    perm_insertionSort _ _
  have hmodels : (report g p raw).unpricedModels.Perm (tally g p raw).unpriced :=
    perm_insertionSort _ _
  have hkeys : ((report g p raw).rows.map (·.key)).Perm ((tally g p raw).groups.map (·.key)) := by
    have hmap := hrows.map (·.key)
    rwa [map_map] at hmap
  have hcounts := (hrows.map (·.counts)).sum_eq
  rw [map_map] at hcounts
  refine ⟨hkeys.nodup_iff.mpr hgroups.nodup, fun k => hkeys.mem_iff.trans (hgroups.keys k),
    fun line hline => ?_, (hcounts.trans hgroups.sum_counts).trans htotal.counts.symm,
    finish_cost_eq_none htotal, hmodels.nodup_iff.mpr hnodup, fun m => hmodels.mem_iff.trans
      (hmem m)⟩
  obtain ⟨a, ha, rfl⟩ := mem_map.mp (hrows.mem_iff.mp hline)
  exact ⟨(hgroups.acc a ha).counts, finish_cost_eq_none (hgroups.acc a ha)⟩

end

end Pcmi.Usage
