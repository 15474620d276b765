import Pcmi.Lib.Ranking
import Pcmi.Memory.AsOf
import Pcmi.Memory.Import

/-!
# What compaction keeps

`compact_memory_path_history` ranks the closed rows of a path by version, in any order within one,
and deletes those behind the first `keep`. A path stored again after an expiry numbers its versions
from `1` again, so a later row can rank behind an earlier one.
-/

namespace Pcmi.Memory

open List Pcmi.Go Pcmi.Lib

def closedRows (tenantId : String) (path : Ltree) (rows : List Row) : List Row :=
  rows.filter fun r => r.at tenantId path && !r.isOpen

/-- The key of `ROW_NUMBER() OVER (ORDER BY version DESC)`. -/
def byVersion (r : Row) : Intᵒᵈ := OrderDual.toDual r.version

/-- `compact_memory_path_history`, with rows ranked by `rank`. -/
def compactMemoryPathHistoryBy (rank : List Row → List Row) (tenantId : String) (path : Ltree)
    (keep : Int) (rows : List Row) : Except String (List Row) :=
  if keep < 1 then .error "p_keep_superseded must be >= 1"
  else if 500 < keep then .error "p_keep_superseded must be <= 500"
  else
    let ids := ((rank (closedRows tenantId path rows)).drop keep.toNat).map (·.id)
    .ok (rows.filter fun r => !ids.contains r.id)

def compactPathHistoryBy (rank : List Row → List Row) (env : Env) (tenantId path : String)
    (keepSuperseded : Int) (rows : List Row) : Except String (List Row) :=
  let path := trimSpaceText path
  if path = "" then .error "path is required"
  else
    let keep := if keepSuperseded < 1 then 20 else keepSuperseded
    let keep := if 500 < keep then 500 else keep
    match env.castLtree path with
    | none => .error "compact path history: invalid ltree"
    | some ltree =>
      match compactMemoryPathHistoryBy rank tenantId ltree keep rows with
      | .error e => .error ("compact path history: " ++ e)
      | .ok rows => .ok rows

/-- Both rows are closed, the first one earlier. -/
def Row.EndedBefore (b a : Row) : Prop := ∃ e ∈ b.validTo, ∃ e' ∈ a.validTo, e < e'

instance (b a : Row) : Decidable (b.EndedBefore a) :=
  decidable_of_iff ((b.validTo.any fun e => a.validTo.any fun e' => decide (e < e')) = true) <| by
    simp [Row.EndedBefore, Option.any_eq_true]

/-- Every open row is left, and as many closed rows as asked for; none that is gone ended after one
that is left. -/
structure KeepsLatest (tenantId : String) (path : Ltree) (keep : Nat) (rows rows' : List Row) :
    Prop where
  sublist : rows'.Sublist rows
  openRows : ∀ r ∈ rows, r.isOpen = true → r ∈ rows'
  count : (closedRows tenantId path rows').length = min keep (closedRows tenantId path rows).length
  latest : ∀ k ∈ closedRows tenantId path rows', ∀ d ∈ closedRows tenantId path rows, d ∉ rows' →
    ¬k.EndedBefore d

/-- Two closed rows of which the one that ended earlier may be kept. -/
def Straddles (tenantId : String) (path : Ltree) (keep : Nat) (rows : List Row) : Prop :=
  ∃ a ∈ closedRows tenantId path rows, ∃ b ∈ closedRows tenantId path rows, b.EndedBefore a ∧
    (closedRows tenantId path rows).countP (fun r => b.version < r.version) < keep ∧
    keep < (closedRows tenantId path rows).countP fun r => a.version ≤ r.version

instance (tenantId : String) (path : Ltree) (keep : Nat) (rows : List Row) :
    Decidable (Straddles tenantId path keep rows) :=
  inferInstanceAs (Decidable (∃ a ∈ _, ∃ b ∈ _, _))

variable {rows : List Row} {env : Env} {nextId : Nat} {clock : Time} {tenantId : String} {r : Row}
  {t : Table} {now : Time} {f : Row → Row} {s : Life}

theorem mem_closedRows_iff {path : Ltree} :
    r ∈ closedRows tenantId path rows ↔
      r ∈ rows ∧ (r.tenantId = tenantId ∧ r.path = path) ∧ r.isOpen = false := by
  simp [closedRows, Row.at]

/-! ## The rows that are left -/

section

variable {tenantId : String} {path : Ltree} {keep : Nat} {rows ranked : List Row}

def cutRows (ranked : List Row) (keep : Nat) (rows : List Row) : List Row :=
  rows.filter fun r => !((ranked.drop keep).map (·.id)).contains r.id

theorem mem_cutRows_iff (hids : (rows.map Row.id).Nodup)
    (hranked : ranked.Perm (closedRows tenantId path rows)) {r : Row} :
    r ∈ cutRows ranked keep rows ↔ r ∈ rows ∧ r ∉ ranked.drop keep := by
  have hdropped : ∀ d ∈ ranked.drop keep, d ∈ rows := by
    intro d hd
    exact mem_of_mem_filter (hranked.mem_iff.mp (mem_of_mem_drop hd))
  rw [cutRows, mem_filter]
  refine and_congr_right fun hr => ?_
  simp only [Bool.not_eq_true', contains_eq_mem, decide_eq_false_iff_not, mem_map,
    not_exists, not_and]
  constructor
  · intro hid hd
    exact hid r hd rfl
  · intro hd d hd' hid
    exact hd (inj_on_of_nodup_map hids (hdropped d hd') hr hid ▸ hd')

theorem closedRows_cutRows_perm (keep : Nat) (hids : (rows.map Row.id).Nodup)
    (hranked : ranked.Perm (closedRows tenantId path rows)) :
    (closedRows tenantId path (cutRows ranked keep rows)).Perm (ranked.take keep) := by
  have hrows : rows.Nodup := hids.of_map Row.id
  have hnodup : ranked.Nodup := hranked.nodup_iff.mpr (hrows.filter _)
  have hapart := disjoint_take_drop hnodup (le_refl keep)
  refine (perm_ext_iff_of_nodup ((hrows.filter _).filter _)
    (hnodup.sublist (take_sublist keep ranked))).mpr fun r => ?_
  have hmem : r ∈ closedRows tenantId path (cutRows ranked keep rows) ↔
      r ∈ ranked ∧ r ∉ ranked.drop keep := by
    rw [closedRows, mem_filter, mem_cutRows_iff hids hranked, hranked.mem_iff, closedRows,
      mem_filter, and_right_comm]
  refine hmem.trans ⟨?_, ?_⟩
  · rintro ⟨hr, hd⟩
    rw [← take_append_drop keep ranked] at hr
    exact (mem_append.mp hr).resolve_right hd
  · intro hr
    exact ⟨mem_of_mem_take hr, fun hd => hapart hr hd⟩

/-- What is left is right where no row behind the cut ended later. -/
theorem keepsLatest_cutRows_iff (hids : (rows.map Row.id).Nodup)
    (hranked : ranked.Perm (closedRows tenantId path rows)) :
    KeepsLatest tenantId path keep rows (cutRows ranked keep rows) ↔
      ∀ k ∈ ranked.take keep, ∀ d ∈ ranked.drop keep, ¬k.EndedBefore d := by
  have hperm := closedRows_cutRows_perm keep hids hranked
  constructor
  · intro h k hk d hd
    refine h.latest k (hperm.mem_iff.mpr hk) d (hranked.mem_iff.mp (mem_of_mem_drop hd)) ?_
    intro hleft
    exact ((mem_cutRows_iff hids hranked).mp hleft).2 hd
  · intro hcut
    refine ⟨filter_sublist, ?_, ?_, ?_⟩
    · intro r hr hopen
      refine (mem_cutRows_iff hids hranked).mpr ⟨hr, fun hd => ?_⟩
      have hclosed := mem_closedRows_iff.mp (hranked.mem_iff.mp (mem_of_mem_drop hd))
      exact absurd (hopen.symm.trans hclosed.2.2) (by decide)
    · rw [hperm.length_eq, length_take, hranked.length_eq]
    · intro k hk d hd hgone
      have hd' : d ∈ ranked.take keep ++ ranked.drop keep := by
        rw [take_append_drop]
        exact hranked.mem_iff.mpr hd
      rcases mem_append.mp hd' with hkept | hdropped
      · exact absurd (mem_of_mem_filter (hperm.mem_iff.mpr hkept)) hgone
      · exact hcut k (hperm.mem_iff.mp hk) d hdropped

theorem compactPathHistoryBy_eq {env : Env} {pathText : String} (rank : List Row → List Row)
    (hne : trimSpaceText pathText ≠ "")
    (hpath : env.castLtree (trimSpaceText pathText) = some path) (hpos : 1 ≤ keep)
    (hmax : keep ≤ 500) :
    compactPathHistoryBy rank env tenantId pathText keep rows =
      .ok (cutRows (rank (closedRows tenantId path rows)) keep rows) := by
  have hlow : ¬(keep : Int) < 1 := by omega
  have hhigh : ¬500 < (keep : Int) := by omega
  simp [compactPathHistoryBy, compactMemoryPathHistoryBy, cutRows, hne, hpath, hlow, hhigh]

/-- Some ranking drops a row that ended later than one it keeps. -/
theorem straddles_iff (hids : (rows.map Row.id).Nodup) :
    Straddles tenantId path keep rows ↔
      ∃ ranked, Arranges byVersion (closedRows tenantId path rows) ranked ∧
        ∃ b ∈ ranked.take keep, ∃ a ∈ ranked.drop keep, b.EndedBefore a := by
  have hnodup : (closedRows tenantId path rows).Nodup := (hids.of_map Row.id).filter _
  have hne : ∀ {a b : Row}, b.EndedBefore a → b ≠ a := by
    rintro a _ ⟨e, he, e', he', hlt⟩ rfl
    exact absurd (Option.mem_unique he he') (ne_of_lt hlt)
  constructor
  · rintro ⟨a, ha, b, hb, hended, hcounts⟩
    obtain ⟨ranked, harranges, hkept, hdropped⟩ : ∃ ranked,
        Arranges byVersion (closedRows tenantId path rows) ranked ∧ b ∈ ranked.take keep ∧
          a ∈ ranked.drop keep := (exists_cut_iff hnodup ha hb (hne hended)).mpr hcounts
    exact ⟨ranked, harranges, b, hkept, a, hdropped, hended⟩
  · rintro ⟨ranked, harranges, b, hkept, a, hdropped, hended⟩
    have ha := harranges.1.mem_iff.mp (mem_of_mem_drop hdropped)
    have hb := harranges.1.mem_iff.mp (mem_of_mem_take hkept)
    exact ⟨a, ha, b, hb, hended, harranges.of_cut hkept hdropped⟩

end

/-! ## Histories -/

theorem Serial.updated (hf : ∀ r, Row.Updated now r (f r)) (h : Serial t) :
    Serial { t with rows := t.rows.map f } where
  unique := by
    have hids : (t.rows.map f).map Row.id = t.rows.map Row.id := by
      rw [map_map]
      exact map_congr_left fun r _ => (hf r).id
    exact hids ▸ h.unique
  given := by
    intro r' hr'
    obtain ⟨r, hr, rfl⟩ := mem_map.mp hr'
    rw [(hf r).id]
    exact h.given r hr

theorem Serial.filter {t : Table} (p : Row → Bool) (h : Serial t) :
    Serial { t with rows := t.rows.filter p } where
  unique := h.unique.sublist (filter_sublist.map _)
  given := fun r hr => h.given r (mem_of_mem_filter hr)

theorem Serial.insert (hr : r.id = t.nextId) (h : Serial t) :
    Serial { rows := t.rows ++ [r], nextId := t.nextId + 1 } where
  unique := by
    rw [map_append, map_singleton, nodup_append]
    refine ⟨h.unique, nodup_singleton _, ?_⟩
    intro id hid id' hid' heq
    obtain ⟨r', hr', rfl⟩ := mem_map.mp hid
    rw [mem_singleton.mp hid', hr] at heq
    exact absurd heq (h.given r' hr').ne
  given := by
    refine forall_mem_concat (fun r' hr' => (h.given r' hr').trans (Nat.lt_succ_self _)) ?_
    rw [hr]
    exact Nat.lt_succ_self _

theorem serial_of_reaches (hrun : Reaches (Life.step env) (Life.start nextId clock) s) :
    Serial s.table := by
  refine Life.invariant (P := fun t _ => Serial t) ?_ hrun ⟨nodup_nil, by simp⟩
  rintro t c ctx op t' h - (⟨f, hf⟩ | ⟨p, -⟩ | ⟨tenantId, cols, -⟩)
  · exact h.updated hf
  · exact h.filter p
  · exact (h.updated (closeCurrent_updated tenantId cols.path ctx.now)).insert rfl

/-- **Compaction keeps the rows that ended last unless two straddle the cut.** -/
theorem compaction_keeps_latest_iff {env : Env} {nextId : Nat} {clock : Time} {s : Life}
    {tenantId pathText : String} {path : Ltree} {keep : Nat}
    (hrun : Reaches (Life.step env) (Life.start nextId clock) s)
    (hne : trimSpaceText pathText ≠ "")
    (hpath : env.castLtree (trimSpaceText pathText) = some path) (hpos : 1 ≤ keep)
    (hmax : keep ≤ 500) :
    (∀ rank : List Row → List Row, (∀ l, Arranges byVersion l (rank l)) →
      ∃ rows', compactPathHistoryBy rank env tenantId pathText keep s.table.rows = .ok rows' ∧
        KeepsLatest tenantId path keep s.table.rows rows') ↔
      ¬Straddles tenantId path keep s.table.rows := by
  have hids := (serial_of_reaches hrun).unique
  rw [straddles_iff hids]
  constructor
  · rintro hkeeps ⟨ranked, harranges, b, hkept, a, hdropped, hended⟩
    obtain ⟨rank, hrank, heq⟩ := harranges.exists_arranger
    obtain ⟨rows', hcompact, hlatest⟩ := hkeeps rank hrank
    rw [compactPathHistoryBy_eq rank hne hpath hpos hmax, heq] at hcompact
    obtain rfl := Except.ok.inj hcompact
    exact (keepsLatest_cutRows_iff hids harranges.1).mp hlatest b hkept a hdropped hended
  · intro hno rank hrank
    refine ⟨_, compactPathHistoryBy_eq rank hne hpath hpos hmax, ?_⟩
    refine (keepsLatest_cutRows_iff hids (hrank _).1).mpr fun b hkept a hdropped hended => ?_
    exact hno ⟨_, hrank _, b, hkept, a, hdropped, hended⟩

/-! ## A store behind an expiry -/

def storeThrice : List (Ctx × Op) :=
  [({ now := 0 }, .store { path := "notes", content := "a" } "t"),
   ({ now := 1 }, .store { path := "notes", content := "b" } "t"),
   ({ now := 2 }, .store { path := "notes", content := "c" } "t")]

def storeBehindExpiry : List (Ctx × Op) :=
  [({ now := 0 }, .store { path := "notes", content := "a" } "t"),
   ({ now := 1 }, .store { path := "notes", content := "b", expiresAt := some 2 } "t"),
   ({ now := 3 }, .expireTtl),
   ({ now := 4 }, .store { path := "notes", content := "c" } "t"),
   ({ now := 5 }, .store { path := "notes", content := "d" } "t")]

theorem compaction_keeps_latest_storeThrice :
    ∃ s, Reaches (Life.step plainEnv) (Life.start 1 0) s ∧
      s.table.rows.map (fun r => (r.content, r.validTo)) =
        [("a", some 1), ("b", some 2), ("c", none)] ∧
      ∀ rank : List Row → List Row, (∀ l, Arranges byVersion l (rank l)) →
        ∃ rows', compactPathHistoryBy rank plainEnv "t" "notes" (1 : Nat) s.table.rows = .ok rows' ∧
          KeepsLatest "t" ⟨["notes"]⟩ 1 s.table.rows rows' := by
  obtain ⟨s, hs, hrows, hno⟩ : ∃ s ∈ runAll (Life.step plainEnv) (Life.start 1 0) storeThrice,
      s.table.rows.map (fun r => (r.content, r.validTo)) =
        [("a", some 1), ("b", some 2), ("c", none)] ∧
      ¬ Straddles "t" ⟨["notes"]⟩ 1 s.table.rows := by decide
  have hreaches := reaches_runAll (.refl _) hs
  exact ⟨s, hreaches, hrows, (compaction_keeps_latest_iff hreaches (by decide) (by decide)
    (by decide) (by decide)).mpr hno⟩

def rankByVersion (l : List Row) : List Row := l.insertionSort fun a b => b.version ≤ a.version

/-- **The row that ended last is deleted and an older one is kept.** -/
theorem compaction_drops_latest :
    (∀ l, Arranges byVersion l (rankByVersion l)) ∧
      ∃ s rows', Reaches (Life.step plainEnv) (Life.start 1 0) s ∧
      s.table.rows.map (fun r => (r.content, r.version, r.validTo)) =
        [("a", 1, some 1), ("b", 2, some 3), ("c", 1, some 5), ("d", 2, none)] ∧
      compactPathHistoryBy rankByVersion plainEnv "t" "notes" 1 s.table.rows = .ok rows' ∧
      rows'.map (·.content) = ["b", "d"] ∧ ¬KeepsLatest "t" ⟨["notes"]⟩ 1 s.table.rows rows' := by
  obtain ⟨s, hs, hrows, rows', hrows', hcontents, k, hk, d, hd, hgone, hlater⟩ :
      ∃ s ∈ runAll (Life.step plainEnv) (Life.start 1 0) storeBehindExpiry,
        s.table.rows.map (fun r => (r.content, r.version, r.validTo)) =
          [("a", 1, some 1), ("b", 2, some 3), ("c", 1, some 5), ("d", 2, none)] ∧
        ∃ rows' ∈ (compactPathHistoryBy rankByVersion plainEnv "t" "notes" 1
            s.table.rows).toOption, rows'.map (·.content) = ["b", "d"] ∧
          ∃ k ∈ closedRows "t" ⟨["notes"]⟩ rows', ∃ d ∈ closedRows "t" ⟨["notes"]⟩ s.table.rows,
            d.id ∉ rows'.map (·.id) ∧ k.EndedBefore d := by decide +kernel
  have harranges : ∀ l, Arranges byVersion l (rankByVersion l) :=
    fun l => ⟨perm_insertionSort _ l, pairwise_insertionSort _ l⟩
  refine ⟨harranges, s, rows', reaches_runAll (.refl _) hs, hrows, eq_ok_of_mem hrows', hcontents,
    fun hkeeps => ?_⟩
  exact hkeeps.latest k hk d hd (fun hleft => hgone (mem_map_of_mem hleft)) hlater

end Pcmi.Memory
