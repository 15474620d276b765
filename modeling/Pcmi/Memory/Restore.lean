import Mathlib.Data.List.Dedup
import Pcmi.Memory.Dedup

/-!
# What a rollback restores

`Rollback` stores the chosen version again. Its request has no importance, so the row gets the
default; and where dedup intervenes nothing is inserted, and the current row is at most merged into.
-/

namespace Pcmi.Memory

open List Pcmi.Go Pcmi.Lib

/-! ## Agreement with a version -/

/-- A row as read has the columns of a version. -/
structure Agrees (version e : Row) : Prop where
  content : e.content = version.content
  metadata : ∀ key, e.metadata.lookup key = version.metadata.lookup key
  /-- A merge leaves the tags in no particular order. -/
  tags : ∀ tag, tag ∈ e.tags ↔ tag ∈ version.tags
  importance : e.importance = version.importance

/-- The current row at the path agrees with the version. -/
def Restored (env : Env) (tenantId path : String) (version : Row) (rows : List Row) : Prop :=
  ∃ p, env.castLtree path = some p ∧
    ∃ r ∈ rows, r.current tenantId p = true ∧ ∃ e, scanMemoryEntry env r = .ok e ∧ Agrees version e

/-- The current row has the version's content and importance, and no more. -/
def MergesInto (env : Env) (tenantId path : String) (version : Row) (rows : List Row) : Prop :=
  ∃ p, env.castLtree path = some p ∧
    ∃ r ∈ rows, r.current tenantId p = true ∧ ∃ e, scanMemoryEntry env r = .ok e ∧
      e.content = version.content ∧ (∀ key ∈ e.metadata, key ∈ version.metadata) ∧
      (∀ tag ∈ e.tags, tag ∈ version.tags) ∧ e.importance = version.importance

/-! ## The run of a rollback -/

def runRollback (env : Env) (settings : DedupSettings) (req : RollbackRequest) (tenantId : String)
    (now : Time) (s : Tables) : Except String (Plan × Tables) :=
  match rollback env settings req tenantId s.memories.rows with
  | .error e => .error e
  | .ok plan =>
    match plan.run now s.memories with
    | .error e => .error e
    | .ok memories => .ok (plan, ⟨memories, plan.runLinks env tenantId s.links⟩)

def restoredVersion (env : Env) (req : RollbackRequest) (tenantId : String) (rows : List Row) :
    Except String Row :=
  getHistoricalVersion env tenantId (trimSpaceText req.path) req.version req.asOf rows

/-- Where the rollback inserts, the default importance; where dedup merges, a current row with
nothing that the version lacks; where it skips or links, a current row as it is to be restored. -/
def Restorable (env : Env) (settings : DedupSettings) (path tenantId : String) (version : Row)
    (rows : List Row) : Prop :=
  let req := rollbackStoreRequest path version
  (¬ Intervenes env settings req tenantId rows ∧ version.importance = 1 / 2) ∨
    Intervenes env settings req tenantId rows ∧
      ((resolveDedupMode env settings req = .ok .merge ∧
          MergesInto env tenantId path version rows) ∨
        (resolveDedupMode env settings req ≠ .ok .merge ∧
          Restored env tenantId path version rows))

section

variable {env : Env} {settings : DedupSettings} {req : RollbackRequest} {tenantId : String}

theorem runRollback_ok {now : Time} {s s' : Tables} {plan : Plan}
    (h : runRollback env settings req tenantId now s = .ok (plan, s')) :
    ∃ version, restoredVersion env req tenantId s.memories.rows = .ok version ∧
      runStore env settings (rollbackStoreRequest (trimSpaceText req.path) version) tenantId now s =
        .ok (plan, s') := by
  unfold runRollback rollback at h
  dsimp only at h
  split at h
  · cases h
  next plan' hplan =>
  split at hplan
  · cases hplan
  split at hplan
  · cases hplan
  next version hversion =>
  refine ⟨version, hversion, ?_⟩
  rw [runStore, hplan]
  exact h

/-- What a row needs to agree with a version that is merged into it. -/
theorem agrees_mergeMetadata_iff {version e : Row} :
    Agrees version (e.mergeMetadata version.metadata version.tags) ↔
      e.content = version.content ∧ (∀ key ∈ e.metadata, key ∈ version.metadata) ∧
        (∀ tag ∈ e.tags, tag ∈ version.tags) ∧ e.importance = version.importance := by
  constructor
  · rintro ⟨hcontent, hmetadata, htags, himportance⟩
    refine ⟨hcontent, fun key hkey => ?_, fun tag htag => ?_, himportance⟩
    · by_contra hnot
      have hlookup := hmetadata key
      rw [Row.mergeMetadata, AList.lookup_union_right hnot, AList.lookup_eq_none.mpr hnot]
        at hlookup
      exact AList.lookup_eq_none.mp hlookup hkey
    · exact (htags tag).mp (mem_dedup.mpr (mem_append_left _ htag))
  · rintro ⟨hcontent, hkeys, htags, himportance⟩
    refine ⟨hcontent, fun key => ?_, fun tag => ?_, himportance⟩
    · by_cases hmem : key ∈ version.metadata
      · exact AList.lookup_union_left hmem
      · refine (AList.lookup_union_right hmem).trans ?_
        rw [AList.lookup_eq_none.mpr hmem,
          AList.lookup_eq_none.mpr fun hkey => hmem (hkeys key hkey)]
    · refine (mem_dedup.trans mem_append).trans ⟨?_, Or.inr⟩
      rintro (htag | htag)
      · exact htags tag htag
      · exact htag

section

variable {path : String} {version : Row} {rows : List Row} {c : Columns}

theorem eq_of_current_insert {now : Time} {id : Nat} {ver : Int} {r : Row}
    (hr : r ∈ closeCurrent tenantId c.path now rows ++ [c.toRow tenantId id ver now])
    (hcur : r.current tenantId c.path = true) : r = c.toRow tenantId id ver now := by
  rcases mem_append.mp hr with hr | hr
  · obtain ⟨r₀, -, rfl⟩ := mem_map.mp hr
    split at hcur
    · rw [Row.close_current] at hcur
      cases hcur
    · next hnot => exact absurd hcur hnot
  · exact mem_singleton.mp hr

/-- **An insert restores everything but the importance.** -/
theorem restored_insert_iff (henv : Decrypts env)
    (hof : ColumnsOf env (rollbackStoreRequest path version) c) (hpath : trimSpaceText path = path)
    (id : Nat) (ver : Int) (now : Time) :
    Restored env tenantId path version
        (closeCurrent tenantId c.path now rows ++ [c.toRow tenantId id ver now]) ↔
      version.importance = 1 / 2 := by
  have hcast : env.castLtree (trimSpaceText path) = some c.path := hof.path
  rw [hpath] at hcast
  have himportance : c.importance = 1 / 2 := hof.importance
  obtain ⟨e, hscan, hcontent⟩ : ∃ e, scanMemoryEntry env (c.toRow tenantId id ver now) = .ok e ∧
      e.content = version.content := hof.exists_scan henv id ver now
  obtain ⟨content, rfl⟩ := scanMemoryEntry_ok hscan
  constructor
  · rintro ⟨p, hcast', r, hr, hcur, e', hscan', hagrees⟩
    cases hcast.symm.trans hcast'
    rw [eq_of_current_insert hr hcur, hscan] at hscan'
    cases hscan'
    exact hagrees.importance.symm.trans himportance
  · intro hversion
    refine ⟨c.path, hcast, _, mem_append_right _ mem_cons_self, toRow_current, _, hscan,
      hcontent, fun key => ?_, fun tag => ?_, himportance.trans hversion.symm⟩
    · exact congrArg (AList.lookup key) hof.metadata
    · exact iff_of_eq (congrArg (tag ∈ ·) hof.tags)

theorem restored_merge_iff {p : Ltree} (hcast : env.castLtree path = some p) :
    Restored env tenantId path version
        (mergeCurrent tenantId p version.metadata version.tags rows) ↔
      MergesInto env tenantId path version rows := by
  constructor
  · rintro ⟨p', hcast', r', hr', hcur, e', hscan, hagrees⟩
    cases hcast.symm.trans hcast'
    obtain ⟨r, hr, rfl⟩ := mem_map.mp hr'
    split at hcur
    swap
    · next hnot => exact absurd hcur hnot
    next hcur' =>
    rw [if_pos hcur', scanMemoryEntry_mergeMetadata] at hscan
    obtain ⟨e, hplain, rfl⟩ := map_eq_ok hscan
    exact ⟨p, hcast, r, hr, hcur', e, hplain, agrees_mergeMetadata_iff.mp hagrees⟩
  · rintro ⟨p', hcast', r, hr, hcur, e, hscan, hfits⟩
    cases hcast.symm.trans hcast'
    refine ⟨p, hcast, r.mergeMetadata version.metadata version.tags, ?_, hcur, _, ?_,
      agrees_mergeMetadata_iff.mpr hfits⟩
    · exact mem_map.mpr ⟨r, hr, if_pos hcur⟩
    · rw [scanMemoryEntry_mergeMetadata, hscan]
      rfl

end

/-- Where dedup skips or links, the current row has to be what is restored. -/
theorem restorable_iff_of_kept {path : String} {version : Row} {rows : List Row}
    (hintervenes : Intervenes env settings (rollbackStoreRequest path version) tenantId rows)
    (hmode : resolveDedupMode env settings (rollbackStoreRequest path version) ≠ .ok .merge) :
    Restorable env settings path tenantId version rows ↔
      Restored env tenantId path version rows := by
  constructor
  · rintro (⟨hno, -⟩ | ⟨-, ⟨hmerge, -⟩ | ⟨-, h⟩⟩)
    · exact absurd hintervenes hno
    · exact absurd hmerge hmode
    · exact h
  · exact fun h => Or.inr ⟨hintervenes, Or.inr ⟨hmode, h⟩⟩

/-- **A rollback restores its version exactly if** it is restorable. -/
theorem rollback_restores_iff {now : Time} {s s' : Tables} {plan : Plan} {version : Row}
    (henv : Decrypts env)
    (h : runRollback env settings req tenantId now s = .ok (plan, s'))
    (hversion : restoredVersion env req tenantId s.memories.rows = .ok version) :
    Restored env tenantId (trimSpaceText req.path) version s'.memories.rows ↔
      Restorable env settings (trimSpaceText req.path) tenantId version s.memories.rows := by
  obtain ⟨version', hversion', hstore⟩ := runRollback_ok h
  cases hversion.symm.trans hversion'
  obtain ⟨memories, links⟩ := s'
  obtain ⟨hcase, hrun, -⟩ := runStore_ok hstore
  have htrim := trimSpaceText_trimSpaceText req.path
  cases hcase with
  | stored c hno hcolumns =>
    obtain ⟨ver, hrows⟩ := run_insert_ok hrun
    rw [hrows, restored_insert_iff henv (storedColumns_ok hcolumns) htrim]
    exact ⟨fun h => Or.inl ⟨hno, h⟩, fun h => h.elim And.right fun h => absurd h.1 hno⟩
  | skipped mode e hmode hskip hdup hpath =>
    cases hrun
    have hintervenes : Intervenes env settings _ tenantId s.memories.rows :=
      ⟨mode, e, hmode, by rcases hskip with rfl | rfl <;> decide, hdup, Or.inr hpath⟩
    refine (restorable_iff_of_kept hintervenes fun hmerge => ?_).symm
    cases hmode.symm.trans hmerge
    rcases hskip with h | h <;> cases h
  | linked e p hmode hdup hpath hcast =>
    cases hrun
    have hintervenes : Intervenes env settings _ tenantId s.memories.rows :=
      ⟨.link, e, hmode, by decide, hdup, Or.inl rfl⟩
    exact (restorable_iff_of_kept hintervenes fun hmerge => nomatch hmode.symm.trans hmerge).symm
  | merged e p hmode hdup hpath hcast =>
    have hintervenes : Intervenes env settings _ tenantId s.memories.rows :=
      ⟨.merge, e, hmode, by decide, hdup, Or.inr hpath⟩
    have hcast : env.castLtree (trimSpaceText (trimSpaceText req.path)) = some p := hcast
    rw [htrim] at hcast
    rw [run_merged_ok hrun]
    refine (restored_merge_iff hcast).trans ⟨fun h => Or.inr ⟨hintervenes, Or.inl ⟨hmode, h⟩⟩, ?_⟩
    rintro (⟨hno, -⟩ | ⟨-, ⟨-, h⟩ | ⟨hne, -⟩⟩)
    · exact absurd hintervenes hno
    · exact h
    · exact absurd hmode hne

end

/-! ## Back to the first version -/

def twoVersions (importance : ℚ) : Tables :=
  ⟨⟨[{ dedupRow 1 "x" "a" with importance := importance, validTo := some 5 },
    { dedupRow 2 "x" "b" with version := 2, validFrom := 5, createdAt := 5 }], 3⟩, []⟩

def rollbackToFirst : RollbackRequest := { path := "x", version := some 1 }

/-- **The restored row has lost the importance of its version.** -/
theorem rollback_loses_importance :
    ∃ version plan s',
      restoredVersion dedupEnv rollbackToFirst "t" (twoVersions (9 / 10)).memories.rows =
        .ok version ∧
      runRollback dedupEnv {} rollbackToFirst "t" 9 (twoVersions (9 / 10)) = .ok (plan, s') ∧
      s'.memories.rows.map (fun r => (r.isOpen, r.content, r.importance)) =
        [(false, "a", 9 / 10), (false, "b", 1 / 2), (true, "a", 1 / 2)] ∧
      ¬ Restored dedupEnv "t" (trimSpaceText "x") version s'.memories.rows := by
  obtain ⟨version, hversion, himportance⟩ := exists_ok (P := fun r => r.importance = 9 / 10)
    (x := restoredVersion dedupEnv rollbackToFirst "t" (twoVersions (9 / 10)).memories.rows)
    (by decide +kernel)
  obtain ⟨plan, s', hres, hrows, hlost⟩ := exists_ok_pair (P := fun _ s' =>
      s'.memories.rows.map (fun r => (r.isOpen, r.content, r.importance)) =
        [(false, "a", 9 / 10), (false, "b", 1 / 2), (true, "a", 1 / 2)] ∧
      ∀ r ∈ s'.memories.rows, r.isOpen = true → r.importance ≠ 9 / 10)
    (x := runRollback dedupEnv {} rollbackToFirst "t" 9 (twoVersions (9 / 10))) (by decide +kernel)
  refine ⟨version, plan, s', hversion, hres, hrows, ?_⟩
  rintro ⟨p, -, r, hr, hcur, e, hscan, hagrees⟩
  obtain ⟨content, rfl⟩ := scanMemoryEntry_ok hscan
  exact hlost r hr (Bool.and_eq_true_iff.mp hcur).2 (hagrees.importance.trans himportance)

theorem rollback_restores_default :
    ∃ version plan s',
      restoredVersion dedupEnv rollbackToFirst "t" (twoVersions (1 / 2)).memories.rows =
        .ok version ∧
      runRollback dedupEnv {} rollbackToFirst "t" 9 (twoVersions (1 / 2)) = .ok (plan, s') ∧
      Restored dedupEnv "t" (trimSpaceText rollbackToFirst.path) version s'.memories.rows := by
  obtain ⟨version, hversion, himportance⟩ := exists_ok (P := fun r => r.importance = 1 / 2)
    (x := restoredVersion dedupEnv rollbackToFirst "t" (twoVersions (1 / 2)).memories.rows)
    (by decide +kernel)
  obtain ⟨plan, s', hres, -⟩ := exists_ok_pair (P := fun _ _ => True)
    (x := runRollback dedupEnv {} rollbackToFirst "t" 9 (twoVersions (1 / 2))) (by decide +kernel)
  refine ⟨version, plan, s', hversion, hres, (rollback_restores_iff (fun plain cipher hcipher =>
    ?_) hres hversion).mpr (Or.inl ⟨?_, himportance⟩)⟩
  · cases hcipher
    rfl
  · -- no dedup mode is set
    rintro ⟨mode, e, hmode, hne, -⟩
    cases hmode
    exact hne rfl

end Pcmi.Memory
