import Pcmi.Memory.Import
import Pcmi.Memory.Lifecycle

/-!
# Storing the current content again

Of all current rows of the tenant with the hash, dedup looks at the one created last, and in the
modes `skip` and `merge` compares its path with the request's. So a later copy at another path hides
the current version of the path itself.
-/

namespace Pcmi.Memory

open Pcmi.Go

def SameVersions (tenantId : String) (path : Ltree) (before after : List Row) : Prop :=
  (after.filter (Row.at tenantId path)).map Row.id =
    (before.filter (Row.at tenantId path)).map Row.id

instance (tenantId : String) (path : Ltree) (before after : List Row) :
    Decidable (SameVersions tenantId path before after) :=
  inferInstanceAs (Decidable (_ = _))

/-- `content_hash` of the row is that of a content, and not empty. -/
structure Row.Records (env : Env) (content : String) (r : Row) : Prop where
  column : r.contentHash = some (trimSpaceText (env.contentHash content))
  nonempty : trimSpaceText (env.contentHash content) ≠ ""

section

variable {tenantId : String} {path : Ltree} {t t' : Table}

theorem versions_map {f : Row → Row} (hat : ∀ r, (f r).at tenantId path = r.at tenantId path)
    (hid : ∀ r, (f r).id = r.id) (rows : List Row) :
    ((rows.map f).filter (Row.at tenantId path)).map Row.id =
      (rows.filter (Row.at tenantId path)).map Row.id := by
  have hat : Row.at tenantId path ∘ f = Row.at tenantId path := funext hat
  have hid : Row.id ∘ f = Row.id := funext hid
  rw [List.filter_map, List.map_map, hat, hid]

theorem SameRows.sameVersions (h : SameRows t t') : SameVersions tenantId path t.rows t'.rows := by
  obtain ⟨-, f, hrows, hf⟩ := h
  rw [SameVersions, hrows]
  refine versions_map ?_ (fun r => (hf r).1) t.rows
  intro r
  obtain ⟨-, htenant, hpath, -⟩ := hf r
  simp [Row.at, htenant, hpath]

theorem StoredAt.not_sameVersions (h : StoredAt tenantId path t t') :
    ¬SameVersions tenantId path t.rows t'.rows := by
  obtain ⟨-, now, r, hrows, -, hcur⟩ := h
  have hat : r.at tenantId path = true := (Bool.and_eq_true_iff.mp hcur).1
  have hclosed : SameVersions tenantId path t.rows (closeCurrent tenantId path now t.rows) :=
    versions_map (fun r => (closeCurrent_updated tenantId path now r).at_eq tenantId path)
      (fun r => (closeCurrent_updated tenantId path now r).id) t.rows
  rw [SameVersions] at hclosed ⊢
  rw [hrows, List.filter_append, List.map_append, hclosed]
  simp [hat]

end

section

variable {env : Env} {settings : DedupSettings} {req : StoreRequest} {tenantId : String}
  {path : Ltree} {mode : DedupMode} {rows : List Row} {plan : Plan} {r : Row} {now : Time}
  {s s' : Tables}

theorem newestCreated_ne_none (hr : r ∈ rows) : newestCreated rows ≠ none := by
  cases rows with
  | nil => cases hr
  | cons a rows =>
    unfold newestCreated
    split
    · exact Option.some_ne_none a
    · split <;> exact Option.some_ne_none _

/-- A row with the hash makes the lookup find one, if not this one. -/
theorem findCurrentByContentHash_ne_none {content : String} (hr : r ∈ rows)
    (hcur : r.current tenantId path = true) (hhash : r.Records env content) :
    findCurrentByContentHash env tenantId (env.contentHash content) rows ≠ .ok none := by
  obtain ⟨htenant, -, hopen⟩ := Row.current_iff.mp hcur
  have hselected : r ∈ rows.filter fun r => r.tenantId == tenantId &&
      r.contentHash == some (trimSpaceText (env.contentHash content)) && r.isOpen := by
    simp [hr, htenant, hopen, hhash.column]
  unfold findCurrentByContentHash
  dsimp only
  rw [if_neg hhash.nonempty]
  split
  · next hnone => exact absurd hnone (newestCreated_ne_none hselected)
  · next e he => cases scanMemoryEntry env e <;> exact nofun

theorem serviceStore_of_runStore (h : runStore env settings req tenantId now s = .ok (plan, s')) :
    serviceStore env settings req tenantId s.memories.rows = .ok plan := by
  unfold runStore at h
  split at h
  · cases h
  next plan' hplan =>
  split at h <;> cases h
  exact hplan

theorem exists_found_of_serviceStore (hmode : resolveDedupMode env settings req = .ok mode)
    (hdedup : mode ≠ .none) (h : serviceStore env settings req tenantId rows = .ok plan) :
    ∃ found, findCurrentByContentHash env tenantId (env.contentHash req.content) rows =
      .ok found := by
  cases hfind : findCurrentByContentHash env tenantId (env.contentHash req.content) rows with
  | ok found => exact ⟨found, rfl⟩
  | error e =>
    have hfails : tryDedup env settings req tenantId (trimSpaceText req.path) rows = .error e := by
      cases mode with
      | none => exact absurd rfl hdedup
      | skip | link | merge => simp [tryDedup, hmode, hfind]
    simp [serviceStore, hfails] at h

theorem sameVersions_iff_intervenes (hpath : env.castLtree (trimSpaceText req.path) = some path)
    (hrun : runStore env settings req tenantId now s = .ok (plan, s')) :
    SameVersions tenantId path s.memories.rows s'.memories.rows ↔
      Intervenes env settings req tenantId s.memories.rows := by
  obtain ⟨hcase, hplan, -⟩ := runStore_ok hrun
  cases hcase with
  | stored c hno hcolumns =>
    obtain rfl : c.path = path :=
      Option.some.inj ((storedColumns_ok hcolumns).path.symm.trans hpath)
    exact iff_of_false (storedAt_insert hplan).not_sameVersions hno
  | skipped mode e hmode hskip hdup htext =>
    rw [← Except.ok.inj hplan]
    refine iff_of_true rfl ⟨mode, e, hmode, ?_, hdup, Or.inr htext⟩
    rintro rfl
    simp at hskip
  | linked e p hmode hdup htext hcast =>
    rw [← Except.ok.inj hplan]
    exact iff_of_true rfl ⟨.link, e, hmode, by decide, hdup, Or.inl rfl⟩
  | merged e p hmode hdup htext hcast =>
    exact iff_of_true (sameRows_merged hplan).sameVersions
      ⟨.merge, e, hmode, by decide, hdup, Or.inr htext⟩

theorem intervenes_iff {e : Row} (hmode : resolveDedupMode env settings req = .ok mode)
    (hdedup : mode ≠ .none)
    (hfind : findCurrentByContentHash env tenantId (env.contentHash req.content) rows =
      .ok (some e)) :
    Intervenes env settings req tenantId rows ↔
      env.contentHash e.content = env.contentHash req.content ∧
        (mode = .link ∨ e.path.text = trimSpaceText req.path) := by
  constructor
  · rintro ⟨mode', e', hmode', -, hdup, hcase⟩
    obtain rfl : mode = mode' := Except.ok.inj (hmode.symm.trans hmode')
    obtain rfl : e = e' := Option.some.inj (Except.ok.inj (hfind.symm.trans hdup.1))
    exact ⟨hdup.2, hcase⟩
  · rintro ⟨hhash, hcase⟩
    exact ⟨mode, e, hmode, hdedup, ⟨hfind, hhash⟩, hcase⟩

end

/-- **Storing the current content again adds no version** exactly if the row that the lookup returns
has the content and is at the path, or is to be linked. -/
theorem same_versions_iff {env : Env} {settings : DedupSettings} {req : StoreRequest}
    {tenantId : String} {now : Time} {s s' : Tables} {plan : Plan} {mode : DedupMode} {path : Ltree}
    {r : Row} (hmode : resolveDedupMode env settings req = .ok mode) (hdedup : mode ≠ .none)
    (hpath : env.castLtree (trimSpaceText req.path) = some path) (hr : r ∈ s.memories.rows)
    (hcur : r.current tenantId path = true) (hhash : r.Records env req.content)
    (hrun : runStore env settings req tenantId now s = .ok (plan, s')) :
    ∃ e, findCurrentByContentHash env tenantId (env.contentHash req.content) s.memories.rows =
        .ok (some e) ∧
      (SameVersions tenantId path s.memories.rows s'.memories.rows ↔
        env.contentHash e.content = env.contentHash req.content ∧
          (mode = .link ∨ e.path.text = trimSpaceText req.path)) := by
  obtain ⟨found, hfind⟩ :=
    exists_found_of_serviceStore hmode hdedup (serviceStore_of_runStore hrun)
  cases found with
  | none => exact absurd hfind (findCurrentByContentHash_ne_none hr hcur hhash)
  | some e =>
    refine ⟨e, hfind, ?_⟩
    rw [sameVersions_iff_intervenes hpath hrun, intervenes_iff hmode hdedup hfind]

def copied : Tables :=
  ⟨⟨[dedupRow 1 "x" "a", { dedupRow 2 "y" "a" with createdAt := 1 }], 3⟩, []⟩

def storeAgain (path dedupMode : String) : StoreRequest :=
  { path := path, content := "a", dedupMode := dedupMode }

theorem same_versions_newest :
    ∃ plan s', runStore dedupEnv {} (storeAgain "y" "skip") "t" 2 copied = .ok (plan, s') ∧
      SameVersions "t" ⟨["y"]⟩ copied.memories.rows s'.memories.rows := by
  obtain ⟨plan, s', hrun⟩ : ∃ plan s', runStore dedupEnv {} (storeAgain "y" "skip") "t" 2 copied =
      .ok (plan, s') := ⟨_, _, rfl⟩
  have hmode : resolveDedupMode dedupEnv {} (storeAgain "y" "skip") = .ok .skip := rfl
  have hpath : dedupEnv.castLtree (trimSpaceText (storeAgain "y" "skip").path) = some ⟨["y"]⟩ := by
    decide
  obtain ⟨e, hfind, hiff⟩ := same_versions_iff hmode (by decide) hpath
    (List.mem_cons_of_mem _ List.mem_cons_self) (by decide) ⟨by decide, by decide⟩ hrun
  refine ⟨plan, s', hrun, hiff.mpr ?_⟩
  cases hfind
  decide

/-- **The copy at `y` hides the current version of `x`.** -/
theorem copy_hides_current :
    (dedupRow 1 "x" "a").Records dedupEnv (storeAgain "x" "skip").content ∧
      ∃ plan s', runStore dedupEnv {} (storeAgain "x" "skip") "t" 2 copied = .ok (plan, s') ∧
        s'.memories.rows.map (fun r => (r.path.text, r.content, r.version, r.isOpen)) =
          [("x", "a", 1, false), ("y", "a", 1, true), ("x", "a", 2, true)] ∧
        ¬SameVersions "t" ⟨["x"]⟩ copied.memories.rows s'.memories.rows := by
  refine ⟨⟨by decide, by decide⟩, _, _, rfl, by decide +kernel, by decide +kernel⟩

end Pcmi.Memory
