import Pcmi.Memory.Lifecycle

/-!
# Version numbers of a path

`Store` numbers a version from the row it closes, and from nothing else. On an expired path the next
store begins at `1` again.
-/

namespace Pcmi.Memory

open List Pcmi.Lib

/-- The rows of every path carry pairwise distinct version numbers. -/
def DistinctVersions (rows : List Row) : Prop :=
  ∀ tenantId path, ((rows.filter (Row.at tenantId path)).map (·.version)).Nodup

/-- An insert finds an open row at its path, or no row at all. -/
def opensOrFirst (env : Env) (s : Life) (a : Ctx × Op) : Bool :=
  match a.2.plan env a.1 s.table.rows with
  | some (.ok (.insert tenantId c)) =>
    s.table.rows.any (Row.current tenantId c.path) || !s.table.rows.any (Row.at tenantId c.path)
  | _ => true

/-- Versions at a path differ, and an open row has the largest. -/
def Row.VersionApart (a b : Row) : Prop :=
  a.tenantId = b.tenantId → a.path = b.path →
    a.version ≠ b.version ∧ (a.isOpen = true → b.version < a.version) ∧
      (b.isOpen = true → a.version < b.version)

variable {now : Time} {rows : List Row}

theorem Row.VersionApart.updated {a a' b b' : Row} (h : a.VersionApart b)
    (ha : Row.Updated now a a') (hb : Row.Updated now b b') : a'.VersionApart b' := by
  intro ht hp
  rw [ha.tenantId, hb.tenantId] at ht
  rw [ha.path, hb.path] at hp
  obtain ⟨hne, hopena, hopenb⟩ := h ht hp
  rw [ha.version, hb.version]
  exact ⟨hne, fun ho => hopena (ha.isOpen ho), fun ho => hopenb (hb.isOpen ho)⟩

theorem pairwise_versionApart_map {f : Row → Row} (hf : ∀ r, Row.Updated now r (f r))
    (h : rows.Pairwise Row.VersionApart) : (rows.map f).Pairwise Row.VersionApart :=
  h.map f fun a b hab => hab.updated (hf a) (hf b)

variable {r : Row} {tenantId : String}

theorem version_le_of_open (h : rows.Pairwise Row.VersionApart) {o : Row} (ho : o ∈ rows)
    (hr : r ∈ rows) (hopen : o.isOpen = true) (ht : r.tenantId = o.tenantId) (hp : r.path =
      o.path) :
    r.version ≤ o.version := by
  have hsymm : Std.Symm Row.VersionApart := ⟨fun a b hab ht hp =>
    ⟨(hab ht.symm hp.symm).1.symm, (hab ht.symm hp.symm).2.2, (hab ht.symm hp.symm).2.1⟩⟩
  by_cases he : r = o
  · rw [he]
  · exact le_of_lt ((h.forall hr ho he ht hp).2.2 hopen)

theorem version_lt_nextVersion {path : Ltree} (h : rows.Pairwise Row.VersionApart)
    (hcond : rows.any (Row.current tenantId path) = true ∨ rows.any (Row.at tenantId path) = false)
    (hr : r ∈ rows) (hat : r.at tenantId path = true) :
    r.version < nextVersion (rows.find? (Row.current tenantId path)) := by
  rcases hcond with hopen | hfirst
  · -- the closed row is the open one, which bounds the others
    obtain ⟨o, ho⟩ := Option.isSome_iff_exists.mp (find?_isSome.mpr (any_eq_true.mp hopen))
    have hcur : o.current tenantId path = true := find?_some ho
    simp only [Row.current, Row.at, Bool.and_eq_true, beq_iff_eq] at hcur hat
    have hle := version_le_of_open h (mem_of_find?_eq_some ho) hr hcur.2
      (hat.1.trans hcur.1.1.symm) (hat.2.trans hcur.1.2.symm)
    rw [ho]
    exact Int.lt_add_one_of_le hle
  · have hnone := any_eq_false.mp hfirst r hr
    exact absurd hat hnone

theorem pairwise_versionApart_insert {c : Columns} {id : Nat} (h : rows.Pairwise Row.VersionApart)
    (hcond : rows.any (Row.current tenantId c.path) = true ∨ rows.any (Row.at tenantId c.path) =
      false) :
    (closeCurrent tenantId c.path now rows ++
      [c.toRow tenantId id (nextVersion (rows.find? (Row.current tenantId c.path))) now]).Pairwise
        Row.VersionApart := by
  refine pairwise_append.mpr
    ⟨pairwise_versionApart_map (closeCurrent_updated tenantId c.path now) h, by simp, ?_⟩
  intro a ha b hb
  obtain ⟨r, hr, rfl⟩ := mem_map.mp ha
  rw [mem_singleton.mp hb]
  intro ht hp
  have hu := closeCurrent_updated tenantId c.path now r
  have hat : r.at tenantId c.path = true := by
    rw [← hu.at_eq, Row.at, ht, hp]
    simp [Columns.toRow]
  have hlt := version_lt_nextVersion h hcond hr hat
  refine ⟨?_, ?_, ?_⟩
  · rw [hu.version]
    exact ne_of_lt hlt
  · -- every row of the path is closed now
    intro hopen
    have hcur : r.current tenantId c.path = true := by
      simp [Row.current, hat, hu.isOpen hopen]
    simp [hcur] at hopen
  · intro _
    rw [hu.version]
    exact hlt

theorem distinctVersions_of_apart (h : rows.Pairwise Row.VersionApart) : DistinctVersions rows := by
  intro tenantId path
  refine pairwise_map.mpr ((h.filter _).imp_of_mem fun {a b} ha hb hab => ?_)
  have hata := (mem_filter.mp ha).2
  have hatb := (mem_filter.mp hb).2
  simp only [Row.at, Bool.and_eq_true, beq_iff_eq] at hata hatb
  exact (hab (hata.1.trans hatb.1.symm) (hata.2.trans hatb.2.symm)).1

theorem DistinctVersions.length_versionRows_le (h : DistinctVersions rows) (tenantId : String)
    (path : Ltree) (version : Int) : (versionRows tenantId path version rows).length ≤ 1 := by
  have hcount := nodup_iff_count_le_one.mp (h tenantId path) version
  rw [List.count, countP_map, countP_filter, countP_eq_length_filter] at hcount
  unfold versionRows
  convert hcount using 4 with r
  simp [Function.comp, Bool.and_comm]

/-- **Guarded runs keep the version numbers of every path distinct.** -/
theorem distinctVersions_of_opensOrFirst {env : Env} {nextId : Nat} {clock : Time} {s : Life}
    (hrun : Steps (Life.step env) (fun s a => opensOrFirst env s a = true)
      (Life.start nextId clock) s) :
    DistinctVersions s.table.rows ∧
      ∀ tenantId path version, (versionRows tenantId path version s.table.rows).length ≤ 1 := by
  have hapart : s.table.rows.Pairwise Row.VersionApart := by
    refine Life.invariant (P := fun t _ => t.rows.Pairwise Row.VersionApart) ?_ hrun .nil
    rintro t clock ctx op t' h hok (⟨f, hf⟩ | ⟨p, -⟩ | ⟨tenantId, c, hplan⟩)
    · exact pairwise_versionApart_map hf h
    · exact h.filter p
    · refine pairwise_versionApart_insert h ?_
      simpa [opensOrFirst, hplan] using hok
  have hdistinct := distinctVersions_of_apart hapart
  exact ⟨hdistinct, hdistinct.length_versionRows_le⟩

/-! ## A store after an expiry -/

def plainEnv : Env where
  encryptContent s := .ok s
  decryptContent s := .ok s
  contentHash s := s
  castLtree s := some ⟨[s]⟩
  castUuid s := some s
  quote s := s

/-- A memory that expires at `5` is stored at `0`, and once more. -/
def storeTwice : List (Ctx × Op) :=
  [({ now := 0 }, .store { path := "notes", content := "a", expiresAt := some 5 } "t"),
   ({ now := 1 }, .store { path := "notes", content := "b" } "t")]

def storeExpireStore : List (Ctx × Op) :=
  [({ now := 0 }, .store { path := "notes", content := "a", expiresAt := some 5 } "t"),
   ({ now := 10 }, .expireTtl),
   ({ now := 20 }, .store { path := "notes", content := "b" } "t")]

theorem distinctVersions_storeTwice :
    ∃ s, runAll (guarded (Life.step plainEnv) (fun s a => opensOrFirst plainEnv s a = true))
        (Life.start 1 0) storeTwice = some s ∧
      s.table.rows.map (·.version) = [1, 2] ∧
      DistinctVersions s.table.rows :=
  exists_some (by decide) fun _ hs =>
    (distinctVersions_of_opensOrFirst (steps_runAll (.refl _) hs)).1

/-- **Version `1` is given twice** when the row expired in between. -/
theorem storeExpireStore_repeats_version :
    ∃ s, Reaches (Life.step plainEnv) (Life.start 1 0) s ∧
      ¬ DistinctVersions s.table.rows ∧
      (versionRows "t" ⟨["notes"]⟩ 1 s.table.rows).map (fun r => (r.id, r.content)) =
        [(1, "a"), (2, "b")] := by
  obtain ⟨s, hs, hrepeats, hrows⟩ : ∃ s, Reaches (Life.step plainEnv) (Life.start 1 0) s ∧
      ¬ ((s.table.rows.filter (Row.at "t" ⟨["notes"]⟩)).map (·.version)).Nodup ∧
      (versionRows "t" ⟨["notes"]⟩ 1 s.table.rows).map (fun r => (r.id, r.content)) =
        [(1, "a"), (2, "b")] := exists_reaches storeExpireStore (by decide)
  exact ⟨s, hs, fun h => hrepeats (h "t" ⟨["notes"]⟩), hrows⟩

end Pcmi.Memory
