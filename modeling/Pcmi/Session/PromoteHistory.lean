import Pcmi.Session.Promote

/-!
# Promotions and version histories

A promoted row takes its period and version to a path that may have closed rows, and nothing
compares the two.
-/

namespace Pcmi.Session

open List Pcmi.Lib Pcmi.Memory

/-! ## Histories in order -/

/-- Rows of a path share no instant and no version. -/
def HistoryApart (a b : Row) : Prop :=
  a.tenantId = b.tenantId → a.path = b.path →
    a.period.Disjoint b.period ∧ a.version ≠ b.version

/-- The histories of all paths are in order. -/
def Consistent (rows : List Row) : Prop := rows.Pairwise HistoryApart

theorem HistoryApart.symm {a b : Row} (h : HistoryApart a b) : HistoryApart b a :=
  fun htenant hpath =>
    ⟨(h htenant.symm hpath.symm).1.symm, (h htenant.symm hpath.symm).2.symm⟩

variable {rows : List Row}

theorem consistent_iff (hids : (rows.map Row.id).Nodup) : Consistent rows ↔
    ∀ a ∈ rows, ∀ b ∈ rows, a.id ≠ b.id → HistoryApart a b := by
  constructor
  · intro h a ha b hb hne
    have hsymm : Std.Symm HistoryApart := ⟨fun _ _ hab => hab.symm⟩
    exact h.forall ha hb fun heq => hne (congrArg Row.id heq)
  · intro h
    refine (pairwise_map.mp hids).imp_of_mem fun {a b} ha hb hne => ?_
    exact h a ha b hb hne

theorem Consistent.oneOpen (hids : (rows.map Row.id).Nodup) (h : Consistent rows) :
    OneOpen rows := by
  refine (oneOpen_iff hids).mpr fun a ha b hb hopena hopenb htenant hpath => ?_
  by_contra hne
  have hid : a.id ≠ b.id := fun hid => hne (inj_on_of_nodup_map hids ha hb hid)
  exact Period.not_disjoint_of_open (Row.isOpen_iff.mp hopena) (Row.isOpen_iff.mp hopenb)
    ((consistent_iff hids).mp h a ha b hb hid htenant hpath).1

theorem Consistent.nodup_versions (h : Consistent rows) :
    (rows.map fun r => (r.tenantId, r.path, r.version)).Nodup := by
  refine pairwise_map.mpr (h.imp fun {a b} hab heq => ?_)
  obtain ⟨htenant, hpath, hversion⟩ := by simpa using heq
  exact (hab htenant hpath).2 hversion

/-- The closed rows leave room for the period and version of a row. -/
def Fits (tenantId : String) (rows : List Row) (r : Row) (path : Ltree) : Prop :=
  ∀ c ∈ rows, c.tenantId = tenantId → c.path = path → c.isOpen = false →
    c.period.Disjoint r.period ∧ c.version ≠ r.version

/-! ## What a promotion does to the histories -/

section

variable {db : Db} {tenantId sessionId target : String} {rows batch : List Row}

theorem Kept.period {r r' : Row} (h : Kept r r') : r'.period = r.period := by
  rw [Row.period, h.validFrom, h.validTo, Row.period]

theorem notMem_movedIds_of_closed (hids : (rows.map Row.id).Nodup)
    (hsub : ∀ r ∈ batch, r ∈ openRows tenantId rows) {c : Row} (hc : c ∈ rows)
    (hclosed : c.isOpen = false) : c.id ∉ movedIds db tenantId sessionId target rows batch := by
  intro h
  have hbatch := mem_batch_of_moved hids (fun r hr => (mem_openRows.mp (hsub r hr)).1) hc h
  have hopen := (mem_openRows.mp (hsub c hbatch)).2.2
  rw [hclosed] at hopen
  exact nomatch hopen

theorem historyApart_promotedRow_iff {moved : List Nat} {c r : Row} (h : r.id ∈ moved) :
    HistoryApart c (promotedRow db sessionId target moved r) ↔
      (c.tenantId = r.tenantId → c.path = promoteTarget db sessionId target r →
        c.period.Disjoint r.period ∧ c.version ≠ r.version) := by
  have hkept : Kept r (promotedRow db sessionId target moved r) := promotedRow_kept moved r
  have hpath : (promotedRow db sessionId target moved r).path =
      promoteTarget db sessionId target r := by
    rw [promotedRow, if_pos h]
  rw [HistoryApart, hkept.tenantId, hpath, hkept.period, hkept.version]

/-- **The histories behind a promotion**: promoted rows fit the closed ones. -/
theorem consistent_promotedRows_iff (hids : (rows.map Row.id).Nodup) (hrows : Consistent rows)
    (hsub : ∀ r ∈ batch, r ∈ openRows tenantId rows) :
    Consistent (promotedRows db sessionId target
        (movedIds db tenantId sessionId target rows batch) rows) ↔
      ∀ r ∈ batch, r.id ∈ movedIds db tenantId sessionId target rows batch →
        Fits tenantId rows r (promoteTarget db sessionId target r) := by
  set moved := movedIds db tenantId sessionId target rows batch
  have hbatch : ∀ r ∈ batch, r ∈ rows := fun r hr => (mem_openRows.mp (hsub r hr)).1
  have hids' : ((promotedRows db sessionId target moved rows).map Row.id).Nodup := by
    rwa [map_id_promotedRows]
  have hclosed : ∀ c ∈ rows, c.isOpen = false → promotedRow db sessionId target moved c =
      c := fun c hc h =>
    promotedRow_of_notMem (notMem_movedIds_of_closed hids hsub hc h)
  rw [consistent_iff hids']
  constructor
  · intro h r hr hmoved c hc htenant hpath hc'
    obtain ⟨hrmem, hrtenant, hropen⟩ := mem_openRows.mp (hsub r hr)
    have hne : c.id ≠ r.id := by
      intro hid
      rw [inj_on_of_nodup_map hids hc hrmem hid, hropen] at hc'
      exact nomatch hc'
    have happart := h _ (mem_map.mpr ⟨c, hc, hclosed c hc hc'⟩) _ (mem_map_of_mem hrmem)
      fun hid => hne (hid.trans (promotedRow_kept _ r).id)
    exact (historyApart_promotedRow_iff hmoved).mp happart (htenant.trans hrtenant.symm) hpath
  · intro h
    -- a closed row and an open one, which may have moved
    have hmixed : ∀ c ∈ rows, c.isOpen = false → ∀ r ∈ rows, c.id ≠ r.id →
        HistoryApart c (promotedRow db sessionId target moved r) := by
      intro c hc hc' r hr hne
      by_cases hmoved : r.id ∈ moved
      · have hrbatch := mem_batch_of_moved hids hbatch hr hmoved
        refine (historyApart_promotedRow_iff hmoved).mpr fun htenant hpath => ?_
        exact h r hrbatch hmoved c hc
          (htenant.trans (mem_openRows.mp (hsub r hrbatch)).2.1) hpath hc'
      · rw [promotedRow_of_notMem hmoved]
        exact (consistent_iff hids).mp hrows c hc r hr hne
    intro a' ha' b' hb' hne
    obtain ⟨a, ha, rfl⟩ := mem_map.mp ha'
    obtain ⟨b, hb, rfl⟩ := mem_map.mp hb'
    have hne' : a.id ≠ b.id := by
      rwa [(promotedRow_kept _ a).id, (promotedRow_kept _ b).id] at hne
    cases hopena : a.isOpen with
    | false =>
      rw [hclosed a ha hopena]
      exact hmixed a ha hopena b hb hne'
    | true =>
      cases hopenb : b.isOpen with
      | false =>
        rw [hclosed b hb hopenb]
        exact (hmixed b hb hopenb a ha hne'.symm).symm
      | true =>
        -- no two open rows are at one path
        intro htenant hpath
        have heq := (oneOpen_iff hids').mp (oneOpen_promotedRows hids (hrows.oneOpen hids) hsub)
          _ ha' _ hb' ((promotedRow_kept _ a).isOpen.trans hopena)
          ((promotedRow_kept _ b).isOpen.trans hopenb) htenant hpath
        exact absurd (congrArg Row.id heq) hne

/-- **A promotion keeps the histories in order**, in any order of the rows, **exactly if** every row
that can be promoted fits the closed rows at its target. -/
theorem promote_consistent_iff {targetPrefix : String} (hids : (rows.map Row.id).Nodup)
    (hrows : Consistent rows) :
    (∀ batch l, batch.Perm (sessionRows db tenantId sessionId rows) →
        promote db tenantId sessionId targetPrefix batch rows = .ok l → Consistent l.rows) ↔
      ((∀ r ∈ sessionRows db tenantId sessionId rows,
          Castable db sessionId (targetOrRoot targetPrefix) r) →
        ∀ r, (moves db sessionId (targetOrRoot targetPrefix)).Movable (openRows tenantId rows)
            (sessionRows db tenantId sessionId rows) r →
          Fits tenantId rows r (promoteTarget db sessionId (targetOrRoot targetPrefix) r)) := by
  have hsession : ∀ r ∈ sessionRows db tenantId sessionId rows, r ∈ openRows tenantId rows :=
    fun r hr => sessionRows_subset hr
  have hmovable := fun r (hr : r ∈ openRows tenantId rows) =>
    Moves.exists_perm_iff_movable (m := moves db sessionId (targetOrRoot targetPrefix))
      (apart_openRows hids (hrows.oneOpen hids)) hsession hr
  constructor
  · intro h hcast r hr
    have hbatch : r ∈ sessionRows db tenantId sessionId rows := by
      cases hr with
      | intro _ hi _ _ => exact hi
    -- an order that promotes the row
    obtain ⟨order, hperm, hmoved⟩ := (hmovable r (hsession r hbatch)).mpr hr
    have hconsistent := h order _ hperm (promote_eq hids hperm hcast)
    exact (consistent_promotedRows_iff hids hrows fun r hr => hsession r (hperm.subset hr)).mp
      hconsistent r (hperm.symm.subset hbatch) hmoved
  · intro h batch l hperm hok
    obtain ⟨hcast, rfl⟩ := promote_ok hids hperm hok
    have hsub : ∀ r ∈ batch, r ∈ openRows tenantId rows :=
      fun r hr => hsession r (hperm.subset hr)
    refine (consistent_promotedRows_iff hids hrows hsub).mpr fun r hr hmoved => ?_
    exact h hcast r ((hmovable r (hsub r hr)).mp ⟨batch, hperm, hmoved⟩)

end

theorem consistent_of_nodup_paths (hids : (rows.map Row.id).Nodup)
    (hpaths : (rows.map fun r => r.path).Nodup) : Consistent rows :=
  (consistent_iff hids).mpr fun _ ha _ hb hne _ hpath =>
    absurd (congrArg Row.id (inj_on_of_nodup_map hpaths ha hb hpath)) hne

theorem promote_consistent_sampleRows : Consistent sampleRows ∧ ∀ batch l,
    batch.Perm (sessionRows plainDb "t" "s-1" sampleRows) →
      promote plainDb "t" "s-1" "" batch sampleRows = .ok l → Consistent l.rows := by
  have hids : (sampleRows.map Row.id).Nodup := by decide
  have hrows : Consistent sampleRows := consistent_of_nodup_paths hids (by decide)
  refine ⟨hrows, (promote_consistent_iff hids hrows).mpr fun _ r _ c hc _ _ hclosed => ?_⟩
  have hopen : ∀ c ∈ sampleRows, c.isOpen = true := by decide
  rw [hopen c hc] at hclosed
  exact nomatch hclosed

def clashRows : List Row :=
  [{ sampleRow 1 ["root", "a"] ∅ 1 with validTo := some 10 },
    { sampleRow 2 ["sessions", "s_1", "a"] (AList.singleton "session_id" (.str "s-1")) 1 with
      validFrom := 5 }]

/-- Both rows end at `root.a`, with version 1 and valid at 7. -/
theorem promote_clashRows : Consistent clashRows ∧
    ∃ l, promote plainDb "t" "s-1" "root" (sessionRows plainDb "t" "s-1" clashRows) clashRows =
        .ok l ∧
      (l.rows.filter fun r => r.at "t" ⟨["root", "a"]⟩ && temporalClause (some 7) r).length = 2 ∧
      ¬ Consistent l.rows := by
  refine ⟨consistent_of_nodup_paths (by decide) (by decide), ?_⟩
  obtain ⟨l, hl, hvalid, hversions⟩ := exists_ok (P := fun l =>
      (l.rows.filter fun r => r.at "t" ⟨["root", "a"]⟩ && temporalClause (some 7) r).length = 2 ∧
        ¬ (l.rows.map fun r => (r.tenantId, r.path, r.version)).Nodup)
    (x := promote plainDb "t" "s-1" "root" (sessionRows plainDb "t" "s-1" clashRows) clashRows)
    (by decide +kernel)
  exact ⟨l, hl, hvalid, fun h => hversions h.nodup_versions⟩

end Pcmi.Session
