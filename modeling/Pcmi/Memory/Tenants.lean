import Pcmi.Memory.Compaction

/-!
# Tenants

The statements of an operation name its tenant, or the ids of rows found under such a condition. All
tenants draw their ids from one sequence.
-/

namespace Pcmi.Memory

open List Pcmi.Go Pcmi.Lib

/-- The tenant that an operation works for; the workers sweep over all rows. -/
def Op.tenant : Op → Option String
  | .store _ tenantId | .serviceStore _ tenantId | .rollback _ tenantId | .compact tenantId .. =>
    some tenantId
  | _ => none

def rowsOf (tenantId : String) (rows : List Row) : List Row :=
  rows.filter fun r => r.tenantId == tenantId

variable {env : Env} {ctx : Ctx} {op : Op} {tenantId other : String} {rows rows' : List Row}
  {t t' : Table} {plan : Plan} {now : Time} {settings : DedupSettings}

theorem Row.tenantId_of_at {path : Ltree} {r : Row} {b : Bool}
    (h : (r.at tenantId path && b) = true) : r.tenantId = tenantId :=
  beq_iff_eq.mp (Bool.and_eq_true_iff.mp (Bool.and_eq_true_iff.mp h).1).1

/-! ## What is read -/

theorem filter_rowsOf {p : Row → Bool} (hp : ∀ r, p r = true → r.tenantId = tenantId)
    (rows : List Row) : (rowsOf tenantId rows).filter p = rows.filter p := by
  rw [rowsOf, filter_filter]
  refine filter_congr fun r _ => ?_
  cases h : p r with
  | false => rfl
  | true => simp [hp r h]

theorem serviceStore_rowsOf (req : StoreRequest) :
    serviceStore env settings req tenantId (rowsOf tenantId rows) =
      serviceStore env settings req tenantId rows := by
  have hfind : ∀ hash, findCurrentByContentHash env tenantId hash (rowsOf tenantId rows) =
      findCurrentByContentHash env tenantId hash rows := by
    intro hash
    unfold findCurrentByContentHash
    dsimp only
    rw [filter_rowsOf]
    intro r hr
    simp only [Bool.and_eq_true, beq_iff_eq] at hr
    exact hr.1.1
  unfold serviceStore tryDedup
  simp only [hfind]

theorem plan_rowsOf (h : op.tenant = some tenantId) :
    op.plan env ctx (rowsOf tenantId rows) = op.plan env ctx rows := by
  cases op with
  | store req | compact => rfl
  | serviceStore req =>
    cases h
    exact congrArg some (serviceStore_rowsOf req)
  | rollback req =>
    cases h
    have hhistorical : ∀ path version asOf, historicalRow tenantId path version asOf
        (rowsOf tenantId rows) = historicalRow tenantId path version asOf rows := by
      intro path version asOf
      unfold historicalRow versionRows temporalRows
      simp only [filter_rowsOf fun _ => Row.tenantId_of_at]
    simp only [Op.plan, rollback, getHistoricalVersion, hhistorical, serviceStore_rowsOf]
  | _ => cases h

/-! ## What is written -/

/-- The plan names no other tenant. -/
def Plan.For (tenantId : String) : Plan → Prop
  | .merged tn _ _ _ | .insert tn _ => tn = tenantId
  | _ => True

theorem serviceStore_for {req : StoreRequest}
    (h : serviceStore env settings req tenantId rows = .ok plan) : plan.For tenantId := by
  cases serviceStore_ok h with
  | skipped | linked => trivial
  | merged | stored => rfl

theorem plan_for (h : op.tenant = some tenantId)
    (hplan : op.plan env ctx rows = some (.ok plan)) : plan.For tenantId := by
  cases op with
  | store req =>
    cases h
    obtain ⟨c, -, rfl⟩ := map_eq_ok (Option.some.inj hplan)
    rfl
  | serviceStore req =>
    cases h
    exact serviceStore_for (Option.some.inj hplan)
  | rollback req =>
    cases h
    have hplan := Option.some.inj hplan
    unfold rollback at hplan
    dsimp only at hplan
    split at hplan
    · cases hplan
    split at hplan
    · cases hplan
    exact serviceStore_for hplan
  | _ => cases hplan

theorem map_current_other (hne : other ≠ tenantId) {path : Ltree} {f : Row → Row}
    (hf : ∀ r, Row.Updated now r (if r.current other path then f r else r)) (rows : List Row) :
    rowsOf tenantId (rows.map fun r => if r.current other path then f r else r) =
      rowsOf tenantId rows := by
  have hsame : (fun r : Row => r.tenantId == tenantId) ∘
      (fun r => if r.current other path then f r else r) = fun r => r.tenantId == tenantId :=
    funext fun r => congrArg (· == tenantId) (hf r).tenantId
  rw [rowsOf, filter_map, hsame]
  refine (map_congr_left fun r hr => if_neg fun hcurrent => hne ?_).trans (map_id _)
  exact (Row.tenantId_of_at hcurrent).symm.trans (beq_iff_eq.mp (mem_filter.mp hr).2)

theorem run_other (hne : other ≠ tenantId) (hfor : plan.For other)
    (h : plan.run now t = .ok t') :
    rowsOf tenantId t'.rows = rowsOf tenantId t.rows := by
  cases plan with
  | skipped | linked =>
    cases h
    rfl
  | merged tn path metadata tags =>
    cases hfor
    rw [run_merged_ok h, mergeCurrent]
    exact map_current_other hne (mergeCurrent_updated other path metadata tags now) t.rows
  | insert tn c =>
    cases hfor
    obtain ⟨version, hrows⟩ := run_insert_ok h
    rw [hrows, rowsOf, filter_append, filter_cons_of_neg (by simpa [Columns.toRow] using hne)]
    exact (append_nil _).trans (map_current_other hne (closeCurrent_updated other c.path now) _)

/-- Compaction deletes by id. -/
theorem cut_other (hne : other ≠ tenantId) (hids : (rows.map Row.id).Nodup) {path : Ltree}
    {keep : Int} (h : compactMemoryPathHistory other path keep rows = .ok rows') :
    rowsOf tenantId rows' = rowsOf tenantId rows := by
  unfold compactMemoryPathHistory at h
  split at h
  · cases h
  split at h <;> cases h
  rw [rowsOf, filter_comm]
  refine filter_eq_self.mpr fun r hr => ?_
  obtain ⟨hr, hown⟩ := mem_filter.mp hr
  simp only [Bool.not_eq_true', contains_eq_mem, decide_eq_false_iff_not, mem_map, not_exists,
    not_and]
  intro d hd hid
  obtain ⟨hd, hat⟩ := mem_filter.mp (mem_mergeSort.mp (mem_of_mem_drop hd))
  rw [inj_on_of_nodup_map hids hd hr hid] at hat
  exact hne ((Row.tenantId_of_at hat).symm.trans (beq_iff_eq.mp hown))

theorem apply_other (hne : other ≠ tenantId) (hids : (t.rows.map Row.id).Nodup)
    (h : op.tenant = some other) :
    rowsOf tenantId (op.apply env ctx t).rows = rowsOf tenantId t.rows := by
  unfold Op.apply
  split
  swap
  · rfl
  next t' hexec =>
  unfold Op.exec at hexec
  split at hexec
  · next plan hplan =>
    obtain ⟨plan, rfl, hrun⟩ := bind_eq_ok hexec
    exact run_other hne (plan_for h hplan) hrun
  next hnone =>
  obtain ⟨rows, hsweep, rfl⟩ := map_eq_ok hexec
  cases op with
  | compact _ path keep =>
    cases h
    simp only [Op.sweep, compactPathHistory] at hsweep
    split at hsweep
    · cases hsweep
    split at hsweep
    · cases hsweep
    split at hsweep <;> cases hsweep
    next hcut => exact cut_other hne hids hcut
  | store | serviceStore | rollback => cases hnone
  | _ => cases h

/-- **Tenants do not notice each other**: while others work, the rows of a tenant stay as they are,
and each of its stores and rollbacks would come to the same plan or error. -/
theorem tenants_isolated {env : Env} {nextId : Nat} {clock : Time} {s s' : Life} {tenantId : String}
    (hrun : Reaches (Life.step env) (Life.start nextId clock) s)
    (hothers : Steps (Life.step env) (fun _ a => ∃ u ∈ a.2.tenant, u ≠ tenantId) s s') :
    rowsOf tenantId s'.table.rows = rowsOf tenantId s.table.rows ∧
      ∀ ctx (op : Op), op.tenant = some tenantId →
        op.plan env ctx s'.table.rows = op.plan env ctx s.table.rows := by
  have hinv := hothers.invariant (P := fun v =>
    Reaches (Life.step env) (Life.start nextId clock) v ∧
      rowsOf tenantId v.table.rows = rowsOf tenantId s.table.rows) ?_ ⟨hrun, rfl⟩
  · refine ⟨hinv.2, fun ctx op htenant => ?_⟩
    rw [← plan_rowsOf htenant, hinv.2, plan_rowsOf htenant]
  · rintro u ⟨ctx, op⟩ v ⟨hu, hrows⟩ ⟨other, htenant, hne⟩ hstep
    refine ⟨hu.tail trivial hstep, ?_⟩
    cases hstep
    exact (apply_other hne (serial_of_reaches hu).unique htenant).trans hrows

theorem tenants_isolated_notes :
    ∃ s s' : Life, s'.table.rows.map (·.tenantId) = ["u", "t", "t"] ∧
      rowsOf "u" s'.table.rows = rowsOf "u" s.table.rows := by
  obtain ⟨s, hs, s', hs', hrows⟩ :
      ∃ s ∈ runAll (Life.step plainEnv) (Life.start 1 0)
          [({ now := 0 }, .store { path := "notes", content := "a" } "u")],
        ∃ s' ∈ runAll (guarded (Life.step plainEnv) fun _ a => ∃ v ∈ a.2.tenant, v ≠ "u") s
            storeTwice, s'.table.rows.map (·.tenantId) = ["u", "t", "t"] := by decide +kernel
  exact ⟨s, s', hrows,
    (tenants_isolated (reaches_runAll (.refl _) hs) (steps_runAll (.refl s) hs')).1⟩

end Pcmi.Memory
