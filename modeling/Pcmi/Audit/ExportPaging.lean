import Pcmi.Audit.Deletion
import Pcmi.Audit.ExportRoundTrip

/-!
# Exporting page by page (`AuditService.Export`)

One call exports at most `Limit` rows, in batches, and its trailer says where the next call starts.
`exportAll` repeats the call until a row carries the last number; a gap there is never passed, since
`complete` compares numbers and not rows.
-/

namespace Pcmi.Audit

open List Pcmi.Go Pcmi.Lib

/-! ## Options -/

structure AuditExportOptions where
  fromSeq : Int64
  toSeq : Int64
  limit : Int
  deriving DecidableEq

def auditExportDefaultLimit : Int := 10000

def auditExportMaxLimit : Int := 50000

def errAuditExportRange : Bytes :=
  ascii "invalid audit export range: need from_seq >= 1, to_seq = 0 or >= from_seq, " ++
    ascii "1 <= limit <= 50000"

def AuditExportOptions.withDefaults (o : AuditExportOptions) : AuditExportOptions where
  fromSeq := if o.fromSeq = 0 then 1 else o.fromSeq
  toSeq := o.toSeq
  limit := if o.limit = 0 then auditExportDefaultLimit else o.limit

def AuditExportOptions.outOfRange (o : AuditExportOptions) : Bool :=
  decide (o.fromSeq < 1) || decide (o.toSeq < 0) ||
    (decide (0 < o.toSeq) && decide (o.toSeq < o.fromSeq)) ||
    decide (o.limit < 1) || decide (auditExportMaxLimit < o.limit)

def AuditExportOptions.normalize (o : AuditExportOptions) : Except Bytes AuditExportOptions :=
  if o.withDefaults.outOfRange then .error errAuditExportRange else .ok o.withDefaults

/-- What `Normalize` lets through. -/
structure AuditExportOptions.Normal (o : AuditExportOptions) : Prop where
  fromSeq : 1 ≤ o.fromSeq.toInt
  range : 0 < o.toSeq.toInt → o.fromSeq.toInt ≤ o.toSeq.toInt
  toSeq : 0 ≤ o.toSeq.toInt
  limit : 1 ≤ o.limit
  maxLimit : o.limit ≤ auditExportMaxLimit

theorem AuditExportOptions.outOfRange_eq_false_iff {o : AuditExportOptions} :
    o.outOfRange = false ↔ o.Normal := by
  simp only [AuditExportOptions.outOfRange, Bool.or_eq_false_iff, Bool.and_eq_false_imp,
    decide_eq_true_eq, decide_eq_false_iff_not, Int64.lt_iff_toInt_lt, Int64.toInt_zero,
    Int64.toInt_one, Int.not_lt]
  constructor
  · rintro ⟨⟨⟨⟨hfrom, hto⟩, hrange⟩, hlimit⟩, hmax⟩
    exact ⟨hfrom, hrange, hto, hlimit, hmax⟩
  · intro h
    exact ⟨⟨⟨⟨h.fromSeq, h.toSeq⟩, h.range⟩, h.limit⟩, h.maxLimit⟩

theorem AuditExportOptions.normal_of_normalize {opts o : AuditExportOptions}
    (h : opts.normalize = .ok o) : o.Normal := by
  unfold AuditExportOptions.normalize at h
  split at h <;> cases h
  next hok => exact outOfRange_eq_false_iff.mp (Bool.eq_false_of_not_eq_true hok)

/-! ## One call -/

/-- The last number to export. -/
def exportEnd (headSeq toSeq : Int64) : Int64 :=
  if 0 < toSeq ∧ toSeq < headSeq then toSeq else headSeq

section

variable (sum : Bytes → Bytes) (hmac : Bytes → Bytes → Bytes)

/-- The loop of `Export`: the writer and the last number at its end. -/
def AuditLog.exportFrom (log : AuditLog) (tenantId : Bytes) (last : Int64) (limit : Int)
    (x : Writer) (after : Int64) (written : Nat) : Writer × Int64 :=
  if (written : Int) < limit ∧ after < last then
    let n := min auditChainBatchSize (limit - written).toNat
    let batch := log.chainBatch tenantId after last n
    -- a short batch is the last one
    if batch.length < n then (x.writeAll sum batch, afterBatch after batch)
    else
      log.exportFrom tenantId last limit (x.writeAll sum batch) (afterBatch after batch)
        (written + batch.length)
  else (x, after)
termination_by (limit - written).toNat
decreasing_by
  have : 0 < auditChainBatchSize := Nat.zero_lt_succ 999
  change (limit - ↑(written + batch.length)).toNat < (limit - ↑written).toNat
  omega

/-- `AuditService.Export`. -/
def AuditLog.auditExport (log : AuditLog) (tenantId : Bytes) (opts : AuditExportOptions)
    (now signingKey : Bytes) : Except Bytes (Trailer × Bytes) :=
  opts.normalize.bind fun opts =>
    let last := exportEnd (log.chainHead tenantId).1 opts.toSeq
    let page := log.exportFrom sum tenantId last opts.limit (newWriter tenantId)
      (opts.fromSeq - 1) 0
    -- `complete` compares numbers, so the loop has to have reached a row with the last one
    .ok (page.1.close sum hmac now (decide (last ≤ page.2)) (page.2 + 1) signingKey)

end

def AuditLog.chainTo (log : AuditLog) (tenantId : Bytes) (last : Int64) : List LogRow :=
  (log.chain tenantId).filter fun r => decide (r.chainSeq ≤ last)

theorem ascending_chainTo (log : AuditLog) (tenantId : Bytes) (last : Int64) :
    Ascending LogRow.seq (log.chainTo tenantId last) :=
  (ascending_chain log tenantId).filter _

theorem mem_chainTo {log : AuditLog} {tenantId : Bytes} {last : Int64} {r : LogRow} :
    r ∈ log.chainTo tenantId last ↔
      r ∈ log.rows ∧ r.tenantId = tenantId ∧ r.seq ≤ last.toInt := by
  rw [AuditLog.chainTo, mem_filter, mem_chain, decide_eq_true_eq, Int64.le_iff_toInt_le,
    and_assoc]
  rfl

section

variable {sum : Bytes → Bytes} {hmac : Bytes → Bytes → Bytes} {log : AuditLog} {tenantId : Bytes}
  {last after : Int64}

theorem chainBatch_of_ne_zero (h : last ≠ 0) (limit : Nat) :
    log.chainBatch tenantId after last limit =
      (page LogRow.seq after.toInt limit (log.chainTo tenantId last)).map LogRow.record := by
  rw [chainBatch_eq]
  simp only [h, decide_false, Bool.false_or]
  rfl

theorem ne_zero_of_lt (hafter : 0 ≤ after.toInt) (h : after < last) : last ≠ 0 := by
  rintro rfl
  have := Int64.lt_iff_toInt_lt.mp h
  rw [Int64.toInt_zero] at this
  omega

theorem above_chainTo_eq_nil (h : last.toInt ≤ after.toInt) :
    above LogRow.seq after.toInt (log.chainTo tenantId last) = [] := by
  refine eq_nil_iff_forall_not_mem.mpr fun r hr => ?_
  obtain ⟨hr, hlt⟩ := mem_above.mp hr
  have := (mem_chainTo.mp hr).2.2
  omega

/-- **The loop of `Export`** writes one page, in whatever batches. -/
theorem exportFrom_eq {limit : Int} {x : Writer} {written : Nat} (hafter : 0 ≤ after.toInt) :
    log.exportFrom sum tenantId last limit x after written =
      (x.writeAll sum ((page LogRow.seq after.toInt (limit - written).toNat
        (log.chainTo tenantId last)).map LogRow.record),
      afterBatch after ((page LogRow.seq after.toInt (limit - written).toNat
        (log.chainTo tenantId last)).map LogRow.record)) := by
  have hasc := ascending_chainTo log tenantId last
  -- along the loop; a short batch is the last page, a full one is followed by another
  fun_induction AuditLog.exportFrom sum log tenantId last limit x after written with
  | case1 x after written hgo n batch hshort =>
    have hbatch : batch = _ := chainBatch_of_ne_zero (ne_zero_of_lt hafter hgo.2) n
    rw [hbatch, length_map] at hshort
    have hall := page_eq_above hshort
    have hlength := congrArg List.length hall
    have hpage : page LogRow.seq after.toInt (limit - written).toNat
        (log.chainTo tenantId last) = above LogRow.seq after.toInt (log.chainTo tenantId last) :=
      take_of_length_le (by omega)
    rw [hbatch, hall, hpage]
  | case2 x after written hgo n batch hfull ih =>
    have hbatch : batch = _ := chainBatch_of_ne_zero (ne_zero_of_lt hafter hgo.2) n
    have hlength : (page LogRow.seq after.toInt n (log.chainTo tenantId last)).length = n := by
      rw [hbatch, length_map] at hfull
      exact Nat.le_antisymm (length_take_le _ _) (Nat.not_lt.mp hfull)
    have hpage := page_add hasc hlength ((limit - written).toNat - n)
    rw [Nat.add_sub_cancel' (Nat.min_le_right _ _)] at hpage
    have hkey : (afterBatch after batch).toInt = lastKey LogRow.seq after.toInt
        (page LogRow.seq after.toInt n (log.chainTo tenantId last)) := by
      rw [hbatch, afterBatch_map]
    have hrest : (limit - ↑(written + batch.length)).toNat = (limit - written).toNat - n := by
      rw [hbatch, length_map, hlength]
      omega
    rw [ih (hkey ▸ hafter.trans (le_lastKey_page _ _ _)), hrest, hkey, hpage, hbatch, map_append]
    refine Prod.ext ?_ ?_
    · exact foldl_append.symm
    · exact (lastKey_append after _ _).symm
  | case3 x after written hstop =>
    have hnil : page LogRow.seq after.toInt (limit - written).toNat
        (log.chainTo tenantId last) = [] := by
      by_cases hwritten : (written : Int) < limit
      · have hle : last.toInt ≤ after.toInt := by
          by_contra hlt
          exact hstop ⟨hwritten, Int64.lt_iff_toInt_lt.mpr (by omega)⟩
        rw [page, above_chainTo_eq_nil hle, take_nil]
      · rw [page, show (limit - written).toNat = 0 by omega, take_zero]
    rw [hnil]
    rfl

/-- The last number that a call asks for. -/
def AuditLog.exportLast (log : AuditLog) (tenantId : Bytes) (o : AuditExportOptions) : Int64 :=
  exportEnd (log.chainHead tenantId).1 o.toSeq

def AuditLog.exportRows (log : AuditLog) (tenantId : Bytes) (o : AuditExportOptions) :
    List LogRow :=
  page LogRow.seq (o.fromSeq - 1).toInt o.limit.toNat
    (log.chainTo tenantId (log.exportLast tenantId o))

/-- The last number that a call has exported, or the one before its first. -/
def AuditLog.exportAfter (log : AuditLog) (tenantId : Bytes) (o : AuditExportOptions) : Int64 :=
  afterBatch (o.fromSeq - 1) ((log.exportRows tenantId o).map LogRow.record)

theorem toInt_sub_one {x : Int64} (h : 1 ≤ x.toInt) : (x - 1).toInt = x.toInt - 1 := by
  have hlt := Int64.toInt_lt x
  rw [Int64.toInt_sub, Int64.toInt_one, Int.bmod_eq_of_le (by omega) (by omega)]

variable (sum hmac log tenantId) in
/-- **What one call returns.** -/
theorem auditExport_eq {opts o : AuditExportOptions} (ho : opts.normalize = .ok o)
    (now signingKey : Bytes) :
    ∃ t, log.auditExport sum hmac tenantId opts now signingKey =
        .ok (t, exportText ((log.exportRows tenantId o).map LogRow.record) t) ∧
      t.complete = decide (log.exportLast tenantId o ≤ log.exportAfter tenantId o) ∧
      (t.complete = false → t.nextFromSeq = log.exportAfter tenantId o + 1) := by
  have hnormal := AuditExportOptions.normal_of_normalize ho
  have hafter : 0 ≤ (o.fromSeq - 1).toInt := by
    have := hnormal.fromSeq
    rw [toInt_sub_one this]
    omega
  have hcall : log.auditExport sum hmac tenantId opts now signingKey =
      .ok (((newWriter tenantId).writeAll sum
        ((log.exportRows tenantId o).map LogRow.record)).close sum hmac now
        (decide (log.exportLast tenantId o ≤ log.exportAfter tenantId o))
        (log.exportAfter tenantId o + 1) signingKey) := by
    rw [AuditLog.auditExport, ho, Except.bind]
    dsimp only
    rw [exportFrom_eq hafter, Int.natCast_zero, Int.sub_zero]
    rfl
  rw [hcall]
  cases hclose : ((newWriter tenantId).writeAll sum
      ((log.exportRows tenantId o).map LogRow.record)).close sum hmac now
      (decide (log.exportLast tenantId o ≤ log.exportAfter tenantId o))
      (log.exportAfter tenantId o + 1) signingKey with
  | mk t out =>
    obtain ⟨hout, ht, -⟩ := close_writeAll hclose
    have hcomplete : t.complete =
        decide (log.exportLast tenantId o ≤ log.exportAfter tenantId o) := by rw [ht]
    refine ⟨t, by rw [hout], hcomplete, fun hfalse => ?_⟩
    rw [ht]
    dsimp only
    rw [← hcomplete, hfalse]
    rfl

end

/-! ## Call after call -/

section

variable (sum : Bytes → Bytes) (hmac : Bytes → Bytes → Bytes)

/-- `Export` from `NextFromSeq` again until a trailer says `complete`. -/
def AuditLog.exportAll (log : AuditLog) (tenantId : Bytes) (now : Nat → Bytes)
    (signingKey : Bytes) : Nat → AuditExportOptions → Option (List (Trailer × Bytes))
  | 0, _ => none
  | calls + 1, opts =>
    (log.auditExport sum hmac tenantId opts (now calls) signingKey).toOption.bind fun p =>
      if p.1.complete then some [p]
      else
        (log.exportAll tenantId now signingKey calls { opts with fromSeq := p.1.nextFromSeq }).map
          (p :: ·)

end

/-- The texts of several calls hold these records, page by page. -/
def Holds (outs : List (Trailer × Bytes)) (rs : List Record) : Prop :=
  ∃ pages : List (List Record),
    List.Forall₂ (fun page (p : Trailer × Bytes) => p.2 = exportText page p.1) pages outs ∧
      pages.flatten = rs

theorem Holds.cons {outs : List (Trailer × Bytes)} {rs page : List Record} {t : Trailer}
    (h : Holds outs rs) : Holds ((t, exportText page t) :: outs) (page ++ rs) := by
  obtain ⟨pages, hpages, rfl⟩ := h
  exact ⟨page :: pages, .cons rfl hpages, rfl⟩

section

variable {sum : Bytes → Bytes} {hmac : Bytes → Bytes → Bytes} {log : AuditLog} {tenantId : Bytes}
  {now : Nat → Bytes} {signingKey : Bytes} {opts o : AuditExportOptions}

theorem normalize_next (ho : opts.normalize = .ok o) {next : Int64}
    (hnext : ({ o with fromSeq := next } : AuditExportOptions).Normal) :
    ({ opts with fromSeq := next } : AuditExportOptions).normalize =
      .ok { o with fromSeq := next } := by
  have hdefaults : o = opts.withDefaults := by
    unfold AuditExportOptions.normalize at ho
    split at ho
    · cases ho
    · exact (Except.ok.inj ho).symm
  have hne : next ≠ 0 := by
    rintro rfl
    have := hnext.fromSeq
    rw [Int64.toInt_zero] at this
    omega
  have heq : ({ opts with fromSeq := next } : AuditExportOptions).withDefaults =
      { o with fromSeq := next } := by
    rw [hdefaults, AuditExportOptions.withDefaults, if_neg hne]
    rfl
  rw [AuditExportOptions.normalize, heq, AuditExportOptions.outOfRange_eq_false_iff.mpr hnext]
  rfl

theorem exportEnd_le {headSeq toSeq : Int64} (h : 0 < toSeq.toInt) :
    (exportEnd headSeq toSeq).toInt ≤ toSeq.toInt := by
  unfold exportEnd
  split
  · exact le_refl _
  next hnot =>
  by_contra hlt
  refine hnot ⟨Int64.lt_iff_toInt_lt.mpr h, Int64.lt_iff_toInt_lt.mpr (by omega)⟩

theorem toInt_exportAfter (o : AuditExportOptions) : (log.exportAfter tenantId o).toInt =
    lastKey LogRow.seq (o.fromSeq - 1).toInt (log.exportRows tenantId o) := afterBatch_map _ _

/-- A call that stops early leaves a next number in range. -/
theorem normal_next (ho : o.Normal)
    (hlt : (log.exportAfter tenantId o).toInt < (log.exportLast tenantId o).toInt) :
    ({ o with fromSeq := log.exportAfter tenantId o + 1 } : AuditExportOptions).Normal := by
  have hafter : (o.fromSeq - 1).toInt ≤ (log.exportAfter tenantId o).toInt := by
    rw [toInt_exportAfter]
    exact le_lastKey_page _ _ _
  rw [toInt_sub_one ho.fromSeq] at hafter
  have hfrom := ho.fromSeq
  have hsucc : (log.exportAfter tenantId o + 1).toInt = (log.exportAfter tenantId o).toInt + 1 := by
    have := Int64.toInt_lt (log.exportLast tenantId o)
    rw [Int64.toInt_add, Int64.toInt_one, Int.bmod_eq_of_le (by omega) (by omega)]
  refine ⟨?_, fun hto => ?_, ho.toSeq, ho.limit, ho.maxLimit⟩
  · rw [hsucc]
    omega
  · have : (log.exportLast tenantId o).toInt ≤ o.toSeq.toInt := exportEnd_le hto
    rw [hsucc]
    exact hlt.trans_le this

theorem exportAll_succ (calls : Nat) (opts : AuditExportOptions) :
    log.exportAll sum hmac tenantId now signingKey (calls + 1) opts =
      (log.auditExport sum hmac tenantId opts (now calls) signingKey).toOption.bind fun p =>
        if p.1.complete then some [p]
        else (log.exportAll sum hmac tenantId now signingKey calls
          { opts with fromSeq := p.1.nextFromSeq }).map (p :: ·) := rfl

theorem exportAll_of_le (ho : opts.normalize = .ok o)
    (hle : (log.exportLast tenantId o).toInt ≤ (log.exportAfter tenantId o).toInt) (calls : Nat) :
    ∃ t, log.exportAll sum hmac tenantId now signingKey (calls + 1) opts =
      some [(t, exportText ((log.exportRows tenantId o).map LogRow.record) t)] := by
  obtain ⟨t, hcall, hcomplete, -⟩ := auditExport_eq sum hmac log tenantId ho (now calls) signingKey
  have htrue : t.complete = true :=
    hcomplete.trans (decide_eq_true (Int64.le_iff_toInt_le.mpr hle))
  refine ⟨t, ?_⟩
  rw [exportAll_succ, hcall]
  exact if_pos htrue

theorem exportAll_of_lt (ho : opts.normalize = .ok o)
    (hlt : (log.exportAfter tenantId o).toInt < (log.exportLast tenantId o).toInt) (calls : Nat) :
    ∃ t, log.exportAll sum hmac tenantId now signingKey (calls + 1) opts =
      (log.exportAll sum hmac tenantId now signingKey calls
        { opts with fromSeq := log.exportAfter tenantId o + 1 }).map
        ((t, exportText ((log.exportRows tenantId o).map LogRow.record) t) :: ·) := by
  obtain ⟨t, hcall, hcomplete, hnext⟩ :=
    auditExport_eq sum hmac log tenantId ho (now calls) signingKey
  have hfalse : t.complete = false := by
    rw [hcomplete, decide_eq_false_iff_not, Int64.le_iff_toInt_le]
    omega
  refine ⟨t, ?_⟩
  rw [exportAll_succ, hcall, ← hnext hfalse]
  exact if_neg (by rw [hfalse]; exact Bool.false_ne_true)

/-- **The calls end** when a row carries the last number. -/
theorem exists_exportAll (ho : opts.normalize = .ok o)
    (hrow : (o.fromSeq - 1).toInt < (log.exportLast tenantId o).toInt →
      ∃ r ∈ log.chainTo tenantId (log.exportLast tenantId o),
        r.seq = (log.exportLast tenantId o).toInt) :
    ∃ calls outs, log.exportAll sum hmac tenantId now signingKey calls opts = some outs ∧
      Holds outs ((above LogRow.seq (o.fromSeq - 1).toInt
        (log.chainTo tenantId (log.exportLast tenantId o))).map LogRow.record) := by
  have hasc := ascending_chainTo log tenantId (log.exportLast tenantId o)
  -- on the number of rows that are left
  induction hn : (above LogRow.seq (o.fromSeq - 1).toInt
    (log.chainTo tenantId (log.exportLast tenantId o))).length using Nat.strong_induction_on
    generalizing opts o with
  | h n ih =>
    have hnormal := AuditExportOptions.normal_of_normalize ho
    have hpages := page_append_above hasc (o.fromSeq - 1).toInt o.limit.toNat
    rw [← AuditLog.exportRows, ← toInt_exportAfter] at hpages
    by_cases hle : (log.exportLast tenantId o).toInt ≤ (log.exportAfter tenantId o).toInt
    · obtain ⟨t, hrun⟩ := exportAll_of_le ho hle 0
      refine ⟨1, _, hrun, ?_⟩
      rw [above_chainTo_eq_nil hle] at hpages
      rw [← hpages, map_append]
      exact Holds.cons ⟨[], .nil, rfl⟩
    · have hlt := Int.not_le.mp hle
      have hafter : (o.fromSeq - 1).toInt ≤ (log.exportAfter tenantId o).toInt := by
        rw [toInt_exportAfter]
        exact le_lastKey_page _ _ _
      obtain ⟨r, hr, hseq⟩ := hrow (by omega)
      have hne : log.exportRows tenantId o ≠ [] := by
        have hmem : r ∈ above LogRow.seq (o.fromSeq - 1).toInt
            (log.chainTo tenantId (log.exportLast tenantId o)) := mem_above.mpr ⟨hr, by omega⟩
        have := hnormal.limit
        rw [AuditLog.exportRows, page, Ne, take_eq_nil_iff, not_or]
        exact ⟨by omega, ne_nil_of_mem hmem⟩
      have hless := length_above_lt hasc hne
      rw [← AuditLog.exportRows, ← toInt_exportAfter] at hless
      have hsub : log.exportAfter tenantId o + 1 - 1 = log.exportAfter tenantId o :=
        Int64.add_sub_cancel _ _
      obtain ⟨calls, outs, hrun, hholds⟩ := ih _ (hn ▸ hless)
        (normalize_next ho (normal_next hnormal hlt)) (fun _ => ⟨r, hr, hseq⟩) hasc
        (by dsimp only; rw [hsub]; rfl)
      obtain ⟨t, hrun'⟩ := exportAll_of_lt ho hlt calls
      refine ⟨calls + 1, _, hrun'.trans (by rw [hrun]; rfl), ?_⟩
      rw [← hpages, map_append]
      dsimp only at hholds
      rw [hsub] at hholds
      exact hholds.cons

/-- **The calls do not end** when no row carries the last number. -/
theorem exportAll_eq_none (ho : opts.normalize = .ok o)
    (hlt : (o.fromSeq - 1).toInt < (log.exportLast tenantId o).toInt)
    (hgap : ∀ r ∈ log.chainTo tenantId (log.exportLast tenantId o),
      r.seq ≠ (log.exportLast tenantId o).toInt) (calls : Nat) :
    log.exportAll sum hmac tenantId now signingKey calls opts = none := by
  induction calls generalizing opts o with
  | zero => rfl
  | succ calls ih =>
    have hafter : (log.exportAfter tenantId o).toInt < (log.exportLast tenantId o).toInt := by
      rw [toInt_exportAfter, lastKey]
      cases hr : (log.exportRows tenantId o).getLast? with
      | none => exact hlt
      | some r =>
        have hmem := (mem_above.mp (mem_of_mem_take (mem_of_getLast? hr))).1
        have hle : r.seq ≤ (log.exportLast tenantId o).toInt := (mem_chainTo.mp hmem).2.2
        exact lt_of_le_of_ne hle (hgap r hmem)
    have hnext := normal_next (AuditExportOptions.normal_of_normalize ho) hafter
    obtain ⟨t, hrun⟩ := exportAll_of_lt ho hafter calls
    rw [hrun, ih (normalize_next ho hnext) _ hgap, Option.map_none]
    dsimp only
    rwa [Int64.add_sub_cancel]

/-- The head of a chain with rows is the number of its last row. -/
theorem exists_chainHead (h : 0 < (log.chainHead tenantId).1.toInt) :
    ∃ r ∈ log.rows, r.tenantId = tenantId ∧ r.seq = (log.chainHead tenantId).1.toInt := by
  unfold AuditLog.chainHead at h ⊢
  split
  · next r hr =>
    have hmem : r ∈ log.chain tenantId := mem_of_getLast? hr
    obtain ⟨hrow, htenant⟩ := mem_chain.mp hmem
    exact ⟨r, hrow, htenant, rfl⟩
  · next hr =>
    rw [hr] at h
    exact absurd h (by decide)

/-- Unless the last number is a gap, a row carries it. -/
theorem exists_exportLast (hcond : o.toSeq = 0 ∨ (log.chainHead tenantId).1 ≤ o.toSeq ∨
      ∃ r ∈ log.rows, r.tenantId = tenantId ∧ r.chainSeq = o.toSeq)
    (hpos : 0 < (log.exportLast tenantId o).toInt) :
    ∃ r ∈ log.rows, r.tenantId = tenantId ∧ r.seq = (log.exportLast tenantId o).toInt := by
  unfold AuditLog.exportLast exportEnd at hpos ⊢
  split at hpos
  · next hbelow =>
    rw [if_pos hbelow]
    rcases hcond with h | h | ⟨r, hr, htenant, hseq⟩
    · rw [h] at hbelow
      exact absurd hbelow.1 (by decide)
    · exact absurd hbelow.2 (Int64.not_lt.mpr h)
    · exact ⟨r, hr, htenant, congrArg Int64.toInt hseq⟩
  · next hbelow =>
    rw [if_neg hbelow]
    exact exists_chainHead hpos

/-- The texts hold exactly the rows of a range, ascending. -/
def AuditLog.Exported (log : AuditLog) (tenantId : Bytes) (o : AuditExportOptions)
    (outs : List (Trailer × Bytes)) : Prop :=
  ∃ rows : List LogRow, Holds outs (rows.map LogRow.record) ∧ Ascending LogRow.seq rows ∧
    ∀ r, r ∈ rows ↔ r ∈ log.rows ∧ r.tenantId = tenantId ∧ o.fromSeq ≤ r.chainSeq ∧
      r.chainSeq ≤ exportEnd (log.chainHead tenantId).1 o.toSeq

/-- **A gap at `ToSeq` is never passed.** -/
theorem exportAll_of_gap (ho : opts.normalize = .ok o) (hzero : o.toSeq ≠ 0)
    (hhead : ¬ (log.chainHead tenantId).1 ≤ o.toSeq)
    (hgap : ∀ r ∈ log.rows, r.tenantId = tenantId → r.chainSeq ≠ o.toSeq) (calls : Nat) :
    log.exportAll sum hmac tenantId now signingKey calls opts = none := by
  have hnormal := AuditExportOptions.normal_of_normalize ho
  have hfrom := toInt_sub_one hnormal.fromSeq
  have hpos : 0 < o.toSeq.toInt := by
    have := hnormal.toSeq
    have hne : o.toSeq.toInt ≠ 0 := fun h0 => hzero (Int64.toInt_inj.mp h0)
    omega
  have hlast : log.exportLast tenantId o = o.toSeq :=
    if_pos ⟨Int64.lt_iff_toInt_lt.mpr hpos, Int64.not_le.mp hhead⟩
  have hrange := hnormal.range hpos
  refine exportAll_eq_none ho ?_ (fun r hr hseq => ?_) calls
  · rw [hlast]
    omega
  · rw [hlast] at hr hseq
    obtain ⟨hrow, htenant, -⟩ := mem_chainTo.mp hr
    exact hgap r hrow htenant (Int64.toInt_inj.mp hseq)

/-- **Export paging is complete** exactly when the last number asked for is not a gap. -/
theorem exportAll_exact_iff {opts o : AuditExportOptions} (ho : opts.normalize = .ok o) :
    (∃ calls outs, log.exportAll sum hmac tenantId now signingKey calls opts = some outs ∧
        log.Exported tenantId o outs) ↔
      o.toSeq = 0 ∨ (log.chainHead tenantId).1 ≤ o.toSeq ∨
        ∃ r ∈ log.rows, r.tenantId = tenantId ∧ r.chainSeq = o.toSeq := by
  have hnormal := AuditExportOptions.normal_of_normalize ho
  have hfrom := toInt_sub_one hnormal.fromSeq
  constructor
  · rintro ⟨calls, outs, hrun, -⟩
    by_contra hcond
    simp only [not_or, not_exists, not_and] at hcond
    obtain ⟨hzero, hhead, hgap⟩ := hcond
    rw [exportAll_of_gap ho hzero hhead hgap] at hrun
    cases hrun
  · intro hcond
    have hrow : (o.fromSeq - 1).toInt < (log.exportLast tenantId o).toInt →
        ∃ r ∈ log.chainTo tenantId (log.exportLast tenantId o),
          r.seq = (log.exportLast tenantId o).toInt := by
      intro hlt
      have hpos : 0 < (log.exportLast tenantId o).toInt := by
        have := hnormal.fromSeq
        omega
      obtain ⟨r, hr, htenant, hseq⟩ := exists_exportLast hcond hpos
      exact ⟨r, mem_chainTo.mpr ⟨hr, htenant, hseq.le⟩, hseq⟩
    obtain ⟨calls, outs, hrun, hholds⟩ := exists_exportAll ho hrow
    refine ⟨calls, outs, hrun, _, hholds, (ascending_chainTo log tenantId _).filter _, fun r => ?_⟩
    rw [mem_above, mem_chainTo, hfrom, Int64.le_iff_toInt_le, Int64.le_iff_toInt_le]
    constructor
    · rintro ⟨⟨hr, htenant, hle⟩, hlt⟩
      exact ⟨hr, htenant, Int.sub_one_lt_iff.mp hlt, hle⟩
    · rintro ⟨hr, htenant, hge, hle⟩
      exact ⟨⟨hr, htenant, hle⟩, Int.sub_one_lt_iff.mpr hge⟩

end

/-! ## A log with a gap -/

def gapLog : AuditLog := sampleLog.delete fun r => r.chainSeq == 2

def upTo (toSeq : Int64) : AuditExportOptions := ⟨1, toSeq, 1⟩

theorem normalize_upTo_two : (upTo 2).normalize = .ok (upTo 2) := by decide +kernel

theorem normalize_upTo_three : (upTo 3).normalize = .ok (upTo 3) := by decide +kernel

theorem exportAll_ends_at_row :
    ∃ calls outs, gapLog.exportAll sampleSum (fun _ message => message) firstRecord.tenantId
        (fun _ => ascii "2026-02-03T04:05:06Z") [] calls (upTo 3) = some outs ∧
      gapLog.Exported firstRecord.tenantId (upTo 3) outs :=
  (exportAll_exact_iff normalize_upTo_three).mpr (.inr (.inl (by decide +kernel)))

theorem exportAll_stuck_at_gap :
    (upTo 2).normalize = .ok (upTo 2) ∧
      (gapLog.chain firstRecord.tenantId).map (fun r => r.chainSeq) = [1, 3] ∧
      ∀ calls, gapLog.exportAll sampleSum (fun _ message => message) firstRecord.tenantId
        (fun _ => ascii "2026-02-03T04:05:06Z") [] calls (upTo 2) = none := by
  refine ⟨normalize_upTo_two, by decide +kernel, ?_⟩
  exact exportAll_eq_none normalize_upTo_two (by decide +kernel) (by decide +kernel)

end Pcmi.Audit
