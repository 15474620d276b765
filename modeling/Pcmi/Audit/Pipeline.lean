import Pcmi.Audit.Concurrent
import Pcmi.Audit.ExportPaging

/-!
# From concurrent inserts to a verified export

What sessions have committed, in any interleaving, is exported by `AuditService.Export` to a text
that `VerifyExport` accepts.
-/

namespace Pcmi.Audit

open List Pcmi.Go Pcmi.Lib

variable {sum : Bytes → Bytes} {tenantId : Bytes}

theorem ValidChain.of_isPrefix {rs rs' : List Record} (h : ValidChain sum tenantId rs')
    (hpre : rs <+: rs') : ValidChain sum tenantId rs := by
  obtain ⟨behind, rfl⟩ := hpre
  induction behind using List.reverseRecOn with
  | nil => rwa [append_nil] at h
  | append_singleton behind r ih => exact ih (append_assoc rs behind [r] ▸ h).of_snoc

/-- A page of a whole chain is a chain. -/
theorem validChain_exportRows {log : AuditLog} (o : AuditExportOptions)
    (h : Complete sum tenantId ((log.chain tenantId).map LogRow.record)) :
    ValidChain sum tenantId ((log.exportRows tenantId o).map LogRow.record) := by
  have hend : ValidChain sum tenantId
      ((above LogRow.seq (o.fromSeq - 1).toInt (log.chain tenantId)).map LogRow.record) := by
    simp only [above, ← not_le, decide_not]
    refine h.valid_filter fun a _ b _ hab ha => ?_
    rw [decide_eq_false_iff_not] at ha ⊢
    omega
  refine hend.of_isPrefix ((( take_prefix _ _).trans ?_).map _)
  rw [above, AuditLog.chainTo, filter_comm]
  refine filter_isPrefix ((h.ascending.filter _).imp fun hab hb => ?_)
  rw [decide_eq_true_iff, Int64.le_iff_toInt_le] at hb ⊢
  exact hab.le.trans hb

/-- **Every export of what was committed verifies.** -/
theorem concurrent_exports_verify (sum : Bytes → Bytes) (hmac : Bytes → Bytes → Bytes)
    (lockKey : Bytes → Int64) {n : Nat} {s : Sys n}
    (h : Reaches (step sum lockKey) Sys.init s) {opts o : AuditExportOptions}
    (ho : opts.normalize = .ok o) (tenantId now signingKey : Bytes) :
    ∃ hunique : s.rows.Pairwise Distinct,
      let log : AuditLog := ⟨s.rows, hunique⟩
      let rs := (log.exportRows tenantId o).map LogRow.record
      let sealed := ((newWriter tenantId).writeAll sum rs).close sum hmac now
        (decide (log.exportLast tenantId o ≤ log.exportAfter tenantId o))
        (log.exportAfter tenantId o + 1) signingKey
      log.auditExport sum hmac tenantId opts now signingKey = .ok sealed ∧
        ∀ d key, d.RoundTrips rs sealed.1 → Scannable rs sealed.1 → key = [] ∨ key = signingKey →
          ∃ c, verifyExport sum d hmac sealed.2 key = (c, none) ∧ c.valid = true ∧
            c.entries = rs.length := by
  have hall := (inv_of_reaches h).complete
  refine ⟨pairwise_distinct hall, ?_⟩
  intro log rs sealed
  have hcomplete : Complete sum tenantId (recordsOf tenantId log.rows) := hall tenantId
  rw [recordsOf, ← chain_of_complete hcomplete] at hcomplete
  have hchain : ValidChain sum tenantId rs := validChain_exportRows o hcomplete
  have htenant : ∀ r ∈ rs, r.tenantId = tenantId := by
    intro r hr
    obtain ⟨row, hrow, rfl⟩ := mem_map.mp hr
    exact (mem_chainTo.mp (mem_above.mp (mem_of_mem_take hrow)).1).2.1
  have hfrom := (AuditExportOptions.normal_of_normalize ho).fromSeq
  have hafter : 0 ≤ (o.fromSeq - 1).toInt := by
    rw [toInt_sub_one hfrom]
    omega
  refine ⟨?_, fun d key hd hscan hkey => ?_⟩
  · rw [AuditLog.auditExport, ho, Except.bind]
    dsimp only
    rw [exportFrom_eq hafter, Int.natCast_zero, Int.sub_zero]
    rfl
  · obtain ⟨hout, ht, -⟩ := close_writeAll (Prod.mk.eta (p := sealed)).symm
    rw [hout, verifyExport_exportText hd (by rw [ht]) hscan]
    exact ⟨_, rfl, checkTrailer_valid_iff.mpr (sealed_close hchain htenant rfl hkey), rfl⟩

theorem concurrent_exports_verify_second :
    ∃ t out c, verifyExport sampleSum (lineDecoder secondRecord t) (fun _ m => m) out [] =
      (c, none) ∧ c.valid = true ∧ c.entries = 1 := by
  obtain ⟨hunique, -, hverify⟩ := concurrent_exports_verify sampleSum (fun _ m => m) sampleLockKey
    reaches_sampleSys (show AuditExportOptions.normalize ⟨2, 0, 1⟩ = .ok ⟨2, 0, 1⟩ from by decide)
    firstRecord.tenantId [] []
  obtain rfl : hunique = pairwise_distinct (inv_of_reaches reaches_sampleSys).complete := rfl
  have hrs : ((AuditLog.mk sampleSys.rows (pairwise_distinct
      (inv_of_reaches reaches_sampleSys).complete)).exportRows firstRecord.tenantId
        ⟨2, 0, 1⟩).map LogRow.record = [secondRecord] := by decide +kernel
  rw [hrs] at hverify
  exact ⟨_, _, hverify (lineDecoder secondRecord _) [] (lineDecoder_roundTrips secondRecord rfl)
    (by unfold Scannable; decide +kernel) (.inl rfl)⟩

end Pcmi.Audit
