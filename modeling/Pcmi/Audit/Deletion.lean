import Pcmi.Audit.Binding
import Pcmi.Audit.Log

/-!
# Deleted rows

Rows deleted from the middle of a chain leave a gap in the numbers. Rows deleted from the front
leave none: the `prev_hash` of the first record is taken on trust unless it is row `1`.
-/

namespace Pcmi.Audit

open List Pcmi.Go Pcmi.Lib

variable {sum : Bytes → Bytes} {log : AuditLog} {tenantId : Bytes}

theorem chain_delete (h : Complete sum tenantId (recordsOf tenantId log.rows))
    (removed : LogRow → Bool) :
    (log.delete removed).chain tenantId = (log.chain tenantId).filter fun r => !removed r := by
  have hrows : (log.delete removed).rows.filter (LogRow.ofTenant tenantId) =
      (log.rows.filter (LogRow.ofTenant tenantId)).filter fun r => !removed r := by
    rw [AuditLog.delete, filter_filter, filter_filter]
    exact filter_congr fun r _ => Bool.and_comm _ _
  rw [AuditLog.chain, hrows, orderBySeq_of_ascending (h.ascending.filter _), chain_of_complete h]

theorem int64_toInt_succ {a b : Int64} (h : b = a + 1) (ha : 0 < a.toInt) (hb : 0 < b.toInt) :
    b.toInt = a.toInt + 1 := by
  have hlt := Int64.toInt_lt a
  by_cases hmax : a.toInt = 2 ^ 63 - 1
  · obtain rfl : a = Int64.maxValue := Int64.toInt_inj.mp hmax
    rw [h] at hb
    exact absurd hb (by decide)
  · rw [h, Int64.toInt_add, Int64.toInt_one, Int.bmod_eq_of_le (by omega) (by omega)]

variable {rows : List LogRow} {removed : LogRow → Bool}

/-- An accepted selection has no gap between two kept rows. -/
theorem ValidChain.exists_between (h : ValidChain sum tenantId (rows.map LogRow.record))
    (hpos : ∀ r ∈ rows, 0 < r.seq) {a c : LogRow} (ha : a ∈ rows) (hc : c ∈ rows) {z : Int}
    (haz : a.seq ≤ z) (hzc : z ≤ c.seq) (hasc : Ascending LogRow.seq rows) :
    ∃ w ∈ rows, w.seq = z := by
  have hconsecutive : rows.IsChain fun x y => y.seq = x.seq + 1 := by
    have hfollows := (isChain_map LogRow.record).mp h.linked
    exact hfollows.imp_of_mem_imp fun x y hx hy hxy => int64_toInt_succ hxy.1 (hpos x hx)
      (hpos y hy)
  cases rows with
  | nil => cases ha
  | cons f rows =>
    have hfa : f.seq ≤ a.seq := by
      rcases mem_cons.mp ha with rfl | ha
      · exact le_refl _
      · exact ((pairwise_cons.mp hasc).1 a ha).le
    exact exists_key_eq_of_isChain hconsecutive hc (hfa.trans haz) hzc

/-- Row `1` is the first row, so it stands on the genesis hash. -/
theorem Complete.genesis_of_one (h : Complete sum tenantId (rows.map LogRow.record)) {r : LogRow}
    (hr : r ∈ rows) (hone : r.chainSeq = 1) : r.prevHash = genesisHash := by
  have hasc := h.ascending
  cases rows with
  | nil => cases hr
  | cons c rows =>
    have hnumbers := h.numbered
    rw [map_cons, map_cons, length_cons, range'_succ, map_cons] at hnumbers
    have hc : c.seq = r.seq := by
      rw [LogRow.seq, LogRow.seq, hone]
      exact (cons.inj hnumbers).1
    obtain rfl := hasc.eq_of_key mem_cons_self hr hc
    exact h.valid.genesis _ rfl hone

/-- If an initial segment is removed, an end of the chain is left. -/
theorem exists_append_filter (hasc : Ascending LogRow.seq rows)
    (h : ∀ a ∈ rows, ∀ b ∈ rows, a.seq < b.seq → removed a = false → removed b = false) :
    ∃ front, front ++ (rows.filter fun r => !removed r) = rows := by
  induction rows with
  | nil => exact ⟨[], rfl⟩
  | cons a rows ih =>
    obtain ⟨hlater, hrest⟩ := pairwise_cons.mp hasc
    cases ha : removed a with
    | true =>
      obtain ⟨front, hfront⟩ := ih hrest fun b hb c hc =>
        h b (mem_cons_of_mem _ hb) c (mem_cons_of_mem _ hc)
      refine ⟨a :: front, ?_⟩
      rw [filter_cons_of_neg (by simp [ha]), cons_append, hfront]
    | false =>
      have hkept : ∀ b ∈ a :: rows, (!removed b) = true := by
        refine forall_mem_cons.mpr ⟨by rw [ha]; rfl, fun b hb => ?_⟩
        rw [h a mem_cons_self b (mem_cons_of_mem _ hb) (hlater b hb) ha]
        rfl
      exact ⟨[], by rw [filter_eq_self.mpr hkept, nil_append]⟩

theorem Complete.valid_filter (h : Complete sum tenantId (rows.map LogRow.record))
    (hinitial : ∀ a ∈ rows, ∀ b ∈ rows, a.seq < b.seq → removed a = false → removed b = false) :
    ValidChain sum tenantId ((rows.filter fun r => !removed r).map LogRow.record) := by
  obtain ⟨front, hfront⟩ := exists_append_filter h.ascending hinitial
  have hsub : ∀ r ∈ (rows.filter fun r => !removed r).map LogRow.record,
      r ∈ rows.map LogRow.record := by
    intro r hr
    rw [← hfront, map_append]
    exact mem_append_right _ hr
  refine ⟨fun ht r hr => h.valid.tenant ht r (hsub r hr), fun r hr => h.valid.hashed r (hsub r hr),
    ?_, ?_⟩
  · have hlinked := h.valid.linked
    rw [← hfront, map_append] at hlinked
    exact (isChain_append.mp hlinked).2.1
  · -- the first record that is left is checked against the genesis hash only if it is row `1`
    intro r hr hone
    obtain ⟨row, hrow, rfl⟩ := mem_map.mp (hsub r (mem_of_mem_head? hr))
    exact h.genesis_of_one hrow hone

theorem Complete.not_valid_filter (h : Complete sum tenantId (rows.map LogRow.record))
    (hlast : ∀ r ∈ rows.getLast?, removed r = false) {a b : LogRow} (ha : a ∈ rows) (hb : b ∈ rows)
    (hab : a.seq < b.seq) (hkeep : removed a = false) (hremoved : removed b = true) :
    ¬ ValidChain sum tenantId ((rows.filter fun r => !removed r).map LogRow.record) := by
  intro hvalid
  have hasc := h.ascending
  have hmem : ∀ {r}, r ∈ rows → removed r = false → r ∈ rows.filter fun r => !removed r :=
    fun hr hk => mem_filter.mpr ⟨hr, by rw [hk]; rfl⟩
  cases rows using List.reverseRecOn with
  | nil => cases ha
  | append_singleton rows c =>
    have hkeepc : removed c = false := hlast c (by simp)
    have hbc : b.seq ≤ c.seq := by
      rcases mem_append.mp hb with hb | hb
      · exact ((pairwise_append.mp hasc).2.2 b hb c mem_cons_self).le
      · rw [mem_singleton.mp hb]
    have hpos : ∀ r ∈ (rows ++ [c]).filter fun r => !removed r, 0 < r.seq :=
      fun r hr => h.pos r (mem_filter.mp hr).1
    -- an accepted list has a row for every number between two of its rows, so one for that of `b`
    obtain ⟨w, hw, hseq⟩ := hvalid.exists_between hpos (hmem ha hkeep)
      (hmem (mem_append_right _ mem_cons_self) hkeepc) hab.le hbc (hasc.filter _)
    obtain ⟨hw, hkeepw⟩ := mem_filter.mp hw
    obtain rfl := hasc.eq_of_key hw hb hseq
    rw [hremoved] at hkeepw
    exact absurd hkeepw Bool.false_ne_true

/-- **A deletion that keeps the last row is found** exactly when a removed row has a kept one before
it. -/
theorem verify_detects_deletion_iff
    (hlog : Reaches (AuditLog.execInsert sum) AuditLog.empty log) (tenantId : Bytes)
    (removed : LogRow → Bool)
    (hlast : ∀ r ∈ (log.chain tenantId).getLast?, removed r = false) :
    ((log.delete removed).verify sum tenantId).valid = false ↔
      ∃ a ∈ log.chain tenantId, ∃ b ∈ log.chain tenantId,
        a.chainSeq < b.chainSeq ∧ removed a = false ∧ removed b = true := by
  have hcomplete := complete_of_reaches hlog tenantId
  have hrows : Complete sum tenantId ((log.chain tenantId).map LogRow.record) := by
    rw [chain_of_complete hcomplete]
    exact hcomplete
  have hdelete := chain_delete hcomplete removed
  have hpos : ∀ r ∈ (log.delete removed).chain tenantId, 0 < r.seq := by
    rw [hdelete]
    exact fun r hr => hrows.pos r (mem_filter.mp hr).1
  rw [← Bool.not_eq_true, verify_valid_iff hpos, hdelete]
  constructor
  · intro hinvalid
    by_contra hnone
    refine hinvalid (hrows.valid_filter fun a ha b hb hab hkeep => ?_)
    refine Bool.eq_false_iff.mpr fun hremoved => hnone ⟨a, ha, b, hb, ?_, hkeep, hremoved⟩
    exact Int64.lt_iff_toInt_lt.mpr hab
  · rintro ⟨a, ha, b, hb, hab, hkeep, hremoved⟩
    exact hrows.not_valid_filter hlast ha hb (Int64.lt_iff_toInt_lt.mp hab) hkeep hremoved

/-! ## Three rows -/

/-- The insert of the audit middleware for a request. -/
def requestInsert (id : Int64) (path method : Bytes) : Insert where
  columns :=
    { tenantId := firstRecord.tenantId
      apiKeyId := none
      eventType := ascii "api_request"
      path := path
      method := method
      statusCode := 200
      requestBody := none
      responseBody := none
      ipAddress := some (ascii "10.0.0.7")
      userAgent := some (ascii "curl/8.5.0")
      createdAt := some (ascii "2026-01-02T03:04:05.000006Z") }
  id := id
  now := ascii "2026-01-02T03:04:05.000006Z"

def sampleInserts : List Insert :=
  [requestInsert 1 (ascii "/v1/memories") (ascii "POST"),
    requestInsert 2 (ascii "/v1/search") (ascii "GET"),
    requestInsert 3 (ascii "/v1/audit/verify") (ascii "GET")]

def sampleLog : AuditLog :=
  (runAll (AuditLog.execInsert sampleSum) AuditLog.empty sampleInserts).getD AuditLog.empty

theorem reaches_sampleLog : Reaches (AuditLog.execInsert sampleSum) AuditLog.empty sampleLog :=
  reaches_getD AuditLog.empty (by decide +kernel)

example :
    (sampleLog.chain firstRecord.tenantId).map LogRow.record =
      [firstRecord, secondRecord, thirdRecord] := by
  decide +kernel

theorem verify_finds_deleted_middle :
    ((sampleLog.delete fun r => r.chainSeq == 2).verify sampleSum firstRecord.tenantId).valid
      = false :=
  (verify_detects_deletion_iff reaches_sampleLog _ _ (by decide +kernel)).mpr (by decide +kernel)

theorem verify_accepts_deleted_front :
    Reaches (AuditLog.execInsert sampleSum) AuditLog.empty sampleLog ∧
      (sampleLog.chain firstRecord.tenantId).map (fun r => r.chainSeq) = [1, 2, 3] ∧
      ((sampleLog.delete fun r => r.chainSeq == 1).verify sampleSum firstRecord.tenantId).valid
        = true := by
  refine ⟨reaches_sampleLog, by decide +kernel, ?_⟩
  rw [AuditLog.verify, verify_eq (by decide +kernel)]
  decide +kernel

end Pcmi.Audit
