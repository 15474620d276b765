import Mathlib.Data.List.Sort
import Pcmi.Audit.Chain
import Pcmi.Lib.Paging
import Pcmi.Lib.Steps

/-!
# The table `audit_log` and its readers

The trigger of migration 027 numbers and hashes a new row behind the tail of its tenant's chain.
`verify` is the loop of `AuditService.Verify`, reduced by `verify_eq` to one run of the verifier.
Column values are the texts that trigger and queries render.
-/

namespace Pcmi.Audit

open List Pcmi.Go Pcmi.Lib

/-- The columns an insert fills, `none` for `NULL`. -/
structure LogColumns where
  tenantId : Bytes
  apiKeyId : Option Bytes
  eventType : Bytes
  path : Bytes
  method : Bytes
  statusCode : Int64
  requestBody : Option Bytes
  responseBody : Option Bytes
  ipAddress : Option Bytes
  userAgent : Option Bytes
  createdAt : Option Bytes
  deriving DecidableEq

/-- A row of `audit_log`. Since migration 027 every row is chained. -/
structure LogRow extends LogColumns where
  id : Int64
  chainSeq : Int64
  prevHash : Bytes
  rowHash : Bytes
  deriving DecidableEq

/-- `NEW` in the trigger. A restore brings the chain columns with it. -/
structure NewRow extends LogColumns where
  id : Int64
  chainSeq : Option Int64
  prevHash : Option Bytes
  rowHash : Option Bytes

def auditLogCanonical (c : LogColumns) (chainSeq : Int64) : Bytes :=
  join [ascii "v1", c.tenantId, formatInt chainSeq, c.apiKeyId.getD [], c.eventType, c.path,
    c.method, formatInt c.statusCode, c.requestBody.getD [], c.responseBody.getD [],
    c.ipAddress.getD [], c.userAgent.getD [], c.createdAt.getD []] [0x1F]

def auditLogHash (sum : Bytes → Bytes) (prevHash canonical : Bytes) : Bytes :=
  encodeToString (sum (prevHash ++ 0x0A :: canonical))

/-- `auditChainColumns`: a row as the queries render it. -/
def LogRow.record (r : LogRow) : Record where
  tenantId := r.tenantId
  chainSeq := r.chainSeq
  apiKeyId := r.apiKeyId.getD []
  eventType := r.eventType
  path := r.path
  method := r.method
  statusCode := r.statusCode
  requestBody := r.requestBody.getD []
  responseBody := r.responseBody.getD []
  ipAddress := r.ipAddress.getD []
  userAgent := r.userAgent.getD []
  createdAt := r.createdAt.getD []
  id := r.id
  prevHash := r.prevHash
  rowHash := r.rowHash

theorem auditLogCanonical_eq (r : LogRow) :
    auditLogCanonical r.toLogColumns r.chainSeq = canonical r.record.toFields := rfl

/-! ## Queries -/

/-- The order of `ORDER BY chain_seq`. -/
def LogRow.Before (a b : LogRow) : Prop := a.chainSeq ≤ b.chainSeq

instance : DecidableRel LogRow.Before := fun a b =>
  inferInstanceAs (Decidable (a.chainSeq ≤ b.chainSeq))

instance : Std.Total LogRow.Before := ⟨fun a b => Int64.le_total a.chainSeq b.chainSeq⟩

instance : IsTrans LogRow LogRow.Before := ⟨fun _ _ _ => Int64.le_trans⟩

def orderBySeq (rows : List LogRow) : List LogRow := rows.insertionSort LogRow.Before

def LogRow.ofTenant (tenantId : Bytes) (r : LogRow) : Bool := r.tenantId == tenantId

/-- `uq_audit_log_tenant_chain_seq`. -/
def Distinct (a b : LogRow) : Prop := a.tenantId = b.tenantId → a.chainSeq ≠ b.chainSeq

instance (a b : LogRow) : Decidable (Distinct a b) := inferInstanceAs (Decidable (_ → _))

/-- The table with its unique index. -/
structure AuditLog where
  rows : List LogRow
  unique : rows.Pairwise Distinct

def AuditLog.empty : AuditLog := ⟨[], List.Pairwise.nil⟩

/-- `DELETE`, past the append-only guard. -/
def AuditLog.delete (log : AuditLog) (removed : LogRow → Bool) : AuditLog :=
  ⟨log.rows.filter fun r => !removed r, log.unique.filter _⟩

def AuditLog.chainBatch (log : AuditLog) (tenantId : Bytes) (afterSeq toSeq : Int64) (limit : Nat) :
    List Record :=
  ((orderBySeq (log.rows.filter fun r => r.ofTenant tenantId && decide (afterSeq < r.chainSeq) &&
    (decide (toSeq = 0) || decide (r.chainSeq ≤ toSeq)))).take limit).map LogRow.record

/-- `ORDER BY chain_seq DESC LIMIT 1` over the rows of a tenant. -/
def chainTail (tenantId : Bytes) (rows : List LogRow) : Option LogRow :=
  (orderBySeq (rows.filter (LogRow.ofTenant tenantId))).getLast?

def AuditLog.chainHead (log : AuditLog) (tenantId : Bytes) : Int64 × Bytes :=
  match chainTail tenantId log.rows with
  | some r => (r.chainSeq, r.rowHash)
  | none => (0, [])

/-! ## The trigger -/

section

variable (sum : Bytes → Bytes)

/-- `bigint` addition of one; out of range is an error. -/
def bigintSucc (x : Int64) : Option Int64 := if x = Int64.maxValue then none else some (x + 1)

/-- `audit_log_chain_before_insert`; `none` is an error. -/
def auditLogChainBeforeInsert (visible : List LogRow) (now : Bytes) (new : NewRow) :
    Option LogRow :=
  match new.rowHash, new.chainSeq, new.prevHash with
  | some rowHash, some chainSeq, some prevHash =>
    some { toLogColumns := new.toLogColumns, id := new.id, chainSeq, prevHash, rowHash }
  | _, _, _ =>
    let columns := { new.toLogColumns with createdAt := some (new.createdAt.getD now) }
    let tail := chainTail new.tenantId visible
    match bigintSucc ((tail.map fun r => r.chainSeq).getD 0) with
    | none => none
    | some chainSeq =>
      let prevHash := (tail.map fun r => r.rowHash).getD (List.replicate 64 0x30)
      some
        { toLogColumns := columns, id := new.id, chainSeq, prevHash,
          rowHash := auditLogHash sum prevHash (auditLogCanonical columns chainSeq) }

/-- The index entry of a new row; `none` is a unique violation. -/
def AuditLog.append (log : AuditLog) (row : LogRow) : Option AuditLog :=
  if h : ∀ r ∈ log.rows, Distinct r row then
    some ⟨log.rows ++ [row], pairwise_append.mpr
      ⟨log.unique, pairwise_singleton _ row, fun r hr _ hb => mem_singleton.mp hb ▸ h r hr⟩⟩
  else none

/-- An insert with the id drawn and the clock. -/
structure Insert where
  columns : LogColumns
  id : Int64
  now : Bytes

def Insert.new (i : Insert) : NewRow where
  toLogColumns := i.columns
  id := i.id
  chainSeq := none
  prevHash := none
  rowHash := none

/-- One insert after another. -/
def AuditLog.execInsert (log : AuditLog) (i : Insert) : Option AuditLog :=
  (auditLogChainBeforeInsert sum log.rows i.now i.new).bind log.append

end

/-! ## Rows in order -/

def LogRow.seq (r : LogRow) : Int := r.chainSeq.toInt

def AuditLog.chain (log : AuditLog) (tenantId : Bytes) : List LogRow :=
  orderBySeq (log.rows.filter (LogRow.ofTenant tenantId))

variable {tenantId : Bytes} {r : LogRow} {rows : List LogRow} {log : AuditLog} {sum : Bytes → Bytes}
  {rs : List Record} {i : Insert}

theorem ofTenant_iff : r.ofTenant tenantId = true ↔ r.tenantId = tenantId := beq_iff_eq

theorem before_iff {a b : LogRow} : a.Before b ↔ a.seq ≤ b.seq := Int64.le_iff_toInt_le

theorem mem_orderBySeq : r ∈ orderBySeq rows ↔ r ∈ rows :=
  mem_insertionSort _

theorem orderBySeq_of_ascending (h : Ascending LogRow.seq rows) : orderBySeq rows = rows :=
  Pairwise.insertionSort_eq (h.imp fun hab => before_iff.mpr hab.le)

theorem ascending_orderBySeq (hunique : rows.Pairwise Distinct)
    (htenant : ∀ r ∈ rows, r.tenantId = tenantId) : Ascending LogRow.seq (orderBySeq rows) := by
  have hdistinct : (orderBySeq rows).Pairwise Distinct :=
    (perm_insertionSort LogRow.Before rows).symm.pairwise hunique
      fun {a b} h hab hseq => h hab.symm hseq.symm
  have hsorted : (orderBySeq rows).Pairwise LogRow.Before := pairwise_insertionSort _ rows
  refine (hsorted.and hdistinct).imp_of_mem fun {a b} ha hb h => ?_
  have hne : a.chainSeq ≠ b.chainSeq :=
    h.2 ((htenant a (mem_orderBySeq.mp ha)).trans (htenant b (mem_orderBySeq.mp hb)).symm)
  exact lt_of_le_of_ne (before_iff.mp h.1) fun heq => hne (Int64.toInt_inj.mp heq)

theorem ascending_chain (log : AuditLog) (tenantId : Bytes) :
    Ascending LogRow.seq (log.chain tenantId) :=
  ascending_orderBySeq (log.unique.filter _) fun _ hr => ofTenant_iff.mp (mem_filter.mp hr).2

theorem mem_chain : r ∈ log.chain tenantId ↔ r ∈ log.rows ∧ r.tenantId = tenantId := by
  rw [AuditLog.chain, mem_orderBySeq, mem_filter, ofTenant_iff]

theorem orderBySeq_filter (h : Ascending LogRow.seq (orderBySeq rows)) (p : LogRow → Bool) :
    orderBySeq (rows.filter p) = (orderBySeq rows).filter p := by
  have hperm : (orderBySeq (rows.filter p)).Perm ((orderBySeq rows).filter p) :=
    (perm_insertionSort _ _).trans ((perm_insertionSort _ rows).symm.filter p)
  refine hperm.eq_of_pairwise ?_ (pairwise_insertionSort _ _)
    ((pairwise_insertionSort LogRow.Before rows).filter p)
  intro a b ha hb hab hba
  have hmem : ∀ {r}, r ∈ rows.filter p → r ∈ orderBySeq rows := fun hr =>
    mem_orderBySeq.mpr (mem_filter.mp hr).1
  exact h.eq_of_key (hmem (mem_orderBySeq.mp ha)) (mem_filter.mp hb).1
    (le_antisymm (before_iff.mp hab) (before_iff.mp hba))

/-- **A batch is a page of the tenant's rows.** -/
theorem chainBatch_eq (log : AuditLog) (tenantId : Bytes) (afterSeq toSeq : Int64) (limit : Nat) :
    log.chainBatch tenantId afterSeq toSeq limit =
      (page LogRow.seq afterSeq.toInt limit ((log.chain tenantId).filter fun r =>
        decide (toSeq = 0) || decide (r.chainSeq ≤ toSeq))).map LogRow.record := by
  have hwhere : (log.rows.filter fun r => r.ofTenant tenantId && decide (afterSeq < r.chainSeq) &&
      (decide (toSeq = 0) || decide (r.chainSeq ≤ toSeq))) =
      (log.rows.filter (LogRow.ofTenant tenantId)).filter fun r => decide
        (afterSeq.toInt < r.seq) &&
        (decide (toSeq = 0) || decide (r.chainSeq ≤ toSeq)) := by
    rw [filter_filter]
    refine filter_congr fun r _ => ?_
    have hlt : decide (afterSeq < r.chainSeq) = decide (afterSeq.toInt < r.seq) :=
      decide_eq_decide.mpr Int64.lt_iff_toInt_lt
    rw [hlt, Bool.and_assoc, Bool.and_comm]
  rw [AuditLog.chainBatch, hwhere, orderBySeq_filter (ascending_chain log tenantId),
    ← filter_filter]
  rfl

theorem chainBatch_zero (log : AuditLog) (tenantId : Bytes) (afterSeq : Int64) (limit : Nat) :
    log.chainBatch tenantId afterSeq 0 limit =
      (page LogRow.seq afterSeq.toInt limit (log.chain tenantId)).map LogRow.record := by
  rw [chainBatch_eq, filter_eq_self.mpr fun r _ => by simp]

/-! ## `AuditService.Verify` -/

def auditChainBatchSize : Nat := 1000

/-- `after = r.ChainSeq` over a batch. -/
def afterBatch (after : Int64) (batch : List Record) : Int64 :=
  (batch.getLast?.map fun r => r.chainSeq).getD after

theorem afterBatch_map (after : Int64) (rows : List LogRow) :
    (afterBatch after (rows.map LogRow.record)).toInt = lastKey LogRow.seq after.toInt rows := by
  rw [afterBatch, lastKey, getLast?_map]
  cases rows.getLast? with
  | none => rfl
  | some r => rfl

theorem length_above_afterBatch_lt {after : Int64}
    (h : ¬ (log.chainBatch tenantId after 0 auditChainBatchSize).length < auditChainBatchSize) :
    (above LogRow.seq (afterBatch after
      (log.chainBatch tenantId after 0 auditChainBatchSize)).toInt (log.chain tenantId)).length <
      (above LogRow.seq after.toInt (log.chain tenantId)).length := by
  rw [chainBatch_zero] at h ⊢
  rw [afterBatch_map]
  refine length_above_lt (ascending_chain log tenantId) fun hnil => h ?_
  rw [hnil]
  exact Nat.zero_lt_succ 999

section

variable (sum : Bytes → Bytes)

/-- The loop of `Verify` from a number on. -/
def AuditLog.verifyFrom (log : AuditLog) (tenantId : Bytes) (v : Verifier) (after : Int64) :
    Verifier :=
  if (log.chainBatch tenantId after 0 auditChainBatchSize).length < auditChainBatchSize then
    v.addAll sum (log.chainBatch tenantId after 0 auditChainBatchSize)
  else
    log.verifyFrom tenantId (v.addAll sum (log.chainBatch tenantId after 0 auditChainBatchSize))
      (afterBatch after (log.chainBatch tenantId after 0 auditChainBatchSize))
termination_by (above LogRow.seq after.toInt (log.chain tenantId)).length
decreasing_by exact length_above_afterBatch_lt (by assumption)

/-- `AuditVerifyResult` without the time it was made at. -/
structure AuditVerifyResult where
  tenantId : Bytes
  algorithm : Bytes
  valid : Bool
  checked : Nat
  headSeq : Int64
  headHash : Bytes
  firstBreak : Option Break
  deriving DecidableEq

def AuditLog.verify (log : AuditLog) (tenantId : Bytes) : AuditVerifyResult :=
  let v := log.verifyFrom sum tenantId (newVerifier tenantId) 0
  ⟨tenantId, algorithm, v.valid, v.checked, v.headSeq, v.headHash, v.firstBreak⟩

end

theorem addAll_append (v : Verifier) (rs rs' : List Record) :
    v.addAll sum (rs ++ rs') = (v.addAll sum rs).addAll sum rs' := foldl_append

/-- **The loop over batches** is one run over the rows. -/
theorem verifyFrom_eq (log : AuditLog) (tenantId : Bytes) (v : Verifier) (after : Int64) :
    log.verifyFrom sum tenantId v after =
      v.addAll sum ((above LogRow.seq after.toInt (log.chain tenantId)).map LogRow.record) := by
  -- along the loop; each full batch is a page, and the last one holds what is left
  fun_induction AuditLog.verifyFrom sum log tenantId v after with
  | case1 v after hshort =>
    rw [chainBatch_zero] at hshort ⊢
    rw [length_map] at hshort
    rw [page_eq_above hshort]
  | case2 v after hfull ih =>
    rw [ih, ← addAll_append, chainBatch_zero, afterBatch_map, ← map_append,
      page_append_above (ascending_chain log tenantId)]

/-- **`Verify` is one run of the verifier** over the tenant's rows. -/
theorem verify_eq (hpos : ∀ r ∈ log.chain tenantId, 0 < r.seq) :
    log.verifyFrom sum tenantId (newVerifier tenantId) 0 =
      (newVerifier tenantId).addAll sum ((log.chain tenantId).map LogRow.record) := by
  rw [verifyFrom_eq, above, Int64.toInt_zero,
    filter_eq_self.mpr fun r hr => decide_eq_true (hpos r hr)]

theorem verify_valid_iff (hpos : ∀ r ∈ log.chain tenantId, 0 < r.seq) :
    (log.verify sum tenantId).valid = true ↔
      ValidChain sum tenantId ((log.chain tenantId).map LogRow.record) := by
  rw [AuditLog.verify, verify_eq hpos]
  exact valid_addAll_iff

/-! ## Chains from row `1` -/

/-- The whole chain of a tenant: rows `1` to `n`, each on the one before it. -/
structure Complete (sum : Bytes → Bytes) (tenantId : Bytes) (rs : List Record) : Prop where
  valid : ValidChain sum tenantId rs
  numbered : (rs.map fun r => r.chainSeq.toInt) = (List.range' 1 rs.length).map Int.ofNat

theorem complete_nil (sum : Bytes → Bytes) (tenantId : Bytes) : Complete sum tenantId [] :=
  ⟨validChain_nil, rfl⟩

theorem numbered_snoc_iff {r : Record} :
    ((rs ++ [r]).map fun r => r.chainSeq.toInt) =
        (List.range' 1 (rs ++ [r]).length).map Int.ofNat ↔
      (rs.map fun r => r.chainSeq.toInt) = (List.range' 1 rs.length).map Int.ofNat ∧
        r.chainSeq.toInt = rs.length + 1 := by
  rw [length_append, length_singleton, range'_1_concat, map_append,
    map_append, map_singleton, map_singleton, append_singleton_inj,
    Int.ofNat_eq_natCast, Int.natCast_add, Int.add_comm]
  rfl

theorem Complete.of_snoc {sum : Bytes → Bytes} {tenantId : Bytes} {rs : List Record} {r : Record}
    (h : Complete sum tenantId (rs ++ [r])) : Complete sum tenantId rs :=
  ⟨h.valid.of_snoc, (numbered_snoc_iff.mp h.numbered).1⟩

theorem Complete.last_seq (h : Complete sum tenantId rs) :
    ((rs.getLast?.map fun r : Record => r.chainSeq).getD 0).toInt = rs.length := by
  cases rs using List.reverseRecOn with
  | nil => rfl
  | append_singleton rs a =>
    rw [getLast?_concat, length_append]
    exact (numbered_snoc_iff.mp h.numbered).2

theorem int64_eq_succ {a b : Int64} (h : b.toInt = a.toInt + 1) : b = a + 1 := by
  have hb := Int64.toInt_lt b
  have ha := Int64.le_toInt a
  rw [← Int64.toInt_inj, Int64.toInt_add, Int64.toInt_one, Int.bmod_eq_of_le (by omega) (by omega),
    h]

theorem Complete.snoc {r : Record} (h : Complete sum tenantId rs) (htenant : r.tenantId = tenantId)
    (hseq : r.chainSeq.toInt = rs.length + 1)
    (hprev : r.prevHash = (rs.getLast?.map fun a => a.rowHash).getD genesisHash)
    (hhashed : r.Hashed sum) : Complete sum tenantId (rs ++ [r]) := by
  refine ⟨?_, numbered_snoc_iff.mpr ⟨h.numbered, hseq⟩⟩
  cases rs using List.reverseRecOn with
  | nil => exact validChain_singleton_iff.mpr ⟨fun _ => htenant, hhashed, fun _ => hprev⟩
  | append_singleton rs a =>
    have hlast := (numbered_snoc_iff.mp h.numbered).2
    refine validChain_snoc_iff.mpr ⟨h.valid, fun _ => htenant, hhashed, ?_, ?_⟩
    · refine int64_eq_succ ?_
      rw [hseq, hlast, length_append, length_singleton]
      rfl
    · simpa using hprev

/-- The records of a tenant among rows in the order they were inserted. -/
def recordsOf (tenantId : Bytes) (rows : List LogRow) : List Record :=
  (rows.filter (LogRow.ofTenant tenantId)).map LogRow.record

theorem Complete.ascending (h : Complete sum tenantId (rows.map LogRow.record)) :
    Ascending LogRow.seq rows := by
  have hnumbers : rows.map LogRow.seq = (List.range' 1 rows.length).map Int.ofNat := by
    have := h.numbered
    rwa [map_map, length_map] at this
  have hrange : ((List.range' 1 rows.length).map Int.ofNat).Pairwise (· < ·) :=
    pairwise_map.mpr ((pairwise_lt_range' 1).imp fun hab => Int.ofNat_lt.mpr hab)
  rw [← hnumbers] at hrange
  exact pairwise_map.mp hrange

theorem Complete.pos (h : Complete sum tenantId (rows.map LogRow.record)) :
    ∀ r ∈ rows, 0 < r.seq := by
  intro r hr
  have hmem : r.seq ∈ (rows.map LogRow.record).map fun r => r.chainSeq.toInt :=
    mem_map.mpr ⟨r.record, mem_map_of_mem hr, rfl⟩
  rw [h.numbered] at hmem
  obtain ⟨n, hn, hseq⟩ := mem_map.mp hmem
  have := (mem_range'_1.mp hn).1
  rw [← hseq]
  exact Int.natCast_pos.mpr this

/-- Rows that form a chain are already in order. -/
theorem chain_of_complete (h : Complete sum tenantId (recordsOf tenantId log.rows)) :
    log.chain tenantId = log.rows.filter (LogRow.ofTenant tenantId) :=
  orderBySeq_of_ascending h.ascending

theorem recordsOf_append (tenantId : Bytes) (rows rows' : List LogRow) :
    recordsOf tenantId (rows ++ rows') = recordsOf tenantId rows ++ recordsOf tenantId rows' := by
  rw [recordsOf, filter_append, map_append]
  rfl

theorem recordsOf_eq_nil (h : ∀ r ∈ rows, r.tenantId ≠ tenantId) :
    recordsOf tenantId rows = [] := by
  rw [recordsOf, filter_eq_nil_iff.mpr fun r hr ht => h r hr (ofTenant_iff.mp ht)]
  rfl

theorem recordsOf_snoc_self (rows : List LogRow) (r : LogRow) :
    recordsOf r.tenantId (rows ++ [r]) = recordsOf r.tenantId rows ++ [r.record] := by
  have hr : [r].filter (LogRow.ofTenant r.tenantId) = [r] :=
    filter_eq_self.mpr (forall_mem_singleton.mpr (ofTenant_iff.mpr rfl))
  rw [recordsOf_append, recordsOf, recordsOf, hr]
  rfl

theorem recordsOf_snoc_of_ne (h : r.tenantId ≠ tenantId) (rows : List LogRow) :
    recordsOf tenantId (rows ++ [r]) = recordsOf tenantId rows := by
  rw [recordsOf_append, recordsOf_eq_nil (forall_mem_singleton.mpr h), append_nil]

variable {visible : List LogRow}

/-- What the trigger makes of an insert: the row behind the tail it sees. -/
theorem trigger_eq_some (h : auditLogChainBeforeInsert sum visible i.now i.new = some r) :
    r.tenantId = i.columns.tenantId ∧
      bigintSucc (((chainTail r.tenantId visible).map fun a => a.chainSeq).getD 0) =
        some r.chainSeq ∧
      r.prevHash = ((chainTail r.tenantId visible).map fun a => a.rowHash).getD genesisHash ∧
      r.record.Hashed sum := by
  unfold auditLogChainBeforeInsert at h
  simp only [Insert.new] at h
  split at h <;> cases h
  next chainSeq hseq => exact ⟨rfl, hseq, rfl, rfl⟩

theorem toInt_bigintSucc {x y : Int64} (h : bigintSucc x = some y) : y.toInt = x.toInt + 1 := by
  unfold bigintSucc at h
  split at h <;> cases h
  next hx =>
  have hlt := Int64.toInt_lt x
  have hle := Int64.le_toInt x
  have hmax : x.toInt ≠ 2 ^ 63 - 1 := fun heq => hx (Int64.toInt_inj.mp heq)
  rw [Int64.toInt_add, Int64.toInt_one, Int.bmod_eq_of_le (by omega) (by omega)]

/-- **The trigger continues the chain it sees**, and no other. -/
theorem complete_trigger (hc : ∀ tenantId, Complete sum tenantId (recordsOf tenantId visible))
    (h : auditLogChainBeforeInsert sum visible i.now i.new = some r) (tenantId : Bytes) :
    Complete sum tenantId (recordsOf tenantId (visible ++ [r])) := by
  by_cases hne : r.tenantId = tenantId
  · subst hne
    obtain ⟨-, hseq, hprev, hhashed⟩ := trigger_eq_some h
    have hc := hc r.tenantId
    have htail : chainTail r.tenantId visible =
        (visible.filter (LogRow.ofTenant r.tenantId)).getLast? := by
      rw [chainTail, orderBySeq_of_ascending hc.ascending]
    rw [htail] at hseq hprev
    rw [recordsOf_snoc_self]
    refine hc.snoc rfl ?_ ?_ hhashed
    · have hlast := hc.last_seq
      rw [recordsOf, getLast?_map, Option.map_map] at hlast
      rw [recordsOf, ← hlast]
      exact toInt_bigintSucc hseq
    · rw [recordsOf, getLast?_map, Option.map_map]
      exact hprev
  · rw [recordsOf_snoc_of_ne hne]
    exact hc tenantId

theorem execInsert_eq_some {log' : AuditLog} (h : log.execInsert sum i = some log') :
    ∃ r, auditLogChainBeforeInsert sum log.rows i.now i.new = some r ∧
      log'.rows = log.rows ++ [r] := by
  obtain ⟨r, hr, happend⟩ := Option.bind_eq_some_iff.mp h
  refine ⟨r, hr, ?_⟩
  unfold AuditLog.append at happend
  split at happend <;> cases happend
  rfl

/-- **Every tenant's rows form a chain**, whatever was inserted. -/
theorem complete_of_reaches (h : Reaches (AuditLog.execInsert sum) AuditLog.empty log) :
    ∀ tenantId, Complete sum tenantId (recordsOf tenantId log.rows) := by
  have h0 : ∀ tenantId, Complete sum tenantId (recordsOf tenantId AuditLog.empty.rows) :=
    complete_nil sum
  refine h.invariant (P := fun log =>
    ∀ tenantId, Complete sum tenantId (recordsOf tenantId log.rows)) ?_ h0
  intro log i log' hc _ hstep
  obtain ⟨r, hr, hrows⟩ := execInsert_eq_some hstep
  rw [hrows]
  exact complete_trigger hc hr

end Pcmi.Audit
