import Mathlib.Data.Fintype.Basic
import Mathlib.Logic.Function.Basic
import Pcmi.Audit.Deletion
import Pcmi.Lib.Slots

/-!
# Concurrent inserts into `audit_log`

`n` sessions run transactions that insert rows for any tenants, step by step, under READ COMMITTED:

* `pg_advisory_xact_lock` waits while another transaction holds the key, which is kept to the end of
  the transaction. Two tenants may share one: `hashtextextended` is a parameter.
* The trigger's query sees what is committed when it runs, after the wait, and the rows of its own
  transaction.
* The unique index is checked when the row is stored. It waits for a transaction that has stored a
  row with the same number, and fails on a committed one.

A step that has to wait is not enabled. `fail` stands for every other error. `Inv`: a session owns
the keys of the tenants it has written for, so the chain it extends does not move below it.
-/

namespace Pcmi.Audit

open List Pcmi.Go Pcmi.Lib

/-- Where the current statement of a transaction stands. -/
inductive Stmt where
  | idle
  /-- The trigger is about to take the lock. -/
  | started (i : Insert)
  /-- The trigger has the lock. -/
  | locked (i : Insert)
  /-- The trigger has returned the row. -/
  | made (row : LogRow)
  | failed

structure Tx where
  locks : List Int64
  pending : List LogRow
  stmt : Stmt

structure Sys (n : Nat) where
  rows : List LogRow
  txs : Fin n → Option Tx

inductive Action (n : Nat) where
  | begin (j : Fin n)
  | insert (j : Fin n) (i : Insert)
  | lock (j : Fin n)
  | read (j : Fin n)
  | put (j : Fin n)
  | fail (j : Fin n)
  | commit (j : Fin n)
  | rollback (j : Fin n)

namespace Sys

variable {n : Nat}

def init : Sys n := ⟨[], fun _ => none⟩

def setTx (s : Sys n) (j : Fin n) (tx : Option Tx) : Sys n :=
  { s with txs := Function.update s.txs j tx }

/-- Session `j` holds the advisory lock. -/
def holds (s : Sys n) (j : Fin n) (key : Int64) : Bool :=
  match s.txs j with
  | some tx => tx.locks.contains key
  | none => false

/-- Session `j` has stored a row with the number of this one. -/
def hasStored (s : Sys n) (j : Fin n) (row : LogRow) : Bool :=
  match s.txs j with
  | some tx => tx.pending.any fun r => !decide (Distinct r row)
  | none => false

end Sys

section

variable (sum : Bytes → Bytes) (lockKey : Bytes → Int64) {n : Nat}

/-- One step of one session; `none` when it is not enabled. -/
def step (s : Sys n) : Action n → Option (Sys n)
  | .begin j =>
    match s.txs j with
    | none => some (s.setTx j (some ⟨[], [], .idle⟩))
    | some _ => none
  | .insert j i =>
    match s.txs j with
    | some ⟨locks, pending, .idle⟩ => some (s.setTx j (some ⟨locks, pending, .started i⟩))
    | _ => none
  | .lock j =>
    match s.txs j with
    | some ⟨locks, pending, .started i⟩ =>
      -- waits until the holder commits or rolls back
      if ∃ j', j' ≠ j ∧ s.holds j' (lockKey i.columns.tenantId) = true then none
      else some (s.setTx j (some ⟨lockKey i.columns.tenantId :: locks, pending, .locked i⟩))
    | _ => none
  | .read j =>
    match s.txs j with
    | some ⟨locks, pending, .locked i⟩ =>
      -- the queries of the trigger take a snapshot of their own, behind the lock
      match auditLogChainBeforeInsert sum (s.rows ++ pending) i.now i.new with
      | some row => some (s.setTx j (some ⟨locks, pending, .made row⟩))
      | none => some (s.setTx j (some ⟨locks, pending, .failed⟩))
    | _ => none
  | .put j =>
    match s.txs j with
    | some ⟨locks, pending, .made row⟩ =>
      -- the unique index waits for a transaction with the same number
      if ∃ j', j' ≠ j ∧ s.hasStored j' row = true then none
      else if ∀ r ∈ s.rows ++ pending, Distinct r row then
        some (s.setTx j (some ⟨locks, pending ++ [row], .idle⟩))
      else some (s.setTx j (some ⟨locks, pending, .failed⟩))
    | _ => none
  | .fail j =>
    match s.txs j with
    | some tx => some (s.setTx j (some { tx with stmt := .failed }))
    | none => none
  | .commit j =>
    match s.txs j with
    | some ⟨_, pending, .idle⟩ => some { s.setTx j none with rows := s.rows ++ pending }
    | _ => none
  | .rollback j =>
    match s.txs j with
    | some _ => some (s.setTx j none)
    | none => none

end

/-! ## The invariant -/

/-- The rows of a transaction, with the one its trigger has returned. -/
def Tx.rows (tx : Tx) : List LogRow :=
  match tx.stmt with
  | .made row => tx.pending ++ [row]
  | _ => tx.pending

/-- What holds of an open transaction over the committed rows. -/
structure Tx.Ok (sum : Bytes → Bytes) (lockKey : Bytes → Int64) (rows : List LogRow) (tx : Tx) :
    Prop where
  /-- With its own rows every chain is complete. -/
  complete : ∀ tenantId, Complete sum tenantId (recordsOf tenantId (rows ++ tx.rows))
  /-- It holds the key of every tenant it has rows for. -/
  locked : ∀ r ∈ tx.rows, lockKey r.tenantId ∈ tx.locks
  /-- It holds the key of the tenant whose tail it is about to read. -/
  reading : ∀ i, tx.stmt = .locked i → lockKey i.columns.tenantId ∈ tx.locks

structure Inv (sum : Bytes → Bytes) (lockKey : Bytes → Int64) {n : Nat} (s : Sys n) : Prop where
  complete : ∀ tenantId, Complete sum tenantId (recordsOf tenantId s.rows)
  ok : ∀ j tx, s.txs j = some tx → tx.Ok sum lockKey s.rows
  exclusive : ∀ j j' tx tx', s.txs j = some tx → s.txs j' = some tx' → j ≠ j' →
    ∀ key ∈ tx.locks, key ∉ tx'.locks

section

variable {sum : Bytes → Bytes} {lockKey : Bytes → Int64} {n : Nat} {s s' : Sys n} {j : Fin n}
  {tx tx' : Tx} {rows : List LogRow}

theorem Tx.Ok.stored (h : tx.Ok sum lockKey rows) :
    (∀ tenantId, Complete sum tenantId (recordsOf tenantId (rows ++ tx.pending))) ∧
      ∀ r ∈ tx.pending, lockKey r.tenantId ∈ tx.locks := by
  obtain ⟨locks, pending, stmt⟩ := tx
  cases stmt with
  | made row =>
    refine ⟨fun tenantId => ?_, fun r hr => h.locked r (mem_append_left _ hr)⟩
    have hrow : Complete sum tenantId (recordsOf tenantId (rows ++ (pending ++ [row]))) :=
      h.complete tenantId
    rw [← append_assoc] at hrow
    by_cases hne : row.tenantId = tenantId
    · subst hne
      rw [recordsOf_snoc_self] at hrow
      exact hrow.of_snoc
    · rwa [recordsOf_snoc_of_ne hne] at hrow
  | idle | started i | locked i | failed => exact ⟨h.complete, h.locked⟩

/-- Before the tail is read only the stored rows count. -/
theorem Tx.Ok.restart (h : tx.Ok sum lockKey rows) {stmt : Stmt}
    (hrows : Tx.rows { tx with stmt := stmt } = tx.pending) (hstmt : ∀ i, stmt ≠ .locked i) :
    Tx.Ok sum lockKey rows { tx with stmt := stmt } where
  complete := by rw [hrows]; exact h.stored.1
  locked := by rw [hrows]; exact h.stored.2
  reading i hi := absurd hi (hstmt i)

variable {k : Fin n} {locks : List Int64} {pending : List LogRow} {i : Insert}

theorem txs_setTx {t : Option Tx} (hk : (s.setTx j t).txs k = some tx) :
    k = j ∧ t = some tx ∨ k ≠ j ∧ s.txs k = some tx := by
  by_cases hkj : k = j
  · subst hkj
    exact .inl ⟨rfl, (Function.update_self k _ s.txs).symm.trans hk⟩
  · exact .inr ⟨hkj, (Function.update_of_ne hkj _ s.txs).symm.trans hk⟩

theorem Inv.setSome (h : Inv sum lockKey s) (hok : tx'.Ok sum lockKey s.rows)
    (hexclusive : ∀ j' tx, j' ≠ j → s.txs j' = some tx → ∀ key ∈ tx'.locks, key ∉ tx.locks) :
    Inv sum lockKey (s.setTx j (some tx')) where
  complete := h.complete
  ok k tx hk := by
    rcases txs_setTx hk with ⟨rfl, ⟨⟩⟩ | ⟨-, hk⟩
    · exact hok
    · exact h.ok k tx hk
  exclusive k k' a b hk hk' hne key hkey hkey' := by
    rcases txs_setTx hk with ⟨rfl, ⟨⟩⟩ | ⟨hkj, ha⟩ <;>
      rcases txs_setTx hk' with ⟨rfl, ⟨⟩⟩ | ⟨hkj', hb⟩
    · exact hne rfl
    · exact hexclusive k' b hkj' hb key hkey hkey'
    · exact hexclusive k a hkj ha key hkey' hkey
    · exact h.exclusive k k' a b ha hb hne key hkey hkey'

theorem Inv.setSame (h : Inv sum lockKey s) (htx : s.txs j = some tx)
    (hok : tx'.Ok sum lockKey s.rows) (hlocks : tx'.locks = tx.locks) :
    Inv sum lockKey (s.setTx j (some tx')) :=
  h.setSome hok fun j' tx'' hne htx'' key hkey =>
    h.exclusive j j' tx tx'' htx htx'' hne.symm key (hlocks ▸ hkey)

theorem txs_setNone (hk : (s.setTx j none).txs k = some tx) :
    k ≠ j ∧ s.txs k = some tx := by
  obtain ⟨-, ⟨⟩⟩ | hk := txs_setTx hk
  exact hk

theorem Inv.setNone (h : Inv sum lockKey s) : Inv sum lockKey (s.setTx j none) where
  complete := h.complete
  ok k tx hk := h.ok k tx (txs_setNone hk).2
  exclusive k k' a b hk hk' := h.exclusive k k' a b (txs_setNone hk).2 (txs_setNone hk').2

/-- **A commit under another transaction**, which has no rows of that tenant. -/
theorem Tx.Ok.commit (h : tx.Ok sum lockKey rows) (h' : tx'.Ok sum lockKey rows)
    (hexclusive : ∀ key ∈ tx.locks, key ∉ tx'.locks) : tx'.Ok sum lockKey (rows ++ tx.pending) where
  complete tenantId := by
    by_cases hnone : ∀ r ∈ tx.pending, r.tenantId ≠ tenantId
    · rw [recordsOf_append, recordsOf_append, recordsOf_eq_nil hnone, append_nil,
        ← recordsOf_append]
      exact h'.complete tenantId
    · have hown : ∀ r ∈ tx'.rows, r.tenantId ≠ tenantId := by
        rintro r hr rfl
        refine hnone fun a ha heq => ?_
        exact hexclusive _ (h.stored.2 a ha) (heq ▸ h'.locked r hr)
      rw [recordsOf_append, recordsOf_eq_nil hown, append_nil]
      exact h.stored.1 tenantId
  locked := h'.locked
  reading := h'.reading

theorem Inv.commit (h : Inv sum lockKey s) (htx : s.txs j = some tx) :
    Inv sum lockKey { s.setTx j none with rows := s.rows ++ tx.pending } where
  complete := (h.ok j tx htx).stored.1
  ok k tx' hk := by
    obtain ⟨hkj, hk⟩ := txs_setNone hk
    exact (h.ok j tx htx).commit (h.ok k tx' hk) (h.exclusive j k tx tx' htx hk hkj.symm)
  exclusive := h.setNone.exclusive

/-- The lock is granted: no other transaction has the key. -/
theorem Inv.lock (h : Inv sum lockKey s) (htx : s.txs j = some ⟨locks, pending, .started i⟩)
    (hfree : ¬ ∃ j', j' ≠ j ∧ s.holds j' (lockKey i.columns.tenantId) = true) :
    Inv sum lockKey
      (s.setTx j (some ⟨lockKey i.columns.tenantId :: locks, pending, .locked i⟩)) := by
  have hok := h.ok j _ htx
  refine h.setSome ⟨hok.complete, fun r hr => mem_cons_of_mem _ (hok.locked r hr), ?_⟩ ?_
  · rintro i' ⟨⟩
    exact mem_cons_self
  · intro j' tx hne htx' key hkey hkey'
    rcases mem_cons.mp hkey with rfl | hkey
    · refine hfree ⟨j', hne, ?_⟩
      unfold Sys.holds
      rw [htx']
      exact contains_iff_mem.mpr hkey'
    · exact h.exclusive j j' _ tx htx htx' hne.symm key hkey hkey'

/-- Under the lock the trigger reads the tail of what is committed. -/
theorem Inv.read {row : LogRow} (h : Inv sum lockKey s)
    (htx : s.txs j = some ⟨locks, pending, .locked i⟩)
    (hrow : auditLogChainBeforeInsert sum (s.rows ++ pending) i.now i.new = some row) :
    Inv sum lockKey (s.setTx j (some ⟨locks, pending, .made row⟩)) := by
  have hok := h.ok j _ htx
  refine h.setSame htx ⟨fun tenantId => ?_, ?_, nofun⟩ rfl
  · rw [show Tx.rows ⟨locks, pending, .made row⟩ = pending ++ [row] from rfl, ← append_assoc]
    exact complete_trigger hok.complete hrow tenantId
  · refine forall_mem_concat hok.locked ?_
    rw [(trigger_eq_some hrow).1]
    exact hok.reading i rfl

/-- **One step keeps the invariant.** -/
theorem Inv.step {a : Action n} (h : Inv sum lockKey s) (hstep : step sum lockKey s a = some s') :
    Inv sum lockKey s' := by
  cases a with
  | begin j =>
    simp only [Audit.step] at hstep
    split at hstep <;> cases hstep
    refine h.setSome ⟨fun tenantId => ?_, nofun, nofun⟩ fun _ _ _ _ => nofun
    rw [show Tx.rows ⟨[], [], .idle⟩ = [] from rfl, append_nil]
    exact h.complete tenantId
  | insert j i | fail j =>
    simp only [Audit.step] at hstep
    split at hstep <;> cases hstep
    next htx => exact h.setSame htx ((h.ok j _ htx).restart rfl nofun) rfl
  | lock j =>
    simp only [Audit.step] at hstep
    split at hstep
    · next htx =>
      split at hstep <;> cases hstep
      next hfree => exact h.lock htx hfree
    · cases hstep
  | read j =>
    simp only [Audit.step] at hstep
    split at hstep
    · next htx =>
      split at hstep <;> cases hstep
      · next hrow => exact h.read htx hrow
      · exact h.setSame htx ((h.ok j _ htx).restart rfl nofun) rfl
    · cases hstep
  | put j =>
    simp only [Audit.step] at hstep
    split at hstep
    · next htx =>
      split at hstep
      · cases hstep
      split at hstep
      · -- the row is stored: the same rows as before
        cases hstep
        have hok := h.ok j _ htx
        exact h.setSame htx ⟨hok.complete, hok.locked, nofun⟩ rfl
      · cases hstep
        exact h.setSame htx ((h.ok j _ htx).restart rfl nofun) rfl
    · cases hstep
  | commit j =>
    simp only [Audit.step] at hstep
    split at hstep <;> cases hstep
    next htx => exact h.commit htx
  | rollback j =>
    simp only [Audit.step] at hstep
    split at hstep <;> cases hstep
    exact h.setNone

theorem inv_init : Inv sum lockKey (Sys.init : Sys n) where
  complete := complete_nil sum
  ok _ _ := nofun
  exclusive _ _ _ _ := nofun

theorem inv_of_reaches (h : Reaches (step sum lockKey) (Sys.init : Sys n) s) : Inv sum lockKey s :=
  h.invariant (fun _ _ _ hinv _ hstep => hinv.step hstep) inv_init

end

/-! ## The committed rows -/

variable {sum : Bytes → Bytes}

theorem pairwise_distinct {rows : List LogRow}
    (h : ∀ tenantId, Complete sum tenantId (recordsOf tenantId rows)) : rows.Pairwise Distinct := by
  refine pairwise_iff_forall_sublist.mpr fun {a b} hsub htenant heq => ?_
  have hpair : [a, b].filter (LogRow.ofTenant b.tenantId) = [a, b] :=
    filter_eq_self.mpr (forall_mem_cons.mpr ⟨ofTenant_iff.mpr htenant,
      forall_mem_singleton.mpr (ofTenant_iff.mpr rfl)⟩)
  have hsub := hsub.filter (LogRow.ofTenant b.tenantId)
  rw [hpair] at hsub
  have hlt := pairwise_iff_forall_sublist.mp (h b.tenantId).ascending hsub
  exact absurd (congrArg Int64.toInt heq) hlt.ne

theorem verify_of_complete {log : AuditLog} {tenantId : Bytes}
    (h : Complete sum tenantId (recordsOf tenantId log.rows)) :
    (log.verify sum tenantId).valid = true ∧
      (log.verify sum tenantId).checked = (log.chain tenantId).length := by
  rw [recordsOf, ← chain_of_complete h] at h
  refine ⟨(verify_valid_iff h.pos).mpr h.valid, ?_⟩
  rw [AuditLog.verify, verify_eq h.pos]
  dsimp only
  rw [checked_addAll, length_map, newVerifier, Nat.zero_add]

/-- **Concurrent inserts.** The committed rows of each tenant are numbered without gaps, and
`Verify` accepts them. -/
theorem committed_chains_verify (sum : Bytes → Bytes) (lockKey : Bytes → Int64) {n : Nat}
    {s : Sys n} (h : Reaches (step sum lockKey) Sys.init s) :
    ∃ hunique : s.rows.Pairwise Distinct, ∀ tenantId,
      (((AuditLog.mk s.rows hunique).chain tenantId).map fun r => r.chainSeq.toInt) =
          (List.range' 1 ((AuditLog.mk s.rows hunique).chain tenantId).length).map Int.ofNat ∧
        ((AuditLog.mk s.rows hunique).verify sum tenantId).valid = true ∧
        ((AuditLog.mk s.rows hunique).verify sum tenantId).checked =
          ((AuditLog.mk s.rows hunique).chain tenantId).length := by
  have hcomplete := (inv_of_reaches h).complete
  refine ⟨pairwise_distinct hcomplete, fun tenantId => ?_⟩
  have hlog : Complete sum tenantId (recordsOf tenantId
    (AuditLog.mk s.rows (pairwise_distinct hcomplete)).rows) := hcomplete tenantId
  refine ⟨?_, verify_of_complete hlog⟩
  have hnumbered := hlog.numbered
  rw [recordsOf, ← chain_of_complete hlog, map_map, length_map] at hnumbered
  exact hnumbered

/-- The second session waits for the first, which inserts again and is rolled back. -/
def sampleActions : List (Action 2) :=
  let first : Fin 2 := ⟨0, Nat.zero_lt_two⟩
  let second : Fin 2 := ⟨1, Nat.one_lt_two⟩
  let post := requestInsert 1 (ascii "/v1/memories") (ascii "POST")
  let get := requestInsert 2 (ascii "/v1/search") (ascii "GET")
  [.begin first, .insert first post, .lock first, .read first, .begin second, .insert second get,
    .put first, .commit first, .lock second, .read second, .put second, .commit second,
    .begin first, .insert first get, .lock first, .read first, .put first, .rollback first]

def sampleLockKey : Bytes → Int64 := fun _ => 543558278022022192

def sampleSys : Sys 2 :=
  (runAll (step sampleSum sampleLockKey) Sys.init sampleActions).getD Sys.init

theorem reaches_sampleSys : Reaches (step sampleSum sampleLockKey) Sys.init sampleSys :=
  reaches_getD Sys.init (by decide +kernel)

theorem two_sessions_verify :
    sampleSys.rows.map LogRow.record = [firstRecord, secondRecord] ∧
      ∃ hunique : sampleSys.rows.Pairwise Distinct,
        ((AuditLog.mk sampleSys.rows hunique).verify sampleSum firstRecord.tenantId).valid =
          true := by
  obtain ⟨hunique, h⟩ := committed_chains_verify sampleSum sampleLockKey reaches_sampleSys
  exact ⟨by decide +kernel, hunique, (h firstRecord.tenantId).2.1⟩

end Pcmi.Audit
