import Mathlib.Data.List.Chain
import Mathlib.Data.List.Induction
import Pcmi.Go.Strconv
import Pcmi.Go.Strings

/-!
# The audit hash chain (`internal/auditchain/chain.go`)

`canonical` is the text of a row's protected columns, `hash` the hash of a row over the hash before
it. The digest `sum` of `crypto/sha256` is a parameter. `int64` and `int` are `Int64`, so `lastSeq +
1` wraps; counters of records have no bound.

`valid_addAll_iff` says which lists of records the verifier accepts. Of the first record it asks
only that row `1` is on the genesis hash.
-/

namespace Pcmi.Audit

open List Pcmi.Go Option

def algorithm : Bytes := ascii "sha256-chain-v1"

/-- `GenesisHash`: `prev_hash` of the first row of every chain. -/
def genesisHash : Bytes := List.replicate 64 0x30

def fieldSep : UInt8 := 0x1F

/-- The protected columns as PostgreSQL renders them, `""` for `NULL`. -/
structure Fields where
  tenantId : Bytes
  chainSeq : Int64
  apiKeyId : Bytes
  eventType : Bytes
  path : Bytes
  method : Bytes
  statusCode : Int64
  requestBody : Bytes
  responseBody : Bytes
  ipAddress : Bytes
  userAgent : Bytes
  createdAt : Bytes
  deriving DecidableEq

structure Record extends Fields where
  id : Int64
  prevHash : Bytes
  rowHash : Bytes
  deriving DecidableEq

def canonical (f : Fields) : Bytes :=
  join [ascii "v1", f.tenantId, formatInt f.chainSeq, f.apiKeyId, f.eventType, f.path, f.method,
    formatInt f.statusCode, f.requestBody, f.responseBody, f.ipAddress, f.userAgent, f.createdAt]
    [fieldSep]

inductive Reason where
  | sequenceGap
  | linkMismatch
  | hashMismatch
  | genesisMismatch
  | tenantMismatch
  deriving DecidableEq

def Reason.text : Reason → Bytes
  | .sequenceGap => ascii "sequence_gap"
  | .linkMismatch => ascii "link_mismatch"
  | .hashMismatch => ascii "hash_mismatch"
  | .genesisMismatch => ascii "genesis_mismatch"
  | .tenantMismatch => ascii "tenant_mismatch"

/-- `Break`: the first point where a chain stops verifying. -/
structure Break where
  chainSeq : Int64
  id : Int64
  reason : Reason
  expected : Bytes
  actual : Bytes
  deriving DecidableEq

structure Verifier where
  tenantId : Bytes
  started : Bool
  lastSeq : Int64
  lastHash : Bytes
  firstSeq : Int64
  checked : Nat
  firstBreak : Option Break
  deriving DecidableEq

def newVerifier (tenantId : Bytes) : Verifier := ⟨tenantId, false, 0, [], 0, 0, none⟩

def Verifier.fail (v : Verifier) (r : Record) (reason : Reason) (expected actual : Bytes) :
    Verifier :=
  { v with firstBreak := some ⟨r.chainSeq, r.id, reason, expected, actual⟩ }

def Verifier.valid (v : Verifier) : Bool := v.firstBreak.isNone

def Verifier.headSeq (v : Verifier) : Int64 := v.lastSeq

def Verifier.headHash (v : Verifier) : Bytes := v.lastHash

section

variable (sum : Bytes → Bytes)

def hash (prevHash canonical : Bytes) : Bytes := encodeToString (sum (prevHash ++ 0x0A ::
    canonical))

/-- The `switch` of `Verifier.Add`. -/
def Verifier.check (v : Verifier) (r : Record) : Verifier :=
  if v.tenantId ≠ [] ∧ r.tenantId ≠ v.tenantId then
    v.fail r .tenantMismatch v.tenantId r.tenantId
  else if v.started = false ∧ r.chainSeq = 1 ∧ r.prevHash ≠ genesisHash then
    v.fail r .genesisMismatch genesisHash r.prevHash
  else if v.started = true ∧ r.chainSeq ≠ v.lastSeq + 1 then
    v.fail r .sequenceGap (formatInt (v.lastSeq + 1)) (formatInt r.chainSeq)
  else if v.started = true ∧ r.prevHash ≠ v.lastHash then
    v.fail r .linkMismatch v.lastHash r.prevHash
  else if hash sum r.prevHash (canonical r.toFields) ≠ r.rowHash then
    v.fail r .hashMismatch (hash sum r.prevHash (canonical r.toFields)) r.rowHash
  else v

/-- `Verifier.Add`; the result it returns is `valid` of the new state. -/
def Verifier.add (v : Verifier) (r : Record) : Verifier :=
  let v := { v with checked := v.checked + 1 }
  if v.firstBreak.isSome then v
  else
    let v := if v.started then v else { v with firstSeq := r.chainSeq }
    { v.check sum r with started := true, lastSeq := r.chainSeq, lastHash := r.rowHash }

def Verifier.addAll (v : Verifier) (rs : List Record) : Verifier := rs.foldl (Verifier.add sum) v

end

/-! ## What is accepted -/

def Follows (a b : Record) : Prop := b.chainSeq = a.chainSeq + 1 ∧ b.prevHash = a.rowHash

instance (a b : Record) : Decidable (Follows a b) := inferInstanceAs (Decidable (_ ∧ _))

def Record.Hashed (sum : Bytes → Bytes) (r : Record) : Prop :=
  r.rowHash = hash sum r.prevHash (canonical r.toFields)

instance (sum : Bytes → Bytes) (r : Record) : Decidable (r.Hashed sum) :=
  inferInstanceAs (Decidable (_ = _))

/-- A slice of a tenant's chain; the empty tenant id is any tenant. -/
structure ValidChain (sum : Bytes → Bytes) (tenantId : Bytes) (rs : List Record) : Prop where
  tenant : tenantId ≠ [] → ∀ r ∈ rs, r.tenantId = tenantId
  hashed : ∀ r ∈ rs, r.Hashed sum
  linked : rs.IsChain Follows
  genesis : ∀ r ∈ rs.head?, r.chainSeq = 1 → r.prevHash = genesisHash

section

variable {sum : Bytes → Bytes} {tenantId : Bytes} {rs : List Record} {a r : Record}

theorem validChain_nil : ValidChain sum tenantId [] :=
  ⟨fun _ => nofun, nofun, isChain_nil, nofun⟩

theorem validChain_singleton_iff : ValidChain sum tenantId [r] ↔
    (tenantId ≠ [] → r.tenantId = tenantId) ∧ r.Hashed sum ∧
      (r.chainSeq = 1 → r.prevHash = genesisHash) := by
  constructor
  · intro h
    exact ⟨fun ht => h.tenant ht r mem_cons_self, h.hashed r mem_cons_self,
      h.genesis r rfl⟩
  · rintro ⟨htenant, hhashed, hgenesis⟩
    refine ⟨fun ht => ?_, ?_, isChain_singleton r, ?_⟩
    · exact forall_mem_singleton.mpr (htenant ht)
    · exact forall_mem_singleton.mpr hhashed
    · rintro b ⟨⟩
      exact hgenesis

theorem ValidChain.of_snoc (h : ValidChain sum tenantId (rs ++ [r])) :
    ValidChain sum tenantId rs where
  tenant ht := (forall_mem_append.mp (h.tenant ht)).1
  hashed := (forall_mem_append.mp h.hashed).1
  linked := (isChain_append.mp h.linked).1
  genesis b hb := h.genesis b (head?_append_of_ne_nil _ (ne_nil_of_mem
    (mem_of_mem_head? hb)) ▸ hb)

/-- A chain is continued by a row that follows its last one. -/
theorem validChain_snoc_iff : ValidChain sum tenantId (rs ++ [a] ++ [r]) ↔
    ValidChain sum tenantId (rs ++ [a]) ∧ (tenantId ≠ [] → r.tenantId = tenantId) ∧
      r.Hashed sum ∧ Follows a r := by
  have hlast : a ∈ (rs ++ [a]).getLast? := by simp
  constructor
  · intro h
    refine ⟨h.of_snoc, fun ht => ?_, ?_, ?_⟩
    · exact h.tenant ht r (mem_append_right _ mem_cons_self)
    · exact h.hashed r (mem_append_right _ mem_cons_self)
    · exact (isChain_append.mp h.linked).2.2 a hlast r rfl
  · rintro ⟨h, htenant, hhashed, hfollows⟩
    refine ⟨fun ht => ?_, ?_, ?_, ?_⟩
    · exact forall_mem_append.mpr ⟨h.tenant ht, forall_mem_singleton.mpr (htenant ht)⟩
    · exact forall_mem_append.mpr ⟨h.hashed, forall_mem_singleton.mpr hhashed⟩
    · refine isChain_append.mpr ⟨h.linked, isChain_singleton r, ?_⟩
      rintro b hb c ⟨⟩
      rw [mem_unique hb hlast]
      exact hfollows
    · rw [head?_append_of_ne_nil _ (by simp)]
      exact h.genesis

end

/-- The checks that `add` makes while there is no break. -/
structure Verifier.Fits (sum : Bytes → Bytes) (v : Verifier) (r : Record) : Prop where
  tenant : v.tenantId ≠ [] → r.tenantId = v.tenantId
  genesis : v.started = false → r.chainSeq = 1 → r.prevHash = genesisHash
  seq : v.started = true → r.chainSeq = v.lastSeq + 1
  link : v.started = true → r.prevHash = v.lastHash
  hashed : r.Hashed sum

namespace Verifier

variable {sum : Bytes → Bytes} {v : Verifier} {r : Record}

theorem check_firstBreak (hv : v.firstBreak = none) :
    (v.check sum r).firstBreak = none ↔ v.Fits sum r := by
  unfold check
  split
  · next h => exact iff_of_false nofun fun hf => h.2 (hf.tenant h.1)
  next htenant =>
  split
  · next h => exact iff_of_false nofun fun hf => h.2.2 (hf.genesis h.1 h.2.1)
  next hgenesis =>
  split
  · next h => exact iff_of_false nofun fun hf => h.2 (hf.seq h.1)
  next hseq =>
  split
  · next h => exact iff_of_false nofun fun hf => h.2 (hf.link h.1)
  next hlink =>
  split
  · next h => exact iff_of_false nofun fun hf => h hf.hashed.symm
  next hhash =>
  refine iff_of_true hv ⟨?_, ?_, ?_, ?_, ?_⟩
  · exact fun h => by_contra fun h' => htenant ⟨h, h'⟩
  · exact fun h h1 => by_contra fun h' => hgenesis ⟨h, h1, h'⟩
  · exact fun h => by_contra fun h' => hseq ⟨h, h'⟩
  · exact fun h => by_contra fun h' => hlink ⟨h, h'⟩
  · exact (not_not.mp hhash).symm

theorem check_frame : (v.check sum r).tenantId = v.tenantId ∧ (v.check sum r).checked = v.checked ∧
    (v.check sum r).firstSeq = v.firstSeq := by
  unfold check
  repeat' split
  all_goals exact ⟨rfl, rfl, rfl⟩

theorem valid_iff : v.valid = true ↔ v.firstBreak = none := isNone_iff_eq_none

def count (v : Verifier) (r : Record) : Verifier :=
  { v with
    checked := v.checked + 1
    firstSeq := if v.started then v.firstSeq else r.chainSeq }

theorem add_of_valid (hv : v.valid = true) :
    v.add sum r = { (v.count r).check sum r with
      started := true, lastSeq := r.chainSeq, lastHash := r.rowHash } := by
  have hnone : ({ v with checked := v.checked + 1 } : Verifier).firstBreak.isSome = false := by
    rw [show ({ v with checked := v.checked + 1 } : Verifier).firstBreak = v.firstBreak from rfl,
      valid_iff.mp hv, isSome_none]
  unfold add
  dsimp only
  rw [hnone, if_neg Bool.false_ne_true]
  unfold count
  cases v.started <;> rfl

theorem add_of_not_valid (hv : v.valid = false) :
    v.add sum r = { v with checked := v.checked + 1 } := by
  have hsome : v.firstBreak.isSome = true := by
    rw [← not_isNone, show v.firstBreak.isNone = v.valid from rfl, hv, Bool.not_false]
  unfold add
  dsimp only
  rw [if_pos hsome]

/-- **One step.** It accepts a record that fits a chain without a break. -/
theorem valid_add_iff : (v.add sum r).valid = true ↔ v.valid = true ∧ v.Fits sum r := by
  cases hv : v.valid with
  | false =>
    rw [add_of_not_valid hv]
    refine iff_of_false ?_ fun h => Bool.false_ne_true h.1
    rw [show ({ v with checked := v.checked + 1 } : Verifier).valid = v.valid from rfl, hv]
    exact Bool.false_ne_true
  | true =>
    have hcheck : ((v.count r).check sum r).firstBreak = none ↔ (v.count r).Fits sum r :=
      check_firstBreak (valid_iff.mp hv)
    rw [add_of_valid hv, valid_iff]
    refine hcheck.trans ⟨fun h => ⟨rfl, ?_⟩, fun h => ?_⟩
    · exact ⟨h.tenant, h.genesis, h.seq, h.link, h.hashed⟩
    · exact ⟨h.2.tenant, h.2.genesis, h.2.seq, h.2.link, h.2.hashed⟩

theorem add_tenantId : (v.add sum r).tenantId = v.tenantId := by
  cases hv : v.valid with
  | false => rw [add_of_not_valid hv]
  | true => exact (add_of_valid hv) ▸ check_frame.1

theorem add_checked : (v.add sum r).checked = v.checked + 1 := by
  cases hv : v.valid with
  | false => rw [add_of_not_valid hv]
  | true => exact (add_of_valid hv) ▸ check_frame.2.1

/-- What the verifier remembers of the records it was given. -/
structure Tracks (v : Verifier) (tenantId : Bytes) (rs : List Record) : Prop where
  tenantId : v.tenantId = tenantId
  started : v.started = !rs.isEmpty
  lastSeq : v.lastSeq = (rs.getLast?.map fun r => r.chainSeq).getD 0
  lastHash : v.lastHash = (rs.getLast?.map fun r => r.rowHash).getD []
  firstSeq : v.firstSeq = (rs.head?.map fun r => r.chainSeq).getD 0

theorem Tracks.add {tenantId : Bytes} {rs : List Record} (h : v.Tracks tenantId rs)
    (hv : v.valid = true) : (v.add sum r).Tracks tenantId (rs ++ [r]) where
  tenantId := add_tenantId.trans h.tenantId
  started := by rw [add_of_valid hv]; simp
  lastSeq := by rw [add_of_valid hv]; simp
  lastHash := by rw [add_of_valid hv]; simp
  firstSeq := by
    rw [add_of_valid hv]
    refine check_frame.2.2.trans ?_
    unfold count
    cases rs with
    | nil => rw [h.started]; rfl
    | cons a rs => rw [h.started, h.firstSeq]; rfl

variable {tenantId : Bytes}

/-- With no record yet, nothing but the genesis hash of row `1` is compared. -/
theorem Tracks.fits_nil_iff (h : v.Tracks tenantId []) :
    v.Fits sum r ↔ ValidChain sum tenantId [r] := by
  have hstarted : v.started = false := h.started
  rw [validChain_singleton_iff]
  constructor
  · intro hf
    exact ⟨h.tenantId ▸ hf.tenant, hf.hashed, hf.genesis hstarted⟩
  · rintro ⟨htenant, hhashed, hgenesis⟩
    refine ⟨h.tenantId.symm ▸ htenant, fun _ => hgenesis, ?_, ?_, hhashed⟩ <;>
      exact fun ht => absurd (hstarted.symm.trans ht) Bool.false_ne_true

/-- Behind a record, the next one is compared with it. -/
theorem Tracks.fits_snoc_iff {rs : List Record} {a : Record} (h : v.Tracks tenantId (rs ++ [a])) :
    v.Fits sum r ↔ (tenantId ≠ [] → r.tenantId = tenantId) ∧ r.Hashed sum ∧ Follows a r := by
  have hstarted : v.started = true := by
    rw [h.started]
    cases rs <;> rfl
  have hseq : v.lastSeq = a.chainSeq := by simpa using h.lastSeq
  have hhash : v.lastHash = a.rowHash := by simpa using h.lastHash
  constructor
  · intro hf
    refine ⟨h.tenantId ▸ hf.tenant, hf.hashed, ?_, ?_⟩
    · rw [hf.seq hstarted, hseq]
    · rw [hf.link hstarted, hhash]
  · rintro ⟨htenant, hhashed, hfollows⟩
    refine ⟨h.tenantId.symm ▸ htenant, ?_, fun _ => hseq ▸ hfollows.1, fun _ => hhash ▸ hfollows.2,
      hhashed⟩
    exact fun hf => absurd (hf.symm.trans hstarted) Bool.false_ne_true

end Verifier

/-! ## Runs -/

section

variable {sum : Bytes → Bytes}

theorem addAll_snoc (v : Verifier) (rs : List Record) (r : Record) :
    v.addAll sum (rs ++ [r]) = (v.addAll sum rs).add sum r := by
  rw [Verifier.addAll, foldl_append]
  rfl

theorem checked_addAll (v : Verifier) (rs : List Record) :
    (v.addAll sum rs).checked = v.checked + rs.length := by
  induction rs using List.reverseRecOn with
  | nil => rfl
  | append_singleton rs r ih =>
    rw [addAll_snoc, Verifier.add_checked, ih, length_append, length_singleton,
      Nat.add_assoc]

/-- **Which records a run accepts**, and what it remembers of them. -/
theorem addAll_newVerifier (tenantId : Bytes) (rs : List Record) :
    (((newVerifier tenantId).addAll sum rs).valid = true ↔ ValidChain sum tenantId rs) ∧
      (ValidChain sum tenantId rs → ((newVerifier tenantId).addAll sum rs).Tracks tenantId rs) := by
  induction rs using List.reverseRecOn with
  | nil => exact ⟨iff_of_true rfl validChain_nil, fun _ => ⟨rfl, rfl, rfl, rfl, rfl⟩⟩
  | append_singleton rs r ih =>
    obtain ⟨hvalid, htracks⟩ := ih
    have hstep : ((newVerifier tenantId).addAll sum (rs ++ [r])).valid = true ↔
        ValidChain sum tenantId (rs ++ [r]) := by
      rw [addAll_snoc, Verifier.valid_add_iff, hvalid]
      cases rs using List.reverseRecOn with
      | nil =>
        rw [(htracks validChain_nil).fits_nil_iff, nil_append, and_iff_right validChain_nil]
      | append_singleton rs a =>
        rw [validChain_snoc_iff]
        exact and_congr_right fun h => (htracks h).fits_snoc_iff
    refine ⟨hstep, fun h => ?_⟩
    have hrs := h.of_snoc
    rw [addAll_snoc]
    exact (htracks hrs).add (hvalid.mpr hrs)

variable {tenantId : Bytes} {rs : List Record}

theorem valid_addAll_iff :
    ((newVerifier tenantId).addAll sum rs).valid = true ↔ ValidChain sum tenantId rs :=
  (addAll_newVerifier tenantId rs).1

theorem ValidChain.tracks (h : ValidChain sum tenantId rs) :
    ((newVerifier tenantId).addAll sum rs).Tracks tenantId rs :=
  (addAll_newVerifier tenantId rs).2 h

end

end Pcmi.Audit
