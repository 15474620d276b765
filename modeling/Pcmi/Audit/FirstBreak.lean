import Pcmi.Audit.Export

/-!
# The first break of a chain (`Verifier.Add`, `HeadSeq`, `HeadHash`, `FirstBreak`)

Behind a break `Verifier.add` makes no check and moves no head.

* `heads_describe_last_iff`: whether the heads reported and sealed are those of the last record.
* `verifier_exact`: intact lists are accepted; of another the first fault is named. `lastSeq + 1` is
  the successor unless the chain passes from the largest number of 64 bits to the smallest.
-/

namespace Pcmi.Audit

open List Pcmi.Go

/-- `r` is the record that breaks the chain, behind the records `pre`. -/
structure BreaksAt (sum : Bytes → Bytes) (tenantId : Bytes) (pre : List Record) (r : Record) :
    Prop where
  before : ValidChain sum tenantId pre
  broken : ¬ ValidChain sum tenantId (pre ++ [r])

section

variable {sum : Bytes → Bytes} {tenantId : Bytes} {pre post rs : List Record} {r : Record}

theorem exists_breaksAt (h : ¬ ValidChain sum tenantId rs) :
    ∃ pre r post, rs = pre ++ r :: post ∧ BreaksAt sum tenantId pre r := by
  induction rs using List.reverseRecOn with
  | nil => exact absurd validChain_nil h
  | append_singleton rs r ih =>
    by_cases hrs : ValidChain sum tenantId rs
    · exact ⟨rs, r, [], rfl, hrs, h⟩
    · obtain ⟨pre, b, post, rfl, hb⟩ := ih hrs
      exact ⟨pre, b, post ++ [r], by simp, hb⟩

theorem addAll_of_not_valid {v : Verifier} (hv : v.valid = false) (rs : List Record) :
    v.addAll sum rs = { v with checked := v.checked + rs.length } := by
  induction rs using List.reverseRecOn with
  | nil => rfl
  | append_singleton rs r ih =>
    have hkept : ({ v with checked := v.checked + rs.length } : Verifier).valid = false := hv
    rw [addAll_snoc, ih, Verifier.add_of_not_valid hkept, length_append]
    rfl

/-- The record that breaks the chain is the last that changes the heads. -/
theorem BreaksAt.addAll (h : BreaksAt sum tenantId pre r) (post : List Record) :
    (newVerifier tenantId).addAll sum (pre ++ r :: post) =
      { ((newVerifier tenantId).addAll sum pre).add sum r with
        checked := pre.length + 1 + post.length } := by
  have hbroken : ((newVerifier tenantId).addAll sum (pre ++ [r])).valid = false :=
    Bool.eq_false_iff.mpr fun hv => h.broken (valid_addAll_iff.mp hv)
  have hchecked : ((newVerifier tenantId).addAll sum (pre ++ [r])).checked = pre.length + 1 := by
    rw [checked_addAll, length_append]
    exact Nat.zero_add _
  have hsplit : (newVerifier tenantId).addAll sum (pre ++ r :: post) =
      ((newVerifier tenantId).addAll sum (pre ++ [r])).addAll sum post := by
    rw [append_cons]
    exact foldl_append
  rw [hsplit, addAll_of_not_valid hbroken, hchecked, addAll_snoc]

/-- The heads behind a break are those of the record that broke the chain. -/
theorem BreaksAt.heads (h : BreaksAt sum tenantId pre r) (post : List Record) :
    ((newVerifier tenantId).addAll sum (pre ++ r :: post)).headSeq = r.chainSeq ∧
      ((newVerifier tenantId).addAll sum (pre ++ r :: post)).headHash = r.rowHash := by
  rw [h.addAll post, Verifier.add_of_valid (valid_addAll_iff.mpr h.before)]
  exact ⟨rfl, rfl⟩

theorem ValidChain.heads (h : ValidChain sum tenantId rs) {a : Record} (ha : a ∈ rs.getLast?) :
    ((newVerifier tenantId).addAll sum rs).headSeq = a.chainSeq ∧
      ((newVerifier tenantId).addAll sum rs).headHash = a.rowHash := by
  refine ⟨h.tracks.lastSeq.trans ?_, h.tracks.lastHash.trans ?_⟩ <;> rw [ha] <;> rfl

end

/-! ## The heads -/

section

variable (sum : Bytes → Bytes) (hmac : Bytes → Bytes → Bytes)

/-- The heads of the verifier and the trailer are those of the last record. -/
def HeadsDescribeLast (v : Verifier) (t : Trailer) (rs : List Record) : Prop :=
  ∀ a ∈ rs.getLast?, (v.headSeq = a.chainSeq ∧ v.headHash = a.rowHash) ∧
    (t.lastSeq = a.chainSeq ∧ t.headHash = a.rowHash)

theorem close_heads (tenantId : Bytes) (rs : List Record) (exportedAt : Bytes) (complete : Bool)
    (nextFromSeq : Int64) (signingKey : Bytes) :
    let t := (((newWriter tenantId).writeAll sum rs).close sum hmac exportedAt complete nextFromSeq
      signingKey).1
    t.lastSeq = ((newVerifier tenantId).addAll sum rs).headSeq ∧
      t.headHash = ((newVerifier tenantId).addAll sum rs).headHash := by
  rw [writeAll_eq]
  unfold Writer.close Trailer.sign
  dsimp only
  split <;> exact ⟨rfl, rfl⟩

/-- **The reported heads** are those of the last record exactly if a record that breaks the chain
has the same. -/
theorem heads_describe_last_iff (tenantId : Bytes) (rs : List Record) (exportedAt : Bytes)
    (complete : Bool) (nextFromSeq : Int64) (signingKey : Bytes) :
    HeadsDescribeLast ((newVerifier tenantId).addAll sum rs)
        (((newWriter tenantId).writeAll sum rs).close sum hmac exportedAt complete nextFromSeq
          signingKey).1 rs ↔
      ∀ pre r post, rs = pre ++ r :: post → BreaksAt sum tenantId pre r →
        ∀ a ∈ rs.getLast?, r.chainSeq = a.chainSeq ∧ r.rowHash = a.rowHash := by
  obtain ⟨hseq, hhash⟩ :=
    close_heads sum hmac tenantId rs exportedAt complete nextFromSeq signingKey
  unfold HeadsDescribeLast
  rw [hseq, hhash]
  constructor
  · rintro h pre r post rfl hb a ha
    obtain ⟨hrseq, hrhash⟩ := hb.heads post
    rw [← hrseq, ← hrhash]
    exact (h a ha).1
  · intro h a ha
    rw [and_self]
    by_cases hrs : ValidChain sum tenantId rs
    · exact hrs.heads ha
    obtain ⟨pre, r, post, rfl, hb⟩ := exists_breaksAt hrs
    obtain ⟨hrseq, hrhash⟩ := hb.heads post
    rw [hrseq, hrhash]
    exact h pre r post rfl hb a ha

end

def rowOf (seq : Int64) (prevHash rowHash : Bytes) : Record :=
  { tenantId := ascii "t", chainSeq := seq, apiKeyId := [], eventType := [], path := [],
    method := [], statusCode := 200, requestBody := [], responseBody := [], ipAddress := [],
    userAgent := [], createdAt := [], id := seq, prevHash, rowHash }

/-- Row `1` is not on the genesis hash, and the heads stay there. -/
theorem heads_not_of_last :
    ¬ HeadsDescribeLast
      ((newVerifier (ascii "t")).addAll id [rowOf 1 [1] [2], rowOf 2 [2] [3]])
      (((newWriter (ascii "t")).writeAll id [rowOf 1 [1] [2], rowOf 2 [2] [3]]).close id
        (fun _ _ => []) [] true 0 []).1
      [rowOf 1 [1] [2], rowOf 2 [2] [3]] := by
  intro h
  have hlast := (h (rowOf 2 [2] [3]) rfl).1.1
  revert hlast
  decide +kernel

/-! ## The break -/

/-- What an intact list of records is. -/
structure Intact (sum : Bytes → Bytes) (tenantId : Bytes) (rs : List Record) : Prop where
  tenant : tenantId ≠ [] → ∀ r ∈ rs, r.tenantId = tenantId
  consecutive : rs.IsChain fun a b => b.chainSeq.toInt = a.chainSeq.toInt + 1
  linked : rs.IsChain fun a b => b.prevHash = a.rowHash
  genesis : ∀ r ∈ rs.head?, r.chainSeq = 1 → r.prevHash = genesisHash
  hashed : ∀ r ∈ rs, r.rowHash = hash sum r.prevHash (canonical r.toFields)

/-- The check `c` fails for the record `r` behind the record `prev`. -/
def Fails (sum : Bytes → Bytes) (tenantId : Bytes) (prev : Option Record) (r : Record) :
    Reason → Prop
  | .tenantMismatch => tenantId ≠ [] ∧ r.tenantId ≠ tenantId
  | .genesisMismatch => prev = none ∧ r.chainSeq = 1 ∧ r.prevHash ≠ genesisHash
  | .sequenceGap => ∃ a ∈ prev, r.chainSeq.toInt ≠ a.chainSeq.toInt + 1
  | .linkMismatch => ∃ a ∈ prev, r.prevHash ≠ a.rowHash
  | .hashMismatch => r.rowHash ≠ hash sum r.prevHash (canonical r.toFields)

/-- The place of a check in the `switch`. -/
def Reason.place : Reason → Nat
  | .tenantMismatch => 0
  | .genesisMismatch => 1
  | .sequenceGap => 2
  | .linkMismatch => 3
  | .hashMismatch => 4

def recordBefore (rs : List Record) : Nat → Option Record
  | 0 => none
  | i + 1 => rs[i]?

def FailsAt (sum : Bytes → Bytes) (tenantId : Bytes) (rs : List Record) (i : Nat) (c : Reason) :
    Prop :=
  ∃ r ∈ rs[i]?, Fails sum tenantId (recordBefore rs i) r c

/-- `b` names the first record at fault and the first check that fails. -/
def NamesFirstFault (sum : Bytes → Bytes) (tenantId : Bytes) (rs : List Record) (b : Break) :
    Prop :=
  ∃ i, (∀ j < i, ∀ c, ¬ FailsAt sum tenantId rs j c) ∧
    (∃ r ∈ rs[i]?, b.chainSeq = r.chainSeq ∧ b.id = r.id) ∧
    FailsAt sum tenantId rs i b.reason ∧
    ∀ c : Reason, c.place < b.reason.place → ¬ FailsAt sum tenantId rs i c

/-- Nowhere is the largest sequence number followed by the smallest. -/
def NoWrap (rs : List Record) : Prop :=
  rs.IsChain fun a b => ¬ (a.chainSeq = Int64.maxValue ∧ b.chainSeq = Int64.minValue)

/-- The successor in 64 bits is the successor, but for the largest number. -/
theorem eq_succ_iff {a b : Int64} (h : ¬ (a = Int64.maxValue ∧ b = Int64.minValue)) :
    b = a + 1 ↔ b.toInt = a.toInt + 1 := by
  have ha := a.le_toInt
  have ha' := a.toInt_lt
  have hb := b.le_toInt
  have hb' := b.toInt_lt
  have hone : (1 : Int64).toInt = 1 := rfl
  have hmax : Int64.maxValue.toInt = 2 ^ 63 - 1 := rfl
  have hmin : Int64.minValue.toInt = - 2 ^ 63 := rfl
  rw [← Int64.toInt_inj, ← Int64.toInt_inj, hmax, hmin] at h
  rw [← Int64.toInt_inj, Int64.toInt_add, hone]
  by_cases hlast : a.toInt = 2 ^ 63 - 1
  · have hwrapped : (a.toInt + 1).bmod (2 ^ 64) = - 2 ^ 63 := by
      rw [hlast]
      rfl
    rw [hwrapped]
    omega
  · rw [Int.bmod_eq_of_le (by omega) (by omega)]

section

variable {sum : Bytes → Bytes} {tenantId : Bytes} {pre post rs : List Record} {r : Record}

/-- Without a wrap the verifier's chains are the intact lists. -/
theorem validChain_iff_intact (hwrap : NoWrap rs) :
    ValidChain sum tenantId rs ↔ Intact sum tenantId rs := by
  have hlinks : rs.IsChain Follows ↔
      (rs.IsChain fun a b => b.chainSeq.toInt = a.chainSeq.toInt + 1) ∧
        rs.IsChain fun a b => b.prevHash = a.rowHash := by
    simp only [isChain_iff_getElem] at *
    rw [← forall₂_and]
    exact forall₂_congr fun i hi => and_congr_left' (eq_succ_iff (hwrap.getElem i hi))
  constructor
  · intro h
    exact ⟨h.tenant, (hlinks.mp h.linked).1, (hlinks.mp h.linked).2, h.genesis, h.hashed⟩
  · intro h
    exact ⟨h.tenant, h.hashed, hlinks.mpr ⟨h.consecutive, h.linked⟩, h.genesis⟩

variable {i : Nat} {v : Verifier}

theorem isChain_of_recordBefore {R : Record → Record → Prop} (h : rs.IsChain R) {a : Record}
    (ha : a ∈ recordBefore rs i) (hr : r ∈ rs[i]?) : R a r := by
  cases i with
  | zero => exact absurd ha (by simp [recordBefore])
  | succ i =>
    obtain ⟨hi, rfl⟩ := List.getElem?_eq_some_iff.mp hr
    obtain ⟨-, rfl⟩ := List.getElem?_eq_some_iff.mp ha
    exact h.getElem i hi

theorem Intact.not_failsAt (h : Intact sum tenantId rs) (i : Nat) (c : Reason) :
    ¬ FailsAt sum tenantId rs i c := by
  rintro ⟨r, hr, hfails⟩
  have hmem := mem_of_getElem? hr
  cases c with
  | tenantMismatch => exact hfails.2 (h.tenant hfails.1 r hmem)
  | hashMismatch => exact hfails (h.hashed r hmem)
  | sequenceGap =>
    obtain ⟨a, ha, hne⟩ := hfails
    exact hne (isChain_of_recordBefore h.consecutive ha hr)
  | linkMismatch =>
    obtain ⟨a, ha, hne⟩ := hfails
    exact hne (isChain_of_recordBefore h.linked ha hr)
  | genesisMismatch =>
    obtain ⟨hfirst, hone, hne⟩ := hfails
    cases i with
    | zero => exact hne (h.genesis r (head?_eq_getElem? ▸ hr) hone)
    | succ i =>
      obtain ⟨hi, -⟩ := List.getElem?_eq_some_iff.mp hr
      exact absurd hfirst (by simp [recordBefore]; omega)

theorem recordBefore_append (hi : i ≤ pre.length) (l : List Record) :
    recordBefore (pre ++ l) i = recordBefore pre i := by
  cases i with
  | zero => rfl
  | succ i => exact getElem?_append_left hi

theorem recordBefore_length (pre : List Record) : recordBefore pre pre.length = pre.getLast? := by
  cases pre using List.reverseRecOn with
  | nil => rfl
  | append_singleton pre a => simp [recordBefore]

/-- What the checks of `Add` compare, told of the list before. -/
theorem Verifier.Tracks.fails_iff (h : v.Tracks tenantId pre) (sum : Bytes → Bytes)
    (hwrap : ∀ a ∈ pre.getLast?, ¬ (a.chainSeq = Int64.maxValue ∧ r.chainSeq = Int64.minValue)) :
    (v.started = false ∧ r.chainSeq = 1 ∧ r.prevHash ≠ genesisHash ↔
        Fails sum tenantId pre.getLast? r .genesisMismatch) ∧
      (v.started = true ∧ r.chainSeq ≠ v.lastSeq + 1 ↔
        Fails sum tenantId pre.getLast? r .sequenceGap) ∧
      (v.started = true ∧ r.prevHash ≠ v.lastHash ↔
        Fails sum tenantId pre.getLast? r .linkMismatch) := by
  rw [h.started, h.lastSeq, h.lastHash]
  cases pre using List.reverseRecOn with
  | nil => simp [Fails]
  | append_singleton pre a =>
    have hsucc := eq_succ_iff (hwrap a (by simp))
    simp [Fails, hsucc]

theorem Reason.place_inj {b c : Reason} (h : b.place = c.place) : b = c := by
  cases b <;> cases c <;> first | rfl | cases h

/-- **The check that fails** is the first in the order of the `switch`. -/
theorem Verifier.Tracks.check_names (h : v.Tracks tenantId pre)
    (hwrap : ∀ a ∈ pre.getLast?, ¬ (a.chainSeq = Int64.maxValue ∧ r.chainSeq = Int64.minValue))
    (hbroken : ¬ v.Fits sum r) (hv : v.firstBreak = none) :
    ∃ b, ((v.count r).check sum r).firstBreak = some b ∧
      (b.chainSeq = r.chainSeq ∧ b.id = r.id) ∧ Fails sum tenantId pre.getLast? r b.reason ∧
      ∀ c : Reason, c.place < b.reason.place → ¬ Fails sum tenantId pre.getLast? r c := by
  obtain ⟨hgenesis, hgap, hlink⟩ := h.fails_iff sum hwrap
  have htenant : v.tenantId ≠ [] ∧ r.tenantId ≠ v.tenantId ↔
      Fails sum tenantId pre.getLast? r .tenantMismatch := by
    rw [h.tenantId]
    rfl
  have hfound : ((v.count r).check sum r).firstBreak ≠ none := by
    intro hnone
    have hf : (v.count r).Fits sum r := (Verifier.check_firstBreak (v := v.count r) hv).mp hnone
    exact hbroken ⟨hf.tenant, hf.genesis, hf.seq, hf.link, hf.hashed⟩
  have hnext : ∀ {b : Reason}, ¬ Fails sum tenantId pre.getLast? r b →
      (∀ c : Reason, c.place < b.place → ¬ Fails sum tenantId pre.getLast? r c) →
        ∀ c : Reason, c.place < b.place + 1 → ¬ Fails sum tenantId pre.getLast? r c := by
    intro b hb hbefore c hc
    rcases Nat.lt_succ_iff_lt_or_eq.mp hc with hlt | heq
    · exact hbefore c hlt
    · rwa [Reason.place_inj heq]
  revert hfound
  unfold Verifier.check
  have hpassed : ∀ c : Reason, c.place < 0 → ¬ Fails sum tenantId pre.getLast? r c :=
    fun c hc => absurd hc (Nat.not_lt_zero _)
  -- One branch for each check; in it the checks before have passed.
  split
  · next h => exact fun _ => ⟨_, rfl, ⟨rfl, rfl⟩, htenant.mp h, hpassed⟩
  next h =>
  replace hpassed := hnext (mt htenant.mpr h) hpassed
  split
  · next h => exact fun _ => ⟨_, rfl, ⟨rfl, rfl⟩, hgenesis.mp h, hpassed⟩
  next h =>
  replace hpassed := hnext (mt hgenesis.mpr h) hpassed
  split
  · next h => exact fun _ => ⟨_, rfl, ⟨rfl, rfl⟩, hgap.mp h, hpassed⟩
  next h =>
  replace hpassed := hnext (mt hgap.mpr h) hpassed
  split
  · next h => exact fun _ => ⟨_, rfl, ⟨rfl, rfl⟩, hlink.mp h, hpassed⟩
  next h =>
  replace hpassed := hnext (mt hlink.mpr h) hpassed
  split
  · next h => exact fun _ => ⟨_, rfl, ⟨rfl, rfl⟩, h.symm, hpassed⟩
  · exact fun hfound => absurd hv hfound

/-- A broken list is reported at the record that breaks it. -/
theorem BreaksAt.namesFirstFault (h : BreaksAt sum tenantId pre r)
    (hwrap : NoWrap (pre ++ r :: post)) :
    ∃ b, ((newVerifier tenantId).addAll sum (pre ++ r :: post)).firstBreak = some b ∧
      NamesFirstFault sum tenantId (pre ++ r :: post) b := by
  have hpre : NoWrap pre := (isChain_append.mp hwrap).1
  have hvalid := valid_addAll_iff.mpr h.before
  have hmisfit : ¬ ((newVerifier tenantId).addAll sum pre).Fits sum r := by
    intro hf
    refine h.broken (valid_addAll_iff.mp ?_)
    rw [addAll_snoc]
    exact Verifier.valid_add_iff.mpr ⟨hvalid, hf⟩
  have hstep : ∀ a ∈ pre.getLast?,
      ¬ (a.chainSeq = Int64.maxValue ∧ r.chainSeq = Int64.minValue) :=
    fun a ha => (isChain_append.mp hwrap).2.2 a ha r rfl
  obtain ⟨b, hb, hnames, hfails, hfirst⟩ :=
    h.before.tracks.check_names hstep hmisfit (Verifier.valid_iff.mp hvalid)
  have hindex : (pre ++ r :: post)[pre.length]? = some r := by simp
  have hprev : recordBefore (pre ++ r :: post) pre.length = pre.getLast? := by
    rw [recordBefore_append le_rfl, recordBefore_length]
  refine ⟨b, ?_, pre.length, ?_, ⟨r, hindex, hnames⟩, ⟨r, hindex, hprev ▸ hfails⟩, ?_⟩
  · rw [h.addAll post, Verifier.add_of_valid hvalid]
    exact hb
  · rintro j hj c ⟨a, ha, hc⟩
    rw [getElem?_append_left hj] at ha
    rw [recordBefore_append hj.le] at hc
    exact ((validChain_iff_intact hpre).mp h.before).not_failsAt j c ⟨a, ha, hc⟩
  · rintro c hc ⟨a, ha, hfails'⟩
    obtain rfl := Option.mem_unique ha hindex
    exact hfirst c hc (hprev ▸ hfails')

end

def zeroDigest (_ : Bytes) : Bytes := [0]

end Pcmi.Audit
