import Pcmi.Extraction.Service
import Pcmi.Lib.Slots
import Pcmi.Memory.Lifecycle

/-!
# Failed extractions and successful records

`persistFailureRecord` is to keep a successful record, but looks for one in the row as it was read
before the LLM was asked.
-/

namespace Pcmi.Extraction

open List Pcmi.Go Pcmi.Lib Pcmi.Memory

/-! ## Runs -/

/-- An extraction between its read and its write. -/
structure Call where
  entry : Row
  force : Bool

structure State where
  table : Table
  calls : List Call
  /-- The rows as the writes of extractions have left them. -/
  written : List Row

def State.begin (s : State) (entry : Row) (force : Bool) : State :=
  { s with calls := s.calls ++ [⟨entry, force⟩] }

inductive Action where
  | extractMemory (memoryId : Int)
  | extractPath (path : String) (memoryId version : Int)
  | onMemoryEvent (path : String) (memoryId version : Int)
  /-- The rest of an extraction, with what it gets from outside. -/
  | finish (i : Nat) (inp : Inputs)
  /-- A statement fails, or the process stops. -/
  | abandon (i : Nat)
  | store (req : StoreRequest) (now : Time)

def Action.unforced : Action → Option Int
  | .extractPath _ memoryId _ => some memoryId
  | .onMemoryEvent _ memoryId _ => some memoryId
  | _ => none

/-- The version fits into its `INTEGER` column. -/
def FitsInt4 (r : Row) : Prop := -2147483648 ≤ r.version ∧ r.version ≤ maxInt4

variable {r : Row}

theorem FitsInt4.exact (h : FitsInt4 r) : throughFloat64 r.version = r.version := by
  obtain ⟨hlow, hhigh⟩ := h
  unfold maxInt4 at hhigh
  exact throughFloat64_of_lt (by omega)

section

variable {tenantId : String} {rows : List Row} {now : Time} {f : Row → Row}

theorem map_id_updated (hf : ∀ r, Row.Updated now r (f r)) :
    (rows.map f).map Row.id = rows.map Row.id := by
  rw [map_map]
  exact map_congr_left fun r _ => (hf r).id

theorem fits_updated (hf : ∀ r, Row.Updated now r (f r)) (h : ∀ r ∈ rows, FitsInt4 r) :
    ∀ r ∈ rows.map f, FitsInt4 r := by
  intro r' hr'
  obtain ⟨r, hr, rfl⟩ := mem_map.mp hr'
  rw [FitsInt4, (hf r).version]
  exact h r hr

theorem fits_stored {c : Columns} {new : Row} (h : ∀ r ∈ rows, FitsInt4 r) (hnew : FitsInt4 new) :
    ∀ r ∈ closeCurrent tenantId c.path now rows ++ [new], FitsInt4 r := by
  exact forall_mem_concat (fits_updated (closeCurrent_updated tenantId c.path now) h) hnew

end

section

variable (env : Env) (svc : Service) (tenantId : String)

def step (s : State) : Action → Option State
  | .extractMemory memoryId =>
    match extractMemory env svc tenantId memoryId s.table.rows with
    | .ok entry => some (s.begin entry true)
    | .error _ => some s
  | .extractPath path memoryId version =>
    match extractPath env svc tenantId path memoryId version s.table.rows with
    | .ok (some entry) => some (s.begin entry false)
    | _ => some s
  | .onMemoryEvent path memoryId version =>
    match onMemoryEvent env svc tenantId path memoryId version s.table.rows with
    | .ok (some entry) => some (s.begin entry false)
    | _ => some s
  | .finish i inp =>
    match s.calls[i]? with
    | none => none
    | some c =>
      let done := extractEntry env svc tenantId c.entry c.force inp s.table
      some ⟨done.table, s.calls.eraseIdx i, s.written ++ done.written⟩
  | .abandon i =>
    match s.calls[i]? with
    | none => none
    | some _ => some { s with calls := s.calls.eraseIdx i }
  | .store req now =>
    match store env req tenantId now s.table with
    | .ok (_, table) => some { s with table }
    | .error _ => some s

/-- **What a step can do.** -/
inductive Effect (s : State) : Action → State → Prop where
  | idle (a : Action) : Effect s a s
  | forced (memoryId : Int) (r entry : Row) (hr : r ∈ s.table.rows)
      (hscan : scanMemoryEntry env r = .ok entry) (hcur : r.current tenantId r.path = true) :
      Effect s (.extractMemory memoryId) (s.begin entry true)
  | unforced (a : Action) (r entry : Row) (hr : r ∈ s.table.rows)
      (hscan : scanMemoryEntry env r = .ok entry) (hcur : r.current tenantId r.path = true)
      (ha : a.unforced = some (r.id : Int)) (hnone : existingOkExtraction entry = none) :
      Effect s a (s.begin entry false)
  | finished (i : Nat) (inp : Inputs) (c : Call) (done : Extracted) (hc : s.calls[i]? = some c)
      (hdone : Extracts env svc tenantId c.entry inp s.table done) :
      Effect s (.finish i inp) ⟨done.table, s.calls.eraseIdx i, s.written ++ done.written⟩
  | abandoned (i : Nat) : Effect s (.abandon i) { s with calls := s.calls.eraseIdx i }
  | stored (req : StoreRequest) (now : Time) (c : Columns) (version : Int)
      (hc : storeColumns env req = .ok c)
      (hfits : (∀ r ∈ s.table.rows, FitsInt4 r) →
        FitsInt4 (c.toRow tenantId s.table.nextId version now)) :
      Effect s (.store req now) { s with table := {
        rows := closeCurrent tenantId c.path now s.table.rows ++
          [c.toRow tenantId s.table.nextId version now]
        nextId := s.table.nextId + 1 } }

variable {env svc tenantId} {s s' : State} {a : Action}

theorem store_effect {req : StoreRequest} {now : Time} {t t' : Table} {out : StoreOutcome}
    (h : store env req tenantId now t = .ok (out, t')) :
    ∃ c version, storeColumns env req = .ok c ∧
      ((∀ r ∈ t.rows, FitsInt4 r) → FitsInt4 (c.toRow tenantId t.nextId version now)) ∧ t' = {
        rows := closeCurrent tenantId c.path now t.rows ++ [c.toRow tenantId t.nextId version now]
        nextId := t.nextId + 1 } := by
  unfold store at h
  split at h
  · cases h
  next c hc =>
  unfold storeVersion at h
  dsimp only at h
  split at h <;> cases h
  next hle =>
  refine ⟨c, _, hc, fun hrows => ⟨?_, not_lt.mp hle⟩, rfl⟩
  show -2147483648 ≤ nextVersion _
  cases hclosed : t.rows.find? (Row.current tenantId c.path) with
  | none => decide
  | some r =>
    have hlow := (hrows r (mem_of_find?_eq_some hclosed)).1
    show -2147483648 ≤ r.version + 1
    omega

theorem extractPath_effect {path : String} {memoryId version : Int} {entry : Row}
    (ha : a.unforced = some memoryId)
    (h : extractPath env svc tenantId path memoryId version s.table.rows = .ok (some entry)) :
    Effect env svc tenantId s a (s.begin entry false) := by
  obtain ⟨hget, hnone⟩ := extractPath_ok h
  obtain ⟨r, hr, hscan, hid, hcur⟩ := getCurrentMemoryById_ok hget
  exact .unforced a r entry hr hscan hcur (by rw [ha, hid]) hnone

theorem step_effect (h : step env svc tenantId s a = some s') :
    Effect env svc tenantId s a s' := by
  cases a with
  | extractMemory memoryId =>
    dsimp only [step] at h
    split at h <;> cases h
    · next entry hget =>
      obtain ⟨r, hr, hscan, -, hcur⟩ := getCurrentMemoryById_ok (extractMemory_ok hget)
      exact .forced memoryId r entry hr hscan hcur
    · exact .idle _
  | extractPath path memoryId version =>
    dsimp only [step] at h
    split at h <;> cases h
    · next entry hget => exact extractPath_effect rfl hget
    · exact .idle _
  | onMemoryEvent path memoryId version =>
    dsimp only [step] at h
    split at h <;> cases h
    · next entry hget => exact extractPath_effect rfl (onMemoryEvent_ok hget)
    · exact .idle _
  | finish i inp =>
    dsimp only [step] at h
    split at h <;> cases h
    next c hc => exact .finished i inp c _ hc extractEntry_extracts
  | abandon i =>
    dsimp only [step] at h
    split at h <;> cases h
    exact .abandoned i
  | store req now =>
    dsimp only [step] at h
    split at h <;> cases h
    · next out table hstore =>
      obtain ⟨c, version, hc, hfits, rfl⟩ := store_effect hstore
      exact .stored req now c version hc hfits
    · exact .idle _

end

/-! ## Successful records -/

/-- The row holds what a successful extraction of it writes. -/
def OkExtraction (r : Row) : Prop :=
  ∃ rec : Record, rec.status = "ok" ∧ rec.memoryId = r.id ∧ rec.memoryVersion = r.version ∧
    r.metadata.lookup metadataKey = some rec.toJson

/-- The id fits a `float64`, and the key holds a record. -/
def Legible (r : Row) : Prop :=
  throughFloat64 r.id = r.id ∧
    (metadataKey ∈ r.metadata → (recordFromMetadata r.metadata).isSome = true)

instance (r : Row) : Decidable (Legible r) := inferInstanceAs (Decidable (_ ∧ (_ → _)))

theorem lookup_mergeMetadata (rec : Record) (tags : List String) (r : Row) :
    (r.mergeMetadata (recordToMetadataMap rec) tags).metadata.lookup metadataKey =
      some rec.toJson := by
  have hlookup : (recordToMetadataMap rec).lookup metadataKey = some rec.toJson := by
    rw [recordToMetadataMap, ← AList.insert_empty, AList.lookup_insert]
  have hmem : metadataKey ∈ recordToMetadataMap rec :=
    AList.lookup_isSome.mp (by rw [hlookup]; rfl)
  exact (AList.lookup_union_left hmem).trans hlookup

/-- **A legible successful record is found.** -/
theorem OkExtraction.existing (h : OkExtraction r) (hlegible : Legible r) (hfits : FitsInt4 r) :
    existingOkExtraction r ≠ none := by
  obtain ⟨rec, hstatus, hid, hversion, hlookup⟩ := h
  obtain ⟨hexact, hread⟩ := hlegible
  have hmem : metadataKey ∈ r.metadata := AList.lookup_isSome.mp (by rw [hlookup]; rfl)
  obtain ⟨rec', hrec'⟩ := Option.isSome_iff_exists.mp (hread hmem)
  have hof : Record.ofJson rec.toJson = some rec' := by
    rw [recordFromMetadata, hlookup] at hrec'
    exact hrec'
  obtain ⟨hid', hversion', hstatus'⟩ :=
    Record.ofJson_toJson_ids (by rw [hstatus]; decide) hof
  have hidRead : rec'.memoryId = r.id := by rw [hid', hid, hexact]
  have hversionRead : rec'.memoryVersion = r.version := by rw [hversion', hversion, hfits.exact]
  unfold existingOkExtraction
  rw [hrec']
  dsimp only
  rw [if_neg (by rw [hstatus', hstatus]; simp), if_neg (by simp [hidRead, hversionRead])]
  exact Option.some_ne_none _

theorem OkExtraction.congr {r' : Row} (hid : r'.id = r.id) (hversion : r'.version = r.version)
    (hmeta : r'.metadata = r.metadata) (h : OkExtraction r') : OkExtraction r := by
  obtain ⟨rec, hstatus, hrid, hrversion, hlookup⟩ := h
  exact ⟨rec, hstatus, hrid.trans (by rw [hid]), hrversion.trans hversion, hmeta ▸ hlookup⟩

theorem OkExtraction.status {rec : Record} {tags : List String} {r : Row}
    (h : OkExtraction (r.mergeMetadata (recordToMetadataMap rec) tags)) (hne : rec.status ≠ "") :
    rec.status = "ok" := by
  obtain ⟨rec', hstatus, -, -, hlookup⟩ := h
  rw [lookup_mergeMetadata] at hlookup
  have hjson : rec.toJson = rec'.toJson := Option.some.inj hlookup
  have hfield : jsonField Field.status.name rec.toJson = some (.str rec.status) :=
    jsonField_toJson (decide_eq_false hne)
  rw [hjson, jsonField_toJson (f := .status) (decide_eq_false (by rw [hstatus]; decide))] at hfield
  have hsame : rec'.status = rec.status := Json.str.inj (Option.some.inj hfield)
  exact hsame.symm.trans hstatus

/-! ## Keeping successful records -/

section

variable (env : Env) (svc : Service) (tenantId : String)

/-- An unforced extraction reads a legible row, and no other succeeds meanwhile. -/
def Undisturbed (s : State) : Action → Prop
  | .finish i inp => inp.succeeds svc = true → ∀ c ∈ s.calls[i]?,
      ∀ p ∈ env.castLtree (trimSpaceText c.entry.path.text),
      ∀ c' ∈ s.calls.eraseIdx i, c'.force = false → c'.entry.path ≠ p
  | a => ∀ memoryId ∈ a.unforced, ∀ r ∈ s.table.rows, (r.id : Int) = memoryId → Legible r

/-- No unforced extraction is under way for a successful record. -/
structure Unseen (s : State) : Prop where
  below : ∀ r ∈ s.table.rows, r.id < s.table.nextId
  nodup : (s.table.rows.map Row.id).Nodup
  fits : ∀ r ∈ s.table.rows, FitsInt4 r
  started : ∀ c ∈ s.calls, c.force = false → c.entry.id < s.table.nextId
  path : ∀ c ∈ s.calls, c.force = false → ∀ r ∈ s.table.rows, r.id = c.entry.id →
    r.path = c.entry.path
  notOk : ∀ c ∈ s.calls, c.force = false → ∀ r ∈ s.table.rows, r.id = c.entry.id →
    ¬ OkExtraction r

variable {env svc tenantId} {s s' : State} {a : Action}

theorem Unseen.calls (h : Unseen s) {calls : List Call} (hsub : ∀ c ∈ calls, c ∈ s.calls) :
    Unseen { s with calls } where
  below := h.below
  nodup := h.nodup
  fits := h.fits
  started := fun c hc => h.started c (hsub c hc)
  path := fun c hc => h.path c (hsub c hc)
  notOk := fun c hc => h.notOk c (hsub c hc)

theorem Unseen.begin_forced (h : Unseen s) (entry : Row) : Unseen (s.begin entry true) := by
  have hcalls : ∀ c ∈ s.calls ++ [⟨entry, true⟩], c.force = false → c ∈ s.calls := by
    exact forall_mem_concat (fun c hc _ => hc) nofun
  exact ⟨h.below, h.nodup, h.fits, fun c hc hforce => h.started c (hcalls c hc hforce) hforce,
    fun c hc hforce => h.path c (hcalls c hc hforce) hforce,
    fun c hc hforce => h.notOk c (hcalls c hc hforce) hforce⟩

variable {r : Row}

theorem Unseen.begin_unforced (h : Unseen s) {entry : Row} (hr : r ∈ s.table.rows)
    (hscan : scanMemoryEntry env r = .ok entry) (hlegible : Legible r)
    (hnone : existingOkExtraction entry = none) : Unseen (s.begin entry false) := by
  obtain ⟨content, rfl⟩ := scanMemoryEntry_ok hscan
  have hsame : ∀ r' ∈ s.table.rows, r'.id = r.id → r' = r := fun r' hr' hid =>
    inj_on_of_nodup_map h.nodup hr' hr hid
  refine ⟨h.below, h.nodup, h.fits, fun c hc hforce => ?_, fun c hc hforce r' hr' hid => ?_,
    fun c hc hforce r' hr' hid hok => ?_⟩
  all_goals rcases mem_append.mp hc with hc | hc
  · exact h.started c hc hforce
  · rw [mem_singleton.mp hc]
    exact h.below r hr
  · exact h.path c hc hforce r' hr' hid
  · rw [mem_singleton.mp hc] at hid ⊢
    rw [hsame r' hr' hid]
  · exact h.notOk c hc hforce r' hr' hid hok
  · rw [mem_singleton.mp hc] at hid
    rw [hsame r' hr' hid] at hok
    exact hok.existing hlegible (h.fits r hr) hnone

theorem Unseen.merge (h : Unseen s) {rec : Record} {p : Ltree} (hstatus : rec.status ≠ "")
    (hok : rec.status = "ok" → ∀ c ∈ s.calls, c.force = false → c.entry.path ≠ p) :
    Unseen { s with table := { s.table with
      rows := mergeCurrent tenantId p (recordToMetadataMap rec) [] s.table.rows } } := by
  have hupdated := mergeCurrent_updated tenantId p (recordToMetadataMap rec) [] 0
  refine ⟨fun r' hr' => ?_, ?_, fits_updated hupdated h.fits, h.started,
    fun c hc hforce r' hr' hid => ?_, fun c hc hforce r' hr' hid hrok => ?_⟩
  · obtain ⟨r, hr, rfl⟩ := mem_map.mp hr'
    rw [(hupdated r).id]
    exact h.below r hr
  · exact (map_id_updated hupdated).symm ▸ h.nodup
  · obtain ⟨r, hr, rfl⟩ := mem_map.mp hr'
    rw [(hupdated r).id] at hid
    rw [(hupdated r).path]
    exact h.path c hc hforce r hr hid
  · obtain ⟨r, hr, rfl⟩ := mem_map.mp hr'
    rw [(hupdated r).id] at hid
    split at hrok
    · next hcur =>
      -- The row is at `p`, where no extraction without force is under way if the record is `ok`.
      refine hok (hrok.status hstatus) c hc hforce ?_
      rw [← h.path c hc hforce r hr hid]
      exact beq_iff_eq.mp (Bool.and_eq_true_iff.mp (Bool.and_eq_true_iff.mp hcur).1).2
    · exact h.notOk c hc hforce r hr hid hrok

/-- A store closes the current row and adds one with a new id. -/
theorem Unseen.store (h : Unseen s) {c : Columns} {version : Int} {now : Time}
    (hfits : FitsInt4 (c.toRow tenantId s.table.nextId version now)) :
    Unseen { s with table := {
      rows := closeCurrent tenantId c.path now s.table.rows ++
        [c.toRow tenantId s.table.nextId version now]
      nextId := s.table.nextId + 1 } } := by
  have hupdated := closeCurrent_updated tenantId c.path now
  have hrow : ∀ r' ∈ closeCurrent tenantId c.path now s.table.rows ++
      [c.toRow tenantId s.table.nextId version now],
      (∃ r ∈ s.table.rows, r'.id = r.id ∧ r'.path = r.path ∧ (OkExtraction r' → OkExtraction r)) ∨
        r'.id = s.table.nextId := by
    intro r' hr'
    rcases mem_append.mp hr' with hr' | hr'
    · obtain ⟨r, hr, rfl⟩ := mem_map.mp hr'
      refine Or.inl ⟨r, hr, (hupdated r).id, (hupdated r).path, ?_⟩
      refine OkExtraction.congr (hupdated r).id (hupdated r).version ?_
      split <;> rfl
    · rw [mem_singleton.mp hr']
      exact Or.inr rfl
  refine ⟨fun r' hr' => ?_, ?_, fits_stored h.fits hfits,
    fun d hd hforce => Nat.lt_succ_of_lt (h.started d hd hforce),
    fun d hd hforce r' hr' hid => ?_, fun d hd hforce r' hr' hid hok => ?_⟩
  · rcases hrow r' hr' with ⟨r, hr, hid, -⟩ | hid
    · exact hid ▸ Nat.lt_succ_of_lt (h.below r hr)
    · exact hid ▸ Nat.lt_succ_self _
  · show List.Nodup (List.map Row.id _)
    rw [map_append, closeCurrent, map_id_updated hupdated]
    refine nodup_append.mpr ⟨h.nodup, nodup_singleton _, ?_⟩
    intro i hi j hj
    obtain ⟨r, hr, rfl⟩ := mem_map.mp hi
    rw [mem_singleton.mp hj]
    exact Nat.ne_of_lt (h.below r hr)
  · rcases hrow r' hr' with ⟨r, hr, hrid, hpath, -⟩ | hrid
    · exact hpath.trans (h.path d hd hforce r hr (hrid.symm.trans hid))
    · exact absurd (hid.symm.trans hrid) (Nat.ne_of_lt (h.started d hd hforce))
  · rcases hrow r' hr' with ⟨r, hr, hrid, -, hback⟩ | hrid
    · exact h.notOk d hd hforce r hr (hrid.symm.trans hid) (hback hok)
    · exact absurd (hid.symm.trans hrid) (Nat.ne_of_lt (h.started d hd hforce))

theorem Undisturbed.legible (h : Undisturbed env svc s a) (hr : r ∈ s.table.rows)
    (ha : a.unforced = some (r.id : Int)) : Legible r := by
  cases a with
  | extractPath path memoryId version | onMemoryEvent path memoryId version =>
    exact h _ rfl r hr (Option.some.inj ha).symm
  | _ => cases ha

theorem Unseen.step (h : Unseen s) (hok : Undisturbed env svc s a)
    (hstep : step env svc tenantId s a = some s') : Unseen s' := by
  cases step_effect hstep with
  | idle => exact h
  | forced memoryId r entry hr hscan hcur => exact h.begin_forced entry
  | unforced _ r entry hr hscan hcur ha hnone =>
    exact h.begin_unforced hr hscan (hok.legible hr ha) hnone
  | finished i inp c done hc hdone =>
    have hothers : Unseen { s with calls := s.calls.eraseIdx i } :=
      h.calls fun c hc => mem_of_mem_eraseIdx hc
    cases hdone with
    | untouched record error =>
      exact ⟨h.below, h.nodup, h.fits, hothers.started, hothers.path, hothers.notOk⟩
    | wrote rec p error hcast hid hversion hstatus hsucceeds =>
      have hfree : rec.status = "ok" → ∀ c' ∈ s.calls.eraseIdx i, c'.force = false →
          c'.entry.path ≠ p := fun hrok => hok (hsucceeds hrok) c hc p hcast
      have hmerged : Unseen { s with
          table := { s.table with
            rows := mergeCurrent tenantId p (recordToMetadataMap rec) [] s.table.rows }
          calls := s.calls.eraseIdx i } := hothers.merge hstatus hfree
      exact ⟨hmerged.below, hmerged.nodup, hmerged.fits, hmerged.started, hmerged.path,
        hmerged.notOk⟩
  | abandoned i => exact h.calls fun c hc => mem_of_mem_eraseIdx hc
  | stored req now c version hc hfits => exact h.store (hfits h.fits)

variable (env svc tenantId) in
/-- A failed unforced extraction leaves a successful record it has read. -/
def KeepsOk (s : State) : Prop :=
  ∀ (i : Nat) (inp : Inputs) (c : Call) (s' : State), s.calls[i]? = some c → c.force = false →
    inp.succeeds svc = false → step env svc tenantId s (.finish i inp) = some s' →
    ∀ r ∈ s.table.rows, r.id = c.entry.id → OkExtraction r → r ∈ s'.table.rows

/-- **A success is not replaced by a failure** if no other extraction at the path succeeds while an
unforced one is under way. -/
theorem ok_extraction_kept {s₀ : State} (hcalls : s₀.calls = [])
    (hbelow : ∀ r ∈ s₀.table.rows, r.id < s₀.table.nextId)
    (hnodup : (s₀.table.rows.map Row.id).Nodup) (hfits : ∀ r ∈ s₀.table.rows, FitsInt4 r)
    (h : Steps (step env svc tenantId) (Undisturbed env svc) s₀ s) :
    KeepsOk env svc tenantId s := by
  have hstart : Unseen s₀ := by
    have hnone : ∀ c ∈ s₀.calls, False := fun c hc => by rw [hcalls] at hc; cases hc
    exact ⟨hbelow, hnodup, hfits, fun c hc => (hnone c hc).elim, fun c hc => (hnone c hc).elim,
      fun c hc => (hnone c hc).elim⟩
  have hs : Unseen s :=
    h.invariant (P := Unseen) (fun _ _ _ hu hok hstep => hu.step hok hstep) hstart
  intro i inp c s' hc hforce _ _ r hr hid hok
  exact absurd hok (hs.notOk c (mem_of_getElem? hc) hforce r hr hid)

/-- **What an extraction has written is in the table.** -/
theorem finish_written {i : Nat} {inp : Inputs} {c : Call} (hc : s.calls[i]? = some c)
    (hstep : step env svc tenantId s (.finish i inp) = some s') (hr : r ∈ s'.written)
    (hnew : s.written = []) :
    r ∈ s'.table.rows ∧ (r.id = c.entry.id → r.version = c.entry.version →
      (recordFromMetadata r.metadata).map Record.status = some "ok" → OkExtraction r) := by
  cases step_effect hstep with
  | idle => rw [hnew] at hr; cases hr
  | unforced _ _ _ _ _ _ ha => cases ha
  | finished _ _ c' done hc' hdone =>
    obtain rfl : c = c' := Option.some.inj (hc.symm.trans hc')
    have hr : r ∈ s.written ++ done.written := hr
    rw [hnew, nil_append] at hr
    cases hdone with
    | untouched => cases hr
    | wrote rec p error hcast hid hversion hstatus hsucceeds =>
      obtain ⟨r₀, hr₀, rfl⟩ := mem_map.mp hr
      obtain ⟨hr₀, hcur⟩ := mem_filter.mp hr₀
      refine ⟨mem_map.mpr ⟨r₀, hr₀, if_pos hcur⟩, fun hrid hrversion hread => ?_⟩
      have hlookup := lookup_mergeMetadata rec [] r₀
      obtain ⟨rec', hrec', hok⟩ := Option.map_eq_some_iff.mp hread
      have hof : Record.ofJson rec.toJson = some rec' := by
        rw [recordFromMetadata, hlookup] at hrec'
        exact hrec'
      have hsame := (Record.ofJson_toJson_ids hstatus hof).2.2
      exact ⟨rec, hsame.symm.trans hok, hid.trans (by rw [hrid]), hversion.trans hrversion.symm,
        hlookup⟩

end

/-! ## A success between the read and the failure -/

instance (env : Env) (svc : Service) (s : State) :
    (a : Action) → Decidable (Undisturbed env svc s a)
  | .finish _ _ => inferInstanceAs (Decidable (_ → _))
  | .extractPath _ _ _ | .onMemoryEvent _ _ _ =>
    inferInstanceAs (Decidable (∀ memoryId ∈ some _, ∀ r ∈ _, _ → Legible r))
  | .extractMemory _ | .abandon _ | .store _ _ =>
    inferInstanceAs (Decidable (∀ memoryId ∈ none, ∀ r ∈ _, _ → Legible r))

def sampleService : Service where
  enabled := true
  model := "m"
  llmConfigured := true
  parseLLMResponse _ _ := .ok ⟨(1, 0), [], []⟩

def answered : Inputs := { profile := .ok (some ⟨"p", 1⟩), completion := .ok "" }

def timedOut : Inputs := { profile := .ok (some ⟨"p", 1⟩), completion := .error "timeout" }

def sampleState : State := ⟨⟨[dedupRow 1 "x" "a"], 2⟩, [], []⟩

theorem fits_sampleState : ∀ r ∈ sampleState.table.rows, FitsInt4 r := by
  unfold FitsInt4
  decide

def statuses (s : State) : List (Option String) :=
  s.table.rows.map fun r => (recordFromMetadata r.metadata).map Record.status

/-- The worker fails, the request succeeds, the next event finds its record. -/
def failFirst : List Action :=
  [.onMemoryEvent "x" 1 1, .finish 0 timedOut, .extractMemory 1, .finish 0 answered,
    .extractPath "x" 1 1]

def afterFailFirst : State :=
  (runAll (guarded (step dedupEnv sampleService "t") (Undisturbed dedupEnv sampleService))
    sampleState failFirst).getD sampleState

theorem steps_failFirst : Steps (step dedupEnv sampleService "t")
    (Undisturbed dedupEnv sampleService) sampleState afterFailFirst :=
  steps_getD sampleState (by decide +kernel)

theorem ok_extraction_kept_failFirst :
    statuses afterFailFirst = [some "ok"] ∧ KeepsOk dedupEnv sampleService "t" afterFailFirst :=
  ⟨by decide +kernel, ok_extraction_kept rfl (by decide) (by decide) fits_sampleState
    steps_failFirst⟩

def bothRead : State :=
  (runAll (step dedupEnv sampleService "t") sampleState
    [.onMemoryEvent "x" 1 1, .extractMemory 1]).getD sampleState

def requestDone : State :=
  (step dedupEnv sampleService "t" bothRead (.finish 1 answered)).getD bothRead

def workerDone : State :=
  (step dedupEnv sampleService "t" requestDone (.finish 0 timedOut)).getD requestDone

/-- **The worker's failure replaces the record of the request.** -/
theorem ok_extraction_replaced : Reaches (step dedupEnv sampleService "t") sampleState requestDone ∧
    statuses requestDone = [some "ok"] ∧ statuses workerDone = [some "llm_failed"] ∧
    ¬ KeepsOk dedupEnv sampleService "t" requestDone := by
  have hrequest : step dedupEnv sampleService "t" bothRead (.finish 1 answered) =
      some requestDone := some_getD bothRead (by decide +kernel)
  have hworker : step dedupEnv sampleService "t" requestDone (.finish 0 timedOut) =
      some workerDone := some_getD requestDone (by decide +kernel)
  refine ⟨.tail (reaches_getD _ (by decide +kernel)) trivial hrequest, by decide +kernel,
    by decide +kernel, fun hkeeps => ?_⟩
  obtain ⟨c, hc, hcId, hcVersion⟩ : ∃ c ∈ bothRead.calls[1]?, c.entry.id = 1 ∧
      c.entry.version = 1 := by decide +kernel
  obtain ⟨w, hw, hwId, hforce⟩ : ∃ w ∈ requestDone.calls[0]?, w.entry.id = 1 ∧ w.force = false := by
    decide +kernel
  have hnew : bothRead.written = [] := List.isEmpty_iff.mp (by decide +kernel)
  obtain ⟨r, hr, hid, hversion, hstatus⟩ : ∃ r ∈ requestDone.written, r.id = 1 ∧ r.version = 1 ∧
      (recordFromMetadata r.metadata).map Record.status = some "ok" := by decide +kernel
  obtain ⟨htable, hok⟩ := finish_written hc hrequest hr hnew
  have hkept := hkeeps 0 timedOut w workerDone hw hforce rfl hworker r htable (hid.trans hwId.symm)
    (hok (hid.trans hcId.symm) (hversion.trans hcVersion.symm) hstatus)
  -- All records in the table behind the worker are failures.
  have hfailed : ∀ status ∈ statuses workerDone, status = some "llm_failed" := by decide +kernel
  have hread := hfailed _ (mem_map_of_mem hkept)
  rw [hstatus] at hread
  exact absurd hread (by decide)

end Pcmi.Extraction
