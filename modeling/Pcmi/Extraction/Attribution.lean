import Pcmi.Extraction.Runs

/-!
# Which row a record is written into

An extraction puts the id and version of the row it has read into its record, and merges it into the
row that is current at the path when the LLM has answered.
-/

namespace Pcmi.Extraction

open List Pcmi.Go Pcmi.Lib Pcmi.Memory

/-! ## Records that name their row -/

def recordInt (f : Field) (metadata : JsonMap) : Option Int :=
  match (metadata.lookup metadataKey).bind (jsonField f.name) with
  | some (.num n 0) => some n
  | _ => none

def NamesRow (r : Row) : Prop :=
  recordInt .memoryId r.metadata = some (r.id : Int) ∧
    recordInt .memoryVersion r.metadata = some r.version

instance (r : Row) : Decidable (NamesRow r) := inferInstanceAs (Decidable (_ ∧ _))

theorem namesRow_mergeMetadata {rec : Record} {r : Row} (tags : List String)
    (hid : throughFloat64 rec.memoryId = r.id)
    (hversion : throughFloat64 rec.memoryVersion = r.version) :
    NamesRow (r.mergeMetadata (recordToMetadataMap rec) tags) := by
  have hlookup := lookup_mergeMetadata rec tags r
  have hidField : jsonField Field.memoryId.name rec.toJson = some (.num r.id 0) := by
    rw [jsonField_toJson rfl, Record.json, hid]
  have hversionField : jsonField Field.memoryVersion.name rec.toJson = some (.num r.version 0) := by
    rw [jsonField_toJson rfl, Record.json, hversion]
  constructor
  · rw [recordInt, hlookup, Option.bind_some, hidField]
    rfl
  · rw [recordInt, hlookup, Option.bind_some, hversionField]
    rfl

/-! ## Runs without a store in between -/

/-- What the database casts to an `ltree` is cast back from its text. -/
def CastsBack (env : Env) : Prop :=
  ∀ text p, env.castLtree text = some p → env.castLtree (trimSpaceText p.text) = some p

/-- No store goes to the path of an extraction; written ids fit a `float64`. -/
def Unmoved (env : Env) (s : State) : Action → Prop
  | .store req _ =>
    match storeColumns env req with
    | .ok columns => ∀ c ∈ s.calls, c.entry.path ≠ columns.path
    | .error _ => True
  | .finish i _ => ∀ c ∈ s.calls[i]?, throughFloat64 c.entry.id = c.entry.id
  | _ => True

/-- At most one version of a path is current. -/
def OneCurrent (tenantId : String) (rows : List Row) : Prop :=
  ∀ p, ∀ r ∈ rows, ∀ r' ∈ rows, r.current tenantId p = true → r'.current tenantId p = true →
    r.id = r'.id ∧ r.version = r'.version

def RowsCast (env : Env) (rows : List Row) : Prop :=
  ∀ r ∈ rows, env.castLtree (trimSpaceText r.path.text) = some r.path

/-- The row an extraction has read is still current. -/
structure Attributed (env : Env) (tenantId : String) (s : State) : Prop where
  oneCurrent : OneCurrent tenantId s.table.rows
  rowsCast : RowsCast env s.table.rows
  fits : ∀ r ∈ s.table.rows, FitsInt4 r
  callsCast : ∀ c ∈ s.calls, env.castLtree (trimSpaceText c.entry.path.text) = some c.entry.path
  current : ∀ c ∈ s.calls, ∀ r ∈ s.table.rows, r.current tenantId c.entry.path = true →
    r.id = c.entry.id ∧ r.version = c.entry.version
  names : ∀ r ∈ s.written, NamesRow r

section

variable {env : Env} {svc : Service} {tenantId : String} {s s' : State} {a : Action}

theorem Attributed.calls (h : Attributed env tenantId s) {calls : List Call}
    (hsub : ∀ c ∈ calls, c ∈ s.calls) : Attributed env tenantId { s with calls } where
  oneCurrent := h.oneCurrent
  rowsCast := h.rowsCast
  fits := h.fits
  callsCast := fun c hc => h.callsCast c (hsub c hc)
  current := fun c hc => h.current c (hsub c hc)
  names := h.names

theorem Attributed.begin (h : Attributed env tenantId s) {r entry : Row} (hr : r ∈ s.table.rows)
    (hscan : scanMemoryEntry env r = .ok entry) (hcur : r.current tenantId r.path = true)
    (force : Bool) : Attributed env tenantId (s.begin entry force) := by
  obtain ⟨content, rfl⟩ := scanMemoryEntry_ok hscan
  refine ⟨h.oneCurrent, h.rowsCast, h.fits, fun c hc => ?_, fun c hc r' hr' hcur' => ?_, h.names⟩
  all_goals rcases mem_append.mp hc with hc | hc
  · exact h.callsCast c hc
  · rw [mem_singleton.mp hc]
    exact h.rowsCast r hr
  · exact h.current c hc r' hr' hcur'
  · rw [mem_singleton.mp hc] at hcur' ⊢
    exact h.oneCurrent r.path r' hr' r hr hcur' hcur

variable {rows : List Row} {r' : Row} {c : Columns} {now : Time} {version : Int}

theorem exists_of_mem_mergeCurrent {p : Ltree} {metadata : JsonMap} {tags : List String}
    (hr' : r' ∈ mergeCurrent tenantId p metadata tags rows) :
    ∃ r ∈ rows, r'.id = r.id ∧ r'.version = r.version ∧ r'.path = r.path ∧
      ∀ q, r'.current tenantId q = r.current tenantId q := by
  obtain ⟨r, hr, rfl⟩ := mem_map.mp hr'
  refine ⟨r, hr, ?_⟩
  split <;> exact ⟨rfl, rfl, rfl, fun _ => rfl⟩

theorem Attributed.merge (h : Attributed env tenantId s) (p : Ltree) (metadata : JsonMap)
    {written : List Row} (hnames : ∀ r ∈ written, NamesRow r) :
    Attributed env tenantId
      ⟨{ s.table with rows := mergeCurrent tenantId p metadata [] s.table.rows }, s.calls,
        s.written ++ written⟩ := by
  refine ⟨fun q r₁ hr₁ r₂ hr₂ hcur₁ hcur₂ => ?_, fun r' hr' => ?_,
    fits_updated (mergeCurrent_updated tenantId p metadata [] 0) h.fits, h.callsCast,
    fun c hc r' hr' hcur => ?_, fun r hr => ?_⟩
  · obtain ⟨r, hr, hid, hversion, -, hcur⟩ := exists_of_mem_mergeCurrent hr₁
    obtain ⟨r', hr', hid', hversion', -, hcur'⟩ := exists_of_mem_mergeCurrent hr₂
    rw [hcur] at hcur₁
    rw [hcur'] at hcur₂
    rw [hid, hid', hversion, hversion']
    exact h.oneCurrent q r hr r' hr' hcur₁ hcur₂
  · obtain ⟨r, hr, -, -, hpath, -⟩ := exists_of_mem_mergeCurrent hr'
    rw [hpath]
    exact h.rowsCast r hr
  · obtain ⟨r, hr, hid, hversion, -, hcur'⟩ := exists_of_mem_mergeCurrent hr'
    rw [hcur'] at hcur
    rw [hid, hversion]
    exact h.current c hc r hr hcur
  · rcases mem_append.mp hr with hr | hr
    · exact h.names r hr
    · exact hnames r hr

/-- After a store: the new row at its path, the old rows elsewhere. -/
theorem current_stored {id : Nat} {q : Ltree}
    (hr' : r' ∈ closeCurrent tenantId c.path now rows ++ [c.toRow tenantId id version now])
    (hcur : r'.current tenantId q = true) :
    (q = c.path ∧ r' = c.toRow tenantId id version now) ∨ (q ≠ c.path ∧ r' ∈ rows) := by
  rcases mem_append.mp hr' with hr' | hr'
  · obtain ⟨r, hr, rfl⟩ := mem_map.mp hr'
    split at hcur
    · rw [Row.close_current] at hcur
      cases hcur
    next hnot =>
    rw [if_neg hnot]
    refine Or.inr ⟨fun hq => hnot (hq ▸ hcur), hr⟩
  · obtain rfl := mem_singleton.mp hr'
    refine Or.inl ⟨?_, rfl⟩
    exact (beq_iff_eq.mp (Bool.and_eq_true_iff.mp (Bool.and_eq_true_iff.mp hcur).1).2).symm

theorem Attributed.store (h : Attributed env tenantId s)
    (hcast : env.castLtree (trimSpaceText c.path.text) = some c.path)
    (haway : ∀ d ∈ s.calls, d.entry.path ≠ c.path)
    (hfits : FitsInt4 (c.toRow tenantId s.table.nextId version now)) :
    Attributed env tenantId { s with table := {
      rows := closeCurrent tenantId c.path now s.table.rows ++
        [c.toRow tenantId s.table.nextId version now]
      nextId := s.table.nextId + 1 } } := by
  refine ⟨fun q r₁ hr₁ r₂ hr₂ hcur₁ hcur₂ => ?_, fun r' hr' => ?_, fits_stored h.fits hfits,
    h.callsCast, fun d hd r' hr' hcur => ?_, h.names⟩
  · rcases current_stored hr₁ hcur₁ with ⟨hq, rfl⟩ | ⟨hq, hold₁⟩
    · rcases current_stored hr₂ hcur₂ with ⟨-, rfl⟩ | ⟨hq', -⟩
      · exact ⟨rfl, rfl⟩
      · exact absurd hq hq'
    · rcases current_stored hr₂ hcur₂ with ⟨hq', -⟩ | ⟨-, hold₂⟩
      · exact absurd hq' hq
      · exact h.oneCurrent q r₁ hold₁ r₂ hold₂ hcur₁ hcur₂
  · rcases mem_append.mp hr' with hr' | hr'
    · obtain ⟨r, hr, rfl⟩ := mem_map.mp hr'
      rw [(closeCurrent_updated tenantId c.path now r).path]
      exact h.rowsCast r hr
    · rw [mem_singleton.mp hr']
      exact hcast
  · rcases current_stored hr' hcur with ⟨hq, -⟩ | ⟨-, hold⟩
    · exact absurd hq (haway d hd)
    · exact h.current d hd r' hold hcur

theorem Attributed.step (hcastsBack : CastsBack env) (h : Attributed env tenantId s)
    (hok : Unmoved env s a) (hstep : step env svc tenantId s a = some s') :
    Attributed env tenantId s' := by
  cases step_effect hstep with
  | idle => exact h
  | forced memoryId r entry hr hscan hcur => exact h.begin hr hscan hcur true
  | unforced _ r entry hr hscan hcur ha hnone => exact h.begin hr hscan hcur false
  | finished i inp c done hc hdone =>
    have hothers : Attributed env tenantId { s with calls := s.calls.eraseIdx i } :=
      h.calls fun c hc => mem_of_mem_eraseIdx hc
    cases hdone with
    | untouched record error =>
      refine ⟨h.oneCurrent, h.rowsCast, h.fits, hothers.callsCast, hothers.current, ?_⟩
      intro r hr
      rw [append_nil] at hr
      exact h.names r hr
    | wrote rec p error hcast hid hversion hstatus hsucceeds =>
      refine hothers.merge p _ fun r' hr' => ?_
      obtain ⟨r, hr, rfl⟩ := mem_map.mp hr'
      obtain ⟨hrow, hcur⟩ := mem_filter.mp hr
      -- The write goes to the path of the call, where only the row it has read is current.
      have hmem := mem_of_getElem? hc
      obtain rfl : c.entry.path = p := Option.some.inj ((h.callsCast c hmem).symm.trans hcast)
      obtain ⟨hrid, hrversion⟩ := h.current c hmem r hrow hcur
      refine namesRow_mergeMetadata [] ?_ ?_
      · rw [hid, hok c hc, hrid]
      · rw [hversion, ← hrversion, (h.fits r hrow).exact]
  | abandoned i => exact h.calls fun c hc => mem_of_mem_eraseIdx hc
  | stored req now c version hc hfits =>
    have haway : ∀ d ∈ s.calls, d.entry.path ≠ c.path := by
      simpa only [Unmoved, hc] using hok
    exact h.store (hcastsBack _ _ (storeColumns_ok hc).path) haway (hfits h.fits)

/-- **Every record names its row** if no store goes to a path while an extraction of it is under
way. -/
theorem records_name_their_row {s₀ : State} (hcastsBack : CastsBack env)
    (hone : OneCurrent tenantId s₀.table.rows) (hrows : RowsCast env s₀.table.rows)
    (hfits : ∀ r ∈ s₀.table.rows, FitsInt4 r)
    (hcalls : s₀.calls = []) (hwritten : s₀.written = [])
    (h : Steps (step env svc tenantId) (Unmoved env) s₀ s) : ∀ r ∈ s.written, NamesRow r := by
  have hstart : Attributed env tenantId s₀ := by
    have hnone : ∀ c ∈ s₀.calls, False := fun c hc => by rw [hcalls] at hc; cases hc
    refine ⟨hone, hrows, hfits, fun c hc => (hnone c hc).elim, fun c hc => (hnone c hc).elim, ?_⟩
    intro r hr
    rw [hwritten] at hr
    cases hr
  exact (h.invariant (P := Attributed env tenantId)
    (fun _ _ _ hu hok hstep => hu.step hcastsBack hok hstep) hstart).names

end

/-! ## A store between the read and the write -/

instance (env : Env) (s : State) : (a : Action) → Decidable (Unmoved env s a)
  | .store req _ =>
    match h : storeColumns env req with
    | .ok columns =>
      decidable_of_iff (∀ c ∈ s.calls, c.entry.path ≠ columns.path) (by simp only [Unmoved, h])
    | .error _ => .isTrue (by simp only [Unmoved, h])
  | .finish _ _ => inferInstanceAs (Decidable (∀ c ∈ _, _))
  | .extractPath _ _ _ | .onMemoryEvent _ _ _ | .extractMemory _ | .abandon _ => .isTrue trivial

def xEnv : Env :=
  { dedupEnv with castLtree := fun text => if text = "x" then some ⟨["x"]⟩ else none }

theorem castsBack_xEnv : CastsBack xEnv := by
  intro text p hcast
  dsimp only [xEnv] at hcast
  split at hcast <;> cases hcast
  decide +kernel

def storeB : Action := .store { path := "x", content := "b" } 5

def inTurn : List Action :=
  [.onMemoryEvent "x" 1 1, .finish 0 answered, storeB, .extractMemory 2, .finish 0 timedOut]

def storeBetween : List Action := [.onMemoryEvent "x" 1 1, storeB, .finish 0 answered]

def afterInTurn : State :=
  (runAll (guarded (step xEnv sampleService "t") (Unmoved xEnv)) sampleState inTurn).getD
    sampleState

theorem steps_inTurn :
    Steps (step xEnv sampleService "t") (Unmoved xEnv) sampleState afterInTurn :=
  steps_getD sampleState (by decide +kernel)

theorem oneCurrent_sampleState : OneCurrent "t" sampleState.table.rows := by
  intro p r hr r' hr' _ _
  rw [mem_singleton.mp hr, mem_singleton.mp hr']
  exact ⟨rfl, rfl⟩

theorem records_name_their_row_inTurn :
    afterInTurn.written.map (fun r => (r.id, r.version)) = [(1, 1), (2, 2)] ∧
      ∀ r ∈ afterInTurn.written, NamesRow r :=
  ⟨by decide +kernel, records_name_their_row castsBack_xEnv oneCurrent_sampleState
    (by unfold RowsCast; decide +kernel) fits_sampleState rfl rfl steps_inTurn⟩

/-- **The record of version 1 is written into the row of version 2.** -/
theorem record_in_next_version : ∃ s, Reaches (step xEnv sampleService "t") sampleState s ∧
    s.written.map (fun r => (r.id, r.version, recordInt .memoryId r.metadata,
      recordInt .memoryVersion r.metadata)) = [(2, 2, some 1, some 1)] ∧
    ¬ ∀ r ∈ s.written, NamesRow r :=
  exists_reaches storeBetween (by decide +kernel)

end Pcmi.Extraction
