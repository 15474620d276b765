import Pcmi.Memory.Dedup

/-!
# Imports

`Import` stores its entries one after the other. In mode `skip` it passes over an entry whose path
it finds. A lookup that fails counts as one that finds nothing.
-/

namespace Pcmi.Memory

open List Pcmi.Go Pcmi.Lib

/-! ## Paths -/

/-- `ltreeLabelRe`. -/
def isWordLabel (label : List Char) : Bool := label.all fun c => c.isAlphanum || c == '_'

def validateLabels (env : Env) : List (List Char) → Except String Unit
  | [] => .ok ()
  | label :: rest =>
    if label = [] then .error "ltree path contains empty label (double dot)"
    else if isWordLabel label = false then
      .error ("ltree label " ++ env.quote (String.ofList label) ++
        " contains invalid characters (allowed: A-Za-z0-9_)")
    else validateLabels env rest

def validateLtreePath (env : Env) (path : String) : Except String Unit :=
  let path := trimSpaceText path
  if path = "" then .error "ltree path must not be empty"
  else if 256 < path.utf8ByteSize then
    .error ("ltree path too long (" ++ toString path.utf8ByteSize ++ " chars, max 256)")
  else if path.toList.head? = some '.' ∨ path.toList.getLast? = some '.' then
    .error "ltree path must not start or end with '.'"
  else validateLabels env (path.toList.splitOn '.')

/-! ## Lookups -/

/-- `MemoryRepository.GetByPath` on what the read pool answers. -/
def getByPath (env : Env) (tenantId path : String) (version : Option Int) (asOf : Option Time)
    (seen : Except String (List Row)) : Except String Row :=
  let path := trimSpaceText path
  if path = "" then .error "path is required"
  else
    match seen with
    | .error e => .error ("get by path: " ++ e)
    | .ok rows =>
      if version.isSome then getHistoricalVersion env tenantId path version none rows
      else if asOf.isSome then getHistoricalVersion env tenantId path none asOf rows
      else
        match env.castLtree path with
        | none => .error "get by path: invalid ltree"
        | some ltree =>
          match rows.find? (Row.current tenantId ltree) with
          | none => .error ("memory not found for path " ++ path)
          | some r => (scanMemoryEntry env r).mapError ("get by path: " ++ ·)

/-! ## Imports -/

structure MemoryImportRequest where
  entries : List StoreRequest
  mode : String := ""

inductive ItemStatus where
  | stored | skipped | error
  deriving DecidableEq, Repr

structure BatchStoreItemResult where
  index : Nat
  id : Nat := 0
  status : ItemStatus
  version : Int := 0
  error : String := ""
  deriving DecidableEq, Repr

structure MemoryImportResponse where
  imported : Nat
  skipped : Nat
  results : List BatchStoreItemResult
  deriving DecidableEq, Repr

/-- What one entry of an import meets. -/
structure ImportCtx where
  now : Time
  settings : DedupSettings := {}
  /-- The answer of the read pool when the table has these rows. -/
  read : List Row → Except String (List Row) := .ok

def maxImportEntries : Nat := 1000

def importMode (mode : String) : String :=
  let mode := trimSpaceText mode
  if mode = "" then "skip" else mode

/-- The id and the version that a store returns. -/
def Plan.stored (t : Table) : Plan → Nat × Int
  | .skipped existing => (existing.id, existing.version)
  | .linked existing _ => (existing.id, existing.version)
  | .merged tenantId path _ _ =>
    match t.rows.find? (Row.current tenantId path) with
    | some r => (r.id, r.version)
    | none => (0, 0)
  | .insert tenantId c => (t.nextId, nextVersion (t.rows.find? (Row.current tenantId c.path)))

/-- The lookup of an entry returns a row, and the entry is passed over. -/
def passesOver (env : Env) (tenantId mode : String) (ctx : ImportCtx) (item : StoreRequest)
    (rows : List Row) : Bool :=
  mode == "skip" && (getByPath env tenantId item.path none none (ctx.read rows)).isOk

/-- One entry of an import. -/
def importItem (env : Env) (tenantId mode : String) (ctx : ImportCtx) (index : Nat)
    (item : StoreRequest) (s : Tables) : BatchStoreItemResult × Tables :=
  match validateLtreePath env (trimSpaceText item.path) with
  | .error e => ({ index := index, status := .error, error := "invalid path: " ++ e }, s)
  | .ok _ =>
    if passesOver env tenantId mode ctx item s.memories.rows then
      ({ index := index, status := .skipped }, s)
    else
      match runStore env ctx.settings item tenantId ctx.now s with
      | .error _ => ({ index := index, status := .error, error := "store failed" }, s)
      | .ok (plan, s') =>
        ({ index := index, id := (plan.stored s.memories).1, status := .stored,
           version := (plan.stored s.memories).2 }, s')

/-- The loop of `Import`, from an index on. -/
def importFrom (env : Env) (tenantId mode : String) (ctx : Nat → ImportCtx) :
    Nat → List StoreRequest → Tables → List BatchStoreItemResult × Tables
  | _, [], s => ([], s)
  | index, item :: rest, s =>
    let (result, s) := importItem env tenantId mode (ctx index) index item s
    let (results, s) := importFrom env tenantId mode ctx (index + 1) rest s
    (result :: results, s)

/-- `MemoryService.Import`, run alone. -/
def importMemories (env : Env) (tenantId : String) (ctx : Nat → ImportCtx)
    (req : MemoryImportRequest) (s : Tables) : Except String (MemoryImportResponse × Tables) :=
  if maxImportEntries < req.entries.length then
    .error ("maximum " ++ toString maxImportEntries ++ " entries per import (got " ++
      toString req.entries.length ++ ")")
  else
    let (results, s) := importFrom env tenantId (importMode req.mode) ctx 0 req.entries s
    .ok ({ imported := results.countP (·.status == .stored)
           skipped := results.countP (·.status == .skipped)
           results := results }, s)

/-! ## One entry after the other -/

section

variable (env : Env) (tenantId mode : String) (ctx : Nat → ImportCtx)

/-- The tables when the entry with the index is reached. -/
def tablesAt (entries : List StoreRequest) (s : Tables) (index : Nat) : Tables :=
  (importFrom env tenantId mode ctx 0 (entries.take index) s).2

variable {env tenantId mode ctx}

theorem importFrom_cons (index : Nat) (item : StoreRequest) (rest : List StoreRequest)
    (s : Tables) :
    (importFrom env tenantId mode ctx index (item :: rest) s).2 =
      (importFrom env tenantId mode ctx (index + 1) rest
        (importItem env tenantId mode (ctx index) index item s).2).2 := by
  rw [importFrom]

theorem importFrom_append (index : Nat) (items rest : List StoreRequest) (s : Tables) :
    (importFrom env tenantId mode ctx index (items ++ rest) s).2 =
      (importFrom env tenantId mode ctx (index + items.length) rest
        (importFrom env tenantId mode ctx index items s).2).2 := by
  induction items generalizing index s with
  | nil => rfl
  | cons item items ih =>
    rw [cons_append, importFrom_cons, ih, importFrom_cons, length_cons,
      Nat.add_assoc index 1, Nat.add_comm 1]

variable {entries : List StoreRequest} {index : Nat} {s : Tables}

theorem tablesAt_succ {item : StoreRequest} (h : entries[index]? = some item) (s : Tables) :
    tablesAt env tenantId mode ctx entries s (index + 1) =
      (importItem env tenantId mode (ctx index) index item
        (tablesAt env tenantId mode ctx entries s index)).2 := by
  have hlt : index < entries.length := (List.getElem?_eq_some_iff.mp h).1
  have hlength : (entries.take index).length = index := length_take_of_le hlt.le
  rw [tablesAt, take_add_one, h, importFrom_append, hlength, Nat.zero_add, Option.toList_some,
    importFrom_cons, importFrom, tablesAt]

theorem tablesAt_induction {P : Tables → Prop} (start : Nat)
    (hstart : P (tablesAt env tenantId mode ctx entries s start))
    (hstep : ∀ index item, start ≤ index → entries[index]? = some item → P
      (tablesAt env tenantId mode ctx entries s index) → P (importItem env tenantId mode
        (ctx index) index item (tablesAt env tenantId mode ctx entries s index)).2)
    (hle : start ≤ index) (hlength : index ≤ entries.length) :
    P (tablesAt env tenantId mode ctx entries s index) := by
  induction index, hle using Nat.le_induction with
  | base => exact hstart
  | succ index hle ih =>
    have hitem : entries[index]? = some entries[index] := getElem?_eq_getElem hlength
    rw [tablesAt_succ hitem]
    exact hstep index _ hle hitem (ih (Nat.le_of_succ_le hlength))

theorem tablesAt_zero (entries : List StoreRequest) (s : Tables) :
    tablesAt env tenantId mode ctx entries s 0 = s := rfl

theorem importMemories_ok {req : MemoryImportRequest} {s' : Tables} {resp : MemoryImportResponse}
    (h : importMemories env tenantId ctx req s = .ok (resp, s')) :
    s' = tablesAt env tenantId (importMode req.mode) ctx req.entries s req.entries.length := by
  unfold importMemories at h
  split at h
  · cases h
  · rw [tablesAt, take_length]
    exact (Prod.mk.inj (Except.ok.inj h)).2.symm

end

/-! ## What an entry does to the rows -/

/-- The rows are the same but for metadata and tags. -/
def SameRows (t t' : Table) : Prop :=
  t'.nextId = t.nextId ∧ ∃ f : Row → Row, t'.rows = t.rows.map f ∧
    ∀ r, (f r).id = r.id ∧ (f r).tenantId = r.tenantId ∧ (f r).path = r.path ∧
      (f r).isOpen = r.isOpen

def StoredAt (tenantId : String) (path : Ltree) (t t' : Table) : Prop :=
  t'.nextId = t.nextId + 1 ∧ ∃ now r, t'.rows = closeCurrent tenantId path now t.rows ++ [r] ∧
    r.id = t.nextId ∧ r.current tenantId path = true

theorem SameRows.refl (t : Table) : SameRows t t :=
  ⟨rfl, id, (map_id _).symm, fun _ => ⟨rfl, rfl, rfl, rfl⟩⟩

section

variable {env : Env} {tenantId mode : String} {ctx : ImportCtx} {item : StoreRequest}
  {s s' : Tables} {c : Columns} {now : Time} {t t' : Table}

theorem storedAt_insert (h : (Plan.insert tenantId c).run now t = .ok t') :
    StoredAt tenantId c.path t t' := by
  rw [Plan.run, storeVersion] at h
  split at h <;> cases h
  exact ⟨rfl, now, _, rfl, rfl, toRow_current⟩

theorem sameRows_merged {p : Ltree} {metadata : JsonMap} {tags : List String}
    (h : (Plan.merged tenantId p metadata tags).run now t = .ok t') :
    SameRows t t' := by
  refine ⟨?_, _, run_merged_ok h, fun r => ?_⟩
  · rw [Plan.run] at h
    split at h <;> cases h
    rfl
  · split <;> exact ⟨rfl, rfl, rfl, rfl⟩

/-- Only an insert closes rows, and only at the path of the request. -/
theorem runStore_effect {settings : DedupSettings} {req : StoreRequest} {plan : Plan}
    (h : runStore env settings req tenantId now s = .ok (plan, s')) :
    SameRows s.memories s'.memories ∨
      ∃ c, plan = .insert tenantId c ∧ env.castLtree (trimSpaceText req.path) = some c.path ∧
        StoredAt tenantId c.path s.memories s'.memories := by
  obtain ⟨hcase, hrun, -⟩ := runStore_ok h
  cases hcase with
  | stored c hno hcolumns =>
    exact Or.inr ⟨c, rfl, (storedColumns_ok hcolumns).path, storedAt_insert hrun⟩
  | skipped mode e hmode hskip hdup hpath | linked e p hmode hdup hpath hcast =>
    rw [← Except.ok.inj hrun]
    exact Or.inl (.refl _)
  | merged e p hmode hdup hpath hcast => exact Or.inl (sameRows_merged hrun)

variable (env tenantId mode ctx item s) in
/-- The entry is stored as a version of its path. -/
def StoresVersion (c : Columns) : Prop :=
  validateLtreePath env (trimSpaceText item.path) = .ok () ∧
    passesOver env tenantId mode ctx item s.memories.rows = false ∧
    ∃ s', runStore env ctx.settings item tenantId ctx.now s = .ok (.insert tenantId c, s')

/-- **What an entry does to the rows.** -/
theorem importItem_effect {index : Nat} :
    SameRows s.memories (importItem env tenantId mode ctx index item s).2.memories ∨
      ∃ c, StoresVersion env tenantId mode ctx item s c ∧
        env.castLtree (trimSpaceText item.path) = some c.path ∧
        StoredAt tenantId c.path s.memories
          (importItem env tenantId mode ctx index item s).2.memories := by
  unfold importItem
  split
  · exact Or.inl (.refl _)
  next hvalid =>
  split
  · exact Or.inl (.refl _)
  next hpass =>
  split
  · exact Or.inl (.refl _)
  next plan s' hstore =>
  rcases runStore_effect hstore with hsame | ⟨c, rfl, hcast, hstored⟩
  · exact Or.inl hsame
  · exact Or.inr ⟨c, ⟨hvalid, Bool.eq_false_iff.mpr hpass, s', hstore⟩, hcast, hstored⟩

theorem StoresVersion.storedAt (h : StoresVersion env tenantId mode ctx item s c) (index : Nat) :
    env.castLtree (trimSpaceText item.path) = some c.path ∧
      StoredAt tenantId c.path s.memories
        (importItem env tenantId mode ctx index item s).2.memories := by
  obtain ⟨hvalid, hpass, s', hstore⟩ := h
  have hitem : (importItem env tenantId mode ctx index item s).2 = s' := by
    unfold importItem
    rw [hvalid]
    dsimp only
    rw [hpass, if_neg Bool.false_ne_true, hstore]
  obtain ⟨hcase, hrun, -⟩ := runStore_ok hstore
  rw [hitem]
  cases hcase with
  | stored c hno hcolumns => exact ⟨(storedColumns_ok hcolumns).path, storedAt_insert hrun⟩

end

/-! ## A row during an import -/

def StillOpen (r : Row) (t : Table) : Prop :=
  ∃ r' ∈ t.rows, r'.id = r.id ∧ r'.tenantId = r.tenantId ∧ r'.path = r.path ∧ r'.isOpen = true

/-- The id is that of the row and of no other. -/
structure Tracked (r : Row) (t : Table) : Prop where
  given : r.id < t.nextId
  same : ∀ r' ∈ t.rows, r'.id = r.id → r'.tenantId = r.tenantId ∧ r'.path = r.path

structure Closed (r : Row) (t : Table) : Prop where
  given : r.id < t.nextId
  closed : ∀ r' ∈ t.rows, r'.id = r.id → r'.isOpen = false

section

variable {tenantId : String} {path : Ltree} {t t' : Table} {r : Row} {r' : Row}

theorem mem_closeCurrent {now : Time} {rows : List Row}
    (h : r' ∈ closeCurrent tenantId path now rows) :
    ∃ r ∈ rows, r' = if r.current tenantId path then r.close now else r := by
  obtain ⟨r, hr, rfl⟩ := mem_map.mp h
  exact ⟨r, hr, rfl⟩

theorem SameRows.stillOpen (h : SameRows t t') (hopen : StillOpen r t) : StillOpen r t' := by
  obtain ⟨-, f, hrows, hf⟩ := h
  obtain ⟨r', hr', hid, htenant, hpath, hopen⟩ := hopen
  obtain ⟨hid', htenant', hpath', hopen'⟩ := hf r'
  refine ⟨f r', ?_, hid'.trans hid, htenant'.trans htenant, hpath'.trans hpath, hopen'.trans hopen⟩
  rw [hrows]
  exact mem_map_of_mem hr'

theorem SameRows.tracked (h : SameRows t t') (htracked : Tracked r t) : Tracked r t' := by
  obtain ⟨hnext, f, hrows, hf⟩ := h
  refine ⟨hnext.symm ▸ htracked.given, fun r' hr' hid => ?_⟩
  rw [hrows] at hr'
  obtain ⟨r'', hr'', rfl⟩ := mem_map.mp hr'
  obtain ⟨hid', htenant', hpath', -⟩ := hf r''
  obtain ⟨htenant, hpath⟩ := htracked.same r'' hr'' (hid'.symm.trans hid)
  exact ⟨htenant'.trans htenant, hpath'.trans hpath⟩

theorem SameRows.closed (h : SameRows t t') (hclosed : Closed r t) : Closed r t' := by
  obtain ⟨hnext, f, hrows, hf⟩ := h
  refine ⟨hnext.symm ▸ hclosed.given, fun r' hr' hid => ?_⟩
  rw [hrows] at hr'
  obtain ⟨r'', hr'', rfl⟩ := mem_map.mp hr'
  obtain ⟨hid', -, -, hopen'⟩ := hf r''
  exact hopen'.trans (hclosed.closed r'' hr'' (hid'.symm.trans hid))

theorem StoredAt.stillOpen (h : StoredAt tenantId path t t') (hopen : StillOpen r t)
    (hother : ¬ (r.tenantId = tenantId ∧ r.path = path)) : StillOpen r t' := by
  obtain ⟨-, now, new, hrows, -, -⟩ := h
  obtain ⟨r', hr', hid, htenant, hpath, hopen⟩ := hopen
  have hcurrent : ¬ r'.current tenantId path = true := by
    intro hcurrent
    simp only [Row.current, Row.at, Bool.and_eq_true, beq_iff_eq] at hcurrent
    exact hother ⟨htenant.symm.trans hcurrent.1.1, hpath.symm.trans hcurrent.1.2⟩
  refine ⟨r', ?_, hid, htenant, hpath, hopen⟩
  rw [hrows]
  exact mem_append_left _ (mem_map.mpr ⟨r', hr', if_neg hcurrent⟩)

/-- What has an id that was given out is an earlier row, closed or not. -/
theorem StoredAt.exists_before (h : StoredAt tenantId path t t') (hgiven : r.id < t.nextId)
    (hr' : r' ∈ t'.rows) (hid : r'.id = r.id) :
    ∃ r'' ∈ t.rows, r''.id = r.id ∧ r'.tenantId = r''.tenantId ∧ r'.path = r''.path ∧
      r'.isOpen = (r''.isOpen && !r''.current tenantId path) := by
  obtain ⟨-, now, new, hrows, hnew, -⟩ := h
  rw [hrows] at hr'
  rcases mem_append.mp hr' with hr' | hr'
  · obtain ⟨r'', hr'', rfl⟩ := mem_closeCurrent hr'
    split at hid
    · next hcurrent =>
      rw [if_pos hcurrent]
      exact ⟨r'', hr'', hid, rfl, rfl, by rw [hcurrent]; simp⟩
    · next hcurrent =>
      rw [if_neg hcurrent]
      exact ⟨r'', hr'', hid, rfl, rfl, by rw [Bool.eq_false_iff.mpr hcurrent]; simp⟩
  · obtain rfl := mem_singleton.mp hr'
    omega

theorem StoredAt.tracked (h : StoredAt tenantId path t t') (htracked : Tracked r t) :
    Tracked r t' := by
  refine ⟨h.1.symm ▸ Nat.lt_succ_of_lt htracked.given, fun r' hr' hid => ?_⟩
  obtain ⟨r'', hr'', hid'', htenant, hpath, -⟩ := h.exists_before htracked.given hr' hid
  obtain ⟨htenant', hpath'⟩ := htracked.same r'' hr'' hid''
  exact ⟨htenant.trans htenant', hpath.trans hpath'⟩

theorem StoredAt.closed (h : StoredAt tenantId path t t') (hclosed : Closed r t) : Closed r t' := by
  refine ⟨h.1.symm ▸ Nat.lt_succ_of_lt hclosed.given, fun r' hr' hid => ?_⟩
  obtain ⟨r'', hr'', hid'', -, -, hopen⟩ := h.exists_before hclosed.given hr' hid
  rw [hopen, hclosed.closed r'' hr'' hid'', Bool.false_and]

/-- **A version closes the row that is current at its path.** -/
theorem StoredAt.closed_of_tracked (h : StoredAt tenantId path t t') (htracked : Tracked r t)
    (htenant : r.tenantId = tenantId) (hpath : r.path = path) : Closed r t' := by
  refine ⟨h.1.symm ▸ Nat.lt_succ_of_lt htracked.given, fun r' hr' hid => ?_⟩
  obtain ⟨r'', hr'', hid'', -, -, hopen⟩ := h.exists_before htracked.given hr' hid
  obtain ⟨htenant', hpath'⟩ := htracked.same r'' hr'' hid''
  rw [hopen]
  cases hopen'' : r''.isOpen with
  | false => rfl
  | true => simp [Row.current, Row.at, htenant', hpath', htenant, hpath, hopen'']

end

/-! ## Rows that an import closes -/

structure Serial (t : Table) : Prop where
  unique : (t.rows.map (·.id)).Nodup
  given : ∀ r ∈ t.rows, r.id < t.nextId

variable {r : Row}

theorem Serial.tracked {t : Table} (h : Serial t) (hr : r ∈ t.rows) : Tracked r t := by
  refine ⟨h.given r hr, fun r' hr' hid => ?_⟩
  rw [inj_on_of_nodup_map h.unique hr' hr hid]
  exact ⟨rfl, rfl⟩

/-- The entry is stored over a current row that its lookup did not return. -/
def Overlooks (env : Env) (tenantId : String) (ctx : ImportCtx) (item : StoreRequest)
    (before : List Row) (s : Tables) : Prop :=
  ∃ c, StoresVersion env tenantId "skip" ctx item s c ∧
    ∃ r ∈ before, r.current tenantId c.path = true

/-- The rows current at the paths of the entries stay current. -/
def ClosesNone (env : Env) (tenantId : String) (entries : List StoreRequest)
    (before after : List Row) : Prop :=
  ∀ item ∈ entries, ∀ path, env.castLtree (trimSpaceText item.path) = some path →
    ∀ r ∈ before, r.current tenantId path = true → ∃ r' ∈ after, r'.id = r.id ∧ r'.isOpen = true

theorem Row.current_iff {tenantId : String} {path : Ltree} :
    r.current tenantId path = true ↔
      r.tenantId = tenantId ∧ r.path = path ∧ r.isOpen = true := by
  rw [Row.current, Row.at, Bool.and_eq_true, Bool.and_eq_true, beq_iff_eq, beq_iff_eq, and_assoc]

section

variable {env : Env} {tenantId : String} {ctx : Nat → ImportCtx} {entries : List StoreRequest}
  {s : Tables} {r : Row}

theorem stillOpen_tablesAt {path : Ltree} (hr : r ∈ s.memories.rows)
    (hcurrent : r.current tenantId path = true)
    (h : ∀ index item, entries[index]? = some item → ¬ Overlooks env tenantId
      (ctx index) item s.memories.rows (tablesAt env tenantId "skip" ctx entries s index)) :
    StillOpen r (tablesAt env tenantId "skip" ctx entries s entries.length).memories := by
  obtain ⟨htenant, hpath, hopen⟩ := Row.current_iff.mp hcurrent
  refine tablesAt_induction (P := fun s => StillOpen r s.memories) 0
    ⟨r, hr, rfl, rfl, rfl, hopen⟩ ?_ (Nat.zero_le _) (le_refl _)
  intro index item _ hitem hstill
  rcases importItem_effect with hsame | ⟨c, hstores, -, hstored⟩
  · exact hsame.stillOpen hstill
  · refine hstored.stillOpen hstill fun hat => h index item hitem ⟨c, hstores, r, hr, ?_⟩
    exact Row.current_iff.mpr ⟨htenant, hat.2, hopen⟩

theorem closed_of_overlooks (hserial : Serial s.memories) {index : Nat} {item : StoreRequest}
    (hitem : entries[index]? = some item) {c : Columns}
    (hstores : StoresVersion env tenantId "skip" (ctx index) item
      (tablesAt env tenantId "skip" ctx entries s index) c)
    (hr : r ∈ s.memories.rows) (hcurrent : r.current tenantId c.path = true) :
    Closed r (tablesAt env tenantId "skip" ctx entries s entries.length).memories := by
  obtain ⟨htenant, hpath, -⟩ := Row.current_iff.mp hcurrent
  have hlt : index < entries.length := (List.getElem?_eq_some_iff.mp hitem).1
  have htracked : Tracked r (tablesAt env tenantId "skip" ctx entries s index).memories := by
    refine tablesAt_induction (P := fun s => Tracked r s.memories) 0
      (hserial.tracked hr) ?_ (Nat.zero_le _) hlt.le
    intro index item _ _ htracked
    rcases importItem_effect with hsame | ⟨c, -, -, hstored⟩
    · exact hsame.tracked htracked
    · exact hstored.tracked htracked
  have hclosed : Closed r (tablesAt env tenantId "skip" ctx entries s (index + 1)).memories := by
    rw [tablesAt_succ hitem]
    exact (hstores.storedAt index).2.closed_of_tracked htracked htenant hpath
  refine tablesAt_induction (P := fun s => Closed r s.memories) _ hclosed ?_ hlt (le_refl _)
  intro index item _ _ hclosed
  rcases importItem_effect with hsame | ⟨c, -, -, hstored⟩
  · exact hsame.closed hclosed
  · exact hstored.closed hclosed

end

/-- **An import in mode `skip` closes no current row exactly if no entry overlooks one.** -/
theorem skip_import_closes_none_iff {env : Env} {tenantId : String} {ctx : Nat → ImportCtx}
    {req : MemoryImportRequest} {s s' : Tables} {resp : MemoryImportResponse}
    (hserial : Serial s.memories) (hmode : importMode req.mode = "skip")
    (h : importMemories env tenantId ctx req s = .ok (resp, s')) :
    ClosesNone env tenantId req.entries s.memories.rows s'.memories.rows ↔
      ∀ index item, req.entries[index]? = some item →
        ¬ Overlooks env tenantId (ctx index) item s.memories.rows
          (tablesAt env tenantId "skip" ctx req.entries s index) := by
  have hfinal := importMemories_ok h
  rw [hmode] at hfinal
  rw [hfinal]
  constructor
  · rintro hnone index item hitem ⟨c, hstores, r, hr, hcurrent⟩
    obtain ⟨hcast, -⟩ := hstores.storedAt index
    obtain ⟨r', hr', hid, hopen⟩ :=
      hnone item (mem_of_getElem? hitem) c.path hcast r hr hcurrent
    rw [(closed_of_overlooks hserial hitem hstores hr hcurrent).closed r' hr' hid] at hopen
    cases hopen
  · intro hnone item _ path _ r hr hcurrent
    obtain ⟨r', hr', hid, -, -, hopen⟩ := stillOpen_tablesAt hr hcurrent hnone
    exact ⟨r', hr', hid, hopen⟩

def twoEntries : List StoreRequest :=
  [{ path := " x ", content := "b" }, { path := "z", content := "c" }]

def readable : Tables := ⟨⟨[dedupRow 1 "x" "a"], 2⟩, []⟩

theorem skip_import_closes_none_readable :
    ∃ resp s', importMemories dedupEnv "t" (fun _ => { now := 1 }) { entries := twoEntries }
        readable = .ok (resp, s') ∧
      resp.results.map (·.status) = [.skipped, .stored] ∧
      ClosesNone dedupEnv "t" twoEntries readable.memories.rows s'.memories.rows := by
  have hserial : Serial readable.memories := ⟨by decide, by decide⟩
  obtain ⟨resp, s', himport, hstatus⟩ := exists_ok_pair
    (P := fun resp _ => resp.results.map (·.status) = [.skipped, .stored])
    (x := importMemories dedupEnv "t" (fun _ => { now := 1 }) { entries := twoEntries } readable)
    (by decide)
  refine ⟨resp, s', himport, hstatus, (skip_import_closes_none_iff hserial rfl himport).mpr ?_⟩
  rintro index item hitem ⟨c, hstores, r, hr, hcurrent⟩
  obtain rfl := mem_singleton.mp hr
  have hcast := (hstores.storedAt index).1
  cases index with
  | zero =>
    rw [tablesAt_zero] at hstores
    obtain rfl := Option.some.inj hitem
    exact absurd hstores.2.1 (by decide)
  | succ index =>
    clear hstores
    cases index with
    | zero =>
      obtain rfl := Option.some.inj hitem
      rw [← Option.some.inj hcast] at hcurrent
      exact absurd hcurrent (by decide)
    | succ index => cases hitem

def lockedEnv : Env := { dedupEnv with decryptContent := fun _ => .error "key missing" }

def lockedRow : Row := { dedupRow 1 "x" "a" with contentEncrypted := true }

/-- **A row that cannot be decrypted is replaced.** -/
theorem skip_import_replaces_unreadable :
    ∃ resp s', importMemories lockedEnv "t" (fun _ => { now := 1 })
        { entries := [{ path := "x", content := "b" }] } ⟨⟨[lockedRow], 2⟩, []⟩ = .ok (resp, s') ∧
      resp.results.map (·.status) = [.stored] ∧
      ¬ ClosesNone lockedEnv "t" [{ path := "x", content := "b" }] [lockedRow]
        s'.memories.rows := by
  refine ⟨_, _, rfl, by decide, fun h => ?_⟩
  obtain ⟨r, hr, hid, hopen⟩ := h _ mem_cons_self ⟨["x"]⟩ (by decide) lockedRow
    mem_cons_self (by decide)
  rcases mem_cons.mp hr with rfl | hr
  · cases hopen
  · obtain rfl := mem_singleton.mp hr
    cases hid

end Pcmi.Memory
