import Mathlib.Data.List.Sort
import Pcmi.Memory.Import
import Pcmi.Memory.Paths

/-!
# Exports, and what an import of them restores

`Export` returns the current rows below a path as entries, which `Import` reads as store requests.
An entry has no `expires_at`, and an importance of `0` is left out.
-/

namespace Pcmi.Memory

open List Pcmi.Go Pcmi.Lib

/-! ## Exports -/

/-- `model.MemoryEntry`, without its times of access and its event. -/
structure MemoryEntry where
  id : Nat
  tenantId : String
  path : String
  content : String
  metadata : JsonMap
  tags : List String
  embedding : List ℚ
  embeddingModel : String
  embeddingSpace : String
  version : Int
  validFrom : Time
  validTo : Option Time
  sourceAgentId : Option String
  createdAt : Time
  contentEncrypted : Bool
  importance : ℚ

def Row.toEntry (r : Row) : MemoryEntry where
  id := r.id
  tenantId := r.tenantId
  path := r.path.text
  content := r.content
  metadata := r.metadata
  tags := r.tags
  embedding := r.embedding.getD []
  embeddingModel := r.embeddingModel
  embeddingSpace := r.embeddingSpace
  version := r.version
  validFrom := r.validFrom
  validTo := r.validTo
  sourceAgentId := r.sourceAgentId
  createdAt := r.createdAt
  contentEncrypted := r.contentEncrypted
  importance := r.importance

/-- `ORDER BY path, version DESC`. -/
def ByPath (a b : Row) : Prop :=
  a.path.labels < b.path.labels ∨ a.path.labels = b.path.labels ∧ b.version ≤ a.version

instance : DecidableRel ByPath := fun _ _ => inferInstanceAs (Decidable (_ ∨ _))

/-- `tenant_id = $1 AND path <@ $2 AND valid_to IS NULL`. -/
def exportSelects (tenantId : String) (path : Ltree) (r : Row) : Bool :=
  r.tenantId == tenantId && r.path.under path && r.isOpen

def exportScan (env : Env) : List Row → Except String (List MemoryEntry)
  | [] => .ok []
  | r :: rest =>
    match scanMemoryEntry env r with
    | .error e => .error ("export scan: " ++ e)
    | .ok r => (exportScan env rest).map (r.toEntry :: ·)

def exportPath (pathPrefix : String) : String :=
  let path := trimSpaceText pathPrefix
  if path = "" then "root" else path

def exportLimit (limit : Int) : Int :=
  if limit ≤ 0 then 500 else if 5000 < limit then 5000 else limit

def exportMemories (env : Env) (tenantId pathPrefix : String) (limit : Int) (includeEmb : Bool)
    (rows : List Row) : Except String (List MemoryEntry) :=
  match env.castLtree (exportPath pathPrefix) with
  | none => .error "export memories: invalid ltree"
  | some path =>
    exportScan env
      ((((rows.filter (exportSelects tenantId path)).insertionSort ByPath).take
        (exportLimit limit).toNat).map fun r =>
          if includeEmb then r else { r with embedding := none })

structure MemoryExportRequest where
  pathPrefix : String := ""
  limit : Int := 0
  includeEmb : Bool := false

/-- `model.MemoryExportResponse`, without its time. -/
structure MemoryExportResponse where
  tenantId : String
  exported : Nat
  entries : List MemoryEntry

def exportEntries (env : Env) (tenantId : String) (req : MemoryExportRequest) (rows : List Row) :
    Except String MemoryExportResponse :=
  let limit := if req.limit ≤ 0 then 500 else req.limit
  match exportMemories env tenantId req.pathPrefix limit req.includeEmb rows with
  | .error e => .error e
  | .ok entries => .ok ⟨tenantId, entries.length, entries⟩

/-- An entry as a store request; `omitempty` leaves `0` out. -/
def MemoryEntry.toStoreRequest (e : MemoryEntry) : StoreRequest where
  path := e.path
  content := e.content
  metadata := some e.metadata
  tags := some e.tags
  embedding := e.embedding
  embeddingModel := e.embeddingModel
  embeddingSpace := e.embeddingSpace
  sourceAgentId := e.sourceAgentId.getD ""
  importance := if e.importance = 0 then none else some e.importance

def importOf (resp : MemoryExportResponse) : MemoryImportRequest where
  entries := resp.entries.map MemoryEntry.toStoreRequest
  mode := "overwrite"

/-! ## What is to be restored -/

/-- The columns that an import is to restore. -/
@[ext] structure RestoredColumns where
  path : Ltree
  content : Except String String
  metadata : JsonMap
  tags : List String
  importance : ℚ
  expiresAt : Option Time

def Row.restoredColumns (env : Env) (r : Row) : RestoredColumns where
  path := r.path
  content := (scanMemoryEntry env r).map (·.content)
  metadata := r.metadata
  tags := r.tags
  importance := r.importance
  expiresAt := r.expiresAt

def Restores (env : Env) (tenantId : String) (exported after : List Row) : Prop :=
  ((after.filter fun r => r.tenantId == tenantId && r.isOpen).map (Row.restoredColumns env)).Perm
    (exported.map (Row.restoredColumns env))

/-- What the database guarantees: paths are what their texts are cast to, the importance passes its
`CHECK`, a path has one current row; and the cipher reads what it makes. -/
structure Hosted (db : LabelRules) (env : Env) (rows : List Row) : Prop where
  cast : env.castLtree = db.castLtree
  stores : ∀ r ∈ rows, db.stores r.path = true
  cipher : ∀ plain, ∃ cipher, env.encryptContent plain = .ok cipher ∧
    env.decryptContent cipher = .ok plain
  agents : ∀ r ∈ rows, ∀ agent, r.sourceAgentId = some agent →
    env.castUuid (trimSpaceText agent) ≠ none
  check : ∀ r ∈ rows, 0 ≤ r.importance ∧ r.importance ≤ 1
  unique : rows.Pairwise fun a b => a.isOpen = true → b.isOpen = true →
    a.tenantId = b.tenantId → a.path ≠ b.path

/-! ## Entries -/

structure EntryOf (env : Env) (r : Row) (e : MemoryEntry) : Prop where
  path : e.path = r.path.text
  content : (scanMemoryEntry env r).map (·.content) = .ok e.content
  metadata : e.metadata = r.metadata
  tags : e.tags = r.tags
  importance : e.importance = r.importance
  sourceAgentId : e.sourceAgentId = r.sourceAgentId

section

variable {env : Env}

theorem entryOf_toEntry {r r' e : Row} (hr : r' = r ∨ r' = { r with embedding := none })
    (h : scanMemoryEntry env r' = .ok e) : EntryOf env r e.toEntry := by
  have hscan : (scanMemoryEntry env r).map (·.content) = (scanMemoryEntry env r').map
      (·.content) := by
    rcases hr with rfl | rfl
    · rfl
    unfold scanMemoryEntry
    dsimp only
    split
    · cases env.decryptContent r.content <;> rfl
    · rfl
  obtain ⟨content, rfl⟩ := scanMemoryEntry_ok h
  rw [h] at hscan
  rcases hr with rfl | rfl <;> exact ⟨rfl, hscan, rfl, rfl, rfl, rfl⟩

theorem forall₂_of_exportScan {f : Row → Row} (hf : ∀ r, f r = r ∨ f r =
    { r with embedding := none })
    {l : List Row} {entries : List MemoryEntry} (h : exportScan env (l.map f) = .ok entries) :
    List.Forall₂ (EntryOf env) l entries := by
  induction l generalizing entries with
  | nil =>
    rw [← Except.ok.inj h]
    exact .nil
  | cons r l ih =>
    rw [map_cons, exportScan] at h
    split at h
    · cases h
    next e hscan =>
    obtain ⟨rest, hrest, rfl⟩ := map_eq_ok h
    exact .cons (entryOf_toEntry (hf r) hscan) (ih hrest)

/-! ## The store of an entry -/

theorem exists_storeColumns (req : StoreRequest) {path : Ltree} {agent : Option String}
    (hne : trimSpaceText req.path ≠ "") (hcast : env.castLtree (trimSpaceText req.path) = some path)
    (hcipher : ∀ plain, ∃ cipher, env.encryptContent plain = .ok cipher)
    (hagent : castAgent env (trimSpaceText req.sourceAgentId) = .ok agent) :
    ∃ c, storeColumns env req = .ok c ∧ c.expiresAt = req.expiresAt := by
  obtain ⟨content, hcontent⟩ : ∃ content,
      (if shouldEncrypt req.encryptContent (some (req.metadata.getD ∅)) then
        env.encryptContent req.content else .ok req.content) = .ok content := by
    split
    · exact hcipher req.content
    · exact ⟨_, rfl⟩
  unfold storeColumns
  dsimp only
  rw [if_neg hne, hcontent]
  dsimp only
  rw [hcast]
  dsimp only
  rw [hagent]
  exact ⟨_, rfl, rfl⟩

theorem runStore_of_storeColumns {req : StoreRequest} {tenantId : String} {now : Time} {s : Tables}
    {c : Columns} (hdedup : req.dedupMode = "")
    (hcolumns : storeColumns env { req with contentHash := env.contentHash req.content } = .ok c)
    (hfree : ∀ r ∈ s.memories.rows, r.current tenantId c.path = false) :
    runStore env {} req tenantId now s = .ok (.insert tenantId c,
      ⟨⟨s.memories.rows ++ [c.toRow tenantId s.memories.nextId 1 now], s.memories.nextId + 1⟩,
        s.links⟩) := by
  have hmode : resolveDedupMode env {} req = .ok .none := by
    unfold resolveDedupMode
    rw [hdedup]
    rfl
  have hplan : serviceStore env {} req tenantId s.memories.rows = .ok (.insert tenantId c) := by
    unfold serviceStore tryDedup
    rw [hmode]
    dsimp only
    rw [repositoryStore, hcolumns]
    rfl
  have hfind : s.memories.rows.find? (Row.current tenantId c.path) = none :=
    find?_eq_none.mpr fun r hr => by rw [hfree r hr]; exact Bool.false_ne_true
  have hclose : closeCurrent tenantId c.path now s.memories.rows = s.memories.rows := by
    refine (map_congr_left fun r hr => ?_).trans (map_id _)
    rw [hfree r hr, if_neg Bool.false_ne_true]
    rfl
  have hrun : (Plan.insert tenantId c).run now s.memories =
      .ok ⟨s.memories.rows ++ [c.toRow tenantId s.memories.nextId 1 now],
        s.memories.nextId + 1⟩ := by
    rw [Plan.run, storeVersion, hfind, hclose]
    rfl
  rw [runStore, hplan]
  dsimp only
  rw [hrun]
  rfl

end

/-- What an import makes of a row. -/
def Row.reimported (env : Env) (r : Row) : RestoredColumns :=
  { r.restoredColumns env with
    importance := if r.importance = 0 then 1 / 2 else r.importance
    expiresAt := none }

/-- The path of the row passes the check of an import. -/
def Row.importable (env : Env) (r : Row) : Bool := (validateLtreePath env r.path.text).isOk

theorem Row.importable_iff {env : Env} {r : Row} :
    r.importable env = true ↔ validateLtreePath env r.path.text = .ok () := by
  unfold Row.importable
  cases validateLtreePath env r.path.text with
  | error e => exact iff_of_false Bool.false_ne_true fun h => nomatch h
  | ok _ => exact iff_of_true rfl rfl

section

variable {db : LabelRules} {env : Env} {rows : List Row} {r : Row} {e : MemoryEntry}

namespace Hosted

theorem trim_text (h : Hosted db env rows) (hr : r ∈ rows) :
    trimSpaceText r.path.text = r.path.text := LabelRules.trimSpaceText_text (h.stores r hr)

theorem cast_text (h : Hosted db env rows) (hr : r ∈ rows) :
    env.castLtree r.path.text = some r.path := by
  rw [h.cast]
  exact LabelRules.castLtree_text (h.stores r hr)

theorem decrypts (h : Hosted db env rows) : Decrypts env := by
  intro plain cipher hencrypt
  obtain ⟨cipher', hencrypt', hdecrypt⟩ := h.cipher plain
  obtain rfl := Except.ok.inj (hencrypt.symm.trans hencrypt')
  exact hdecrypt

theorem exists_agent (h : Hosted db env rows) (hr : r ∈ rows) :
    ∃ agent, castAgent env (trimSpaceText (r.sourceAgentId.getD "")) = .ok agent := by
  cases hagent : r.sourceAgentId with
  | none => exact ⟨none, rfl⟩
  | some agent =>
    rw [Option.getD_some]
    unfold castAgent
    split
    · exact ⟨none, rfl⟩
    obtain ⟨uuid, huuid⟩ := Option.ne_none_iff_exists'.mp (h.agents r hr agent hagent)
    rw [huuid]
    exact ⟨some uuid, rfl⟩

end Hosted

theorem validateLtreePath_empty (env : Env) : validateLtreePath env "" ≠ .ok () :=
  fun h => nomatch h

theorem Hosted.exists_columns (h : Hosted db env rows) (hr : r ∈ rows) (he : EntryOf env r e)
    (hvalid : r.importable env = true) :
    ∃ c, storeColumns env { e.toStoreRequest with
        contentHash := env.contentHash e.toStoreRequest.content } = .ok c ∧
      c.path = r.path ∧
      ∀ tenantId id version now,
        (c.toRow tenantId id version now).restoredColumns env = r.reimported env := by
  have hpath : trimSpaceText e.path = r.path.text := by rw [he.path, h.trim_text hr]
  have hne : trimSpaceText e.path ≠ "" := by
    rw [hpath]
    intro hempty
    have hvalid := Row.importable_iff.mp hvalid
    rw [hempty] at hvalid
    exact validateLtreePath_empty env hvalid
  have hcast : env.castLtree (trimSpaceText e.path) = some r.path := by
    rw [hpath]
    exact h.cast_text hr
  obtain ⟨agent, hagent⟩ := h.exists_agent hr
  rw [← he.sourceAgentId] at hagent
  obtain ⟨c, hcolumns, hexpires⟩ := exists_storeColumns
    { e.toStoreRequest with contentHash := env.contentHash e.toStoreRequest.content }
    hne hcast (fun plain => (h.cipher plain).imp fun _ hcipher => hcipher.1) hagent
  have hof := storedColumns_ok hcolumns
  have hcpath : c.path = r.path := Option.some.inj (hof.path.symm.trans hcast)
  refine ⟨c, hcolumns, hcpath, fun tenantId id version now => ?_⟩
  obtain ⟨e', hscan, hcontent⟩ : ∃ e', scanMemoryEntry env (c.toRow tenantId id version now) =
      .ok e' ∧ e'.content = e.content := hof.exists_scan h.decrypts id version now
  refine RestoredColumns.ext hcpath ?_ (hof.metadata.trans he.metadata) (hof.tags.trans he.tags)
    ?_ hexpires
  · exact (congrArg (Except.map fun r : Row => r.content) hscan).trans
      ((congrArg Except.ok hcontent).trans he.content.symm)
  · refine hof.importance.trans ?_
    obtain ⟨hnonneg, hle⟩ := h.check r hr
    dsimp only [MemoryEntry.toStoreRequest, Row.reimported]
    rw [he.importance]
    split
    · rfl
    · rw [normalizeImportance, if_neg (not_lt.mpr hnonneg), if_neg (not_lt.mpr hle)]

/-! ## The import of an export -/

structure Adds (env : Env) (tenantId : String) (exported : List Row) (before after : List Row)
    (new : List Row) : Prop where
  rows : after = before ++ new
  current : ∀ r ∈ new, r.tenantId = tenantId ∧ r.isOpen = true
  columns : new.map (Row.restoredColumns env) = exported.map (Row.reimported env)

variable {tenantId : String} {s : Tables}

theorem Hosted.importItem_eq (h : Hosted db env rows) (hr : r ∈ rows) (he : EntryOf env r e)
    {ctx : ImportCtx} (hdedup : ctx.settings = {}) (index : Nat)
    (hfree : ∀ r' ∈ s.memories.rows, r'.current tenantId r.path = false) :
    ∃ new, Adds env tenantId ([r].filter (Row.importable env)) s.memories.rows
        (importItem env tenantId "overwrite" ctx index e.toStoreRequest s).2.memories.rows new ∧
      ∀ r' ∈ new, r'.path = r.path := by
  have hpath : trimSpaceText e.toStoreRequest.path = r.path.text := by
    rw [← h.trim_text hr, ← he.path]
    rfl
  cases hvalid : r.importable env with
  | false =>
    have hitem : (importItem env tenantId "overwrite" ctx index e.toStoreRequest s).2 = s := by
      unfold importItem
      rw [hpath]
      split
      · rfl
      next hok =>
      rw [Row.importable_iff.mpr hok] at hvalid
      cases hvalid
    refine ⟨[], ⟨?_, fun _ hr' => absurd hr' not_mem_nil, ?_⟩, fun _ hr' =>
      absurd hr' not_mem_nil⟩
    · rw [hitem, append_nil]
    · rw [filter_cons, hvalid]
      rfl
  | true =>
    obtain ⟨c, hcolumns, hcpath, hrestored⟩ := h.exists_columns hr he hvalid
    have hstore : runStore env {} e.toStoreRequest tenantId ctx.now s = .ok (.insert tenantId c,
        ⟨⟨s.memories.rows ++ [c.toRow tenantId s.memories.nextId 1 ctx.now],
          s.memories.nextId + 1⟩, s.links⟩) :=
      runStore_of_storeColumns rfl hcolumns (by rwa [hcpath])
    have hpass : passesOver env tenantId "overwrite" ctx e.toStoreRequest s.memories.rows = false :=
      rfl
    have hitem :
        (importItem env tenantId "overwrite" ctx index e.toStoreRequest s).2.memories.rows =
        s.memories.rows ++ [c.toRow tenantId s.memories.nextId 1 ctx.now] := by
      unfold importItem
      rw [hpath, Row.importable_iff.mp hvalid]
      dsimp only
      rw [hpass, if_neg Bool.false_ne_true, hdedup, hstore]
    refine ⟨_, ⟨hitem, forall_mem_singleton.mpr ⟨rfl, rfl⟩, ?_⟩,
      forall_mem_singleton.mpr hcpath⟩
    rw [filter_cons, hvalid, if_pos rfl, map_singleton, hrestored]
    rfl

variable {l : List Row} {ctx : Nat → ImportCtx} {path : Ltree} {resp : MemoryExportResponse}

/-- **What an import of exported entries adds.** -/
theorem Hosted.importFrom_adds (h : Hosted db env rows) (hl : ∀ r ∈ l, r ∈ rows)
    {entries : List MemoryEntry} (he : List.Forall₂ (EntryOf env) l entries)
    (hunique : l.Pairwise fun a b => a.path ≠ b.path) (hdedup : ∀ index, (ctx index).settings = {})
    (index : Nat) (hfree : ∀ r ∈ l, ∀ r' ∈ s.memories.rows, r'.current tenantId r.path = false) :
    ∃ new, Adds env tenantId (l.filter (Row.importable env)) s.memories.rows
      (importFrom env tenantId "overwrite" ctx index (entries.map MemoryEntry.toStoreRequest)
        s).2.memories.rows new := by
  induction he generalizing index s with
  | nil => exact ⟨[], (append_nil _).symm, fun _ hr => absurd hr not_mem_nil, rfl⟩
  | @cons r e l entries hentry _ ih =>
    obtain ⟨hne, hunique⟩ := pairwise_cons.mp hunique
    obtain ⟨hr, hl⟩ := forall_mem_cons.mp hl
    obtain ⟨hfree', hfree⟩ := forall_mem_cons.mp hfree
    obtain ⟨first, hfirst, hpaths⟩ := h.importItem_eq hr hentry (hdedup index) index hfree'
    obtain ⟨rest, hrest⟩ := ih hl hunique (index + 1)
      (s := (importItem env tenantId "overwrite" (ctx index) index e.toStoreRequest s).2) (by
        intro r' hr' row hrow
        rw [hfirst.rows] at hrow
        rcases mem_append.mp hrow with hrow | hrow
        · exact hfree r' hr' row hrow
        have hpath : row.path ≠ r'.path := by
          rw [hpaths row hrow]
          exact hne r' hr'
        exact Bool.eq_false_iff.mpr fun hcurrent => hpath (Row.current_iff.mp hcurrent).2.1)
    refine ⟨first ++ rest, ?_, ?_, ?_⟩
    · rw [map_cons, importFrom_cons, hrest.rows, hfirst.rows, append_assoc]
    · exact forall_mem_append.mpr ⟨hfirst.current, hrest.current⟩
    · rw [map_append, hfirst.columns, hrest.columns, ← map_append, ← filter_append]
      rfl

/-! ## What is restored -/

/-- A row comes back if it does not expire and its importance is not `0`. -/
theorem reimported_eq_iff :
    r.reimported env = r.restoredColumns env ↔ r.expiresAt = none ∧ r.importance ≠ 0 := by
  constructor
  · intro heq
    refine ⟨(congrArg RestoredColumns.expiresAt heq).symm, fun hzero => ?_⟩
    have himportance : (if r.importance = 0 then 1 / 2 else r.importance) = r.importance :=
      congrArg RestoredColumns.importance heq
    rw [if_pos hzero, hzero] at himportance
    exact absurd himportance (by decide +kernel)
  · rintro ⟨hexpires, himportance⟩
    refine RestoredColumns.ext rfl rfl rfl rfl ?_ hexpires.symm
    exact if_neg himportance

/-- With distinct keys, permuted images of a list are equal ones. -/
theorem map_filter_perm_iff {α β κ : Type} (key : α → κ) (keyOf : β → κ) {l : List α}
    {p : α → Bool} {f g : α → β} (hf : ∀ a ∈ l, keyOf (f a) = key a) (hg : ∀ a ∈ l, keyOf (g a) =
      key a)
    (hkeys : l.Pairwise fun a b => key a ≠ key b) :
    ((l.filter p).map f).Perm (l.map g) ↔ ∀ a ∈ l, p a = true ∧ f a = g a := by
  constructor
  · intro hperm
    have hlength := hperm.length_eq
    rw [length_map, length_map] at hlength
    have hall : ∀ a ∈ l, p a = true := length_filter_eq_length_iff.mp hlength
    rw [filter_eq_self.mpr hall] at hperm
    intro a ha
    refine ⟨hall a ha, ?_⟩
    obtain ⟨b, hb, hfg⟩ := mem_map.mp (hperm.mem_iff.mp (mem_map_of_mem ha))
    have hkey : key b = key a := by rw [← hg b hb, hfg, hf a ha]
    have hinj := inj_on_of_nodup_map (pairwise_map.mpr hkeys) hb ha hkey
    rw [← hfg, hinj]
  · intro h
    rw [filter_eq_self.mpr fun a ha => (h a ha).1,
      map_congr_left fun a ha => (h a ha).2]

theorem exportEntries_ok {req : MemoryExportRequest}
    (hpath : env.castLtree (exportPath req.pathPrefix) = some path)
    (hlimit : ((rows.filter (exportSelects tenantId path)).length : Int) ≤ exportLimit req.limit)
    (h : exportEntries env tenantId req rows = .ok resp) :
    List.Forall₂ (EntryOf env) ((rows.filter (exportSelects tenantId path)).insertionSort ByPath)
      resp.entries := by
  have hdefault : exportLimit (if req.limit ≤ 0 then 500 else req.limit) =
      exportLimit req.limit := by
    by_cases hle : req.limit ≤ 0
    · rw [if_pos hle, exportLimit, exportLimit, if_pos hle]
      decide
    · rw [if_neg hle]
  have hlength := length_insertionSort ByPath (rows.filter (exportSelects tenantId path))
  unfold exportEntries exportMemories at h
  dsimp only at h
  rw [hpath, hdefault] at h
  dsimp only at h
  rw [take_of_length_le (by omega)] at h
  split at h
  · cases h
  next entries hscan =>
  rw [← Except.ok.inj h]
  refine forall₂_of_exportScan (fun r => ?_) hscan
  split
  · exact Or.inl rfl
  · exact Or.inr rfl

theorem exportSelects_iff :
    exportSelects tenantId path r = true ↔
      r.tenantId = tenantId ∧ r.path.under path = true ∧ r.isOpen = true := by
  rw [exportSelects, Bool.and_eq_true, Bool.and_eq_true, beq_iff_eq, and_assoc]

theorem Hosted.pairwise_export (h : Hosted db env rows) (tenantId : String) (path : Ltree) :
    ((rows.filter (exportSelects tenantId path)).insertionSort ByPath).Pairwise
      fun a b => a.path ≠ b.path := by
  have hunique : (rows.filter (exportSelects tenantId path)).Pairwise fun a b =>
      a.path ≠ b.path := by
    refine (h.unique.filter _).imp_of_mem fun {a b} ha hb hab => ?_
    obtain ⟨htenant, -, hopen⟩ := exportSelects_iff.mp (mem_filter.mp ha).2
    obtain ⟨htenant', -, hopen'⟩ := exportSelects_iff.mp (mem_filter.mp hb).2
    exact hab hopen hopen' (htenant.trans htenant'.symm)
  exact (perm_insertionSort _ _).symm.pairwise hunique fun hab => hab.symm

theorem Adds.filter_eq {exported before after new : List Row}
    (h : Adds env tenantId exported before after new)
    (hempty : ∀ r ∈ before, r.tenantId ≠ tenantId) :
    after.filter (fun r => r.tenantId == tenantId && r.isOpen) = new := by
  have hbefore : before.filter (fun r => r.tenantId == tenantId && r.isOpen) = [] := by
    refine filter_eq_nil_iff.mpr fun r hr hcurrent => hempty r hr ?_
    exact beq_iff_eq.mp (Bool.and_eq_true_iff.mp hcurrent).1
  have hnew : new.filter (fun r => r.tenantId == tenantId && r.isOpen) = new := by
    refine filter_eq_self.mpr fun r hr => ?_
    obtain ⟨htenant, hopen⟩ := h.current r hr
    rw [htenant, hopen, beq_self_eq_true]
    rfl
  rw [h.rows, filter_append, hbefore, hnew, nil_append]

theorem importMode_importOf (resp : MemoryExportResponse) :
    importMode (importOf resp).mode = "overwrite" :=
  (by decide : importMode "overwrite" = "overwrite")

theorem Hosted.exists_import (h : Hosted db env rows) (hl : ∀ r ∈ l, r ∈ rows)
    (he : List.Forall₂ (EntryOf env) l resp.entries)
    (hunique : l.Pairwise fun a b => a.path ≠ b.path) (hmax : l.length ≤ maxImportEntries)
    {target : String} (hdedup : ∀ index, (ctx index).settings = {})
    (hempty : ∀ r ∈ s.memories.rows, r.tenantId ≠ target) :
    ∃ out s' new, importMemories env target ctx (importOf resp) s = .ok (out, s') ∧
      Adds env target (l.filter (Row.importable env)) s.memories.rows s'.memories.rows new := by
  have hfree : ∀ r ∈ l, ∀ r' ∈ s.memories.rows, r'.current target r.path = false :=
    fun r _ r' hr' => Bool.eq_false_iff.mpr fun hcurrent =>
      hempty r' hr' (Row.current_iff.mp hcurrent).1
  have hcount : ¬ maxImportEntries < (importOf resp).entries.length := by
    rw [importOf, length_map, ← he.length_eq]
    exact not_lt.mpr hmax
  obtain ⟨new, hnew⟩ := h.importFrom_adds hl he hunique hdedup 0 hfree
  refine ⟨_, _, new, if_neg hcount, ?_⟩
  rw [importMode_importOf]
  exact hnew

end

/-- **An import of an export restores the rows** exactly if none expires, none has the importance
`0`, and each path passes the import's check. -/
theorem export_import_restores_iff {db : LabelRules} {env : Env} {rows : List Row}
    (h : Hosted db env rows) {tenantId : String} {req : MemoryExportRequest} {path : Ltree}
    (hpath : env.castLtree (exportPath req.pathPrefix) = some path)
    (hlimit : ((rows.filter (exportSelects tenantId path)).length : Int) ≤ exportLimit req.limit)
    (hmax : (rows.filter (exportSelects tenantId path)).length ≤ maxImportEntries)
    {resp : MemoryExportResponse} (hexport : exportEntries env tenantId req rows = .ok resp)
    {target : String} {ctx : Nat → ImportCtx} (hdedup : ∀ index, (ctx index).settings = {})
    {s : Tables} (hempty : ∀ r ∈ s.memories.rows, r.tenantId ≠ target) :
    ∃ out s', importMemories env target ctx (importOf resp) s = .ok (out, s') ∧
      (Restores env target (rows.filter (exportSelects tenantId path)) s'.memories.rows ↔
        ∀ r ∈ rows.filter (exportSelects tenantId path),
          r.expiresAt = none ∧ r.importance ≠ 0 ∧ validateLtreePath env r.path.text = .ok ()) := by
  have hperm := perm_insertionSort ByPath (rows.filter (exportSelects tenantId path))
  have hunique := h.pairwise_export tenantId path
  obtain ⟨out, s', new, himport, hadds⟩ := h.exists_import
    (fun r hr => mem_of_mem_filter (hperm.mem_iff.mp hr)) (exportEntries_ok hpath hlimit hexport)
    hunique (hperm.length_eq.trans_le hmax) hdedup hempty
  refine ⟨out, s', himport, ?_⟩
  have hiff := map_filter_perm_iff (fun r : Row => r.path) RestoredColumns.path
    (p := Row.importable env) (f := Row.reimported env) (g := Row.restoredColumns env)
    (fun _ _ => rfl) (fun _ _ => rfl) hunique
  rw [Restores, hadds.filter_eq hempty, hadds.columns]
  constructor
  · intro hrestores r hr
    have hall := hiff.mp (hrestores.trans (hperm.map _).symm) r (hperm.mem_iff.mpr hr)
    obtain ⟨hexpires, himportance⟩ := reimported_eq_iff.mp hall.2
    exact ⟨hexpires, himportance, Row.importable_iff.mp hall.1⟩
  · intro hall
    refine (hiff.mpr fun r hr => ?_).trans (hperm.map _)
    obtain ⟨hexpires, himportance, hvalid⟩ := hall r (hperm.mem_iff.mp hr)
    exact ⟨Row.importable_iff.mpr hvalid, reimported_eq_iff.mpr ⟨hexpires, himportance⟩⟩

def noteRow (expiresAt : Option Time) : Row :=
  { dedupRow 1 "a" "note" with path := ⟨["root", "a"]⟩, expiresAt := expiresAt }

theorem hosted_noteRow (expiresAt : Option Time) :
    Hosted wordRules wordEnv [noteRow expiresAt] where
  cast := rfl
  stores := forall_mem_singleton.mpr (by decide : wordRules.stores ⟨["root", "a"]⟩ = true)
  cipher := fun plain => ⟨plain, rfl, rfl⟩
  agents := forall_mem_singleton.mpr fun _ hagent => nomatch hagent
  check := forall_mem_singleton.mpr (by decide +kernel : (0 : ℚ) ≤ 1 / 2 ∧ (1 / 2 : ℚ) ≤ 1)
  unique := pairwise_singleton _ _

def noteTables (expiresAt : Option Time) : Tables := ⟨⟨[noteRow expiresAt], 2⟩, []⟩

def importAtOne (_ : Nat) : ImportCtx := { now := 1 }

theorem export_import_restores_note :
    ∃ resp out s', exportEntries wordEnv "t" {} [noteRow none] = .ok resp ∧
      importMemories wordEnv "u" importAtOne (importOf resp) (noteTables none) = .ok (out, s') ∧
      Restores wordEnv "u" [noteRow none] s'.memories.rows := by
  have hpath : wordEnv.castLtree (exportPath ({} : MemoryExportRequest).pathPrefix) =
      some ⟨["root"]⟩ := by decide
  have hexport : exportEntries wordEnv "t" {} [noteRow none] =
      .ok ⟨"t", 1, [(noteRow none).toEntry]⟩ := rfl
  have hempty : ∀ r ∈ (noteTables none).memories.rows, r.tenantId ≠ "u" := by decide
  have hdedup : ∀ index, (importAtOne index).settings = {} := fun _ => rfl
  obtain ⟨out, s', himport, hiff⟩ := export_import_restores_iff (hosted_noteRow none) hpath
    (by decide) (by decide) hexport hdedup hempty
  refine ⟨_, out, s', hexport, himport, hiff.mpr ?_⟩
  exact forall_mem_singleton.mpr ⟨rfl, by decide +kernel, by decide⟩

/-- **A memory that expires comes back as one that does not.** -/
theorem export_import_drops_expiry :
    ∃ resp out s', exportEntries wordEnv "t" {} [noteRow (some 5)] = .ok resp ∧
      importMemories wordEnv "u" importAtOne (importOf resp) (noteTables (some 5)) = .ok (out, s') ∧
      out.imported = 1 ∧ ¬ Restores wordEnv "u" [noteRow (some 5)] s'.memories.rows := by
  refine ⟨_, _, _, rfl, rfl, by decide, fun h => ?_⟩
  have hcolumns := singleton_perm_singleton.mp h
  cases congrArg RestoredColumns.expiresAt hcolumns

end Pcmi.Memory
