import Pcmi.Lib.Steps
import Pcmi.Memory.Service

/-!
# What a store through the service leaves

`tryDedup` may skip a request, link its path to the one that has the content, or merge its metadata
into the row that has it. `StoreCase` says when each outcome comes about.
-/

namespace Pcmi.Memory

open List Pcmi.Go Pcmi.Lib

/-! ## Laws of what is outside -/

/-- What was encrypted can be decrypted. -/
def Decrypts (env : Env) : Prop :=
  ∀ plain cipher, env.encryptContent plain = .ok cipher → env.decryptContent cipher = .ok plain

/-- Every path of the table is what its text is cast to. -/
def PathsCast (env : Env) (rows : List Row) : Prop :=
  ∀ r ∈ rows, env.castLtree r.path.text = some r.path

/-! ## The state behind a store -/

structure Link where
  tenantId : String
  fromPath : Ltree
  toPath : Ltree
  linkType : String
  metadata : JsonMap

/-- The tables that a store through the service writes. -/
structure Tables where
  memories : Table
  links : List Link

def dedupLinkType : String := "duplicate"

/-- `ON CONFLICT (…) DO UPDATE SET metadata`. -/
def upsertLink (l : Link) (links : List Link) : List Link :=
  if links.any fun l' => l'.tenantId = l.tenantId ∧ l'.fromPath = l.fromPath ∧
      l'.toPath = l.toPath ∧ l'.linkType = l.linkType then
    links.map fun l' =>
      if l'.tenantId = l.tenantId ∧ l'.fromPath = l.fromPath ∧ l'.toPath = l.toPath ∧
        l'.linkType = l.linkType then { l' with metadata := l.metadata } else l'
  else links ++ [l]

/-- The link that a `linked` outcome writes. -/
def dedupLink (tenantId : String) (fromPath toPath : Ltree) : Link where
  tenantId := tenantId
  fromPath := fromPath
  toPath := toPath
  linkType := dedupLinkType
  metadata := AList.singleton "source" (.str "dedup")

def Plan.runLinks (env : Env) (tenantId : String) (links : List Link) : Plan → List Link
  | .linked existing linkedFrom =>
    match env.castLtree (trimSpaceText linkedFrom) with
    | some fromPath => upsertLink (dedupLink tenantId fromPath existing.path) links
    | none => links
  | _ => links

/-- `MemoryService.Store` run alone, and the tables behind it. -/
def runStore (env : Env) (settings : DedupSettings) (req : StoreRequest) (tenantId : String)
    (now : Time) (s : Tables) : Except String (Plan × Tables) :=
  match serviceStore env settings req tenantId s.memories.rows with
  | .error e => .error e
  | .ok plan =>
    match plan.run now s.memories with
    | .error e => .error e
    | .ok memories => .ok (plan, ⟨memories, plan.runLinks env tenantId s.links⟩)

theorem exists_mem_upsertLink (l : Link) (links : List Link) :
    ∃ l' ∈ upsertLink l links, (l'.tenantId = l.tenantId ∧ l'.fromPath = l.fromPath ∧
      l'.toPath = l.toPath ∧ l'.linkType = l.linkType) ∧ l'.metadata = l.metadata := by
  unfold upsertLink
  split
  · next hany =>
    obtain ⟨l', hl', hsame⟩ := any_eq_true.mp hany
    have hsame := of_decide_eq_true hsame
    refine ⟨_, mem_map_of_mem hl', ?_⟩
    rw [if_pos hsame]
    exact ⟨hsame, rfl⟩
  · exact ⟨l, mem_append_right _ mem_cons_self, ⟨rfl, rfl, rfl, rfl⟩, rfl⟩

/-! ## When dedup intervenes -/

section

variable (env : Env) (settings : DedupSettings) (req : StoreRequest) (tenantId : String)
  (rows : List Row)

/-- The row dedup compares with, found by its hash. -/
def Duplicate (e : Row) : Prop :=
  findCurrentByContentHash env tenantId (env.contentHash req.content) rows = .ok (some e) ∧
    env.contentHash e.content = env.contentHash req.content

/-- Dedup keeps the request from being stored. -/
def Intervenes : Prop :=
  ∃ mode e, resolveDedupMode env settings req = .ok mode ∧ mode ≠ .none ∧
    Duplicate env req tenantId rows e ∧ (mode = .link ∨ e.path.text = trimSpaceText req.path)

/-- **The outcomes of a store** and when each comes about. -/
inductive StoreCase : Plan → Prop where
  | stored (c : Columns) (hno : ¬ Intervenes env settings req tenantId rows)
      (hcolumns :
        storeColumns env { req with contentHash := env.contentHash req.content } = .ok c) :
      StoreCase (.insert tenantId c)
  | skipped (mode : DedupMode) (e : Row) (hmode : resolveDedupMode env settings req = .ok mode)
      (hskip : mode = .skip ∨ mode = .link) (hdup : Duplicate env req tenantId rows e)
      (hpath : e.path.text = trimSpaceText req.path) : StoreCase (.skipped e)
  | linked (e : Row) (p : Ltree) (hmode : resolveDedupMode env settings req = .ok .link)
      (hdup : Duplicate env req tenantId rows e) (hpath : e.path.text ≠ trimSpaceText req.path)
      (hcast : env.castLtree (trimSpaceText req.path) = some p) :
      StoreCase (.linked e (trimSpaceText req.path))
  | merged (e : Row) (p : Ltree) (hmode : resolveDedupMode env settings req = .ok .merge)
      (hdup : Duplicate env req tenantId rows e) (hpath : e.path.text = trimSpaceText req.path)
      (hcast : env.castLtree (trimSpaceText req.path) = some p) :
      StoreCase (.merged tenantId p (req.metadata.getD ∅) (req.tags.getD []))

end

section

variable {env : Env} {settings : DedupSettings} {req : StoreRequest} {tenantId : String}
  {rows : List Row} {mode : DedupMode} {t t' : Table}

theorem not_intervenes_of_find {r : Option Row}
    (hmode : resolveDedupMode env settings req = .ok mode)
    (hfind : findCurrentByContentHash env tenantId (env.contentHash req.content) rows = .ok r)
    (h : ∀ e, r = some e → env.contentHash e.content = env.contentHash req.content → mode ≠ .none →
      mode ≠ .link ∧ e.path.text ≠ trimSpaceText req.path) :
    ¬ Intervenes env settings req tenantId rows := by
  rintro ⟨mode', e, hmode', hne, ⟨hfind', hhash⟩, hcase⟩
  obtain rfl : mode = mode' := Except.ok.inj (hmode.symm.trans hmode')
  obtain ⟨hlink, hpath⟩ := h e (Except.ok.inj (hfind.symm.trans hfind')) hhash hne
  exact hcase.elim hlink hpath

variable {r e : Row} {plan : Plan} {c : Columns} {now : Time}

theorem upsertDedupLink_ok {fromPath : String} (h : upsertDedupLink env fromPath e = .ok plan) :
    ∃ p, env.castLtree (trimSpaceText fromPath) = some p ∧ plan = .linked e fromPath := by
  unfold upsertDedupLink at h
  split at h
  · cases h
  split at h <;> cases h
  next p hcast => exact ⟨p, hcast, rfl⟩

theorem mergeCurrentMetadata_ok {path : String} {metadata : Option JsonMap}
    {tags : Option (List String)}
    (h : mergeCurrentMetadata env tenantId path metadata tags = .ok plan) :
    ∃ p, env.castLtree (trimSpaceText path) = some p ∧
      plan = .merged tenantId p (metadata.getD ∅) (tags.getD []) := by
  unfold mergeCurrentMetadata at h
  dsimp only at h
  split at h
  · cases h
  split at h <;> cases h
  next p hcast => exact ⟨p, hcast, rfl⟩

theorem tryDedup_ok {r : Option Plan}
    (h : tryDedup env settings req tenantId (trimSpaceText req.path) rows = .ok r) :
    (r = none ∧ ¬ Intervenes env settings req tenantId rows) ∨
      ∃ plan, r = some plan ∧ StoreCase env settings req tenantId rows plan := by
  unfold tryDedup at h
  split at h
  · cases h
  · next hmode =>
    cases h
    refine Or.inl ⟨rfl, ?_⟩
    rintro ⟨mode, e, hmode', hne, -⟩
    exact hne (Except.ok.inj (hmode'.symm.trans hmode))
  next mode hne hmode =>
  dsimp only at h
  split at h
  · cases h
  · next hfind =>
    cases h
    exact Or.inl ⟨rfl, not_intervenes_of_find hmode hfind fun e he => nomatch he⟩
  next e hfind =>
  by_cases hhash : env.contentHash e.content = env.contentHash req.content
  swap
  · rw [if_pos hhash] at h
    cases h
    refine Or.inl ⟨rfl, not_intervenes_of_find hmode hfind fun e' he hhash' => ?_⟩
    cases he
    exact absurd hhash' hhash
  rw [if_neg (not_not.mpr hhash)] at h
  -- the modes that leave a row at another path to the store
  have helsewhere : mode ≠ .link → e.path.text ≠ trimSpaceText req.path →
      ¬ Intervenes env settings req tenantId rows := by
    intro hlink hpath
    refine not_intervenes_of_find hmode hfind fun e' he _ _ => ?_
    cases he
    exact ⟨hlink, hpath⟩
  have hdup : Duplicate env req tenantId rows e := ⟨hfind, hhash⟩
  cases mode with
  | none => exact (hne rfl).elim
  | skip =>
    simp only [beq_iff_eq] at h
    split at h <;> cases h
    · next hpath => exact .inr ⟨_, rfl, .skipped .skip e hmode (.inl rfl) hdup hpath⟩
    · next hpath => exact .inl ⟨rfl, helsewhere (by decide) hpath⟩
  | link =>
    simp only [beq_iff_eq] at h
    split at h
    · next hpath =>
      cases h
      exact .inr ⟨_, rfl, .skipped .link e hmode (.inr rfl) hdup hpath⟩
    next hpath =>
    obtain ⟨plan, hlink, rfl⟩ := map_eq_ok h
    obtain ⟨p, hcast, rfl⟩ := upsertDedupLink_ok hlink
    rw [trimSpaceText_trimSpaceText] at hcast
    exact .inr ⟨_, rfl, .linked e p hmode hdup hpath hcast⟩
  | merge =>
    simp only [beq_iff_eq] at h
    split at h
    · next hpath =>
      obtain ⟨plan, hmerge, rfl⟩ := map_eq_ok h
      obtain ⟨p, hcast, rfl⟩ := mergeCurrentMetadata_ok hmerge
      rw [trimSpaceText_trimSpaceText] at hcast
      exact .inr ⟨_, rfl, .merged e p hmode hdup hpath hcast⟩
    · next hpath =>
      cases h
      exact .inl ⟨rfl, helsewhere (by decide) hpath⟩

theorem serviceStore_ok (h : serviceStore env settings req tenantId rows = .ok plan) :
    StoreCase env settings req tenantId rows plan := by
  unfold serviceStore at h
  split at h
  · cases h
  · next plan' hdedup =>
    cases h
    rcases tryDedup_ok hdedup with ⟨hnone, -⟩ | ⟨plan', hsome, hcase⟩
    · cases hnone
    · cases hsome
      exact hcase
  · next hdedup =>
    rcases tryDedup_ok hdedup with ⟨-, hno⟩ | ⟨plan', hsome, -⟩
    swap
    · cases hsome
    obtain ⟨c, hcolumns, rfl⟩ := map_eq_ok (mapError_eq_ok h)
    exact .stored c hno hcolumns

/-! ## The rows involved -/

theorem newestCreated_mem {l : List Row} (h : newestCreated l = some r) : r ∈ l := by
  induction l generalizing r with
  | nil => cases h
  | cons a l ih =>
    unfold newestCreated at h
    split at h
    · cases h
      exact mem_cons_self
    next r' hr' =>
    split at h <;> cases h
    · exact mem_cons_of_mem _ (ih hr')
    · exact mem_cons_self

theorem scanMemoryEntry_path (h : scanMemoryEntry env r = .ok e) : e.path = r.path := by
  obtain ⟨content, rfl⟩ := scanMemoryEntry_ok h
  rfl

theorem exists_of_found {hash : String}
    (h : findCurrentByContentHash env tenantId hash rows = .ok (some e)) :
    ∃ r ∈ rows, scanMemoryEntry env r = .ok e ∧ r.tenantId = tenantId ∧
      r.contentHash = some (trimSpaceText hash) ∧ r.isOpen = true := by
  unfold findCurrentByContentHash at h
  dsimp only at h
  split at h
  · cases h
  split at h
  · cases h
  next r hr =>
  obtain ⟨hmem, hcond⟩ := mem_filter.mp (newestCreated_mem hr)
  simp only [Bool.and_eq_true, beq_iff_eq, and_assoc] at hcond
  obtain ⟨e', hscan, ⟨⟩⟩ := map_eq_ok (mapError_eq_ok h)
  exact ⟨r, hmem, hscan, hcond⟩

theorem Duplicate.exists_row (h : Duplicate env req tenantId rows e) :
    ∃ r ∈ rows, scanMemoryEntry env r = .ok e ∧ r.current tenantId e.path = true := by
  obtain ⟨r, hr, hscan, htenant, -, hopen⟩ := exists_of_found h.1
  refine ⟨r, hr, hscan, ?_⟩
  rw [scanMemoryEntry_path hscan]
  simp [Row.current, Row.at, htenant, hopen]

/-- What the store has put into the columns. -/
structure ColumnsOf (env : Env) (req : StoreRequest) (c : Columns) : Prop where
  path : env.castLtree (trimSpaceText req.path) = some c.path
  content : (c.contentEncrypted = true ∧ env.encryptContent req.content = .ok c.content) ∨
    (c.contentEncrypted = false ∧ c.content = req.content)
  metadata : c.metadata = req.metadata.getD ∅
  tags : c.tags = req.tags.getD []
  importance : c.importance = normalizeImportance req.importance

theorem storeColumns_ok (h : storeColumns env req = .ok c) : ColumnsOf env req c := by
  unfold storeColumns at h
  dsimp only at h
  split at h
  · cases h
  split at h
  · cases h
  next content hcontent =>
  split at h
  · cases h
  next ltree hcast =>
  split at h <;> cases h
  refine ⟨hcast, ?_, rfl, rfl, rfl⟩
  split at hcontent
  · next henc => exact Or.inl ⟨henc, hcontent⟩
  · next henc => exact Or.inr ⟨Bool.eq_false_iff.mpr henc, (Except.ok.inj hcontent).symm⟩

theorem storedColumns_ok
    (h : storeColumns env { req with contentHash := env.contentHash req.content } = .ok c) :
    ColumnsOf env req c :=
  { storeColumns_ok h with }

theorem scanMemoryEntry_of_encrypted {plain : String} (henc : r.contentEncrypted = true)
    (hplain : env.decryptContent r.content = .ok plain) :
    scanMemoryEntry env r = .ok { r with content := plain } := by
  rw [scanMemoryEntry, if_pos henc, hplain]

theorem scanMemoryEntry_of_plain (henc : r.contentEncrypted = false) :
    scanMemoryEntry env r = .ok r := by
  rw [scanMemoryEntry, if_neg (Bool.eq_false_iff.mp henc)]

/-- Merging into a row and decrypting it do not get in each other's way. -/
theorem scanMemoryEntry_mergeMetadata (metadata : JsonMap) (tags : List String) (r : Row) :
    scanMemoryEntry env (r.mergeMetadata metadata tags) =
      (scanMemoryEntry env r).map (Row.mergeMetadata metadata tags) := by
  cases henc : r.contentEncrypted with
  | false =>
    rw [scanMemoryEntry_of_plain henc,
      scanMemoryEntry_of_plain (r := r.mergeMetadata metadata tags) henc]
    rfl
  | true =>
    cases hplain : env.decryptContent r.content with
    | ok plain =>
      rw [scanMemoryEntry_of_encrypted henc hplain,
        scanMemoryEntry_of_encrypted (r := r.mergeMetadata metadata tags) henc hplain]
      rfl
    | error err =>
      have hmerged : (r.mergeMetadata metadata tags).contentEncrypted = true := henc
      have hcontent : (r.mergeMetadata metadata tags).content = r.content := rfl
      rw [scanMemoryEntry, if_pos hmerged, hcontent, hplain, scanMemoryEntry, if_pos henc, hplain]
      rfl

theorem ColumnsOf.exists_scan (henv : Decrypts env) (h : ColumnsOf env req c) (id : Nat)
    (version : Int) (now : Time) :
    ∃ e, scanMemoryEntry env (c.toRow tenantId id version now) = .ok e ∧
      e.content = req.content := by
  rcases h.content with ⟨henc, hcontent⟩ | ⟨henc, hcontent⟩
  · exact ⟨_, scanMemoryEntry_of_encrypted henc (henv _ _ hcontent), rfl⟩
  · exact ⟨_, scanMemoryEntry_of_plain henc, hcontent⟩

/-! ## Reading back -/

def HasContent (env : Env) (hash : String) (r : Row) : Prop :=
  ∃ e, scanMemoryEntry env r = .ok e ∧ env.contentHash e.content = hash

instance (env : Env) (hash : String) (r : Row) : Decidable (HasContent env hash r) :=
  match h : scanMemoryEntry env r with
  | .ok e => decidable_of_iff (env.contentHash e.content = hash)
      ⟨fun hhash => ⟨e, h, hhash⟩, fun ⟨_, he, hhash⟩ => Except.ok.inj (h.symm.trans he) ▸ hhash⟩
  | .error _ => isFalse fun ⟨_, he, _⟩ => nomatch h.symm.trans he

theorem HasContent.mergeMetadata {hash : String} {r : Row} (h : HasContent env hash r)
    (metadata : JsonMap) (tags : List String) :
    HasContent env hash (r.mergeMetadata metadata tags) := by
  obtain ⟨e, hscan, hhash⟩ := h
  refine ⟨e.mergeMetadata metadata tags, ?_, hhash⟩
  rw [scanMemoryEntry_mergeMetadata, hscan]
  rfl

/-- The current row at the path has a content with the hash. -/
def ReadsBack (env : Env) (tenantId path hash : String) (rows : List Row) : Prop :=
  ∃ p, env.castLtree path = some p ∧
    ∃ r ∈ rows, r.current tenantId p = true ∧ HasContent env hash r

/-- No current row, but a duplicate link to one with the hash. -/
def LinkedTo (env : Env) (tenantId path hash : String) (s : Tables) : Prop :=
  ∃ p, env.castLtree path = some p ∧ (∀ r ∈ s.memories.rows, r.current tenantId p = false) ∧
    ∃ l ∈ s.links, l.tenantId = tenantId ∧ l.fromPath = p ∧ l.linkType = dedupLinkType ∧
      ∃ r ∈ s.memories.rows, r.current tenantId l.toPath = true ∧ HasContent env hash r

instance (env : Env) (tenantId path hash : String) (rows : List Row) :
    Decidable (ReadsBack env tenantId path hash rows) :=
  inferInstanceAs (Decidable (∃ p, p ∈ env.castLtree path ∧ ∃ r ∈ rows, _ ∧ _))

instance (env : Env) (tenantId path hash : String) (s : Tables) :
    Decidable (LinkedTo env tenantId path hash s) :=
  inferInstanceAs (Decidable (∃ p, p ∈ env.castLtree path ∧ _ ∧
    ∃ l ∈ s.links, _ ∧ _ ∧ _ ∧ ∃ r ∈ s.memories.rows, _ ∧ _))

def Plan.isLinked : Plan → Bool
  | .linked _ _ => true
  | _ => false

/-- The content is linked from a path whose current row has another. -/
def LinksOverOther (env : Env) (settings : DedupSettings) (req : StoreRequest) (tenantId : String)
    (rows : List Row) : Prop :=
  resolveDedupMode env settings req = .ok .link ∧
    ∃ e p, Duplicate env req tenantId rows e ∧ e.path.text ≠ trimSpaceText req.path ∧
      env.castLtree (trimSpaceText req.path) = some p ∧
      (∃ r ∈ rows, r.current tenantId p = true) ∧
      ∀ r ∈ rows, r.current tenantId p = true → ¬ HasContent env (env.contentHash req.content) r

theorem Duplicate.unique {e' : Row} (h : Duplicate env req tenantId rows e)
    (h' : Duplicate env req tenantId rows e') : e = e' :=
  Option.some.inj (Except.ok.inj (h.1.symm.trans h'.1))

theorem Duplicate.exists_hasContent (hpaths : PathsCast env rows)
    (h : Duplicate env req tenantId rows e) :
    ∃ r ∈ rows, r.current tenantId e.path = true ∧ HasContent env (env.contentHash req.content) r ∧
      env.castLtree e.path.text = some e.path := by
  obtain ⟨r, hr, hscan, hcur⟩ := h.exists_row
  refine ⟨r, hr, hcur, ⟨e, hscan, h.2⟩, ?_⟩
  rw [scanMemoryEntry_path hscan]
  exact hpaths r hr

theorem runStore_ok {s s' : Tables}
    (h : runStore env settings req tenantId now s = .ok (plan, s')) :
    StoreCase env settings req tenantId s.memories.rows plan ∧
      plan.run now s.memories = .ok s'.memories ∧
      s'.links = plan.runLinks env tenantId s.links := by
  unfold runStore at h
  split at h
  · cases h
  next plan' hplan =>
  split at h <;> cases h
  next memories hrun =>
  exact ⟨serviceStore_ok hplan, hrun, rfl⟩

theorem run_insert_ok (h : (Plan.insert tenantId c).run now t = .ok t') :
    ∃ version, t'.rows = closeCurrent tenantId c.path now t.rows ++
      [c.toRow tenantId t.nextId version now] := by
  rw [Plan.run, storeVersion] at h
  split at h <;> cases h
  exact ⟨_, rfl⟩

theorem run_merged_ok {p : Ltree} {metadata : JsonMap} {tags : List String}
    (h : (Plan.merged tenantId p metadata tags).run now t = .ok t') :
    t'.rows = mergeCurrent tenantId p metadata tags t.rows := by
  rw [Plan.run] at h
  split at h <;> cases h
  rfl

theorem toRow_current {id : Nat} {version : Int} :
    (c.toRow tenantId id version now).current tenantId c.path = true := by
  simp [Row.current]

theorem not_linksOverOther_of_mode (hmode : resolveDedupMode env settings req = .ok mode)
    (hne : mode ≠ .link) :
    ¬ LinksOverOther env settings req tenantId rows :=
  fun h => hne (Except.ok.inj (hmode.symm.trans h.1))

/-- **A store can be read back** unless it links its content from a path whose current row has
another. -/
theorem store_reads_back_iff {now : Time} {s s' : Tables} {plan : Plan} (henv : Decrypts env)
    (hpaths : PathsCast env s.memories.rows)
    (h : runStore env settings req tenantId now s = .ok (plan, s')) :
    (ReadsBack env tenantId (trimSpaceText req.path) (env.contentHash req.content)
          s'.memories.rows ∨
        plan.isLinked = true ∧
          LinkedTo env tenantId (trimSpaceText req.path) (env.contentHash req.content) s') ↔
      ¬ LinksOverOther env settings req tenantId s.memories.rows := by
  obtain ⟨memories, links⟩ := s'
  obtain ⟨hcase, hrun, hlinks⟩ := runStore_ok h
  cases hcase with
  | stored c hno hcolumns =>
    have hof := storedColumns_ok hcolumns
    obtain ⟨version, hrows⟩ := run_insert_ok hrun
    obtain ⟨e, hscan, hcontent⟩ := hof.exists_scan henv s.memories.nextId version now
    refine iff_of_true (Or.inl ⟨c.path, hof.path, _, ?_, toRow_current, e, hscan,
      congrArg env.contentHash hcontent⟩) ?_
    · rw [hrows]
      exact mem_append_right _ mem_cons_self
    · rintro ⟨hmode, e, p, hdup, -⟩
      exact hno ⟨.link, e, hmode, by decide, hdup, Or.inl rfl⟩
  | skipped mode e hmode hskip hdup hpath =>
    cases hrun
    obtain ⟨r, hr, hcur, hhas, hcast⟩ := hdup.exists_hasContent hpaths
    rw [hpath] at hcast
    refine iff_of_true (Or.inl ⟨e.path, hcast, r, hr, hcur, hhas⟩) ?_
    rintro ⟨-, e', p, hdup', hpath', -⟩
    rw [hdup.unique hdup'] at hpath
    exact hpath' hpath
  | linked e p hmode hdup hpath hcast =>
    cases hrun
    constructor
    · -- the path has no current row, or one with the content
      rintro (⟨p', hcast', r, hr, hcur, hhas⟩ | ⟨-, p', hcast', hnone, -⟩)
        ⟨-, e', q, -, -, hq, hover⟩
      · cases hq.symm.trans hcast'
        exact hover.2 r hr hcur hhas
      · cases hq.symm.trans hcast'
        obtain ⟨r, hr, hcur⟩ := hover.1
        rw [hnone r hr] at hcur
        cases hcur
    · intro hover
      obtain ⟨r, hr, hcur, hhas, -⟩ := hdup.exists_hasContent hpaths
      by_cases hopen : ∃ r ∈ s.memories.rows, r.current tenantId p = true
      · refine Or.inl ?_
        by_contra hreads
        exact hover ⟨hmode, e, p, hdup, hpath, hcast, hopen, fun r hr hcur hhas =>
          hreads ⟨p, hcast, r, hr, hcur, hhas⟩⟩
      · obtain ⟨l, hl, ⟨htenant, hfrom, hto, htype⟩, -⟩ :=
          exists_mem_upsertLink (dedupLink tenantId p e.path) s.links
        refine Or.inr ⟨rfl, p, hcast, fun r hr => ?_, l, ?_, htenant, hfrom, htype, r, hr, ?_, hhas⟩
        · exact Bool.eq_false_iff.mpr fun hcur => hopen ⟨r, hr, hcur⟩
        · rw [show links = _ from hlinks, Plan.runLinks, trimSpaceText_trimSpaceText, hcast]
          exact hl
        · rw [hto]
          exact hcur
  | merged e p hmode hdup hpath hcast =>
    obtain ⟨r, hr, hcur, hhas, hcast'⟩ := hdup.exists_hasContent hpaths
    rw [hpath, hcast] at hcast'
    cases hcast'
    refine iff_of_true (Or.inl ⟨e.path, hcast, r.mergeMetadata _ _, ?_, hcur,
      hhas.mergeMetadata (req.metadata.getD ∅) (req.tags.getD [])⟩)
      (not_linksOverOther_of_mode hmode (by decide))
    rw [run_merged_ok hrun]
    exact mem_map.mpr ⟨r, hr, if_pos hcur⟩

end

/-! ## Two paths with one content -/

def dedupEnv : Env where
  encryptContent s := .ok s
  decryptContent s := .ok s
  contentHash s := s
  castLtree s := some ⟨(s.toList.splitOn '.').map String.ofList⟩
  castUuid s := some s
  quote s := s

def dedupRow (id : Nat) (label content : String) : Row :=
  { plainColumns ⟨[label]⟩ content with contentHash := some content }.toRow "t" id 1 0

def twoPaths : Tables := ⟨⟨[dedupRow 1 "x" "a", dedupRow 2 "y" "b"], 3⟩, []⟩

def linkRequest (path : String) : StoreRequest :=
  { path := path, content := "b", dedupMode := "link" }

theorem pathsCast_twoPaths : PathsCast dedupEnv twoPaths.memories.rows := by
  unfold PathsCast
  decide

/-- **The store of `b` at `x` succeeds and `a` is still current there.** -/
theorem store_link_over_other :
    ∃ plan s', runStore dedupEnv {} (linkRequest "x") "t" 1 twoPaths = .ok (plan, s') ∧
      s'.memories.rows.map (fun r => (r.path.text, r.content, r.isOpen)) =
        [("x", "a", true), ("y", "b", true)] ∧
      ¬ (ReadsBack dedupEnv "t" (trimSpaceText "x") (dedupEnv.contentHash "b") s'.memories.rows ∨
        plan.isLinked = true ∧
          LinkedTo dedupEnv "t" (trimSpaceText "x") (dedupEnv.contentHash "b") s') :=
  exists_ok_pair (by decide +kernel)

theorem store_reads_back_linked :
    ∃ plan s', runStore dedupEnv {} (linkRequest "z") "t" 1 twoPaths = .ok (plan, s') ∧
      (ReadsBack dedupEnv "t" (trimSpaceText "z") (dedupEnv.contentHash "b") s'.memories.rows ∨
        plan.isLinked = true ∧
          LinkedTo dedupEnv "t" (trimSpaceText "z") (dedupEnv.contentHash "b") s') := by
  obtain ⟨plan, s', hres, -⟩ := exists_ok_pair (P := fun _ _ => True)
    (x := runStore dedupEnv {} (linkRequest "z") "t" 1 twoPaths) (by decide +kernel)
  have hfree : ∀ p ∈ dedupEnv.castLtree (trimSpaceText "z"), ∀ r ∈ twoPaths.memories.rows,
      r.current "t" p = false := by decide +kernel
  refine ⟨plan, s', hres, (store_reads_back_iff (fun plain cipher hcipher => ?_)
    pathsCast_twoPaths hres).mpr ?_⟩
  · cases hcipher
    rfl
  · rintro ⟨-, e, p, -, -, hcast, ⟨r, hr, hcur⟩, -⟩
    rw [hfree p hcast r hr] at hcur
    cases hcur

end Pcmi.Memory
