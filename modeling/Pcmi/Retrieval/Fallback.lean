import Pcmi.Listing.Keyset

/-!
# Retrieval with a query, and what a failed reranking leaves

`MemoryService.Retrieve` fetches more rows than the limit if they are to be reranked, and shows the
first of them as they were if the reranker fails. `MemoryRepository.Retrieve` counts a retrieval of
every row it fetches. Without a query it is `Listing.retrieve`.
-/

namespace Pcmi.Retrieval

open List Pcmi.Go Pcmi.Lib Pcmi.Listing Pcmi.Memory

/-! ## The repository -/

/-- A row with the columns that its retrievals change. -/
structure Memory extends Row where
  accessCount : Nat
  lastAccessedAt : Option Time

/-- `model.MemoryEntry` as a query returns it. -/
structure Entry where
  memory : Memory
  relevanceScore : ℚ

/-- `model.RetrieveRequest` with a query. -/
structure QueryRequest extends RetrieveRequest where
  query : String
  decayEnabled : Option Bool := none
  rerank : Option Bool := none
  hasQuery : trimSpaceText query ≠ ""

/-- What the database does with texts, vectors and weights; ties in any order. -/
structure Search (W : Type) where
  /-- `GetScoringWeights`. -/
  scoringWeights : String → Bool → Except String W
  /-- `content_tsv @@ websearch_to_tsquery('english', q)`. -/
  textMatches : String → Memory → Bool
  /-- `hybridScoreSQL`, with the vector of the query if there is one. -/
  score : W → List ℚ → String → Memory → ℚ
  order : W → List ℚ → String → List Memory → List Memory
  perm : ∀ w vec q rows, (order w vec q rows).Perm rows
  sorted : ∀ w vec q rows,
    (order w vec q rows).Pairwise fun a b => score w vec q b ≤ score w vec q a

def Memory.touch (now : Time) (m : Memory) : Memory :=
  { m with accessCount := m.accessCount + 1, lastAccessedAt := some now }

def touched (now : Time) (table : List Memory) (ids : List Nat) : List Memory :=
  table.map fun m => if m.id ∈ ids then m.touch now else m

/-- `touchRetrievedMemories`. The column `access_count` is an `INTEGER`. -/
def touchRetrievedMemories (now : Time) (table : List Memory) (ids : List Nat) :
    Except String (List Memory) :=
  if ids = [] then .ok table
  else if table.any fun m => m.id ∈ ids ∧ 2147483647 ≤ m.accessCount then
    .error "touch retrieved memories: integer out of range"
  else .ok (touched now table ids)

def scanEntries (env : Env) (score : Memory → ℚ) : List Memory → Except String (List Entry)
  | [] => .ok []
  | m :: rest =>
    match scanMemoryEntry env m.toRow with
    | .error e => .error ("retrieve scan: " ++ e)
    | .ok row => (scanEntries env score rest).map (⟨{ m with toRow := row }, score m⟩ :: ·)

section

variable {W : Type} (search : Search W) (env : Env) (tenantId : String) (now : Time)

/-- `MemoryRepository.Retrieve` up to its `LIMIT`. -/
def selectRows (table : List Memory) (req : QueryRequest) (vec : List ℚ) :
    Except String (W × List Memory) :=
  let q := trimSpaceText req.query
  match search.scoringWeights tenantId (req.decayEnabled.getD true) with
  | .error e => .error e
  | .ok w =>
    if trimSpace req.cursor ≠ [] then
      .error "cursor pagination requires empty query and no embedding search"
    else
      match retrieveSelects env tenantId req.toRetrieveRequest with
      | .error e => .error e
      | .ok selects =>
        let matching := fun m : Memory => selects m.toRow &&
          if vec.isEmpty then search.textMatches q m else m.embedding.isSome
        .ok (w, search.order w vec q (table.filter matching))

/-- `MemoryRepository.Retrieve` with a query, and the table afterwards. -/
def fetchEntries (table : List Memory) (req : QueryRequest) (vec : List ℚ) :
    Except String (List Entry × List Memory) :=
  match selectRows search env tenantId table req vec with
  | .error e => .error e
  | .ok (w, rows) =>
    match scanEntries env (search.score w vec (trimSpaceText req.query))
        (rows.take (clampLimit 10 req.limit).toNat) with
    | .error e => .error e
    | .ok entries =>
      (touchRetrievedMemories now table (entries.map (·.memory.id))).map fun table =>
        (entries, table)

end

/-! ## The service -/

/-- `RerankConfig` after `SetReranker`. -/
structure RerankConfig where
  candidates : Int
  bounds : 1 ≤ candidates ∧ candidates ≤ 50

def RerankConfig.clamped (candidates : Int) : RerankConfig where
  candidates := if candidates ≤ 0 then 20 else if candidates > 50 then 50 else candidates
  bounds := by split_ifs <;> omega

/-- `Reranker`, for a tenant and a query. -/
abbrev Reranker := String → String → List Entry → Except String (List Entry)

structure Service (W : Type) where
  search : Search W
  env : Env
  embedder : Option (String → Except String (List ℚ))
  reranker : Option (Reranker × RerankConfig)

/-- What `metrics.IncRerank` counts. -/
inductive RerankOutcome where
  | fallback | reranked
  deriving DecidableEq

/-- The response, and what the call has done. -/
structure Retrieved where
  entries : List Entry
  total : Nat
  reranked : Bool
  outcome : Option RerankOutcome
  table : List Memory

namespace Service

variable {W : Type} (svc : Service W) (tenantId : String) (now : Time) (table : List Memory)
  (req : QueryRequest)

/-- The vector of the query; there is none if it cannot be made. -/
def queryEmbedding : List ℚ :=
  match svc.embedder with
  | none => []
  | some generate =>
    match generate (trimSpaceText req.query) with
    | .error _ => []
    | .ok emb => emb

def rerankerFor : Option (Reranker × RerankConfig) :=
  if req.cursor = [] ∧ req.rerank.getD true = true then svc.reranker else none

def fetchRequest : QueryRequest :=
  match svc.rerankerFor req with
  | some (_, cfg) =>
    if cfg.candidates > clampLimit 10 req.limit then { req with limit := cfg.candidates } else req
  | none => req

/-- Fetched by the vector, and if it finds none by the text. -/
def fetchWithFallback (fetchReq : QueryRequest) : Except String (List Entry × List Memory) :=
  let vec := svc.queryEmbedding req
  match fetchEntries svc.search svc.env tenantId now table fetchReq vec with
  | .error e => .error ("retrieve failed: " ++ e)
  | .ok (entries, table) =>
    if vec.isEmpty = false ∧ entries.isEmpty = true then
      match fetchEntries svc.search svc.env tenantId now table fetchReq [] with
      | .error e => .error ("retrieve fallback failed: " ++ e)
      | .ok fetched => .ok fetched
    else .ok (entries, table)

/-- `MemoryService.Retrieve` with a query. -/
def retrieveQuery : Except String Retrieved :=
  let limit := clampLimit 10 req.limit
  match svc.fetchWithFallback tenantId now table req (svc.fetchRequest req) with
  | .error e => .error e
  | .ok (entries, table) =>
    match svc.rerankerFor req with
    | none => .ok ⟨entries, entries.length, false, none, table⟩
    | some (rerank, _) =>
      let (entries, outcome) :=
        if entries.length ≤ 1 then (entries, none)
        else
          match rerank tenantId req.query entries with
          | .error _ => (entries, some .fallback)
          | .ok ordered => (ordered, some .reranked)
      let entries := if (entries.length : Int) > limit then entries.take limit.toNat else entries
      .ok ⟨entries, entries.length, outcome == some .reranked, outcome, table⟩

def candidateRows : List Memory :=
  let vec := svc.queryEmbedding req
  match selectRows svc.search svc.env tenantId table req vec with
  | .error _ => []
  | .ok (_, rows) =>
    if vec.isEmpty = false ∧ rows.isEmpty = true then
      match selectRows svc.search svc.env tenantId table req [] with
      | .error _ => []
      | .ok (_, rows) => rows
    else rows

end Service

/-! ## Scanning and touching -/

variable {env : Env} {score : Memory → ℚ} {rows : List Memory} {entries : List Entry}

theorem scanEntries_ids (h : scanEntries env score rows = .ok entries) :
    (entries.map fun e => e.memory.id) = rows.map fun m => m.id := by
  induction rows generalizing entries with
  | nil =>
    cases h
    rfl
  | cons m rows ih =>
    rw [scanEntries] at h
    split at h
    · cases h
    next row hscan =>
    obtain ⟨rest, hrest, rfl⟩ := map_eq_ok h
    rw [map_cons, map_cons, ih hrest]
    obtain ⟨content, rfl⟩ := scanMemoryEntry_ok hscan
    rfl

theorem scanEntries_take (h : scanEntries env score rows = .ok entries) (n : Nat) :
    scanEntries env score (rows.take n) = .ok (entries.take n) := by
  induction rows generalizing entries n with
  | nil =>
    cases h
    rw [take_nil, take_nil]
    rfl
  | cons m rows ih =>
    cases n with
    | zero => rfl
    | succ n =>
      rw [scanEntries] at h
      split at h
      · cases h
      next row hscan =>
      obtain ⟨rest, hrest, rfl⟩ := map_eq_ok h
      rw [take_succ_cons, take_succ_cons, scanEntries, hscan]
      dsimp only
      rw [ih hrest n]
      rfl

section

variable {now : Time} {table : List Memory} {ids ids' : List Nat}

theorem touched_nil : touched now table [] = table := by
  simp [touched]

theorem touchRetrievedMemories_eq_ok_iff {table' : List Memory} :
    touchRetrievedMemories now table ids = .ok table' ↔
      (∀ m ∈ table, m.id ∈ ids → m.accessCount < 2147483647) ∧ table' = touched now table ids := by
  unfold touchRetrievedMemories
  split
  · next hnil =>
    rw [hnil, touched_nil]
    simp [eq_comm]
  · split
    · next hany =>
      simp only [any_eq_true, decide_eq_true_iff] at hany
      obtain ⟨m, hm, hmem, hcount⟩ := hany
      refine ⟨nofun, fun h => ?_⟩
      have := h.1 m hm hmem
      omega
    · next hany =>
      simp only [any_eq_true, decide_eq_true_iff, not_exists, not_and, Nat.not_le] at hany
      constructor
      · rintro ⟨⟩
        exact ⟨hany, rfl⟩
      · rintro ⟨-, rfl⟩
        rfl

theorem touched_eq_iff : touched now table ids = touched now table ids' ↔
    ∀ m ∈ table, m.id ∈ ids ↔ m.id ∈ ids' := by
  have hne : ∀ m : Memory, m.touch now ≠ m := by
    intro m heq
    have hcount : m.accessCount + 1 = m.accessCount := congrArg Memory.accessCount heq
    omega
  unfold touched
  rw [map_inj_left]
  refine forall₂_congr fun m _ => ?_
  by_cases hm : m.id ∈ ids <;> by_cases hm' : m.id ∈ ids' <;> simp [hm, hm', hne, (hne m).symm]

theorem touched_take_eq_iff {rows : List Memory} (hrows : ∀ m ∈ rows, m ∈ table)
    (hnodup : (rows.map fun m => m.id).Nodup) {n k : Nat} (hle : n ≤ k) :
    touched now table ((rows.take k).map fun m => m.id) =
        touched now table ((rows.take n).map fun m => m.id) ↔ k ≤ n ∨ rows.length ≤ n := by
  rw [touched_eq_iff]
  constructor
  · intro h
    by_contra hmore
    rw [not_or, Nat.not_le, Nat.not_le] at hmore
    -- the row behind the first `n` is among the first `k`
    have hrow : rows[n] ∈ rows.take k := mem_take_iff_getElem.mpr ⟨n, by omega, rfl⟩
    have hid := (h rows[n] (hrows _ (getElem_mem hmore.2))).mp (mem_map_of_mem hrow)
    obtain ⟨m, hm, heq⟩ := mem_map.mp hid
    obtain ⟨i, hi, rfl⟩ := mem_take_iff_getElem.mp hm
    have hlength : (rows.map fun m => m.id).length = rows.length := length_map _
    have hbound : i < (rows.map fun m => m.id).length := by omega
    have hbound' : n < (rows.map fun m => m.id).length := by omega
    have hsame : (rows.map fun m => m.id)[i] = (rows.map fun m => m.id)[n] := by
      rw [getElem_map, getElem_map]
      exact heq
    have := hnodup.getElem_inj_iff.mp hsame
    omega
  · rintro (hk | hlength) m -
    · rw [Nat.le_antisymm hle hk]
    · rw [take_of_length_le hlength, take_of_length_le (by omega)]

end

/-! ## Fetching more -/

section

variable {W : Type} {search : Search W} {env : Env} {tenantId : String} {now : Time}
  {table table' : List Memory} {req : QueryRequest} {vec : List ℚ} {w : W} {rows : List Memory}
  {entries : List Entry}

theorem selectRows_sub (h : selectRows search env tenantId table req vec = .ok (w, rows))
    (hkey : (table.map fun m => m.id).Nodup) :
    (∀ m ∈ rows, m ∈ table) ∧ (rows.map fun m => m.id).Nodup := by
  unfold selectRows at h
  dsimp only at h
  split at h
  · cases h
  split at h
  · cases h
  split at h
  · cases h
  next selects _ =>
  cases h
  have hperm := search.perm w vec (trimSpaceText req.query) (table.filter fun m : Memory =>
    selects m.toRow && if vec.isEmpty then search.textMatches (trimSpaceText req.query) m
      else m.embedding.isSome)
  refine ⟨fun m hm => mem_of_mem_filter (hperm.subset hm), ?_⟩
  rw [(hperm.map _).nodup_iff]
  exact hkey.sublist (filter_sublist.map _)

variable {limit : Int}

theorem fetchEntries_eq_ok_iff :
    fetchEntries search env tenantId now table { req with limit := limit } vec =
        .ok (entries, table') ↔
      ∃ w rows, selectRows search env tenantId table req vec = .ok (w, rows) ∧
        scanEntries env (search.score w vec (trimSpaceText req.query))
          (rows.take (clampLimit 10 limit).toNat) = .ok entries ∧
        touchRetrievedMemories now table (entries.map fun e => e.memory.id) = .ok table' := by
  have hselect : selectRows search env tenantId table { req with limit := limit } vec =
      selectRows search env tenantId table req vec := rfl
  unfold fetchEntries
  rw [hselect]
  cases selectRows search env tenantId table req vec with
  | error e => simp
  | ok found =>
    obtain ⟨w, rows⟩ := found
    dsimp only
    cases hscan : scanEntries env (search.score w vec (trimSpaceText req.query))
        (rows.take (clampLimit 10 limit).toNat) with
    | error e => simp [hscan]
    | ok entries' =>
      constructor
      · intro h
        obtain ⟨t, ht, heq⟩ := map_eq_ok h
        cases heq
        exact ⟨w, rows, rfl, hscan, ht⟩
      · rintro ⟨w', rows', ⟨⟩, hscan', ht⟩
        rw [hscan] at hscan'
        cases hscan'
        dsimp only
        rw [ht]
        rfl

/-- **A fetch of fewer rows** gets the first of the entries. -/
theorem fetchEntries_take (hle : clampLimit 10 req.limit ≤ clampLimit 10 limit)
    (h : fetchEntries search env tenantId now table { req with limit := limit } vec = .ok (entries,
      table')) :
    ∃ w rows, selectRows search env tenantId table req vec = .ok (w, rows) ∧
      (entries.map fun e => e.memory.id) =
        (rows.take (clampLimit 10 limit).toNat).map (fun m => m.id) ∧
      table' = touched now table
        ((rows.take (clampLimit 10 limit).toNat).map fun m => m.id) ∧
      fetchEntries search env tenantId now table req vec =
        .ok (entries.take (clampLimit 10 req.limit).toNat, touched now table
          ((rows.take (clampLimit 10 req.limit).toNat).map fun m => m.id)) := by
  obtain ⟨w, rows, hselect, hscan, htouch⟩ := fetchEntries_eq_ok_iff.mp h
  obtain ⟨hcount, rfl⟩ := touchRetrievedMemories_eq_ok_iff.mp htouch
  have hids := scanEntries_ids hscan
  have htake := scanEntries_take hscan (clampLimit 10 req.limit).toNat
  rw [take_take, Nat.min_eq_left (Int.toNat_le_toNat hle)] at htake
  have hids' := scanEntries_ids htake
  refine ⟨w, rows, hselect, hids, by rw [hids], ?_⟩
  refine fetchEntries_eq_ok_iff.mpr ⟨w, rows, hselect, htake, ?_⟩
  rw [hids']
  refine touchRetrievedMemories_eq_ok_iff.mpr ⟨fun m hm hmem => hcount m hm ?_, rfl⟩
  rw [← hids', map_take] at hmem
  exact mem_of_mem_take hmem

end

namespace Service

variable {W : Type} {svc : Service W} {tenantId : String} {now : Time} {table table' : List Memory}
  {req : QueryRequest} {entries : List Entry}

theorem candidateRows_sub (hkey : (table.map fun m => m.id).Nodup) :
    (∀ m ∈ svc.candidateRows tenantId table req, m ∈ table) ∧
      ((svc.candidateRows tenantId table req).map fun m => m.id).Nodup := by
  have hnone : (∀ m ∈ ([] : List Memory), m ∈ table) ∧
      (([] : List Memory).map fun m => m.id).Nodup :=
    ⟨fun _ hm => absurd hm not_mem_nil, nodup_nil⟩
  unfold candidateRows
  dsimp only
  split
  · exact hnone
  next w rows hselect =>
  split
  · split
    · exact hnone
    next hselect' => exact selectRows_sub hselect' hkey
  · exact selectRows_sub hselect hkey

/-- **Fetching more rows** gets entries that begin the same, and touches all. -/
theorem fetchWithFallback_take {limit : Int}
    (hle : clampLimit 10 req.limit ≤ clampLimit 10 limit)
    (h : svc.fetchWithFallback tenantId now table req { req with limit := limit } =
      .ok (entries, table')) :
    table' = touched now table (((svc.candidateRows tenantId table req).take
        (clampLimit 10 limit).toNat).map fun m => m.id) ∧
      svc.fetchWithFallback tenantId now table req req =
        .ok (entries.take (clampLimit 10 req.limit).toNat, touched now table
          (((svc.candidateRows tenantId table req).take
            (clampLimit 10 req.limit).toNat).map fun m => m.id)) := by
  have hpos := clampLimit_pos (show (0 : Int) < 10 by decide) req.limit
  unfold fetchWithFallback at h
  dsimp only at h
  split at h
  · cases h
  next entries₁ table₁ hfetch =>
  obtain ⟨w, rows, hselect, hids, rfl, hfetch'⟩ := fetchEntries_take hle hfetch
  -- the first rows are none only if there are no rows
  have hempty : entries₁.isEmpty = rows.isEmpty ∧
      (entries₁.take (clampLimit 10 req.limit).toNat).isEmpty = rows.isEmpty := by
    have hlength : entries₁.length = min (clampLimit 10 limit).toNat rows.length := by
      rw [← length_take, ← length_map (f := fun m : Memory => m.id), ← hids,
        length_map]
    refine ⟨Bool.eq_iff_iff.mpr ?_, Bool.eq_iff_iff.mpr ?_⟩
    · rw [isEmpty_iff_length_eq_zero, isEmpty_iff_length_eq_zero, hlength]
      omega
    · rw [isEmpty_iff_length_eq_zero, isEmpty_iff_length_eq_zero, length_take,
        hlength]
      omega
  unfold fetchWithFallback candidateRows
  dsimp only
  rw [hfetch', hselect]
  dsimp only
  rw [hempty.2]
  rw [hempty.1] at h
  split at h
  · next hcase =>
    have hrows : rows = [] := List.isEmpty_iff.mp hcase.2
    rw [if_pos hcase, if_pos hcase]
    rw [hrows, take_nil, map_nil, touched_nil] at h ⊢
    split at h <;> cases h
    next hfetch₂ =>
    obtain ⟨w₂, rows₂, hselect₂, -, rfl, hfetch₂'⟩ := fetchEntries_take hle hfetch₂
    rw [hselect₂, hfetch₂']
    exact ⟨rfl, rfl⟩
  · next hcase =>
    cases h
    rw [if_neg hcase, if_neg hcase]
    exact ⟨rfl, rfl⟩

/-- A reranker that fails: what it was asked, and what is returned. -/
theorem retrieveQuery_fallback {out : Retrieved}
    (h : svc.retrieveQuery tenantId now table req = .ok out)
    (hfallback : out.outcome = some .fallback) :
    ∃ rerank cfg entries, svc.rerankerFor req = some (rerank, cfg) ∧
      svc.fetchWithFallback tenantId now table req (svc.fetchRequest req) =
        .ok (entries, out.table) ∧
      out.entries = entries.take (clampLimit 10 req.limit).toNat ∧
      out.total = out.entries.length ∧ out.reranked = false := by
  unfold retrieveQuery at h
  dsimp only at h
  split at h
  · cases h
  next entries table' hfetch =>
  split at h
  · cases h
    cases hfallback
  next rerank cfg hreranker =>
  -- what the reranker makes of the entries
  generalize hasked : (if entries.length ≤ 1 then (entries, none)
    else
      match rerank tenantId req.query entries with
      | .error _ => (entries, some RerankOutcome.fallback)
      | .ok ordered => (ordered, some RerankOutcome.reranked)) = asked at h
  cases h
  have hentries : asked.1 = entries := by
    split at hasked
    · rw [← hasked]
    split at hasked
    · rw [← hasked]
    · rw [← hasked] at hfallback
      cases hfallback
  have hcut : (if (asked.1.length : Int) > clampLimit 10 req.limit then
      asked.1.take (clampLimit 10 req.limit).toNat else asked.1) =
        entries.take (clampLimit 10 req.limit).toNat := by
    rw [hentries]
    split
    · rfl
    · next hle => rw [take_of_length_le (by omega)]
  refine ⟨rerank, cfg, entries, hreranker, hfetch, hcut, rfl, ?_⟩
  have houtcome : asked.2 = some .fallback := hfallback
  dsimp only
  rw [houtcome]
  rfl

theorem retrieveQuery_plain
    (h : svc.fetchWithFallback tenantId now table req req = .ok (entries, table')) :
    svc.retrieveQuery tenantId now table { req with rerank := some false } =
      .ok ⟨entries, entries.length, false, none, table'⟩ := by
  have hnone : svc.rerankerFor { req with rerank := some false } = none :=
    if_neg fun hand => Bool.false_ne_true hand.2
  have hrequest : svc.fetchRequest { req with rerank := some false } =
      { req with rerank := some false } := by
    unfold fetchRequest
    rw [hnone]
  have hfetch : svc.fetchWithFallback tenantId now table { req with rerank := some false }
      { req with rerank := some false } = .ok (entries, table') := h
  unfold retrieveQuery
  dsimp only
  rw [hrequest, hfetch, hnone]

theorem fetchRequest_eq {rerank : Reranker} {cfg : RerankConfig}
    (h : svc.rerankerFor req = some (rerank, cfg)) :
    ∃ limit, svc.fetchRequest req = { req with limit := limit } ∧
      clampLimit 10 limit = max (clampLimit 10 req.limit) cfg.candidates := by
  have hbounds := cfg.bounds
  unfold fetchRequest
  rw [h]
  dsimp only
  split
  · next hmore =>
    refine ⟨cfg.candidates, rfl, ?_⟩
    rw [max_eq_right (by omega)]
    unfold clampLimit
    rw [if_neg (by omega), if_neg (by omega)]
  · next hless => exact ⟨req.limit, rfl, (max_eq_left (by omega)).symm⟩

end Service

/-- **What a failed reranking leaves**: the response without reranking, and the same table exactly
if no more rows are fetched than asked for, or no more are there. -/
theorem rerank_fallback_iff {W : Type} (svc : Service W) (tenantId : String) (now : Time)
    {table : List Memory} (hkey : (table.map fun m => m.id).Nodup) {req : QueryRequest}
    {out : Retrieved} (h : svc.retrieveQuery tenantId now table req = .ok out)
    (hfallback : out.outcome = some .fallback) :
    ∃ plain rerank cfg,
      svc.retrieveQuery tenantId now table { req with rerank := some false } = .ok plain ∧
      svc.reranker = some (rerank, cfg) ∧
      out.entries = plain.entries ∧ out.total = plain.total ∧ out.reranked = plain.reranked ∧
      (out.table = plain.table ↔ cfg.candidates ≤ clampLimit 10 req.limit ∨
        (svc.candidateRows tenantId table req).length ≤ clampLimit 10 req.limit) := by
  obtain ⟨rerank, cfg, entries, hreranker, hfetch, hentries, htotal, hreranked⟩ :=
    Service.retrieveQuery_fallback h hfallback
  obtain ⟨limit, hrequest, hlimit⟩ := Service.fetchRequest_eq hreranker
  have hle : clampLimit 10 req.limit ≤ clampLimit 10 limit := by
    rw [hlimit]
    exact le_max_left _ _
  rw [hrequest] at hfetch
  obtain ⟨htable, hplain⟩ := Service.fetchWithFallback_take hle hfetch
  have hset : svc.reranker = some (rerank, cfg) := by
    unfold Service.rerankerFor at hreranker
    split at hreranker
    · exact hreranker
    · cases hreranker
  have hpos := clampLimit_pos (show (0 : Int) < 10 by decide) req.limit
  have hsub : (∀ m ∈ svc.candidateRows tenantId table req, m ∈ table) ∧ _ :=
    Service.candidateRows_sub hkey
  refine ⟨_, rerank, cfg, Service.retrieveQuery_plain hplain, hset, hentries, ?_, hreranked, ?_⟩
  · rw [htotal, hentries]
  · rw [htable]
    dsimp only
    rw [touched_take_eq_iff hsub.1 hsub.2 (Int.toNat_le_toNat hle), hlimit]
    omega

def storedOrder : Search Unit where
  scoringWeights _ _ := .ok ()
  textMatches _ _ := true
  score _ _ _ _ := 0
  order _ _ _ rows := rows
  perm _ _ _ rows := List.Perm.refl rows
  sorted _ _ _ _ := pairwise_of_forall fun _ _ => le_rfl

def offlineService : Service Unit where
  search := storedOrder
  env := plainEnv
  embedder := none
  reranker := some (fun _ _ _ => .error "rerank unavailable", RerankConfig.clamped 0)

def snippet (id : Nat) : Memory where
  path := ⟨["root"]⟩
  content := "x"
  metadata := ∅
  tags := []
  embedding := none
  embeddingModel := ""
  embeddingSpace := ""
  sourceAgentId := none
  contentEncrypted := false
  expiresAt := none
  importance := 0
  contentHash := none
  id := id
  tenantId := "t"
  version := 1
  validFrom := 0
  validTo := none
  createdAt := 0
  accessCount := 0
  lastAccessedAt := none

def snippetRequest (limit : Int) : QueryRequest where
  pathPrefix := ""
  limit := limit
  query := "x"
  hasQuery := by decide

def counts : Except String Retrieved → List Nat
  | .ok out => out.table.map (·.accessCount)
  | .error _ => []

theorem rerank_fallback_iff_all_shown :
    ∃ out plain,
      offlineService.retrieveQuery "t" 1 [snippet 1, snippet 2] (snippetRequest 2) = .ok out ∧
      out.outcome = some .fallback ∧
      offlineService.retrieveQuery "t" 1 [snippet 1, snippet 2]
        { snippetRequest 2 with rerank := some false } = .ok plain ∧
      out.entries = plain.entries ∧ out.table = plain.table := by
  obtain ⟨out, hout, hfallback⟩ : ∃ out, offlineService.retrieveQuery "t" 1
      [snippet 1, snippet 2] (snippetRequest 2) = .ok out ∧ out.outcome = some .fallback :=
    ⟨_, rfl, rfl⟩
  obtain ⟨plain, _, _, hplain, -, hentries, -, -, htable⟩ :=
    rerank_fallback_iff offlineService "t" 1 (by decide) hout hfallback
  have hrows : (offlineService.candidateRows "t" [snippet 1, snippet 2] (snippetRequest 2)).length =
      2 := rfl
  refine ⟨out, plain, hout, hfallback, hplain, hentries, htable.mpr (Or.inr ?_)⟩
  rw [hrows]
  decide

/-- The reranker gets both rows and fails, and both are counted. -/
theorem rerank_fallback_touches_more :
    (∃ out, offlineService.retrieveQuery "t" 1 [snippet 1, snippet 2] (snippetRequest 1) = .ok out ∧
      out.outcome = some .fallback) ∧
    counts (offlineService.retrieveQuery "t" 1 [snippet 1, snippet 2] (snippetRequest 1)) =
      [1, 1] ∧
    counts (offlineService.retrieveQuery "t" 1 [snippet 1, snippet 2]
      { snippetRequest 1 with rerank := some false }) = [1, 0] := by
  refine ⟨⟨_, rfl, rfl⟩, by rfl, by rfl⟩

end Pcmi.Retrieval
