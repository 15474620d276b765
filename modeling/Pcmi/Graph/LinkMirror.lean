import Pcmi.Graph.LinkSync

/-!
# The graph as a mirror of `memory_links`

`MERGE` of an edge finds only one with this very weight, a deletion takes every edge of the type
between the two vertices. An update of the weight alone therefore adds an edge and leaves the old
one.
-/

namespace Pcmi.Graph

open List Pcmi.Lib Pcmi.Memory

structure MemoryVertex where
  id : String
  tenantId : String
  deriving DecidableEq

structure LinkEdge (W : Type) where
  src : MemoryVertex
  dst : MemoryVertex
  label : Text
  weight : W
  deriving DecidableEq

structure MemoryGraph (W : Type) where
  vertices : List MemoryVertex
  edges : List (LinkEdge W)

section

variable {W : Type}

/-- `MERGE (a:Memory …)`. -/
def mergeVertex (v : MemoryVertex) (g : MemoryGraph W) : MemoryGraph W :=
  if v ∈ g.vertices then g else { g with vertices := g.vertices ++ [v] }

/-- `MERGE (a)-[r:… {weight: …}]->(b)`. -/
def mergeEdge [DecidableEq W] (e : LinkEdge W) (g : MemoryGraph W) : MemoryGraph W :=
  if e ∈ g.edges then g else { g with edges := g.edges ++ [e] }

def LinkEdge.joins (a b : MemoryVertex) (label : Text) (e : LinkEdge W) : Bool :=
  e.src == a && e.dst == b && e.label == label

def cypher [DecidableEq W] : GraphCall W → MemoryGraph W → MemoryGraph W
  | .sync fromPath toPath label weight tenantId, g =>
    let a := ⟨fromPath, tenantId⟩
    let b := ⟨toPath, tenantId⟩
    mergeEdge ⟨a, b, label, weight⟩ (mergeVertex b (mergeVertex a g))
  | .delete fromPath toPath label tenantId, g =>
    let a := ⟨fromPath, tenantId⟩
    let b := ⟨toPath, tenantId⟩
    { g with edges := g.edges.filter fun e => !e.joins a b label }

end

/-- What the database decides: texts, weights, `\w`, path labels. -/
structure LinkDb (W : Type) where
  jsonText : Json → String
  castFloat8 : String → Option W
  word : WordClass
  rules : LabelRules

/-- A database whose graph calls do not fail. -/
def LinkDb.graphDb {W : Type} [DecidableEq W] (db : LinkDb W) : GraphDb (MemoryGraph W) W where
  jsonText := db.jsonText
  castFloat8 := db.castFloat8
  word := db.word
  exec call g := .ok (cypher call g)

/-! ## Statements on one row -/

structure Links (W : Type) where
  rows : List (MemoryLink W)
  graph : MemoryGraph W

inductive LinkOp (W : Type) where
  | insert (new : MemoryLink W)
  /-- The row with this id gets these values. -/
  | update (new : MemoryLink W)
  | delete (id : Nat)

def Links.start (W : Type) : Links W := ⟨[], [], []⟩

section

variable {W : Type} [DecidableEq W] (db : LinkDb W)

/-- Paths are values of `ltree`, and the link type is word characters. -/
def admits (link : MemoryLink W) : Bool :=
  db.rules.stores link.fromPath && db.rules.stores link.toPath &&
    link.linkType.toList.all db.word.mem

def replaceRow (new : MemoryLink W) (rows : List (MemoryLink W)) : List (MemoryLink W) :=
  rows.map fun r => if r.id = new.id then new else r

/-- One row is written and its trigger runs, or nothing changes. -/
def Links.step (s : Links W) : LinkOp W → Option (Links W)
  | .insert new =>
    if admits db new && s.rows.all (fun r => r.id != new.id && rekeyed r new) then
      match syncTrigger db.graphDb s.graph (.insert new) with
      | .ok graph => some ⟨s.rows ++ [new], graph⟩
      | .error _ => some s
    else none
  | .update new =>
    match s.rows.find? fun r => r.id == new.id with
    | none => some s
    | some old =>
      if admits db new && s.rows.all (fun r => r.id == new.id || rekeyed r new) then
        match syncTrigger db.graphDb s.graph (.update old new) with
        | .ok graph => some ⟨replaceRow new s.rows, graph⟩
        | .error _ => some s
      else none
  | .delete id =>
    match s.rows.find? fun r => r.id == id with
    | none => some s
    | some old =>
      match syncTrigger db.graphDb s.graph (.delete old) with
      | .ok graph => some ⟨s.rows.filter fun r => r.id != id, graph⟩
      | .error _ => some s

/-- `INSERT … ON CONFLICT (…) DO UPDATE SET metadata`. -/
def upsert (rows : List (MemoryLink W)) (new : MemoryLink W) (merged : Json → Json) : LinkOp W :=
  match rows.find? fun r => !rekeyed r new with
  | none => .insert new
  | some old => .update { old with metadata := merged old.metadata }

/-- `LinksRepository.Create` takes the metadata of the request. -/
def create (rows : List (MemoryLink W)) (new : MemoryLink W) : LinkOp W :=
  upsert rows new fun _ => new.metadata

/-- An update that keeps the key keeps the weight. -/
def keepsWeight (s : Links W) : LinkOp W → Prop
  | .update new => ∀ old ∈ s.rows, old.id = new.id → rekeyed old new = false →
      syncedWeight db.graphDb old = syncedWeight db.graphDb new
  | _ => True

def MemoryLink.src (link : MemoryLink W) : MemoryVertex := ⟨link.fromPath.text, link.tenantId⟩

def MemoryLink.dst (link : MemoryLink W) : MemoryVertex := ⟨link.toPath.text, link.tenantId⟩

/-- The edge is of the row's type and between its vertices. -/
def joinsRow (link : MemoryLink W) (e : LinkEdge W) : Bool :=
  e.joins link.src link.dst (safeType db.graphDb link)

def edgeOf (link : MemoryLink W) (weight : W) : LinkEdge W :=
  ⟨link.src, link.dst, safeType db.graphDb link, weight⟩

/-- **The graph mirrors the table.** -/
structure Mirrors (rows : List (MemoryLink W)) (g : MemoryGraph W) : Prop where
  /-- A row has one edge, with its weight. -/
  one : ∀ r ∈ rows, ∃ w, syncedWeight db.graphDb r = .ok w ∧
    g.edges.filter (joinsRow db r) = [edgeOf db r w]
  /-- There is no other edge. -/
  only : ∀ e ∈ g.edges, ∃ r ∈ rows, joinsRow db r e = true
  ends : ∀ e ∈ g.edges, e.src ∈ g.vertices ∧ e.dst ∈ g.vertices
  /-- A path of a tenant has one vertex. -/
  vertices : g.vertices.Nodup

end

/-! ## Rows and their edges -/

section

variable {W : Type} [DecidableEq W] {db : LinkDb W} {r r' old new : MemoryLink W} {e : LinkEdge W}

omit [DecidableEq W] in
theorem rekeyed_eq_false_iff : rekeyed r r' = false ↔
    r.fromPath = r'.fromPath ∧ r.toPath = r'.toPath ∧ r.linkType = r'.linkType ∧
      r.tenantId = r'.tenantId := by
  simp [rekeyed, and_assoc]

omit [DecidableEq W] in
theorem rekeyed_comm (r r' : MemoryLink W) : rekeyed r r' = rekeyed r' r := by
  simp [rekeyed, bne_comm]

theorem joinsRow_iff : joinsRow db r e = true ↔
    e.src = r.src ∧ e.dst = r.dst ∧ e.label = safeType db.graphDb r := by
  simp [joinsRow, LinkEdge.joins, and_assoc]

theorem joinsRow_edgeOf (w : W) : joinsRow db r (edgeOf db r w) = true :=
  joinsRow_iff.mpr ⟨rfl, rfl, rfl⟩

omit [DecidableEq W] in
theorem WordClass.safe_of_all {word : WordClass} {text : Text} (h : text.all word.mem = true) :
    word.safe text = text := by
  rw [WordClass.safe]
  refine (map_congr_left fun c hc => ?_).trans (map_id text)
  simp [all_eq_true.mp h c hc]

theorem rekeyed_of_joinsRow (hr : admits db r = true) (hr' : admits db r' = true)
    (he : joinsRow db r e = true) (he' : joinsRow db r' e = true) : rekeyed r r' = false := by
  obtain ⟨hsrc, hdst, hlabel⟩ := joinsRow_iff.mp he
  obtain ⟨hsrc', hdst', hlabel'⟩ := joinsRow_iff.mp he'
  simp only [admits, Bool.and_eq_true] at hr hr'
  obtain ⟨⟨hfrom, hto⟩, htype⟩ := hr
  obtain ⟨⟨hfrom', hto'⟩, htype'⟩ := hr'
  have hsame := MemoryVertex.mk.inj (hsrc.symm.trans hsrc')
  have hsame' := MemoryVertex.mk.inj (hdst.symm.trans hdst')
  have hsafe := hlabel.symm.trans hlabel'
  rw [safeType, safeType] at hsafe
  refine rekeyed_eq_false_iff.mpr ⟨LabelRules.eq_of_text_eq hfrom hfrom' hsame.1,
    LabelRules.eq_of_text_eq hto hto' hsame'.1, ?_, hsame.2⟩
  refine String.toList_injective ?_
  exact (WordClass.safe_of_all htype).symm.trans (hsafe.trans (WordClass.safe_of_all htype'))

theorem joinsRow_of_rekeyed (hr : admits db r = true) (hr' : admits db r' = true)
    (he : joinsRow db r e = true) (hkey : rekeyed r r' = true) : joinsRow db r' e = false := by
  by_contra hjoins
  have hsame := rekeyed_of_joinsRow hr hr' he (Bool.not_eq_false _ ▸ hjoins)
  exact absurd (hsame.symm.trans hkey) (by decide)

theorem joinsRow_congr (h : rekeyed r r' = false) : joinsRow db r = joinsRow db r' := by
  obtain ⟨hfrom, hto, htype, htenant⟩ := rekeyed_eq_false_iff.mp h
  funext e
  simp [joinsRow, MemoryLink.src, MemoryLink.dst, safeType, hfrom, hto, htype, htenant]

theorem edgeOf_congr (h : rekeyed r r' = false) (w : W) : edgeOf db r w = edgeOf db r' w := by
  obtain ⟨hfrom, hto, htype, htenant⟩ := rekeyed_eq_false_iff.mp h
  simp [edgeOf, MemoryLink.src, MemoryLink.dst, safeType, hfrom, hto, htype, htenant]

/-! ## What the calls do to a mirror -/

variable {rows rows' : List (MemoryLink W)} {g : MemoryGraph W}

omit [DecidableEq W] in
variable {v : MemoryVertex} {w : W}

theorem mem_mergeVertex {v' : MemoryVertex} :
    v' ∈ (mergeVertex v g).vertices ↔ v' ∈ g.vertices ∨ v' = v := by
  unfold mergeVertex
  split
  · next hv =>
    refine ⟨Or.inl, ?_⟩
    rintro (h | rfl)
    · exact h
    · exact hv
  · simp

omit [DecidableEq W] in
theorem nodup_mergeVertex (h : g.vertices.Nodup) :
    (mergeVertex v g).vertices.Nodup := by
  unfold mergeVertex
  split
  · exact h
  next hv =>
  refine nodup_append.mpr ⟨h, nodup_singleton v, ?_⟩
  rintro v' hv' _ hmem rfl
  exact hv (mem_singleton.mp hmem ▸ hv')

omit [DecidableEq W] in
theorem edges_mergeVertex (v : MemoryVertex) : (mergeVertex v g).edges = g.edges := by
  unfold mergeVertex
  split <;> rfl

def withVertices (link : MemoryLink W) (g : MemoryGraph W) : MemoryGraph W :=
  mergeVertex link.dst (mergeVertex link.src g)

omit [DecidableEq W] in
theorem edges_withVertices (link : MemoryLink W) : (withVertices link g).edges = g.edges := by
  rw [withVertices, edges_mergeVertex, edges_mergeVertex]

theorem Mirrors.withVertices (h : Mirrors db rows g) (link : MemoryLink W) :
    Mirrors db rows (withVertices link g) := by
  have hedges := edges_withVertices (g := g) link
  refine ⟨?_, ?_, ?_, nodup_mergeVertex (nodup_mergeVertex h.vertices)⟩
  · rw [hedges]
    exact h.one
  · rw [hedges]
    exact h.only
  · rw [hedges]
    intro e he
    obtain ⟨hsrc, hdst⟩ := h.ends e he
    exact ⟨mem_mergeVertex.mpr (Or.inl (mem_mergeVertex.mpr (Or.inl hsrc))),
      mem_mergeVertex.mpr (Or.inl (mem_mergeVertex.mpr (Or.inl hdst)))⟩

theorem cypher_syncCall (w : W) : cypher (syncCall db.graphDb new w) g =
    mergeEdge (edgeOf db new w) (Graph.withVertices new g) := rfl

theorem Mirrors.joinsRow_eq_false (h : Mirrors db rows g) (hrows : ∀ r ∈ rows, admits db r = true)
    (hnew : admits db new = true) (hkey : ∀ r ∈ rows, rekeyed r new = true) :
    ∀ e ∈ g.edges, joinsRow db new e = false := by
  intro e he
  obtain ⟨r, hr, hjoins⟩ := h.only e he
  exact joinsRow_of_rekeyed (hrows r hr) hnew hjoins (hkey r hr)

theorem Mirrors.sync (h : Mirrors db rows g) (hrows : ∀ r ∈ rows, admits db r = true)
    (hnew : admits db new = true) (hkey : ∀ r ∈ rows, rekeyed r new = true)
    (hw : syncedWeight db.graphDb new = .ok w) (hrows' : ∀ r, r ∈ rows' ↔ r ∈ rows ∨ r = new) :
    Mirrors db rows' (cypher (syncCall db.graphDb new w) g) := by
  have hother := h.joinsRow_eq_false hrows hnew hkey
  have hfresh : edgeOf db new w ∉ (Graph.withVertices new g).edges := by
    rw [edges_withVertices]
    intro he
    exact absurd ((hother _ he).symm.trans (joinsRow_edgeOf w)) (by decide)
  have hbase := h.withVertices new
  rw [cypher_syncCall, mergeEdge, if_neg hfresh]
  refine ⟨?_, ?_, ?_, hbase.vertices⟩
  · intro r hr
    rcases (hrows' r).mp hr with hr | rfl
    · obtain ⟨v, hv, hfilter⟩ := hbase.one r hr
      have hapart : joinsRow db r (edgeOf db new w) = false :=
        joinsRow_of_rekeyed hnew (hrows r hr) (joinsRow_edgeOf w)
          ((rekeyed_comm new r).trans (hkey r hr))
      exact ⟨v, hv, by simp [filter_append, hfilter, hapart]⟩
    · refine ⟨w, hw, ?_⟩
      have hnone : (Graph.withVertices r g).edges.filter (joinsRow db r) = [] := by
        rw [edges_withVertices]
        exact filter_eq_nil_iff.mpr fun e he => by simp [hother e he]
      simp [filter_append, hnone, joinsRow_edgeOf]
  · intro e he
    rcases mem_append.mp he with he | he
    · obtain ⟨r, hr, hjoins⟩ := hbase.only e he
      exact ⟨r, (hrows' r).mpr (Or.inl hr), hjoins⟩
    · rw [mem_singleton.mp he]
      exact ⟨new, (hrows' new).mpr (Or.inr rfl), joinsRow_edgeOf w⟩
  · intro e he
    rcases mem_append.mp he with he | he
    · exact hbase.ends e he
    rw [mem_singleton.mp he]
    exact ⟨mem_mergeVertex.mpr (Or.inl (mem_mergeVertex.mpr (Or.inr rfl))),
      mem_mergeVertex.mpr (Or.inr rfl)⟩

theorem Mirrors.delete (h : Mirrors db rows g) (hrows : ∀ r ∈ rows, admits db r = true)
    (hold : old ∈ rows) (hkey : ∀ r ∈ rows, rekeyed r old = false → r = old)
    (hrows' : ∀ r, r ∈ rows' ↔ r ∈ rows ∧ r ≠ old) :
    Mirrors db rows' (cypher (deleteCall db.graphDb old) g) := by
  have hedges : (cypher (deleteCall db.graphDb old) g).edges =
      g.edges.filter fun e => !joinsRow db old e := rfl
  refine ⟨?_, ?_, ?_, h.vertices⟩
  · intro r hr
    obtain ⟨hmem, hne⟩ := (hrows' r).mp hr
    obtain ⟨w, hw, hfilter⟩ := h.one r hmem
    refine ⟨w, hw, ?_⟩
    rw [hedges, filter_filter, ← hfilter]
    refine filter_congr fun e he => ?_
    cases hjoins : joinsRow db r e with
    | false => rfl
    | true =>
      have hkey' : rekeyed r old = true :=
        Bool.eq_true_of_not_eq_false fun hsame => hne (hkey r hmem hsame)
      have hapart := joinsRow_of_rekeyed (hrows r hmem) (hrows old hold) hjoins hkey'
      simp [hapart]
  · intro e he
    rw [hedges, mem_filter] at he
    obtain ⟨r, hr, hjoins⟩ := h.only e he.1
    refine ⟨r, (hrows' r).mpr ⟨hr, ?_⟩, hjoins⟩
    rintro rfl
    simp [hjoins] at he
  · intro e he
    exact h.ends e (mem_of_mem_filter he)

theorem Mirrors.rewrite (h : Mirrors db rows g) (hold : old ∈ rows) (hkey : rekeyed old new = false)
    (hw : syncedWeight db.graphDb old = .ok w) (hw' : syncedWeight db.graphDb new = .ok w)
    (hrows' : ∀ r, r ∈ rows' ↔ (r ∈ rows ∧ r ≠ old) ∨ r = new) :
    Mirrors db rows' (cypher (syncCall db.graphDb new w) g) := by
  have hbase := h.withVertices new
  obtain ⟨w', hw₀, hfilter⟩ := hbase.one old hold
  obtain rfl : w = w' := Except.ok.inj (hw.symm.trans hw₀)
  have hthere : edgeOf db new w ∈ (Graph.withVertices new g).edges := by
    rw [← edgeOf_congr hkey]
    exact mem_of_mem_filter (hfilter ▸ mem_singleton_self (edgeOf db old w))
  rw [cypher_syncCall, mergeEdge, if_pos hthere]
  refine ⟨?_, ?_, hbase.ends, hbase.vertices⟩
  · intro r hr
    rcases (hrows' r).mp hr with ⟨hr, -⟩ | rfl
    · exact hbase.one r hr
    refine ⟨w, hw', ?_⟩
    rw [← joinsRow_congr hkey, ← edgeOf_congr hkey]
    exact hfilter
  · intro e he
    obtain ⟨r, hr, hjoins⟩ := hbase.only e he
    by_cases hr' : r = old
    · refine ⟨new, (hrows' new).mpr (Or.inr rfl), ?_⟩
      rw [← joinsRow_congr hkey, ← hr']
      exact hjoins
    · exact ⟨r, (hrows' r).mpr (Or.inl ⟨hr, hr'⟩), hjoins⟩

/-- A weight that changes on the same key leaves two edges. -/
theorem Mirrors.not_rewrite (h : Mirrors db rows g) (hold : old ∈ rows)
    (hkey : rekeyed old new = false) (hw : syncedWeight db.graphDb new = .ok w)
    (hne : syncedWeight db.graphDb old ≠ .ok w) (hnew : new ∈ rows') :
    ¬Mirrors db rows' (cypher (syncCall db.graphDb new w) g) := by
  intro h'
  have hbase := h.withVertices new
  obtain ⟨w₀, hw₀, hfilter⟩ := hbase.one old hold
  rw [joinsRow_congr hkey, edgeOf_congr hkey] at hfilter
  obtain ⟨w', hw', hfilter'⟩ := h'.one new hnew
  obtain rfl : w = w' := Except.ok.inj (hw.symm.trans hw')
  have hold' : edgeOf db new w₀ ∈ (Graph.withVertices new g).edges :=
    mem_of_mem_filter (hfilter ▸ mem_singleton_self (edgeOf db new w₀))
  -- `MERGE` keeps every edge that it finds.
  have hkept : edgeOf db new w₀ ∈ (cypher (syncCall db.graphDb new w) g).edges := by
    rw [cypher_syncCall, mergeEdge]
    split
    · exact hold'
    · exact mem_append_left _ hold'
  have hmem : edgeOf db new w₀ ∈ [edgeOf db new w] :=
    hfilter' ▸ mem_filter.mpr ⟨hkept, joinsRow_edgeOf w₀⟩
  have hweight : w₀ = w := congrArg LinkEdge.weight (mem_singleton.mp hmem)
  exact hne (hweight ▸ hw₀)

/-! ## Runs -/

structure Coherent (db : LinkDb W) (rows : List (MemoryLink W)) : Prop where
  admitted : ∀ r ∈ rows, admits db r = true
  ids : ∀ r ∈ rows, ∀ r' ∈ rows, r.id = r'.id → r = r'
  keys : ∀ r ∈ rows, ∀ r' ∈ rows, rekeyed r r' = false → r = r'

omit [DecidableEq W] in
theorem Coherent.sublist (h : Coherent db rows) (hsub : ∀ r ∈ rows', r ∈ rows) :
    Coherent db rows' where
  admitted r hr := h.admitted r (hsub r hr)
  ids r hr r' hr' := h.ids r (hsub r hr) r' (hsub r' hr')
  keys r hr r' hr' := h.keys r (hsub r hr) r' (hsub r' hr')

omit [DecidableEq W] in
theorem Coherent.write (h : Coherent db rows) (hnew : admits db new = true)
    (hrows' : ∀ r ∈ rows', (r ∈ rows ∧ r.id ≠ new.id ∧ rekeyed r new = true) ∨ r = new) :
    Coherent db rows' := by
  refine ⟨?_, ?_, ?_⟩
  · intro r hr
    rcases hrows' r hr with ⟨hmem, -⟩ | rfl
    · exact h.admitted r hmem
    · exact hnew
  · intro r hr r' hr' hid
    rcases hrows' r hr with ⟨hmem, hfree, -⟩ | rfl <;>
      rcases hrows' r' hr' with ⟨hmem', hfree', -⟩ | rfl
    · exact h.ids r hmem r' hmem' hid
    · exact absurd hid hfree
    · exact absurd hid.symm hfree'
    · rfl
  · intro r hr r' hr' hkey
    rcases hrows' r hr with ⟨hmem, -, hfree⟩ | rfl <;>
      rcases hrows' r' hr' with ⟨hmem', -, hfree'⟩ | rfl
    · exact h.keys r hmem r' hmem' hkey
    · exact absurd (hkey.symm.trans hfree) (by decide)
    · rw [rekeyed_comm] at hkey
      exact absurd (hkey.symm.trans hfree') (by decide)
    · rfl

omit [DecidableEq W] in
theorem Coherent.mem_replaced (h : Coherent db rows) (hold : old ∈ rows) (hid : old.id = new.id) :
    r ∈ replaceRow new rows ↔ (r ∈ rows ∧ r ≠ old) ∨ r = new := by
  rw [replaceRow, mem_map]
  constructor
  · rintro ⟨r₀, hr₀, rfl⟩
    split
    · exact Or.inr rfl
    next hne =>
    refine Or.inl ⟨hr₀, ?_⟩
    rintro rfl
    exact hne hid
  · rintro (⟨hr, hne⟩ | rfl)
    · exact ⟨r, hr, if_neg fun hr' => hne (h.ids r hr old hold (hr'.trans hid.symm))⟩
    · exact ⟨old, hold, if_pos hid⟩

omit [DecidableEq W] in
theorem Coherent.mem_dropped (h : Coherent db rows) (hold : old ∈ rows) :
    r ∈ (rows.filter fun r => r.id != old.id) ↔ r ∈ rows ∧ r ≠ old := by
  rw [mem_filter, bne_iff_ne]
  refine and_congr_right fun hr => not_congr ⟨h.ids r hr old hold, ?_⟩
  rintro rfl
  rfl

/-- What a run keeps. -/
structure Kept (db : LinkDb W) (s : Links W) : Prop where
  rows : Coherent db s.rows
  graph : Mirrors db s.rows s.graph

theorem syncTrigger_insert (g : MemoryGraph W) (new : MemoryLink W) :
    syncTrigger db.graphDb g (.insert new) =
      (syncedWeight db.graphDb new).map fun w => cypher (syncCall db.graphDb new w) g := by
  cases hw : syncedWeight db.graphDb new with
  | error e => rw [syncTrigger, hw, error_bind, Except.map]
  | ok w => rw [syncTrigger, hw, ok_bind, Except.map, attempt, LinkDb.graphDb]

theorem syncTrigger_update (g : MemoryGraph W) (old new : MemoryLink W) :
    syncTrigger db.graphDb g (.update old new) =
      (syncedWeight db.graphDb new).map fun w => cypher (syncCall db.graphDb new w)
        (if rekeyed old new then cypher (deleteCall db.graphDb old) g else g) := by
  rw [syncTrigger]
  split
  · exact syncTrigger_insert _ new
  · exact syncTrigger_insert g new

variable {s s' : Links W}

theorem Kept.insert (h : Kept db s) (hstep : Links.step db s (.insert new) = some s') :
    Kept db s' := by
  simp only [Links.step] at hstep
  split at hstep
  · next hfree =>
    rw [Bool.and_eq_true] at hfree
    have hnew := all_eq_true.mp hfree.2
    simp only [Bool.and_eq_true, bne_iff_ne] at hnew
    cases hw : syncedWeight db.graphDb new with
    | error e =>
      rw [syncTrigger_insert, hw] at hstep
      exact Option.some.inj hstep ▸ h
    | ok w =>
      rw [syncTrigger_insert, hw] at hstep
      obtain rfl := Option.some.inj hstep
      have hmem : ∀ r, r ∈ s.rows ++ [new] ↔ r ∈ s.rows ∨ r = new := by simp
      refine ⟨h.rows.write hfree.1 fun r hr => ?_, ?_⟩
      · exact ((hmem r).mp hr).imp_left fun hr => ⟨hr, hnew r hr⟩
      · exact h.graph.sync h.rows.admitted hfree.1 (fun r hr => (hnew r hr).2) hw hmem
  · cases hstep

theorem Kept.delete (h : Kept db s) {id : Nat} (hstep : Links.step db s (.delete id) = some s') :
    Kept db s' := by
  simp only [Links.step] at hstep
  split at hstep
  · exact Option.some.inj hstep ▸ h
  next old hfind =>
  have hold := mem_of_find?_eq_some hfind
  obtain rfl : old.id = id := by simpa using find?_some hfind
  obtain rfl := Option.some.inj hstep
  refine ⟨h.rows.sublist fun r hr => mem_of_mem_filter hr, ?_⟩
  exact h.graph.delete h.rows.admitted hold (fun r hr => h.rows.keys r hr old hold)
    fun r => h.rows.mem_dropped hold

theorem Mirrors.rekey (h : Mirrors db rows g) (hrows : Coherent db rows) (hold : old ∈ rows)
    (hid : old.id = new.id) (hnew : admits db new = true)
    (hfree : ∀ r ∈ rows, r.id = new.id ∨ rekeyed r new = true)
    (hw : syncedWeight db.graphDb new = .ok w) :
    Mirrors db (replaceRow new rows)
      (cypher (syncCall db.graphDb new w) (cypher (deleteCall db.graphDb old) g)) := by
  have hdropped := h.delete hrows.admitted hold (fun r hr => hrows.keys r hr old hold)
    fun r => hrows.mem_dropped hold
  refine hdropped.sync (fun r hr => hrows.admitted r (mem_of_mem_filter hr)) hnew ?_ hw ?_
  · intro r hr
    obtain ⟨hmem, hother⟩ := mem_filter.mp hr
    exact (hfree r hmem).resolve_left (hid ▸ bne_iff_ne.mp hother)
  · intro r
    rw [hrows.mem_replaced hold hid, hrows.mem_dropped hold]

theorem Kept.update (h : Kept db s) (hkeeps : keepsWeight db s (.update new))
    (hstep : Links.step db s (.update new) = some s') : Kept db s' := by
  simp only [Links.step] at hstep
  split at hstep
  · exact Option.some.inj hstep ▸ h
  next old hfind =>
  have hold := mem_of_find?_eq_some hfind
  have hid : old.id = new.id := by simpa using find?_some hfind
  split at hstep
  · next hfree =>
    rw [Bool.and_eq_true] at hfree
    have hnew := all_eq_true.mp hfree.2
    simp only [Bool.or_eq_true, beq_iff_eq] at hnew
    have hmem : ∀ r, r ∈ replaceRow new s.rows ↔ (r ∈ s.rows ∧ r ≠ old) ∨ r = new :=
      fun r => h.rows.mem_replaced hold hid
    have hcoherent : Coherent db (replaceRow new s.rows) := by
      refine h.rows.write hfree.1 fun r hr => ((hmem r).mp hr).imp_left ?_
      rintro ⟨hr, hne⟩
      have hother : r.id ≠ new.id :=
        fun hr' => hne (h.rows.ids r hr old hold (hr'.trans hid.symm))
      exact ⟨hr, hother, (hnew r hr).resolve_left hother⟩
    cases hw : syncedWeight db.graphDb new with
    | error e =>
      rw [syncTrigger_update, hw] at hstep
      exact Option.some.inj hstep ▸ h
    | ok w =>
      rw [syncTrigger_update, hw] at hstep
      obtain rfl := Option.some.inj hstep
      refine ⟨hcoherent, ?_⟩
      cases hkey : rekeyed old new with
      | false =>
        have hw' := (hkeeps old hold hid hkey).trans hw
        simpa [hkey] using h.graph.rewrite hold hkey hw' hw hmem
      | true => simpa [hkey] using h.graph.rekey h.rows hold hid hfree.1 hnew hw
  · cases hstep

theorem Kept.step {op : LinkOp W} (h : Kept db s) (hkeeps : keepsWeight db s op)
    (hstep : Links.step db s op = some s') : Kept db s' := by
  cases op with
  | insert new => exact h.insert hstep
  | update new => exact h.update hkeeps hstep
  | delete id => exact h.delete hstep

theorem kept_start : Kept db (Links.start W) := by
  constructor <;> constructor <;> simp [Links.start]

end

/-- **The graph mirrors the table while updates of a link keep its weight.** -/
theorem graph_mirrors_links {W : Type} [DecidableEq W] {db : LinkDb W} {s : Links W}
    (hrun : Steps (Links.step db) (keepsWeight db) (Links.start W) s) : Mirrors db s.rows s.graph :=
  (hrun.invariant (P := Kept db) (fun _ _ _ h hkeeps hstep => h.step hkeeps hstep) kept_start).graph

/-! ## Two weights on one key -/

def plainLinkDb : LinkDb Nat where
  jsonText := plainGraphDb.jsonText
  castFloat8 := plainGraphDb.castFloat8
  word := asciiWords
  rules := wordRules

def createdOnce : Links Nat where
  rows := [weightedLink (.num 1 0)]
  graph := ⟨[⟨"a", "t"⟩, ⟨"b", "t"⟩], [⟨⟨"a", "t"⟩, ⟨"b", "t"⟩, "related".toList, 1⟩]⟩

def createdTwice : Links Nat where
  rows := [weightedLink (.num 2 0)]
  graph := ⟨[⟨"a", "t"⟩, ⟨"b", "t"⟩], [⟨⟨"a", "t"⟩, ⟨"b", "t"⟩, "related".toList, 1⟩,
    ⟨⟨"a", "t"⟩, ⟨"b", "t"⟩, "related".toList, 2⟩]⟩

theorem step_createdOnce :
    Links.step plainLinkDb (Links.start Nat) (.insert (weightedLink (.num 1 0))) =
      some createdOnce := rfl

/-- A link is created, and created again with the same weight as a text. -/
theorem graph_mirrors_links_sameWeight :
    Mirrors plainLinkDb [weightedLink (.str "1")] createdOnce.graph := by
  have hagain : Links.step plainLinkDb createdOnce (.update (weightedLink (.str "1"))) =
      some ⟨[weightedLink (.str "1")], createdOnce.graph⟩ := rfl
  refine graph_mirrors_links (.tail (.tail (.refl _) ?_ step_createdOnce) ?_ hagain)
  · trivial
  · intro old hold _ _
    obtain rfl := mem_singleton.mp hold
    rfl

/-- **A link created again with another weight keeps its edge**: two for one row. -/
theorem recreated_link_keeps_edge :
    create [] (weightedLink (.num 1 0)) = .insert (weightedLink (.num 1 0)) ∧
      create createdOnce.rows (weightedLink (.num 2 0)) = .update (weightedLink (.num 2 0)) ∧
      Reaches (Links.step plainLinkDb) (Links.start Nat) createdTwice ∧
      createdTwice.rows.length = 1 ∧ createdTwice.graph.edges.length = 2 ∧
      ¬Mirrors plainLinkDb createdTwice.rows createdTwice.graph := by
  have hagain : Links.step plainLinkDb createdOnce (.update (weightedLink (.num 2 0))) =
      some createdTwice := rfl
  have hrun : Reaches (Links.step plainLinkDb) (Links.start Nat) createdTwice :=
    .tail (.tail (.refl _) trivial step_createdOnce) trivial hagain
  have hmirrors := (kept_start.insert step_createdOnce).graph
  refine ⟨rfl, rfl, hrun, rfl, rfl, ?_⟩
  have hweight : syncedWeight plainLinkDb.graphDb (weightedLink (.num 2 0)) = .ok 2 := rfl
  exact hmirrors.not_rewrite mem_cons_self rfl hweight (by decide) mem_cons_self

end Pcmi.Graph
