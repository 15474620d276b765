import Pcmi.Go.JsonGrammar
import Pcmi.Retrieval.Ranking

/-!
# Chains (`FindChain`)

A path comes from AGE as the texts of its vertices and edges in turn, each behind its type; without
the types it is JSON (`AgePath`).
-/

namespace Pcmi.Graph

open List Pcmi.Go
open Pcmi.Retrieval (trimPrefix)

/-- `strings.ReplaceAll(s, old, "")`, after `skip` bytes of an `old`. -/
def removeFrom (old : Bytes) : Nat → Bytes → Bytes
  | _, [] => []
  | skip + 1, _ :: rest => removeFrom old skip rest
  | 0, c :: rest =>
    if old.isPrefixOf (c :: rest) then removeFrom old (old.length - 1) rest
    else c :: removeFrom old 0 rest

def removeAll (old s : Bytes) : Bytes := removeFrom old 0 s

/-- `strings.Trim(s, "\"")`. -/
def trimQuotes (s : Bytes) : Bytes := trimBoth (· == 0x22) s

def parseMemoryVertexID (raw : Bytes) : Int × Bool :=
  parseInt (trimPrefix (trimQuotes raw) (ascii "memory."))

structure ChainLink where
  fromId : Int
  toId : Int
  linkType : Bytes
  hopIndex : Nat
  deriving DecidableEq

inductive EdgeField where
  | label | startId | endId | properties

/-- Into the struct of an edge, of which only the label is used. -/
def unmarshalEdge (value : RawJson) : Option Bytes :=
  unmarshalStruct [(ascii "label", EdgeField.label), (ascii "start_id", .startId),
    (ascii "end_id", .endId), (ascii "properties", .properties)] (fun label field value =>
      match field, value with
      | .label, value => unmarshalText label value
      | .startId, value | .endId, value => (unmarshalInt 0 value).map fun _ => label
      | .properties, .obj _ => some label
      | .properties, .literal text => if isNull text then some label else none
      | .properties, _ => none) [] value

def unmarshalVertex (value : RawJson) : Option Bytes :=
  unmarshalStruct [(ascii "properties", ())] (fun old _ value =>
    unmarshalStruct [(ascii "id", ())] (fun old _ value => unmarshalText old value) old value)
      [] value

def vertexId (value : RawJson) : Int :=
  match unmarshalVertex value with
  | some id => (parseMemoryVertexID id).1
  | none => 0

/-- The loop of `parseAGEPath`. -/
def chainLinks (hop : Nat) : List RawJson → List ChainLink
  | prev :: edge :: rest =>
    match unmarshalEdge edge with
    | some label => ⟨vertexId prev, rest.head?.elim 0 vertexId, label, hop⟩ :: chainLinks
      (hop + 1) rest
    | none => chainLinks (hop + 1) rest
  | _ => []

def parseAGEPath (raw : Bytes) : List ChainLink :=
  match readJson (removeAll (ascii "::path") (removeAll (ascii "::edge")
      (removeAll (ascii "::vertex") raw))) with
  | some (.arr path) => if path.length < 3 then [] else chainLinks 0 path
  | _ => []

def sanitizeLinkType (lt : Bytes) : Bytes :=
  (runes lt).map fun r =>
    if 0x61 ≤ r.1 ∧ r.1 ≤ 0x7A ∨ 0x41 ≤ r.1 ∧ r.1 ≤ 0x5A ∨ 0x30 ≤ r.1 ∧ r.1 ≤ 0x39 ∨ r.1 = 0x5F then
      UInt8.ofNat r.1
    else 0x5F

/-- The map of `pathMatchesLinkTypes`. -/
def allowedTypes (linkTypes : List Bytes) : List Bytes :=
  (linkTypes.map sanitizeLinkType).filter (· ≠ [])

def pathMatchesLinkTypes (raw : Bytes) (linkTypes : List Bytes) : Bool :=
  if allowedTypes linkTypes = [] then true
  else
    match parseAGEPath raw with
    | [] => false
    | links => links.all fun link => (allowedTypes linkTypes).contains link.linkType

structure ChainResult where
  connected : Bool := false
  hops : Int := 0
  path : List ChainLink := []

/-- `FindChain` on the rows of its query: a path and its length. -/
def findChain (linkTypes : List Bytes) : List (Bytes × Bytes) → ChainResult
  | [] => {}
  | (path, hops) :: rows =>
    if pathMatchesLinkTypes path linkTypes then
      ⟨true, (parseInt (trimQuotes hops)).1, parseAGEPath path⟩
    else findChain linkTypes rows

/-! ## Paths as AGE writes them -/

def typeSuffixes : List Bytes := [ascii "::vertex", ascii "::edge", ascii "::path"]

/-- An object in a path, without its brace. -/
structure AgeElement where
  body : Bytes
  members : List (Bytes × RawJson)
  derives : Derives (maxNestingDepth - 2) body (.members members)
  untyped : ∀ t ∈ typeSuffixes, ¬ t <:+: 0x7B :: body

structure AgeVertex extends AgeElement where
  graphId : Bytes
  label : Bytes
  properties : List (Bytes × RawJson)
  id : Bytes
  members_eq : members = [(ascii "id", .literal graphId), (ascii "label", .str label),
    (ascii "properties", .obj properties)]
  id_eq : valuesOf (ascii "id") properties = [.str id]

structure AgeEdge extends AgeElement where
  graphId : Bytes
  label : Bytes
  endId : Bytes
  startId : Bytes
  properties : List (Bytes × RawJson)
  members_eq : members = [(ascii "id", .literal graphId), (ascii "label", .str label),
    (ascii "end_id", .literal endId), (ascii "start_id", .literal startId),
    (ascii "properties", .obj properties)]
  ids : (parseInt64 endId).isSome ∧ (parseInt64 startId).isSome

structure AgePath where
  first : AgeVertex
  hops : List (AgeEdge × AgeVertex)
  hops_ne_nil : hops ≠ []

def hopPieces : List (AgeEdge × AgeVertex) → List Bytes
  | [] => [ascii "]", ascii "::path"]
  | (e, v) :: hops => ascii ", " :: (0x7B :: e.body) :: ascii "::edge" :: ascii ", " ::
      (0x7B :: v.body) :: ascii "::vertex" :: hopPieces hops

def AgePath.pieces (p : AgePath) : List Bytes :=
  ascii "[" :: (0x7B :: p.first.body) :: ascii "::vertex" :: hopPieces p.hops

def AgePath.text (p : AgePath) : Bytes := p.pieces.flatten

/-! ## Reading a path -/

/-- No `old` begins in `k`, whatever follows. -/
def Free (old k : Bytes) : Prop := ∀ u ∈ k.tails, u ≠ [] → ¬ u <+: old ∧ ¬ old <+: u

instance (old k : Bytes) : Decidable (Free old k) := inferInstanceAs (Decidable (∀ u ∈ _, _))

variable {t old : Bytes}

theorem removeAll_free {k : Bytes} (h : Free old k) (rest : Bytes) :
    removeAll old (k ++ rest) = k ++ removeAll old rest := by
  induction k with
  | nil => rfl
  | cons c k ih =>
    rw [Free, tails_cons, forall_mem_cons] at h
    obtain ⟨hself, hold⟩ := h.1 (cons_ne_nil c k)
    have hnot : ¬ old <+: c :: (k ++ rest) := fun hpre =>
      ( prefix_or_prefix_of_prefix hpre (prefix_append (c :: k) rest)).elim hold hself
    rw [removeAll, cons_append, removeFrom, if_neg (by simpa using hnot)]
    exact congrArg _ (ih h.2)

theorem removeFrom_length (old s rest : Bytes) :
    removeFrom old s.length (s ++ rest) = removeAll old rest := by
  induction s with
  | nil => rfl
  | cons c s ih => exact ih

theorem removeAll_self (h : old ≠ []) (rest : Bytes) :
    removeAll old (old ++ rest) = removeAll old rest := by
  obtain ⟨c, tail, rfl⟩ := exists_cons_of_ne_nil h
  rw [removeAll, cons_append, removeFrom, if_pos (by simp)]
  exact removeFrom_length (c :: tail) tail rest

theorem removeAll_flatten (hne : old ≠ []) {pieces : List Bytes}
    (h : ∀ k ∈ pieces, k = old ∨ Free old k) :
    removeAll old pieces.flatten = (pieces.filter (· ≠ old)).flatten := by
  induction pieces with
  | nil => rfl
  | cons k pieces ih =>
    obtain ⟨hk, hrest⟩ := forall_mem_cons.mp h
    rw [flatten_cons, filter_cons]
    by_cases heq : k = old
    · rw [heq, removeAll_self hne, ih hrest]
      simp
    · rw [removeAll_free (hk.resolve_left heq), ih hrest]
      simp [heq]

theorem AgeElement.free (e : AgeElement) (ht : t ∈ typeSuffixes) :
    Free t (0x7B :: e.body) := by
  intro u hu hne
  have hsuffix := (mem_tails u _).mp hu
  refine ⟨fun hself => ?_, fun hold => e.untyped t ht (hold.isInfix.trans hsuffix.isInfix)⟩
  have hlast : u.getLast? = some 0x7D := by
    obtain ⟨front, hfront⟩ := hsuffix
    have hbody := getLast_members e.derives rfl
    have hall : (front ++ u).getLast? = some 0x7D := by rw [hfront, getLast?_cons, hbody]; rfl
    rwa [getLast?_append_of_ne_nil _ hne] at hall
  have hbrace : ∀ t ∈ typeSuffixes, 0x7D ∉ t := by decide
  exact hbrace t ht (hself.subset (mem_of_getLast? hlast))

theorem AgePath.free_pieces (p : AgePath) (ht : t ∈ typeSuffixes) :
    ∀ k ∈ p.pieces, k = t ∨ Free t k := by
  have hfixed : ∀ t ∈ typeSuffixes, ∀ k ∈ typeSuffixes ++ [ascii "[", ascii ", ", ascii "]"],
      k = t ∨ Free t k := by decide
  have hhops : ∀ hops, ∀ k ∈ hopPieces hops, k = t ∨ Free t k := by
    intro hops
    induction hops with
    | nil =>
      simp only [hopPieces, forall_mem_cons]
      exact ⟨hfixed t ht _ (by decide), hfixed t ht _ (by decide), forall_mem_nil _⟩
    | cons h hops ih =>
      simp only [hopPieces, forall_mem_cons]
      exact ⟨hfixed t ht _ (by decide), .inr (h.1.free ht), hfixed t ht _ (by decide),
        hfixed t ht _ (by decide), .inr (h.2.free ht), hfixed t ht _ (by decide), ih⟩
  simp only [AgePath.pieces, forall_mem_cons]
  exact ⟨hfixed t ht _ (by decide), .inr (p.first.free ht), hfixed t ht _ (by decide), hhops _⟩

def hopText : List (AgeEdge × AgeVertex) → Bytes
  | [] => ascii "]"
  | (e, v) :: hops => ascii ", " ++ (0x7B :: e.body) ++ (ascii ", " ++ (0x7B ::
    v.body) ++ hopText hops)

theorem removeAll_text (p : AgePath) :
    removeAll (ascii "::path") (removeAll (ascii "::edge") (removeAll (ascii "::vertex") p.text)) =
      0x5B :: 0x7B :: (p.first.body ++ hopText p.hops) := by
  have hfree := fun {t} (ht : t ∈ typeSuffixes) => p.free_pieces ht
  have hhops : ∀ hops, ((((hopPieces hops).filter (· ≠ ascii "::vertex")).filter
      (· ≠ ascii "::edge")).filter (· ≠ ascii "::path")).flatten = hopText hops := by
    intro hops
    induction hops with
    | nil => decide
    | cons h hops ih =>
      simp [hopPieces, hopText, ascii, ← ih]
  rw [AgePath.text, removeAll_flatten (by decide) (hfree (by decide)),
    removeAll_flatten (by decide) fun k hk => hfree (by decide) k (mem_of_mem_filter hk),
    removeAll_flatten (by decide) fun k hk =>
      hfree (by decide) k (mem_of_mem_filter (mem_of_mem_filter hk)), ← hhops]
  simp [AgePath.pieces, ascii]

/-! ## The links of a path -/

theorem unmarshalVertex_members (v : AgeVertex) :
    unmarshalVertex (.obj v.members) = some (unquote v.id) := by
  rw [v.members_eq, unmarshalVertex, unmarshalStruct, storeMembers_single]
  have hvalues : valuesOf (ascii "properties") [(ascii "id", .literal v.graphId),
      (ascii "label", .str v.label), (ascii "properties", .obj v.properties)] =
        [.obj v.properties] := rfl
  rw [hvalues]
  show (unmarshalStruct _ _ _ (.obj v.properties)).bind some = _
  rw [unmarshalStruct, storeMembers_single, v.id_eq]
  rfl

theorem unmarshalEdge_members (e : AgeEdge) :
    unmarshalEdge (.obj e.members) = some (unquote e.label) := by
  have hint : ∀ {t : Bytes}, (parseInt64 t).isSome → ∃ x, unmarshalInt 0 (.literal t) = some x := by
    intro t ht
    rw [unmarshalInt]
    split
    · exact ⟨0, rfl⟩
    · exact Option.isSome_iff_exists.mp ht
  obtain ⟨endId, hend⟩ := hint e.ids.1
  obtain ⟨startId, hstart⟩ := hint e.ids.2
  rw [e.members_eq]
  show ((unmarshalInt 0 (.literal e.endId)).map fun _ => unquote e.label).bind (fun label =>
    ((unmarshalInt 0 (.literal e.startId)).map fun _ => label).bind some) = _
  rw [hend, hstart]
  rfl

def AgePath.labels (p : AgePath) : List Bytes := p.hops.map fun h => unquote h.1.label

def AgeVertex.memoryId (v : AgeVertex) : Int := (parseMemoryVertexID (unquote v.id)).1

def hopLinks (hop : Nat) (v : AgeVertex) : List (AgeEdge × AgeVertex) → List ChainLink
  | [] => []
  | (e, w) :: hops => ⟨v.memoryId, w.memoryId, unquote e.label, hop⟩ :: hopLinks (hop + 1) w hops

theorem vertexId_members (v : AgeVertex) : vertexId (.obj v.members) = v.memoryId := by
  rw [vertexId, unmarshalVertex_members]
  rfl

def hopValues (hops : List (AgeEdge × AgeVertex)) : List RawJson :=
  hops.flatMap fun h => [.obj h.1.members, .obj h.2.members]

theorem spaces_one : Spaces [0x20] := forall_mem_singleton.mpr rfl

theorem derives_hops (v : AgeVertex) (hops : List (AgeEdge × AgeVertex)) {sp : Bytes}
    (hsp : Spaces sp) : Derives (maxNestingDepth - 1) (sp ++ 0x7B :: (v.body ++ hopText hops))
      (.items (.obj v.members :: hopValues hops)) := by
  have hnil : Spaces [] := nofun
  have hv : ∀ {sp}, Spaces sp → ∀ e : AgeElement,
      Derives (maxNestingDepth - 1) (sp ++ 0x7B :: e.body) (.value (.obj e.members)) :=
    fun hsp e => .obj hsp e.derives
  induction hops generalizing v sp with
  | nil => simpa [hopText, hopValues, ascii] using Derives.lastItem (hv hsp v.toAgeElement) hnil
  | cons h hops ih =>
    have hitems := Derives.item (hv hsp v.toAgeElement) hnil
      (.item (hv spaces_one h.1.toAgeElement) hnil (ih h.2 spaces_one))
    simpa [hopText, hopValues, ascii] using hitems

theorem chainLinks_hops (hop : Nat) (v : AgeVertex) (hops : List (AgeEdge × AgeVertex)) :
    chainLinks hop (.obj v.members :: hopValues hops) = hopLinks hop v hops := by
  induction hops generalizing hop v with
  | nil => rfl
  | cons h hops ih =>
    rw [hopValues, flatMap_cons]
    show (match unmarshalEdge (.obj h.1.members) with
      | some label => _
      | none => _) = _
    rw [unmarshalEdge_members]
    show ⟨vertexId (.obj v.members), vertexId (.obj h.2.members), _, hop⟩ ::
      chainLinks (hop + 1) (.obj h.2.members :: hopValues hops) = _
    rw [ih, vertexId_members, vertexId_members]
    rfl

/-- **What is read from a path.** -/
theorem parseAGEPath_text (p : AgePath) : parseAGEPath p.text = hopLinks 0 p.first p.hops := by
  have hnil : Spaces [] := nofun
  have hread : readJson (0x5B :: 0x7B :: (p.first.body ++ hopText p.hops)) =
      some (.arr (.obj p.first.members :: hopValues p.hops)) :=
    readJson_iff.mpr ⟨_, [], (append_nil _).symm, hnil, .arr hnil
      (derives_hops p.first p.hops hnil)⟩
  obtain ⟨h, hops, hhops⟩ := exists_cons_of_ne_nil p.hops_ne_nil
  rw [parseAGEPath, removeAll_text, hread]
  dsimp only
  rw [if_neg (by simp [hhops, hopValues]), chainLinks_hops]

theorem hopLinks_spec (hop : Nat) (v : AgeVertex) (hops : List (AgeEdge × AgeVertex)) :
    (hopLinks hop v hops).map (·.linkType) = hops.map (fun h => unquote h.1.label) ∧
      (hopLinks hop v hops).map (·.hopIndex) = range' hop hops.length ∧
      (hopLinks hop v hops).IsChain fun a b => a.toId = b.fromId := by
  induction hops generalizing hop v with
  | nil => simp [hopLinks]
  | cons h hops ih =>
    obtain ⟨htypes, hindices, hchain⟩ := ih (hop + 1) h.2
    refine ⟨by simp [hopLinks, htypes], by simp [hopLinks, hindices, range'_succ], ?_⟩
    cases hops with
    | nil => exact .singleton _
    | cons h' hops => exact isChain_cons_cons.mpr ⟨rfl, hchain⟩

/-! ## The shortest chain -/

/-- All labels are among the requested link types, if there is one. -/
def AgePath.Fits (linkTypes : List Bytes) (p : AgePath) : Prop :=
  allowedTypes linkTypes = [] ∨ ∀ l ∈ p.labels, l ∈ allowedTypes linkTypes

theorem pathMatchesLinkTypes_text (linkTypes : List Bytes) (p : AgePath) :
    pathMatchesLinkTypes p.text linkTypes = true ↔ p.Fits linkTypes := by
  have htypes := (hopLinks_spec 0 p.first p.hops).1
  obtain ⟨h, hops, hhops⟩ := exists_cons_of_ne_nil p.hops_ne_nil
  rw [pathMatchesLinkTypes, AgePath.Fits, AgePath.labels, ← htypes, parseAGEPath_text]
  by_cases hnone : allowedTypes linkTypes = []
  · simp [hnone]
  · rw [if_neg hnone, hhops]
    simp [hopLinks, hnone]

theorem trimQuotes_formatNat (n : Nat) : trimQuotes (formatNat n) = formatNat n := by
  have hdigit : ∀ c ∈ formatNat n, (c == 0x22) = false := fun c hc =>
    beq_eq_false_iff_ne.mpr (by rintro rfl; exact absurd (isDigit_of_mem_formatNat hc) (by decide))
  exact trimBoth_eq_self (fun c hc => hdigit c (mem_of_head? hc))
    fun c hc => hdigit c (mem_of_getLast? hc)

/-- **`FindChain` finds a shortest path.** -/
theorem findChain_shortest (linkTypes : List Bytes) (maxDepth : Int64) (paths : List AgePath)
    (horder : paths.Pairwise fun p q => p.hops.length ≤ q.hops.length)
    (hdepth : ∀ p ∈ paths, (p.hops.length : Int) ≤ maxDepth.toInt) {result : ChainResult}
    (hresult : findChain linkTypes (paths.map fun p => (p.text, formatNat p.hops.length)) =
      result) :
    (result.connected = true ↔ ∃ p ∈ paths, p.Fits linkTypes) ∧
      (result.connected = true → ∃ p ∈ paths, p.Fits linkTypes ∧
        (∀ q ∈ paths, q.Fits linkTypes → p.hops.length ≤ q.hops.length) ∧
        result.hops = p.hops.length ∧ result.path.length = p.hops.length ∧
        result.path.map (·.hopIndex) = range p.hops.length ∧
        result.path.IsChain fun a b => a.toId = b.fromId) := by
  induction paths with
  | nil =>
    subst hresult
    exact ⟨by simp [findChain], nofun⟩
  | cons p paths ih =>
    obtain ⟨hfirst, horder⟩ := pairwise_cons.mp horder
    obtain ⟨hp, hdepth⟩ := forall_mem_cons.mp hdepth
    rw [map_cons, findChain] at hresult
    by_cases hfits : p.Fits linkTypes
    · rw [if_pos ((pathMatchesLinkTypes_text linkTypes p).mpr hfits), parseAGEPath_text] at hresult
      obtain ⟨htypes, hindices, hchain⟩ := hopLinks_spec 0 p.first p.hops
      have hlength := congrArg length htypes
      rw [length_map, length_map] at hlength
      subst hresult
      refine ⟨⟨fun _ => ⟨p, mem_cons_self, hfits⟩, fun _ => rfl⟩, fun _ => ⟨p, mem_cons_self, hfits,
        forall_mem_cons.mpr ⟨fun _ => le_rfl, fun q hq _ => hfirst q hq⟩, ?_, hlength, ?_, hchain⟩⟩
      · rw [trimQuotes_formatNat, parseInt_formatNat]
        have := maxDepth.toInt_lt
        omega
      · rw [hindices, range_eq_range']
    · rw [if_neg (mt (pathMatchesLinkTypes_text linkTypes p).mp hfits)] at hresult
      obtain ⟨hiff, hspec⟩ := ih horder hdepth hresult
      refine ⟨hiff.trans ?_, fun hconnected => ?_⟩
      · simp [hfits]
      · obtain ⟨q, hq, hfitsq, hleast, hrest⟩ := hspec hconnected
        exact ⟨q, mem_cons_of_mem p hq, hfitsq,
          forall_mem_cons.mpr ⟨fun h => absurd h hfits, hleast⟩, hrest⟩

theorem stringBody {s : Bytes} (h : Plain s := by decide +kernel) : StringBody s := readString_plain h

def vertexOne : AgeVertex where
  body := _
  members := _
  graphId := formatInteger 1
  label := ascii "Memory"
  properties := [(ascii "id", .str (ascii "memory.1"))]
  id := ascii "memory.1"
  members_eq := rfl
  id_eq := rfl
  derives := .member spaces_nil stringBody spaces_nil (derives_integer 1 _) spaces_nil
    (.member spaces_one stringBody spaces_nil (.str spaces_one stringBody) spaces_nil
      (.lastMember spaces_one stringBody spaces_nil (.obj spaces_one
        (.lastMember spaces_nil stringBody spaces_nil (.str spaces_one stringBody) spaces_nil))
        spaces_nil))
  untyped := by decide +kernel

def causesOne : AgeEdge where
  body := _
  members := _
  graphId := formatInteger 2
  label := ascii "causes"
  endId := formatInteger 1
  startId := formatInteger 1
  properties := []
  members_eq := rfl
  ids := by decide
  derives := .member spaces_nil stringBody spaces_nil (derives_integer 2 _) spaces_nil
    (.member spaces_one stringBody spaces_nil (.str spaces_one stringBody) spaces_nil
      (.member spaces_one stringBody spaces_nil (derives_integer 1 _) spaces_nil
        (.member spaces_one stringBody spaces_nil (derives_integer 1 _) spaces_nil
          (.lastMember spaces_one stringBody spaces_nil (.emptyObj spaces_one spaces_nil)
            spaces_nil))))
  untyped := by decide +kernel

def loopOne : AgePath := ⟨vertexOne, [(causesOne, vertexOne)], cons_ne_nil _ _⟩

theorem findChain_shortest_loop :
    (findChain [ascii "causes"] [(loopOne.text, formatNat 1)]).connected = true := by
  refine (findChain_shortest [ascii "causes"] 3 [loopOne] (pairwise_singleton _ _)
    (forall_mem_singleton.mpr (by decide)) rfl).1.mpr ⟨loopOne, mem_cons_self, .inr ?_⟩
  decide +kernel

end Pcmi.Graph
