import Pcmi.Go.Utf8
import Pcmi.Lib.Enumerate

/-!
# Matching patterns in a property graph

Node patterns, paths and `MATCH` clauses, matched against a graph from left to right. A `Row` holds
the bindings of the variables and every node a pattern has matched.
-/

namespace Pcmi.Graph

open List Pcmi.Go Pcmi.Lib

/-! ## Graphs -/

/-- Property names and the texts of their values. -/
abbrev Props := List (Bytes × Bytes)

structure Node where
  id : Nat
  labels : List Bytes
  props : Props
  deriving DecidableEq

structure Edge where
  id : Nat
  source : Nat
  target : Nat
  type : Bytes
  props : Props
  deriving DecidableEq

structure PropertyGraph where
  nodes : List Node
  edges : List Edge

/-- The selected nodes and the edges between them. -/
def PropertyGraph.restrict (keep : Node → Bool) (g : PropertyGraph) : PropertyGraph where
  nodes := g.nodes.filter keep
  edges := g.edges.filter fun e =>
    ((g.nodes.filter keep).map (·.id)).contains e.source &&
      ((g.nodes.filter keep).map (·.id)).contains e.target

/-! ## Patterns -/

/-- A node pattern; the name of an anonymous one is empty. -/
structure NodePattern where
  name : Bytes
  labels : List Bytes
  props : Props

inductive Direction where
  | right
  | left
  | both

/-- A relationship pattern of one hop; an empty type stands for any. -/
structure RelPattern where
  name : Bytes
  type : Bytes
  direction : Direction

structure Path where
  first : NodePattern
  steps : List (RelPattern × NodePattern)

def Path.nodePatterns (path : Path) : List NodePattern := path.first :: path.steps.map (·.2)

def NodePattern.accepts (pattern : NodePattern) (n : Node) : Bool :=
  pattern.labels.all n.labels.contains &&
    pattern.props.all fun p => n.props.lookup p.1 == some p.2

/-- The far ends of an edge that the pattern crosses from a node. -/
def RelPattern.ends (pattern : RelPattern) (e : Edge) (near : Nat) : List Nat :=
  if pattern.type ≠ [] ∧ e.type ≠ pattern.type then []
  else
    let forward := if e.source = near then [e.target] else []
    let backward := if e.target = near then [e.source] else []
    match pattern.direction with
    | .right => forward
    | .left => backward
    -- a loop is crossed once
    | .both => forward ++ if e.source = e.target then [] else backward

/-! ## Rows -/

inductive Binding where
  | node (n : Node)
  | edge (e : Edge)
  | null
  deriving DecidableEq

structure Row where
  vars : List (Bytes × Binding)
  /-- The nodes matched by all node patterns so far, named or not. -/
  nodes : List Node
  /-- The edges matched in the current clause. -/
  used : List Nat
  deriving DecidableEq

namespace Row

def empty : Row := ⟨[], [], []⟩

def within (keep : Node → Bool) (row : Row) : Bool := row.nodes.all keep

/-- Binds a node pattern to a node; a variable keeps the node it has. -/
def bindNode (pattern : NodePattern) (n : Node) (row : Row) : Option Row :=
  if pattern.name = [] then some { row with nodes := n :: row.nodes }
  else
    match row.vars.lookup pattern.name with
    | none =>
      some { row with vars := (pattern.name, .node n) :: row.vars, nodes := n :: row.nodes }
    | some b => if b = .node n then some { row with nodes := n :: row.nodes } else none

/-- Binds a relationship pattern; no edge is used twice in a clause. -/
def bindEdge (pattern : RelPattern) (e : Edge) (row : Row) : Option Row :=
  if row.used.contains e.id then none
  else if pattern.name = [] then some { row with used := e.id :: row.used }
  else
    match row.vars.lookup pattern.name with
    | none => some { row with vars := (pattern.name, .edge e) :: row.vars, used := e.id ::
      row.used }
    | some _ => none

end Row

/-! ## Matching -/

def matchNode (g : PropertyGraph) (pattern : NodePattern) (row : Row) : List (Row × Node) :=
  g.nodes.flatMap fun n =>
    if pattern.accepts n then (row.bindNode pattern n).toList.map (·, n) else []

def matchStep (g : PropertyGraph) (step : RelPattern × NodePattern) (state : Row × Node) :
    List (Row × Node) :=
  g.edges.flatMap fun e =>
    (step.1.ends e state.2.id).flatMap fun far =>
      (state.1.bindEdge step.1 e).toList.flatMap fun row =>
        (matchNode g step.2 row).filter fun next => next.2.id == far

def matchPath (g : PropertyGraph) (path : Path) (row : Row) : List Row :=
  (path.steps.foldl (fun states step => states.flatMap (matchStep g step))
    (matchNode g path.first row)).map (·.1)

def matchPaths (g : PropertyGraph) (paths : List Path) (row : Row) : List Row :=
  paths.foldl (fun rows path => rows.flatMap (matchPath g path)) [{ row with used := [] }]

/-! ## What a step does to a row -/

variable {pattern : NodePattern} {n : Node} {row row' : Row} {g : PropertyGraph} {next : Row × Node}

theorem bindNode_eq_some (h : row.bindNode pattern n = some row') :
    row'.nodes = n :: row.nodes ∧
      (pattern.name ≠ [] → row'.vars.lookup pattern.name = some (.node n)) ∧
      ∀ name b, row.vars.lookup name = some b → row'.vars.lookup name = some b := by
  unfold Row.bindNode at h
  split at h
  · next hname =>
    cases h
    exact ⟨rfl, fun hne => absurd hname hne, fun _ _ hb => hb⟩
  · next hname =>
    split at h
    · next hnone =>
      cases h
      refine ⟨rfl, fun _ => by simp, fun name b hb => ?_⟩
      have hne : name ≠ pattern.name := by
        rintro rfl
        rw [hnone] at hb
        cases hb
      simpa [lookup_cons, beq_eq_false_iff_ne.mpr hne] using hb
    · next b hsome =>
      split at h <;> cases h
      next hb => exact ⟨rfl, fun _ => hb ▸ hsome, fun _ _ h => h⟩

theorem bindEdge_eq_some {pattern : RelPattern} {e : Edge} (h : row.bindEdge pattern e =
    some row') :
    row'.nodes = row.nodes ∧
      ∀ name b, row.vars.lookup name = some b → row'.vars.lookup name = some b := by
  unfold Row.bindEdge at h
  split at h
  · cases h
  split at h
  · cases h
    exact ⟨rfl, fun _ _ hb => hb⟩
  split at h <;> cases h
  next hnone =>
  refine ⟨rfl, fun name b hb => ?_⟩
  have hne : name ≠ pattern.name := by
    rintro rfl
    rw [hnone] at hb
    cases hb
  simpa [lookup_cons, beq_eq_false_iff_ne.mpr hne] using hb

/-- The row is extended by the bindings of one more node pattern. -/
structure Extends (pattern : NodePattern) (row row' : Row) (n : Node) : Prop where
  nodes : row'.nodes = n :: row.nodes
  named : pattern.name ≠ [] → row'.vars.lookup pattern.name = some (.node n)
  kept : ∀ name b, row.vars.lookup name = some b → row'.vars.lookup name = some b

theorem mem_matchNode (h : next ∈ matchNode g pattern row) :
    next.2 ∈ g.nodes ∧ Extends pattern row next.1 next.2 := by
  obtain ⟨n, hn, hnext⟩ := mem_flatMap.mp h
  split at hnext
  · obtain ⟨row', hrow, rfl⟩ := mem_map.mp hnext
    obtain ⟨hnodes, hnamed, hkept⟩ := bindNode_eq_some (Option.mem_toList.mp hrow)
    exact ⟨hn, hnodes, hnamed, hkept⟩
  · cases hnext

theorem mem_matchStep {step : RelPattern × NodePattern} {state : Row × Node}
    (h : next ∈ matchStep g step state) :
    next.2 ∈ g.nodes ∧ Extends step.2 state.1 next.1 next.2 := by
  obtain ⟨e, -, h⟩ := mem_flatMap.mp h
  obtain ⟨far, -, h⟩ := mem_flatMap.mp h
  obtain ⟨row, hrow, h⟩ := mem_flatMap.mp h
  obtain ⟨hn, hext⟩ := mem_matchNode (mem_of_mem_filter h)
  obtain ⟨hnodes, hkept⟩ := bindEdge_eq_some (Option.mem_toList.mp hrow)
  exact ⟨hn, hext.nodes.trans (congrArg _ hnodes), hext.named,
    fun name b hb => hext.kept name b (hkept name b hb)⟩

theorem within_of_extends {keep : Node → Bool} (h : Extends pattern row row' n) :
    row'.within keep = (keep n && row.within keep) := by
  unfold Row.within
  rw [h.nodes, all_cons]

/-! ## Restriction -/

section Restriction

variable {g : PropertyGraph} {keep : Node → Bool} {row : Row}

theorem filter_matchNode {pattern : NodePattern} (h : row.within keep = true) :
    (matchNode g pattern row).filter (fun next => next.1.within keep) =
      matchNode (g.restrict keep) pattern row := by
  unfold matchNode PropertyGraph.restrict
  refine filter_flatMap_filter (fun n _ hn next hnext => ?_) (fun n _ hn => ?_)
  · split at hnext
    · obtain ⟨row', hrow, rfl⟩ := mem_map.mp hnext
      obtain ⟨hnodes, -, -⟩ := bindNode_eq_some (Option.mem_toList.mp hrow)
      simp [Row.within, hnodes, hn]
    · cases hnext
  · split
    · refine filter_eq_self.mpr fun next hnext => ?_
      obtain ⟨row', hrow, rfl⟩ := mem_map.mp hnext
      obtain ⟨hnodes, -, -⟩ := bindNode_eq_some (Option.mem_toList.mp hrow)
      unfold Row.within at h ⊢
      rw [hnodes, all_cons, hn, h]
      rfl
    · rfl

variable {e : Edge} {path : Path} {next : Row} {paths : List Path}

theorem mem_ends {pattern : RelPattern} {near far : Nat} (h : far ∈ pattern.ends e near) :
    (e.source = near ∧ e.target = far) ∨ (e.target = near ∧ e.source = far) := by
  unfold RelPattern.ends at h
  split at h
  · cases h
  · cases hdir : pattern.direction <;> simp only [hdir] at h <;> grind

theorem selected_edge {n far : Node} (hn : n ∈ g.nodes) (hkeep : keep n = true)
    (hfar : far ∈ g.nodes) (hkeep' : keep far = true)
    (h : (e.source = n.id ∧ e.target = far.id) ∨ (e.target = n.id ∧ e.source = far.id)) :
    (((g.nodes.filter keep).map (·.id)).contains e.source &&
      ((g.nodes.filter keep).map (·.id)).contains e.target) = true := by
  have hmem : n.id ∈ (g.nodes.filter keep).map (·.id) :=
    mem_map_of_mem (mem_filter.mpr ⟨hn, hkeep⟩)
  have hmem' : far.id ∈ (g.nodes.filter keep).map (·.id) :=
    mem_map_of_mem (mem_filter.mpr ⟨hfar, hkeep'⟩)
  rw [Bool.and_eq_true, contains_iff_mem, contains_iff_mem]
  rcases h with ⟨hs, ht⟩ | ⟨ht, hs⟩ <;> rw [hs, ht]
  · exact ⟨hmem, hmem'⟩
  · exact ⟨hmem', hmem⟩

theorem filter_matchStep {step : RelPattern × NodePattern} {state : Row × Node}
    (hn : state.2 ∈ g.nodes) (hkeep : keep state.2 = true) (h : state.1.within keep = true) :
    (matchStep g step state).filter (fun next => next.1.within keep) =
      matchStep (g.restrict keep) step state := by
  unfold matchStep
  refine filter_flatMap_filter (fun e _ he next hnext => ?_) (fun e _ he => ?_)
  · -- both ends of an edge on the way to a selected node are selected
    obtain ⟨far, hfar, hnext⟩ := mem_flatMap.mp hnext
    obtain ⟨row, hrow, hnext⟩ := mem_flatMap.mp hnext
    obtain ⟨hnext, hid⟩ := mem_filter.mp hnext
    obtain ⟨hmem, hext⟩ := mem_matchNode hnext
    rw [beq_iff_eq] at hid
    by_contra hwithin
    rw [Bool.not_eq_false, within_of_extends hext, Bool.and_eq_true] at hwithin
    have hends := mem_ends hfar
    rw [← hid] at hends
    rw [selected_edge hn hkeep hmem hwithin.1 hends] at he
    cases he
  · rw [filter_flatMap]
    refine flatMap_congr fun far _ => ?_
    rw [filter_flatMap]
    refine flatMap_congr fun row hrow => ?_
    obtain ⟨hnodes, -⟩ := bindEdge_eq_some (Option.mem_toList.mp hrow)
    have hrow' : row.within keep = true := by
      unfold Row.within at h ⊢
      rw [hnodes, h]
    rw [filter_filter, ← filter_matchNode hrow', filter_filter]
    simp only [Bool.and_comm]

/-- The state of a path: its node is the last one matched. -/
def AtNode (g : PropertyGraph) (state : Row × Node) : Prop :=
  state.2 ∈ g.nodes ∧ state.2 ∈ state.1.nodes

theorem filter_matchPath (h : row.within keep = true) :
    (matchPath g path row).filter (·.within keep) = matchPath (g.restrict keep) path row := by
  have hstart : ∀ s ∈ matchNode g path.first row, AtNode g s := fun s hs => by
    obtain ⟨hn, hext⟩ := mem_matchNode hs
    exact ⟨hn, hext.nodes ▸ mem_cons_self⟩
  have hsteps := filter_foldl_flatMap path.steps (f := matchStep g)
    (g := matchStep (g.restrict keep)) (p := fun s => s.1.within keep) (I := AtNode g)
    (fun step _ s _ next hnext => by
      obtain ⟨hn, hext⟩ := mem_matchStep hnext
      exact ⟨hn, hext.nodes ▸ mem_cons_self⟩)
    (fun step _ s _ hs next hnext => by
      obtain ⟨-, hext⟩ := mem_matchStep hnext
      rw [within_of_extends hext, hs, Bool.and_false])
    (fun step _ s hat hs => filter_matchStep hat.1 (all_eq_true.mp hs _ hat.2) hs) hstart
  unfold matchPath
  rw [filter_map, ← filter_matchNode h]
  exact congrArg _ hsteps

theorem within_of_mem_matchPath (hnext : next ∈ matchPath g path row) (h : row.within keep =
    false) :
    next.within keep = false := by
  obtain ⟨s, hs, rfl⟩ := mem_map.mp hnext
  refine forall_mem_foldl_flatMap path.steps (I := fun s : Row × Node => s.1.within keep = false)
    (fun step _ s hs next hnext => ?_) (fun s hs => ?_) s hs
  · obtain ⟨-, hext⟩ := mem_matchStep hnext
    rw [within_of_extends hext, hs, Bool.and_false]
  · obtain ⟨-, hext⟩ := mem_matchNode hs
    rw [within_of_extends hext, h, Bool.and_false]

/-- **Matches inside a selection are matches in the restricted graph.** -/
theorem filter_matchPaths (h : row.within keep = true) :
    (matchPaths g paths row).filter (·.within keep) = matchPaths (g.restrict keep) paths row := by
  have hpaths := filter_foldl_flatMap paths (f := matchPath g)
    (g := matchPath (g.restrict keep)) (p := fun r => r.within keep) (I := fun _ => True)
    (l := [{ row with used := [] }]) (fun _ _ _ _ _ _ => trivial)
    (fun _ _ _ _ hr next hnext => within_of_mem_matchPath hnext hr)
    (fun _ _ _ _ hr => filter_matchPath hr) (fun _ _ => trivial)
  have hrow : Row.within keep { row with used := [] } = true := h
  unfold matchPaths
  rw [hpaths, filter_cons_of_pos hrow, filter_nil]

theorem within_of_mem_matchPaths (hnext : next ∈ matchPaths g paths row)
    (h : row.within keep = false) :
    next.within keep = false :=
  forall_mem_foldl_flatMap paths (I := fun r : Row => r.within keep = false)
    (fun _ _ _ hr _ hnext => within_of_mem_matchPath hnext hr)
    (fun r hr => by rw [mem_singleton.mp hr]; exact h) next hnext

end Restriction

end Pcmi.Graph
