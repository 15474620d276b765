import Pcmi.Graph.Matching
import Pcmi.Graph.Predicate

/-!
# Tenant coverage of the Cypher passthrough

A `Query` has its `MATCH` clauses as patterns and its expressions as texts; `Query.text` is what a
client sends. The scoping adds the tenant filter to its `WHERE`, behind the last clause, for the
nodes with a `:Memory` label.
-/

namespace Pcmi.Graph

open List Pcmi.Go Pcmi.Lib

/-! ## Queries and their text -/

structure MatchClause where
  optional : Bool
  paths : List Path

structure Query where
  earlier : List MatchClause
  last : MatchClause
  /-- The predicate of the last clause. -/
  predicate : Option Bytes
  /-- What follows `RETURN`. -/
  result : Bytes

def MatchClause.nodePatterns (c : MatchClause) : List NodePattern := c.paths.flatMap
    (·.nodePatterns)

namespace Query

def clauses (q : Query) : List MatchClause := q.earlier ++ [q.last]

def nodePatterns (q : Query) : List NodePattern := q.clauses.flatMap (·.nodePatterns)

end Query

def labelsText (labels : List Bytes) : Bytes := labels.flatMap (0x3A :: ·)

def propText (p : Bytes × Bytes) : Bytes :=
  p.1 ++ ascii ": '" ++ escapeCypherString p.2 ++ ascii "'"

def propsText (props : Props) : Bytes :=
  if props = [] then []
  else ascii " \x7b" ++ join (props.map propText) (ascii ", ") ++ ascii "\x7d"

def NodePattern.text (p : NodePattern) : Bytes :=
  0x28 :: (p.name ++ labelsText p.labels ++ propsText p.props ++ ascii ")")

def RelPattern.text (p : RelPattern) : Bytes :=
  (match p.direction with
    | .left => ascii "<-["
    | _ => ascii "-[") ++
  p.name ++ (if p.type = [] then [] else 0x3A :: p.type) ++
  match p.direction with
  | .right => ascii "]->"
  | _ => ascii "]-"

def Path.text (p : Path) : Bytes :=
  p.first.text ++ p.steps.flatMap fun step => step.1.text ++ step.2.text

def MatchClause.text (c : MatchClause) : Bytes :=
  (if c.optional then ascii "OPTIONAL MATCH " else ascii "MATCH ") ++
    join (c.paths.map (·.text)) (ascii ", ") ++ ascii " "

def trimmedPredicate (p : Bytes) : Bytes := trimSpace (ascii " " ++ p ++ ascii " ")

namespace Query

def matchText (q : Query) : Bytes := q.clauses.flatMap (·.text)

def whereText (q : Query) : Bytes :=
  match q.predicate with
  | none => []
  | some p => ascii "WHERE " ++ p ++ ascii " "

def returnText (q : Query) : Bytes := ascii "RETURN " ++ q.result

def text (q : Query) : Bytes := q.matchText ++ q.whereText ++ q.returnText

def withFilter (q : Query) (tenantId : Bytes) (aliases : List Bytes) : Query :=
  { q with predicate := some (match q.predicate with
      | none => tenantFilter tenantId aliases
      | some p => tenantFilter tenantId aliases ++ ascii " AND (" ++
          trimmedPredicate p ++ ascii ")") }

end Query

/-! ## Meaning -/

/-- The value of the expressions that are not tests of a tenant. -/
abbrev Meaning := PropertyGraph → Row → Bytes → Kleene.Truth

/-- The name at the front of a text, and what follows. -/
def readName (s : Bytes) : Bytes × Bytes :=
  match s with
  | 0x60 :: rest =>
    (0x60 :: (rest.takeWhile (· != 0x60) ++ [0x60]), (rest.dropWhile (· != 0x60)).tail)
  | _ => (s.takeWhile (· != 0x2E), s.dropWhile (· != 0x2E))

/-- The alias and the tenant of a text ` a.tenant_id = 't' `. -/
def readTenantTest (s : Bytes) : Option (Bytes × Bytes) :=
  match s with
  | 0x20 :: rest =>
    if ascii ".tenant_id = '" <+: (readName rest).2 then
      match readLiteral backslash singleQuote ((readName rest).2.drop 14) with
      | some (tenantId, [0x20]) => some ((readName rest).1, tenantId)
      | _ => none
    else none
  | _ => none

/-- The value of `name.tenant_id = 'tenantId'`. -/
def tenantTest (row : Row) (name tenantId : Bytes) : Kleene.Truth :=
  match row.vars.lookup name with
  | some (.node n) => (n.props.lookup (ascii "tenant_id")).map (· == tenantId)
  | some (.edge e) => (e.props.lookup (ascii "tenant_id")).map (· == tenantId)
  | _ => none

def textValue (meaning : Meaning) (g : PropertyGraph) (row : Row) (s : Bytes) : Kleene.Truth :=
  match readTenantTest s with
  | some (name, tenantId) => tenantTest row name tenantId
  | none => meaning g row s

def passes (meaning : Meaning) (g : PropertyGraph) (predicate : Option Bytes) (row : Row) : Bool :=
  match predicate with
  | none => true
  | some p => evalPredicate (textValue meaning g row) (ascii " " ++ p ++ ascii " ") == some true

def Row.unmatched (c : MatchClause) (row : Row) : Row :=
  let names := (c.nodePatterns.map (·.name) ++
    c.paths.flatMap fun p => p.steps.map (·.1.name)).filter fun name =>
      name != [] && (row.vars.lookup name).isNone
  { row with vars := names.map (·, Binding.null) ++ row.vars }

/-- The rows a clause makes of a row. -/
def MatchClause.rows (c : MatchClause) (g : PropertyGraph) (accept : Row → Bool) (row : Row) :
    List Row :=
  let found := (matchPaths g c.paths row).filter accept
  if c.optional && found.isEmpty then [row.unmatched c] else found

def Query.rows (q : Query) (meaning : Meaning) (g : PropertyGraph) : List Row :=
  (q.earlier.foldl (fun rows c => rows.flatMap (c.rows g fun _ => true)) [Row.empty]).flatMap
    (q.last.rows g (passes meaning g q.predicate))

def ofTenant (tenantId : Bytes) (n : Node) : Bool :=
  n.props.lookup (ascii "tenant_id") == some tenantId

/-- The rewritten text is that of a query in which every node bound belongs to the tenant, and whose
rows depend on no other nodes. -/
def TenantCovered (q : Query) (meaning : Meaning) (tenantId rewritten : Bytes) : Prop :=
  ∃ aliases, memoryAliases q.text = .ok aliases ∧ rewritten = (q.withFilter tenantId aliases).text ∧
    ∀ g, (∀ row ∈ (q.withFilter tenantId aliases).rows meaning g, ∀ n ∈ row.nodes,
        ofTenant tenantId n = true) ∧
      (q.withFilter tenantId aliases).rows meaning g =
        (q.withFilter tenantId aliases).rows meaning (g.restrict (ofTenant tenantId))

/-- A name that the scoping cuts out whole. -/
def WholeName (name : Bytes) : Prop :=
  name ≠ [] ∧ (∀ b ∈ name, b ∉ ascii " :\x7b(") ∧ Untrimmed name

instance (name : Bytes) : Decidable (WholeName name) := inferInstanceAs (Decidable (_ ∧ _ ∧ _))

/-- Keywords and labels are found where the query has them. -/
structure Query.Placed (q : Query) : Prop where
  width : UpperKeepsWidth q.text
  returns : index (toUpper q.text) (ascii "RETURN") = some (q.matchText ++ q.whereText).length
  wheres : (index (toUpper q.text) (ascii "WHERE")).filter
      (· < (q.matchText ++ q.whereText).length) = q.predicate.map fun _ => q.matchText.length
  names : ∀ i ∈ indices (toUpper q.text) (ascii ":MEMORY"), PlainName (labelName q.text i)

/-- No clause is optional, every node pattern has a name, every name a `:Memory` label, and the
predicate is closed and reads the row only. -/
structure Query.Covered (q : Query) (meaning : Meaning) : Prop where
  mandatory : ∀ c ∈ q.clauses, c.optional = false
  named : ∀ p ∈ q.nodePatterns, WholeName p.name
  labels : ∀ p ∈ q.nodePatterns, ∀ l ∈ p.labels, 0x28 ∉ l ∧ Untrimmed l
  memory : ∀ p ∈ q.nodePatterns, ∃ p' ∈ q.nodePatterns, p'.name = p.name ∧
    ∃ l ∈ p'.labels, ascii "MEMORY" <+: l.map upperByte
  closed : ∀ p ∈ q.predicate, Closed (trimmedPredicate p)
  reads : ∀ p ∈ q.predicate, ∀ g g' row,
    meaning g row (ascii " (" ++ trimmedPredicate p ++ ascii ") ") =
      meaning g' row (ascii " (" ++ trimmedPredicate p ++ ascii ") ")

/-! ## The aliases of a query -/

theorem infix_flatMap {α β : Type} {l : List α} {a : α} (f : α → List β) (h : a ∈ l) :
    f a <:+: l.flatMap f := by
  obtain ⟨front, back, rfl⟩ := append_of_mem h
  exact ⟨front.flatMap f, back.flatMap f, by simp⟩

theorem infix_join {parts : List Bytes} {p sep : Bytes} (h : p ∈ parts) : p <:+:
    join parts sep := by
  obtain ⟨front, back, rfl⟩ := append_of_mem h
  unfold join
  induction front with
  | nil =>
    cases back with
    | nil => simp
    | cons x back => exact ⟨[], sep ++ sep.intercalate (x :: back), by simp⟩
  | cons x front ih =>
    obtain ⟨a, b, hab⟩ := ih (by simp)
    have hne : ∃ y rest, front ++ p :: back = y :: rest :=
      exists_cons_of_ne_nil (by simp)
    obtain ⟨y, rest, hy⟩ := hne
    refine ⟨x ++ sep ++ a, b, ?_⟩
    rw [cons_append, hy, intercalate_cons_cons, ← hy, ← hab]
    simp only [append_assoc]

variable {p : NodePattern} {q : Query} {name tenantId : Bytes} {aliases names : List Bytes}

theorem nodePattern_text_infix (h : p ∈ q.nodePatterns) : p.text <:+: q.text := by
  obtain ⟨c, hc, hp⟩ := mem_flatMap.mp h
  obtain ⟨path, hpath, hp⟩ := mem_flatMap.mp hp
  have hinPath : p.text <:+: path.text := by
    unfold Path.text
    rcases mem_cons.mp hp with rfl | hstep
    · exact infix_append [] _ _
    obtain ⟨step, hmem, rfl⟩ := mem_map.mp hstep
    have hinStep : step.2.text <:+: step.1.text ++ step.2.text :=
      (suffix_append _ _).isInfix
    have hinSteps := infix_flatMap (fun step : RelPattern × NodePattern =>
      step.1.text ++ step.2.text) hmem
    exact (hinStep.trans hinSteps).trans (suffix_append _ _).isInfix
  have hinClause : path.text <:+: c.text := by
    unfold MatchClause.text
    exact (infix_join (mem_map_of_mem hpath)).trans (infix_append _ _ _)
  have hinMatch : c.text <:+: q.matchText := infix_flatMap _ hc
  have hinText : q.matchText <:+: q.text := by
    unfold Query.text
    rw [append_assoc]
    exact (prefix_append _ _).isInfix
  exact ((hinPath.trans hinClause).trans hinMatch).trans hinText

/-- In a text with a colon a space stands before or behind it. -/
theorem untrimmed_append_cons {s t : Bytes} (hs : Untrimmed s) (ht : Untrimmed t) :
    Untrimmed (s ++ 0x3A :: t) := by
  have hcolon : ∀ e ∈ spaceRunes.map encodeRune, 0x3A ∉ e := by decide
  have hfront : ∀ e u v : Bytes, 0x3A ∉ e → e <+: u ++ 0x3A :: v → e <+: u := by
    intro e u v he hpre
    rcases prefix_or_prefix_of_prefix hpre (prefix_append u _) with h | ⟨w, rfl⟩
    · exact h
    rw [prefix_append_right_inj] at hpre
    cases w with
    | nil => simp
    | cons b w =>
      rw [cons_prefix_cons] at hpre
      exact absurd (hpre.1 ▸ mem_append_right _ mem_cons_self) he
  intro e he
  refine ⟨fun hpre => (hs e he).1 (hfront e s t (hcolon e he) hpre), fun hsuf => ?_⟩
  have hrev := reverse_prefix.mpr hsuf
  rw [reverse_append, reverse_cons, append_assoc] at hrev
  have hback := hfront _ _ _ (fun hmem => hcolon e he (mem_reverse.mp hmem)) hrev
  have hsuf' := reverse_prefix.mp hback
  exact (ht e he).2 hsuf'

variable {labels : List Bytes} {meaning : Meaning} {row : Row} {g : PropertyGraph}

theorem untrimmed_labelsText (hname : Untrimmed name) (hlabels : ∀ l ∈ labels, Untrimmed l) :
    Untrimmed (name ++ labelsText labels) := by
  induction labels generalizing name with
  | nil => simpa [labelsText] using hname
  | cons l labels ih =>
    have hnext := ih (untrimmed_append_cons hname (hlabels l mem_cons_self))
      fun x hx => hlabels x (mem_cons_of_mem _ hx)
    simpa [labelsText] using hnext

/-- In front of a label the scoping finds the name of the pattern. -/
theorem labelName_eq {text front : Bytes} {i : Nat}
    (h : text.take i = front ++ 0x28 :: (name ++ labelsText labels)) (hname : WholeName name)
    (hlabels : ∀ l ∈ labels, 0x28 ∉ l ∧ Untrimmed l) : labelName text i = name := by
  obtain ⟨-, hbytes, huntrimmed⟩ := hname
  have hparen : 0x28 ∉ name ++ labelsText labels := by
    intro hmem
    rcases mem_append.mp hmem with hmem | hmem
    · exact hbytes _ hmem (by decide)
    obtain ⟨l, hl, hmem⟩ := mem_flatMap.mp hmem
    rcases mem_cons.mp hmem with hcolon | hmem
    · revert hcolon
      decide
    · exact (hlabels l hl).1 hmem
  have hstop : ∀ b ∈ name, (!(ascii " :\x7b").contains b) = true := by
    intro b hb
    rw [Bool.not_eq_true', ← Bool.not_eq_true, contains_iff_mem]
    exact fun hmem => hbytes b hb (mem_append_left (ascii "(") hmem)
  have hword : (name ++ labelsText labels).takeWhile
      (fun b => !(ascii " :\x7b").contains b) = name := by
    rw [takeWhile_append_of_pos hstop]
    cases labels with
    | nil => simp [labelsText]
    | cons l labels => simp [labelsText, ascii]
  have hlabels' := untrimmed_labelsText huntrimmed fun l hl => (hlabels l hl).2
  unfold labelName
  rw [afterParen_eq h hparen, trimSpace_eq_self hlabels', hword, trimSpace_eq_self huntrimmed]

/-- **The name of a `:Memory` pattern is among the aliases.** -/
theorem name_mem_aliases {label : Bytes} (hwidth : UpperKeepsWidth q.text)
    (haliases : memoryAliases q.text = .ok aliases) (hp : p ∈ q.nodePatterns)
    (hname : WholeName p.name) (hlabels : ∀ l ∈ p.labels, 0x28 ∉ l ∧ Untrimmed l)
    (hlabel : label ∈ p.labels) (hmemory : ascii "MEMORY" <+: label.map upperByte) :
    p.name ∈ aliases := by
  obtain ⟨front, back, htext⟩ := nodePattern_text_infix hp
  obtain ⟨before, after, hsplit⟩ := append_of_mem hlabel
  obtain ⟨tail, htail⟩ := hmemory
  -- the text up to the colon of the label, and from it on
  have heq : q.text = (front ++ 0x28 :: (p.name ++ labelsText before)) ++
      (0x3A :: (label ++ (labelsText after ++ propsText p.props ++ ascii ")" ++ back))) := by
    rw [← htext, NodePattern.text, hsplit]
    simp [labelsText]
  have htake : q.text.take (front ++ 0x28 :: (p.name ++ labelsText before)).length =
      front ++ 0x28 :: (p.name ++ labelsText before) := by
    rw [heq, take_left]
  have hocc : Occurs (ascii ":MEMORY") (q.text.map upperByte)
      (front ++ 0x28 :: (p.name ++ labelsText before)).length := by
    have hle := (prefix_append (front ++ 0x28 :: (p.name ++ labelsText before))
      (0x3A :: (label ++ (labelsText after ++ propsText p.props ++ ascii ")" ++ back)))).length_le
    refine ⟨by rwa [length_map, heq], ?_⟩
    rw [← map_drop, heq, drop_left, map_cons, map_append, ← htail]
    exact ⟨tail ++ (labelsText after ++ propsText p.props ++ ascii ")" ++ back).map upperByte,
      by simp [ascii, upperByte]⟩
  have hlabelName := labelName_eq htake hname fun l hl =>
    hlabels l (hsplit ▸ mem_append_left _ hl)
  obtain ⟨name, hmem, hat⟩ :=
    memoryAliases_complete haliases ((mem_indices_toUpper_iff hwidth _).mpr hocc)
  rw [(aliasAt_eq_ok hat).1, hlabelName] at hmem
  exact hmem

/-! ## The text of a scoped query -/

/-- **The scoping makes the text of the query with the filter.** -/
theorem scoped_text {rewritten : Bytes} (hplaced : q.Placed)
    (hok : autoTenantScopeCypher q.text tenantId = .ok rewritten) :
    ∃ aliases, memoryAliases q.text = .ok aliases ∧
      rewritten = (q.withFilter tenantId aliases).text := by
  obtain ⟨aliases, returnIdx, haliases, hreturn, -, hcase⟩ := autoTenantScopeCypher_eq_ok hok
  cases hplaced.returns.symm.trans hreturn
  have hwheres := hplaced.wheres
  have hdrop : q.text.drop (q.matchText ++ q.whereText).length = q.returnText := by
    unfold Query.text
    rw [drop_left]
  have htake : q.text.take (q.matchText ++ q.whereText).length = q.matchText ++ q.whereText := by
    unfold Query.text
    rw [take_left]
  refine ⟨aliases, haliases, ?_⟩
  cases hpred : q.predicate with
  | none =>
    have hwhere : q.whereText = [] := by simp [Query.whereText, hpred]
    rcases hcase with ⟨whereIdx, hidx, hlt, -, -⟩ | ⟨-, rfl⟩
    · rw [hpred, hidx, Option.filter_some] at hwheres
      simp only [hlt, decide_true, if_true] at hwheres
      cases hwheres
    · unfold scopedWithoutWhere
      rw [htake, hdrop, hwhere]
      simp [Query.text, Query.withFilter, Query.matchText, Query.whereText, Query.returnText,
        Query.clauses, hpred]
  | some p =>
    have hwhere : q.whereText = ascii "WHERE " ++ p ++ ascii " " := by simp [Query.whereText, hpred]
    rcases hcase with ⟨whereIdx, hidx, hlt, -, rfl⟩ | ⟨hnone, -⟩
    · rw [hpred, hidx, Option.filter_some] at hwheres
      simp only [hlt, decide_true, if_true, Option.map_some, Option.some.injEq] at hwheres
      subst hwheres
      have hbefore : q.text.take (q.matchText.length + 5) = q.matchText ++ ascii "WHERE" := by
        unfold Query.text
        rw [hwhere, append_assoc, take_length_add_append]
        rfl
      have hpredicate : userPredicate q.text q.matchText.length
          (q.matchText ++ q.whereText).length = trimmedPredicate p := by
        unfold userPredicate trimmedPredicate
        rw [htake, drop_length_add_append, hwhere]
        rfl
      unfold scopedWithWhere scopedBefore
      rw [hbefore, hpredicate, hdrop]
      simp [Query.text, Query.withFilter, Query.matchText, Query.whereText, Query.returnText,
        Query.clauses, hpred, ascii]
    · -- the source takes the branch with `WHERE` here
      rw [hpred, Option.map_some, Option.filter_eq_some_iff, decide_eq_true_iff] at hwheres
      exact absurd (hnone _ hwheres.1) (Nat.not_le.mpr hwheres.2)

/-! ## The filter as a predicate -/

theorem readName_append {rest : Bytes} (h : PlainName name) :
    readName (name ++ 0x2E :: rest) = (name, 0x2E :: rest) := by
  rcases h with ⟨hword, -⟩ | ⟨hquoted, hbody⟩
  · have hdot : ∀ b ∈ name, (b != 0x2E) = true := by
      intro b hb
      have hb' := hword b hb
      rw [bne_iff_ne]
      rintro rfl
      revert hb'
      decide
    have hfirst : ∀ tail, name ++ 0x2E :: rest ≠ 0x60 :: tail := by
      intro tail heq
      cases name with
      | nil => cases heq
      | cons b name =>
        have hb := hword b mem_cons_self
        rw [cons_append, cons.injEq] at heq
        rw [heq.1] at hb
        revert hb
        decide
    unfold readName
    split
    · next tail heq => exact absurd heq (hfirst tail)
    · rw [takeWhile_append_of_pos hdot, dropWhile_append_of_pos hdot]
      simp
  · have hbody' : ∀ b ∈ name.tail.dropLast, (b != 0x60) = true := by
      intro b hb
      rw [bne_iff_ne]
      rintro rfl
      exact hbody hb
    generalize name.tail.dropLast = body at hquoted hbody'
    subst hquoted
    rw [cons_append, append_assoc]
    simp only [readName]
    rw [takeWhile_append_of_pos hbody', dropWhile_append_of_pos hbody']
    simp

theorem readTenantTest_aliasFilter (h : PlainName name) :
    readTenantTest (ascii " " ++ aliasFilter tenantId name ++ ascii " ") = some (name,
      tenantId) := by
  have hliteral := readLiteral_escape backslash singleQuote (by decide) tenantId [0x20]
  have hrest : ascii " " ++ aliasFilter tenantId name ++ ascii " " =
      0x20 :: (name ++ (ascii ".tenant_id = '" ++
        (escape backslash singleQuote tenantId ++ singleQuote :: [0x20]))) := by
    rw [aliasFilter_eq]
    simp [ascii, singleQuote]
  have hname : readName (name ++ (ascii ".tenant_id = '" ++
      (escape backslash singleQuote tenantId ++ singleQuote :: [0x20]))) =
        (name, ascii ".tenant_id = '" ++
          (escape backslash singleQuote tenantId ++ singleQuote :: [0x20])) := readName_append h
  rw [hrest, readTenantTest, hname, if_pos (prefix_append _ _),
    show (14 : Nat) = (ascii ".tenant_id = '").length from rfl, drop_left, hliteral]
  rfl

/-- The conjuncts of the scoped predicate. -/
def Query.conjuncts (q : Query) (tenantId : Bytes) (aliases : List Bytes) : List Bytes :=
  aliases.map (aliasFilter tenantId) ++
    q.predicate.toList.map fun p => ascii "(" ++ trimmedPredicate p ++ ascii ")"

theorem withFilter_predicate (h : aliases ≠ []) :
    (q.withFilter tenantId aliases).predicate =
      some (join (q.conjuncts tenantId aliases) (ascii " AND ")) := by
  unfold Query.withFilter Query.conjuncts tenantFilter
  cases q.predicate with
  | none => simp
  | some p =>
    rw [Option.toList_some, map_singleton, join_append_singleton _ _ (by simpa using h)]
    simp [ascii]

theorem joins_conjuncts (hcov : q.Covered meaning) (hplain : ∀ name ∈ aliases, PlainName name) :
    ∀ s ∈ q.conjuncts tenantId aliases, Reader.Joins s := by
  intro s hs
  rcases mem_append.mp hs with hs | hs
  · obtain ⟨name, hname, rfl⟩ := mem_map.mp hs
    exact Reader.joins_aliasFilter (hplain name hname)
  · obtain ⟨p, hp, rfl⟩ := mem_map.mp hs
    exact Reader.joins_group (hcov.closed p (Option.mem_toList.mp hp))

section Scoped

variable {q : Query} {meaning : Meaning} {tenantId : Bytes} {aliases : List Bytes}

theorem passes_withFilter_iff (hcov : q.Covered meaning) (hne : aliases ≠ [])
    (hplain : ∀ name ∈ aliases, PlainName name) (g : PropertyGraph) (row : Row) :
    passes meaning g (q.withFilter tenantId aliases).predicate row = true ↔
      ∀ s ∈ q.conjuncts tenantId aliases,
        textValue meaning g row (ascii " " ++ s ++ ascii " ") = some true := by
  have hparts : q.conjuncts tenantId aliases ≠ [] := by simp [Query.conjuncts, hne]
  rw [withFilter_predicate hne, passes, beq_iff_eq,
    evalPredicate_join _ hparts (joins_conjuncts hcov hplain), Kleene.all_eq_true_iff,
    forall_mem_map]

theorem passes_withFilter_congr (hcov : q.Covered meaning) (hne : aliases ≠ [])
    (hplain : ∀ name ∈ aliases, PlainName name) (g g' : PropertyGraph) :
    passes meaning g (q.withFilter tenantId aliases).predicate =
      passes meaning g' (q.withFilter tenantId aliases).predicate := by
  funext row
  rw [Bool.eq_iff_iff, passes_withFilter_iff hcov hne hplain, passes_withFilter_iff hcov hne hplain]
  refine forall₂_congr fun s hs => ?_
  have hvalue : textValue meaning g row (ascii " " ++ s ++ ascii " ") =
      textValue meaning g' row (ascii " " ++ s ++ ascii " ") := by
    rcases mem_append.mp hs with hs | hs
    · obtain ⟨name, hname, rfl⟩ := mem_map.mp hs
      simp only [textValue, readTenantTest_aliasFilter (hplain name hname)]
    obtain ⟨p, hp, rfl⟩ := mem_map.mp hs
    have hreads := hcov.reads p (Option.mem_toList.mp hp) g g' row
    unfold textValue
    split
    · rfl
    · simpa [ascii] using hreads
  rw [hvalue]

theorem ofTenant_of_passes (hcov : q.Covered meaning) (hne : aliases ≠ [])
    (hplain : ∀ name ∈ aliases, PlainName name) {g : PropertyGraph} {row : Row} {name : Bytes}
    {n : Node} (hpass : passes meaning g (q.withFilter tenantId aliases).predicate row = true)
    (hname : name ∈ aliases) (hbound : row.vars.lookup name = some (.node n)) :
    ofTenant tenantId n = true := by
  have htest := (passes_withFilter_iff hcov hne hplain g row).mp hpass (aliasFilter tenantId name)
    (mem_append_left _ (mem_map_of_mem hname))
  rw [textValue, readTenantTest_aliasFilter (hplain name hname)] at htest
  simp only [tenantTest, hbound, Option.map_eq_some_iff, beq_iff_eq] at htest
  obtain ⟨value, hvalue, rfl⟩ := htest
  simp [ofTenant, hvalue]

end Scoped

/-! ## Named nodes -/

/-- Every matched node is bound to one of the names. -/
def Row.Named (names : List Bytes) (row : Row) : Prop :=
  ∀ n ∈ row.nodes, ∃ name ∈ names, row.vars.lookup name = some (.node n)

theorem Row.Named.extends {row' : Row} {n : Node} (h : row.Named names)
    (hp : p.name ≠ [] ∧ p.name ∈ names) (hext : Extends p row row' n) : row'.Named names := by
  intro m hm
  rw [hext.nodes, mem_cons] at hm
  rcases hm with rfl | hm
  · exact ⟨p.name, hp.2, hext.named hp.1⟩
  · obtain ⟨name, hname, hbound⟩ := h m hm
    exact ⟨name, hname, hext.kept name _ hbound⟩

theorem named_matchPath {path : Path}
    (hpath : ∀ p ∈ path.nodePatterns, p.name ≠ [] ∧ p.name ∈ names) (h : row.Named names) :
    ∀ next ∈ matchPath g path row, next.Named names := by
  intro next hnext
  obtain ⟨s, hs, rfl⟩ := mem_map.mp hnext
  refine forall_mem_foldl_flatMap path.steps (I := fun s : Row × Node => s.1.Named names)
    (fun step hstep s hs next hnext => ?_) (fun s hs => ?_) s hs
  · refine hs.extends (hpath step.2 ?_) (mem_matchStep hnext).2
    exact mem_cons_of_mem _ (mem_map_of_mem hstep)
  · exact h.extends (hpath path.first mem_cons_self) (mem_matchNode hs).2

theorem named_matchPaths {paths : List Path}
    (hpaths : ∀ p ∈ paths.flatMap (·.nodePatterns), p.name ≠ [] ∧ p.name ∈ names)
    (h : row.Named names) : ∀ next ∈ matchPaths g paths row, next.Named names := by
  refine forall_mem_foldl_flatMap paths (I := fun r : Row => r.Named names)
    (fun path hpath r hr next hnext => ?_) (fun r hr => ?_)
  · exact named_matchPath (fun p hp => hpaths p (mem_flatMap.mpr ⟨path, hpath, hp⟩)) hr next
      hnext
  · rw [mem_singleton.mp hr]
    exact h

/-! ## Coverage -/

theorem MatchClause.rows_mandatory {c : MatchClause} (h : c.optional = false) (g : PropertyGraph)
    (accept : Row → Bool) (row : Row) :
    c.rows g accept row = (matchPaths g c.paths row).filter accept := by
  simp [MatchClause.rows, h]

section Coverage

variable {earlier : List MatchClause} (hmandatory : ∀ c ∈ earlier, c.optional = false)
include hmandatory

/-- The rows inside a selection are those of the restricted graph. -/
theorem filter_earlier (g : PropertyGraph) (keep : Node → Bool) :
    (earlier.foldl (fun rows c => rows.flatMap (c.rows g fun _ => true)) [Row.empty]).filter
        (·.within keep) =
      earlier.foldl (fun rows c => rows.flatMap (c.rows (g.restrict keep) fun _ => true))
        [Row.empty] := by
  have hrows : ∀ c ∈ earlier, ∀ g row, c.rows g (fun _ => true) row = matchPaths g c.paths row :=
    fun c hc g row => by rw [MatchClause.rows_mandatory (hmandatory c hc), filter_true]
  refine filter_foldl_flatMap earlier (I := fun _ => True) (l := [Row.empty])
    (fun _ _ _ _ _ _ => trivial) (fun c hc row _ hrow next hnext => ?_)
    (fun c hc row _ hrow => ?_) (fun _ _ => trivial)
  · rw [hrows c hc] at hnext
    exact within_of_mem_matchPaths hnext hrow
  · rw [hrows c hc, hrows c hc]
    exact filter_matchPaths hrow

theorem named_earlier {names : List Bytes}
    (hnames : ∀ c ∈ earlier, ∀ p ∈ c.nodePatterns, p.name ≠ [] ∧ p.name ∈ names)
    (g : PropertyGraph) :
    ∀ row ∈ earlier.foldl (fun rows c => rows.flatMap (c.rows g fun _ => true)) [Row.empty],
      row.Named names := by
  refine forall_mem_foldl_flatMap earlier (I := fun r : Row => r.Named names)
    (fun c hc row hrow next hnext => ?_) (fun row hrow => ?_)
  · rw [MatchClause.rows_mandatory (hmandatory c hc), filter_true] at hnext
    exact named_matchPaths (hnames c hc) hrow next hnext
  · rw [mem_singleton.mp hrow]
    intro n hn
    cases hn

end Coverage

theorem Query.Covered.names_mem (hcov : q.Covered meaning) (hwidth : UpperKeepsWidth q.text)
    (haliases : memoryAliases q.text = .ok aliases) :
    ∀ c ∈ q.clauses, ∀ p ∈ c.nodePatterns, p.name ≠ [] ∧ p.name ∈ aliases := by
  intro c hc p hp
  have hmem : p ∈ q.nodePatterns := mem_flatMap.mpr ⟨c, hc, hp⟩
  obtain ⟨p', hp', hname, l, hl, hmemory⟩ := hcov.memory p hmem
  refine ⟨(hcov.named p hmem).1, hname ▸ ?_⟩
  exact name_mem_aliases hwidth haliases hp' (hcov.named p' hp') (hcov.labels p' hp') hl hmemory

section Rows

variable {q : Query} {meaning : Meaning} (hcov : q.Covered meaning)
include hcov

theorem Query.Covered.earlier_mandatory : ∀ c ∈ q.earlier, c.optional = false := fun c hc =>
  hcov.mandatory c (mem_append_left _ hc)

theorem Query.Covered.rows_withFilter (tenantId : Bytes) (aliases : List Bytes)
    (g : PropertyGraph) :
    (q.withFilter tenantId aliases).rows meaning g =
      (q.earlier.foldl (fun rows c => rows.flatMap (c.rows g fun _ => true)) [Row.empty]).flatMap
        fun row => (matchPaths g q.last.paths row).filter
          (passes meaning g (q.withFilter tenantId aliases).predicate) := by
  have hlast := hcov.mandatory q.last (mem_append_right _ (mem_singleton_self _))
  exact flatMap_congr fun row _ => MatchClause.rows_mandatory hlast g _ row

variable {aliases : List Bytes} (hne : aliases ≠ []) (hplain : ∀ name ∈ aliases, PlainName name)
include hne hplain

theorem Query.Covered.rows_within (tenantId : Bytes)
    (hnames : ∀ c ∈ q.clauses, ∀ p ∈ c.nodePatterns, p.name ≠ [] ∧ p.name ∈ aliases)
    (g : PropertyGraph) : ∀ row ∈ (q.withFilter tenantId aliases).rows meaning g,
      row.within (ofTenant tenantId) = true := by
  intro row hrow
  rw [hcov.rows_withFilter] at hrow
  obtain ⟨start, hstart, hrow⟩ := mem_flatMap.mp hrow
  obtain ⟨hmatch, hpass⟩ := mem_filter.mp hrow
  have hstart' := named_earlier hcov.earlier_mandatory
    (fun c hc => hnames c (mem_append_left _ hc)) g start hstart
  have hnamed := named_matchPaths
    (hnames q.last (mem_append_right _ (mem_singleton_self _))) hstart' row hmatch
  refine all_eq_true.mpr fun n hn => ?_
  obtain ⟨name, hname, hbound⟩ := hnamed n hn
  exact ofTenant_of_passes hcov hne hplain hpass hname hbound

theorem Query.Covered.rows_restrict (tenantId : Bytes)
    (hnames : ∀ c ∈ q.clauses, ∀ p ∈ c.nodePatterns, p.name ≠ [] ∧ p.name ∈ aliases)
    (g : PropertyGraph) :
    (q.withFilter tenantId aliases).rows meaning g =
      (q.withFilter tenantId aliases).rows meaning (g.restrict (ofTenant tenantId)) := by
  have hall := filter_eq_self.mpr (hcov.rows_within hne hplain tenantId hnames g)
  rw [← hall, hcov.rows_withFilter, hcov.rows_withFilter,
    passes_withFilter_congr hcov hne hplain (g.restrict (ofTenant tenantId)) g,
    ← filter_earlier hcov.earlier_mandatory g (ofTenant tenantId)]
  refine filter_flatMap_filter (fun row _ hrow next hnext => ?_) (fun row _ hrow => ?_)
  · exact within_of_mem_matchPaths (mem_of_mem_filter hnext) hrow
  · rw [← filter_matchPaths hrow, filter_filter, filter_filter]
    simp only [Bool.and_comm]

end Rows

/-- `(name:Memory)`. -/
def memoryNode (name : Bytes) : NodePattern := ⟨name, [ascii "Memory"], []⟩

/-- A relationship of any type to the right. -/
def anyEdge : RelPattern := ⟨[], [], .right⟩

/-- `MATCH (m:Memory)-[]->(n:Memory) WHERE m.level = 1 RETURN n`. -/
def linkedMemories : Query where
  earlier := []
  last := ⟨false, [⟨memoryNode (ascii "m"), [(anyEdge, memoryNode (ascii "n"))]⟩]⟩
  predicate := some (ascii "m.level = 1")
  result := ascii "n"

theorem linkedMemories_placed : linkedMemories.Placed where
  width := by decide +kernel
  returns := by decide +kernel
  wheres := by decide +kernel
  names := by decide +kernel

theorem linkedMemories_covered : linkedMemories.Covered fun _ _ _ => none where
  mandatory := by decide +kernel
  named := by decide +kernel
  labels := by decide +kernel
  memory := by decide +kernel
  closed p hp := by
    cases hp
    exact ⟨.code, by decide +kernel, rfl⟩
  reads _ _ _ _ _ := rfl

/-- A memory of `t1` with a link to an entity of `t2`, and a memory of `t2`. -/
def sharedGraph : PropertyGraph where
  nodes := [⟨1, [ascii "Memory"], [(ascii "tenant_id", ascii "t1")]⟩,
    ⟨2, [ascii "Entity"], [(ascii "tenant_id", ascii "t2")]⟩,
    ⟨3, [ascii "Memory"], [(ascii "tenant_id", ascii "t2")]⟩]
  edges := [⟨1, 1, 2, ascii "MENTIONS", []⟩]

/-- `MATCH (m:Memory), (n) RETURN n`. -/
def unlabelledNode : Query where
  earlier := []
  last := ⟨false, [⟨memoryNode (ascii "m"), []⟩, ⟨⟨ascii "n", [], []⟩, []⟩]⟩
  predicate := none
  result := ascii "n"

/-- `MATCH (m:Memory)-[]->(:Entity) RETURN m`. -/
def anonymousEntity : Query where
  earlier := []
  last := ⟨false, [⟨memoryNode (ascii "m"), [(anyEdge, ⟨[], [ascii "Entity"], []⟩)]⟩]⟩
  predicate := none
  result := ascii "m"

/-- `MATCH (m:Memory) OPTIONAL MATCH (m)-[]->(n:Memory) RETURN m`. -/
def optionalLink : Query where
  earlier := [⟨false, [⟨memoryNode (ascii "m"), []⟩]⟩]
  last := ⟨true, [⟨⟨ascii "m", [], []⟩, [(anyEdge, memoryNode (ascii "n"))]⟩]⟩
  predicate := none
  result := ascii "m"

end Pcmi.Graph
