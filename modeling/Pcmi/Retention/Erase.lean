import Pcmi.Memory.Lifecycle
import Pcmi.Memory.Paths

/-!
# `RetentionRepository.Erase`

Erasure deletes every version of every memory of a tenant under a prefix, and the rows derived from
them: the transaction collects the ids, then runs one `DELETE` for each table; here it runs alone.
The five tables of derived rows are one list, each row with its table, the ids it cites and the
condition of its `DELETE`.
-/

namespace Pcmi.Retention

open List Pcmi.Memory

/-! ## Rows -/

structure MemoryLink where
  tenantId : String
  fromPath : Ltree
  toPath : Ltree

structure Distilled where
  tenantId : String
  path : Ltree
  summary : String
  insights : List String
  sourceEntryIds : List Nat
  version : Nat

structure LinkProposal where
  tenantId : String
  sourceMemoryId : Nat
  fromMemoryId : Nat
  toMemoryId : Nat
  fromPath : Ltree
  toPath : Ltree

structure EntitySnapshot where
  tenantId : String
  memoryId : Nat
  memoryVersion : Nat
  slot : String

structure AliasProposal where
  tenantId : String
  aliasKey : String
  sourceMemoryId : Option Nat

inductive RunStatus where
  | pending | completed | failed
  deriving DecidableEq

structure ConsolidationRun where
  id : Nat
  tenantId : String
  pathPrefix : String
  sourceEntryIds : List Nat
  consolidatedPath : String
  consolidatedEntryId : Option Nat
  status : RunStatus

inductive DerivedTable where
  | distilledKnowledge | graphLinkProposals | entitySnapshots | entityAliasProposals
  | consolidationRuns
  deriving DecidableEq

inductive Derived where
  | distilled (d : Distilled)
  | linkProposal (p : LinkProposal)
  | snapshot (s : EntitySnapshot)
  | aliasProposal (p : AliasProposal)
  | run (r : ConsolidationRun)

namespace Derived

def table : Derived → DerivedTable
  | .distilled _ => .distilledKnowledge
  | .linkProposal _ => .graphLinkProposals
  | .snapshot _ => .entitySnapshots
  | .aliasProposal _ => .entityAliasProposals
  | .run _ => .consolidationRuns

def tenantId : Derived → String
  | .distilled d => d.tenantId
  | .linkProposal p => p.tenantId
  | .snapshot s => s.tenantId
  | .aliasProposal p => p.tenantId
  | .run r => r.tenantId

/-- The ids of the memories a row cites. -/
def refs : Derived → List Nat
  | .distilled d => d.sourceEntryIds
  | .linkProposal p => [p.sourceMemoryId, p.fromMemoryId, p.toMemoryId]
  | .snapshot s => [s.memoryId]
  | .aliasProposal p => p.sourceMemoryId.toList
  | .run r => r.sourceEntryIds ++ r.consolidatedEntryId.toList

end Derived

/-! ## The statements -/

/-- A tenant's memories under a prefix, as text and as `ltree`. -/
structure EraseTarget where
  tenantId : String
  pathPrefix : String
  path : Ltree

def overlaps (a b : List Nat) : Bool := a.any fun id => b.contains id

def leftText (s : String) (n : Nat) : List Char := s.toList.take n

section

variable (x : EraseTarget) (erased : List Nat)

/-- The condition of the `DELETE` on `memory_entries`. -/
def erasesMemory (r : Row) : Bool := r.tenantId == x.tenantId && r.path.under x.path

/-- The condition of the `DELETE` on `memory_links`. -/
def erasesLink (l : MemoryLink) : Bool :=
  l.tenantId == x.tenantId && (l.fromPath.under x.path || l.toPath.under x.path)

/-- The conditions of the `DELETE`s on the derived tables. -/
def erasesDerived : Derived → Bool
  | .distilled d => d.tenantId == x.tenantId &&
      (d.path.under x.path || overlaps d.sourceEntryIds erased)
  | .linkProposal p => p.tenantId == x.tenantId &&
      (p.fromPath.under x.path || p.toPath.under x.path || erased.contains p.sourceMemoryId ||
        erased.contains p.fromMemoryId || erased.contains p.toMemoryId)
  | .snapshot s => s.tenantId == x.tenantId && erased.contains s.memoryId
  | .aliasProposal p =>
    p.tenantId == x.tenantId && p.sourceMemoryId.any fun id => erased.contains id
  | .run r => r.tenantId == x.tenantId &&
      (overlaps r.sourceEntryIds erased ||
        (r.consolidatedEntryId.any fun id => erased.contains id) ||
        r.consolidatedPath == x.pathPrefix ||
        leftText r.consolidatedPath (x.pathPrefix.length + 1) == x.pathPrefix.toList ++ ['.'])

end

structure EraseCounts where
  memoryVersions : Nat := 0
  paths : Nat := 0
  links : Nat := 0
  distilled : Nat := 0
  linkProposals : Nat := 0
  entitySnapshots : Nat := 0
  aliasProposals : Nat := 0
  consolidationRuns : Nat := 0
  deriving DecidableEq

/-- What Erase writes into the `gdpr_erase` row of `audit_log`. -/
structure EraseEvidence where
  tenantId : String
  apiKeyId : Option String
  pathPrefix : String
  reason : String
  counts : EraseCounts

structure Db where
  memories : Table
  links : List MemoryLink
  derived : List Derived
  nextRunId : Nat
  auditLog : List EraseEvidence

/-- The deleting statements, by their tables. -/
inductive EraseStmt where
  | links
  | derived (t : DerivedTable)
  | memories
  deriving DecidableEq

/-- `steps`, in order. -/
def eraseStmts : List EraseStmt :=
  [.links, .derived .distilledKnowledge, .derived .graphLinkProposals, .derived .entitySnapshots,
    .derived .entityAliasProposals, .derived .consolidationRuns, .memories]

/-- The count that a statement fills. -/
def EraseCounts.set (counts : EraseCounts) (n : Nat) : EraseStmt → EraseCounts
  | .links => { counts with links := n }
  | .derived .distilledKnowledge => { counts with distilled := n }
  | .derived .graphLinkProposals => { counts with linkProposals := n }
  | .derived .entitySnapshots => { counts with entitySnapshots := n }
  | .derived .entityAliasProposals => { counts with aliasProposals := n }
  | .derived .consolidationRuns => { counts with consolidationRuns := n }
  | .memories => { counts with memoryVersions := n }

def doomed (x : EraseTarget) (erased : List Nat) (t : DerivedTable) (d : Derived) : Bool :=
  decide (d.table = t) && erasesDerived x erased d

/-- One statement: what it leaves, and the number of rows it deleted. -/
def EraseStmt.exec (x : EraseTarget) (erased : List Nat) (db : Db) : EraseStmt → Db × Nat
  | .links =>
    ({ db with links := db.links.filter fun l => !erasesLink x l },
      (db.links.filter (erasesLink x)).length)
  | .derived t =>
    ({ db with derived := db.derived.filter fun d => !doomed x erased t d },
      (db.derived.filter (doomed x erased t)).length)
  | .memories =>
    ({ db with memories.rows := db.memories.rows.filter fun r => !erasesMemory x r },
      (db.memories.rows.filter (erasesMemory x)).length)

def execAll (x : EraseTarget) (erased : List Nat) :
    List EraseStmt → Db × EraseCounts → Db × EraseCounts
  | [], s => s
  | stmt :: rest, (db, counts) =>
    execAll x erased rest ((stmt.exec x erased db).1, counts.set (stmt.exec x erased db).2 stmt)

/-! ## The transaction -/

structure EraseRequest where
  pathPrefix : String
  dryRun : Bool := false
  reason : String := ""

def EraseRequest.target (req : EraseRequest) (tenantId : String) (path : Ltree) : EraseTarget :=
  ⟨tenantId, req.pathPrefix, path⟩

/-- `pcmi_erased`. -/
def Db.collect (db : Db) (x : EraseTarget) : List Row := db.memories.rows.filter (erasesMemory x)

/-- The vertices of the erased memories, by path and by id. -/
def vertexIds (collected : List Row) : List String :=
  (collected.map (fun r => r.path.text) ++
    collected.map fun r => "memory." ++ toString r.id).dedup

/-- `RetentionRepository.Erase`: counts, vertices and tables. -/
def Db.erase (env : Env) (db : Db) (tenantId : String) (req : EraseRequest) (apiKeyId : String) :
    Except String (EraseCounts × List String × Db) :=
  match env.castLtree req.pathPrefix with
  | none => .error "erase collect: invalid ltree"
  | some path =>
    let x := req.target tenantId path
    let collected := db.collect x
    let out := execAll x (collected.map (·.id)) eraseStmts (db, {})
    let counts := { out.2 with paths := (collected.map fun r => r.path).dedup.length }
    -- a dry run rolls back
    if req.dryRun then .ok (counts, [], db)
    else
      .ok (counts, vertexIds collected,
        { out.1 with auditLog := out.1.auditLog ++
            [⟨tenantId, nullIfEmpty apiKeyId, req.pathPrefix, req.reason, counts⟩] })

/-! ## What is left -/

section

variable {x : EraseTarget} {erased : List Nat} {id : Nat} {env : Env} {db db' : Db}
  {apiKeyId tenantId : String} {req : EraseRequest} {counts : EraseCounts} {vertices : List String}

theorem contains_of_mem (h : id ∈ erased) : erased.contains id = true :=
  contains_iff_mem.mpr h

theorem overlaps_of_mem {a : List Nat} (ha : id ∈ a) (h : id ∈ erased) :
    overlaps a erased = true :=
  any_eq_true.mpr ⟨id, ha, contains_of_mem h⟩

/-- **A row that cites a collected memory is deleted.** -/
theorem erasesDerived_of_ref {d : Derived} (htenant : d.tenantId = x.tenantId) (hid : id ∈ d.refs)
    (h : id ∈ erased) : erasesDerived x erased d = true := by
  have hbeq : (d.tenantId == x.tenantId) = true := beq_iff_eq.mpr htenant
  have hcontains := contains_of_mem h
  cases d with
  | distilled d =>
    have hover : overlaps d.sourceEntryIds erased = true := overlaps_of_mem hid h
    exact Bool.and_eq_true_iff.mpr ⟨hbeq, by rw [hover, Bool.or_true]⟩
  | linkProposal p =>
    refine Bool.and_eq_true_iff.mpr ⟨hbeq, ?_⟩
    simp only [Derived.refs, mem_cons, not_mem_nil, or_false] at hid
    rcases hid with rfl | rfl | rfl
    · simp only [hcontains, Bool.or_true, Bool.true_or]
    · simp only [hcontains, Bool.or_true, Bool.true_or]
    · simp only [hcontains, Bool.or_true]
  | snapshot s =>
    obtain rfl := mem_singleton.mp hid
    exact Bool.and_eq_true_iff.mpr ⟨hbeq, hcontains⟩
  | aliasProposal p =>
    have hany : (p.sourceMemoryId.any fun id => erased.contains id) = true :=
      Option.any_eq_true _ _ |>.mpr ⟨id, Option.mem_toList.mp hid, hcontains⟩
    exact Bool.and_eq_true_iff.mpr ⟨hbeq, hany⟩
  | run r =>
    refine Bool.and_eq_true_iff.mpr ⟨hbeq, ?_⟩
    rcases mem_append.mp hid with hid | hid
    · rw [overlaps_of_mem hid h]
      rfl
    have hany : (r.consolidatedEntryId.any fun id => erased.contains id) = true :=
      Option.any_eq_true _ _ |>.mpr ⟨id, Option.mem_toList.mp hid, hcontains⟩
    simp only [hany, Bool.or_true, Bool.true_or]

theorem execAll_derived (stmts : List EraseStmt) (db : Db) (counts : EraseCounts) :
    (execAll x erased stmts (db, counts)).1.derived = db.derived.filter fun d =>
      !(decide (.derived d.table ∈ stmts) && erasesDerived x erased d) := by
  induction stmts generalizing db counts with
  | nil => simp [execAll]
  | cons stmt stmts ih =>
    rw [execAll, ih]
    cases stmt with
    | links | memories => simp [EraseStmt.exec]
    | derived t =>
      rw [EraseStmt.exec, filter_filter]
      refine filter_congr fun d _ => ?_
      by_cases ht : d.table = t
      · by_cases he : erasesDerived x erased d = true <;> simp [doomed, ht, he]
      · simp [doomed, ht]

theorem execAll_memories (stmts : List EraseStmt) (db : Db) (counts : EraseCounts) :
    (execAll x erased stmts (db, counts)).1.memories =
      { db.memories with rows := db.memories.rows.filter fun r =>
        !(decide (.memories ∈ stmts) && erasesMemory x r) } := by
  induction stmts generalizing db counts with
  | nil => simp [execAll]
  | cons stmt stmts ih =>
    rw [execAll, ih]
    cases stmt with
    | links | derived t => simp [EraseStmt.exec]
    | memories =>
      simp only [EraseStmt.exec, filter_filter, mem_cons, true_or, decide_true,
        Bool.true_and]
      congr 1
      refine filter_congr fun r _ => ?_
      by_cases he : erasesMemory x r = true <;> simp [he]

theorem execAll_nextRunId (stmts : List EraseStmt) (db : Db) (counts : EraseCounts) :
    (execAll x erased stmts (db, counts)).1.nextRunId = db.nextRunId := by
  induction stmts generalizing db counts with
  | nil => rfl
  | cons stmt stmts ih =>
    rw [execAll, ih]
    cases stmt <;> rfl

theorem derived_mem_eraseStmts (t : DerivedTable) : EraseStmt.derived t ∈ eraseStmts := by
  cases t <;> decide

theorem execAll_eraseStmts_derived (db : Db) (counts : EraseCounts) :
    (execAll x erased eraseStmts (db, counts)).1.derived =
      db.derived.filter fun d => !erasesDerived x erased d := by
  rw [execAll_derived]
  refine filter_congr fun d _ => ?_
  rw [decide_eq_true (derived_mem_eraseStmts d.table), Bool.true_and]

/-- **What an erasure leaves**: no memory of the target, nothing derived that matches. -/
theorem erase_eq_ok {path : Ltree}
    (h : db.erase env tenantId req apiKeyId = .ok (counts, vertices, db'))
    (hpath : env.castLtree req.pathPrefix = some path) (hdry : req.dryRun = false) :
    db'.memories = { db.memories with
        rows := db.memories.rows.filter fun r => !(erasesMemory (req.target tenantId path) r) } ∧
      db'.derived = db.derived.filter fun d =>
        !erasesDerived (req.target tenantId path)
          ((db.collect (req.target tenantId path)).map (·.id)) d := by
  rw [Db.erase, hpath] at h
  dsimp only at h
  rw [hdry] at h
  cases h
  refine ⟨?_, ?_⟩
  · rw [execAll_memories]
    rfl
  · exact execAll_eraseStmts_derived db {}

theorem erase_shrinks (h : db.erase env tenantId req apiKeyId = .ok (counts, vertices, db')) :
    db'.memories.nextId = db.memories.nextId ∧ db'.memories.rows ⊆ db.memories.rows ∧
      db'.derived ⊆ db.derived ∧ db'.nextRunId = db.nextRunId := by
  unfold Db.erase at h
  split at h
  · cases h
  dsimp only at h
  split at h <;> cases h
  · exact ⟨rfl, Subset.refl _, Subset.refl _, rfl⟩
  refine ⟨?_, ?_, ?_, execAll_nextRunId ..⟩
  · dsimp only
    rw [execAll_memories]
  · dsimp only
    rw [execAll_memories]
    exact filter_subset_self _
  · dsimp only
    rw [execAll_derived]
    exact filter_subset_self _

/-! ## Paths kept as text -/

open Pcmi.Lib LabelRules

/-- A text is another, or begins with it and a dot, exactly as labels do. -/
theorem labelsOf_isPrefix_iff {p pre : String} (hne : pre ≠ "") :
    labelsOf pre <+: labelsOf p ↔ p = pre ∨ pre.toList ++ ['.'] <+: p.toList := by
  rcases eq_or_ne p "" with rfl | hp
  · refine iff_of_false (fun h => hne ?_) ?_
    · rw [← Ltree.text_labelsOf pre, prefix_nil.mp h]
      rfl
    · rintro (h | h)
      · exact hne h.symm
      · exact append_ne_nil_of_right_ne_nil _ (cons_ne_nil _ _) (prefix_nil.mp h)
  · unfold labelsOf
    rw [if_neg hne, if_neg hp, ← String.toList_inj, ← splitOn_isPrefix_iff]
    exact prefix_map_iff_of_injective fun _ _ => String.ofList_injective

/-- **The test on the text of a path is the test on the path.** -/
theorem textTest_iff (rules : LabelRules) (x : EraseTarget) (erased : List Nat)
    (r : ConsolidationRun) {q : Ltree} (hx : rules.castLtree x.pathPrefix = some x.path)
    (hq : rules.castLtree r.consolidatedPath = some q) (hne : x.pathPrefix ≠ "") :
    (r.consolidatedPath = x.pathPrefix ∨
        x.pathPrefix.toList ++ ['.'] <+: r.consolidatedPath.toList ↔
      x.path.labels <+: q.labels) ∧
    erasesDerived x erased (.run r) = (r.tenantId == x.tenantId &&
      (overlaps r.sourceEntryIds erased ||
        (r.consolidatedEntryId.any fun id => erased.contains id) || q.under x.path)) := by
  have hlabels : ∀ {text : String} {p : Ltree}, rules.castLtree text = some p →
      p.labels = labelsOf text := fun {text p} h => by
    obtain ⟨hstores, rfl⟩ := castLtree_eq_some_iff.mp h
    exact (labelsOf_text hstores).symm
  have htest : x.path.labels <+: q.labels ↔ r.consolidatedPath = x.pathPrefix ∨
      x.pathPrefix.toList ++ ['.'] <+: r.consolidatedPath.toList := by
    rw [hlabels hx, hlabels hq, labelsOf_isPrefix_iff hne]
  have hleft : leftText r.consolidatedPath (x.pathPrefix.length + 1) = x.pathPrefix.toList ++
      ['.'] ↔
      x.pathPrefix.toList ++ ['.'] <+: r.consolidatedPath.toList := by
    rw [prefix_iff_eq_take, eq_comm, leftText, length_append, String.length_toList]
    rfl
  refine ⟨htest.symm, ?_⟩
  rw [erasesDerived, Bool.eq_iff_iff]
  simp only [Bool.and_eq_true, Bool.or_eq_true, beq_iff_eq, hleft, or_assoc, ← htest, Ltree.under,
    isPrefixOf_iff_prefix]

theorem textTest_rootA :
    let x : EraseTarget := ⟨"t", "root.a", ⟨["root", "a"]⟩⟩
    let r : ConsolidationRun := ⟨1, "t", "root", [], "root.a.b", none, .completed⟩
    wordRules.castLtree r.consolidatedPath = some ⟨["root", "a", "b"]⟩ ∧
      erasesDerived x [] (.run r) = Ltree.under ⟨["root", "a", "b"]⟩ x.path := by
  intro x r
  have hx : wordRules.castLtree x.pathPrefix = some x.path := by decide
  have hr : wordRules.castLtree r.consolidatedPath = some ⟨["root", "a", "b"]⟩ := by decide
  exact ⟨hr, (textTest_iff wordRules x [] r hx hr (by decide)).2⟩

end

end Pcmi.Retention
