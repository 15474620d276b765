import Pcmi.Graph.EntitySync
import Pcmi.Memory.Paths

/-!
# The trigger on `memory_links`

Behind every row of a statement `trg_memory_links_sync_graph_fn` calls the graph. The functions it
calls catch what goes wrong in them, but not a cancelled query, and the weight is cast outside their
blocks: a text that is no number makes the whole statement fail.
-/

namespace Pcmi.Graph

open Pcmi.Lib Pcmi.Memory

structure MemoryLink (W : Type) where
  id : Nat
  tenantId : String
  fromPath : Ltree
  toPath : Ltree
  linkType : String
  metadata : Json
  weight : W

/-- What a statement has done to a row. -/
inductive Change (W : Type) where
  | insert (new : MemoryLink W)
  | update (old new : MemoryLink W)
  | delete (old : MemoryLink W)

def Change.new {W : Type} : Change W → Option (MemoryLink W)
  | .insert new => some new
  | .update _ new => some new
  | .delete _ => none

/-- A call of `cypher`, with the label that was made safe. -/
inductive GraphCall (W : Type) where
  | sync (fromPath toPath : String) (label : Text) (weight : W) (tenantId : String)
  | delete (fromPath toPath : String) (label : Text) (tenantId : String)

/-- What a graph call can raise. -/
inductive Condition where
  | queryCanceled
  | assertFailure
  | other (sqlerrm : String)
  deriving DecidableEq

/-- `WHEN others` matches all conditions but two. -/
def Condition.matchesOthers : Condition → Bool
  | .other _ => true
  | _ => false

/-- What ends a statement. -/
inductive StatementError where
  | raised (c : Condition)
  /-- `invalid input syntax for type double precision`, or out of its range. -/
  | invalidFloat8 (text : String)
  deriving DecidableEq

/-- Texts of `jsonb`, the cast to `float8`, `\w`, and the graph calls. -/
structure GraphDb (G W : Type) where
  jsonText : Json → String
  castFloat8 : String → Option W
  word : WordClass
  exec : GraphCall W → G → Except Condition G

section

variable {G W : Type} (db : GraphDb G W)

/-- `metadata->>key`. An object of `jsonb` has a key once. -/
def jsonField (key : String) : Json → Option String
  | .obj fields =>
    match fields.lookup key with
    | none => none
    | some .null => none
    | some (.str s) => some s
    | some v => some (db.jsonText v)
  | _ => none

/-- `COALESCE((NEW.metadata->>'weight')::float8, NEW.weight, 1.0)`. -/
def syncedWeight (link : MemoryLink W) : Except StatementError W :=
  match jsonField db "weight" link.metadata with
  | none => .ok link.weight
  | some text =>
    match db.castFloat8 text with
    | none => .error (.invalidFloat8 text)
    | some w => .ok w

/-- A call in a block with `EXCEPTION WHEN others`, which undoes it. -/
def attempt (g : G) (call : GraphCall W) : Except StatementError G :=
  match db.exec call g with
  | .ok g' => .ok g'
  | .error c => if c.matchesOthers then .ok g else .error (.raised c)

def safeType (link : MemoryLink W) : Text := db.word.safe link.linkType.toList

/-- `sync_memory_link_to_graph`. -/
def syncCall (link : MemoryLink W) (weight : W) : GraphCall W :=
  .sync link.fromPath.text link.toPath.text (safeType db link) weight link.tenantId

/-- `delete_memory_link_from_graph`. -/
def deleteCall (link : MemoryLink W) : GraphCall W :=
  .delete link.fromPath.text link.toPath.text (safeType db link) link.tenantId

/-- One of the columns of the key `IS DISTINCT FROM` before. -/
def rekeyed (old new : MemoryLink W) : Bool :=
  old.fromPath != new.fromPath || old.toPath != new.toPath || old.linkType != new.linkType ||
    old.tenantId != new.tenantId

/-- `trg_memory_links_sync_graph_fn`. -/
def syncTrigger (g : G) : Change W → Except StatementError G
  | .delete old => attempt db g (deleteCall db old)
  | .insert new => do
    let weight ← syncedWeight db new
    attempt db g (syncCall db new weight)
  | .update old new => do
    let g ← if rekeyed old new then attempt db g (deleteCall db old) else .ok g
    let weight ← syncedWeight db new
    attempt db g (syncCall db new weight)

/-- The triggers of a statement, one row after the other. -/
def fireTriggers (g : G) (changes : List (Change W)) : Except StatementError G :=
  changes.foldlM (syncTrigger db) g

/-- A statement that without the trigger leaves `rows` after `changes`. -/
def runStatement (g : G) (rows : List (MemoryLink W)) (changes : List (Change W)) :
    Except StatementError (List (MemoryLink W) × G) :=
  (fireTriggers db g changes).map fun g' => (rows, g')

/-! ## When a statement succeeds -/

/-- The weight of the row is absent, `null` or the text of a number. -/
def Readable (c : Change W) : Prop := ∀ link ∈ c.new, ∃ w, syncedWeight db link = .ok w

/-- The graph calls of a change whose weight is readable. -/
def callsOf : Change W → List (GraphCall W)
  | .delete old => [deleteCall db old]
  | .insert new => ((syncedWeight db new).toOption.map (syncCall db new)).toList
  | .update old new =>
    (if rekeyed old new then [deleteCall db old] else []) ++
      ((syncedWeight db new).toOption.map (syncCall db new)).toList

def attemptAll (g : G) (calls : List (GraphCall W)) : Except StatementError G :=
  calls.foldlM (attempt db) g

/-- One of the calls raises a condition that `WHEN others` does not match. -/
def Interrupted (g : G) (calls : List (GraphCall W)) : Prop := ∃ e, attemptAll db g calls = .error e

end

section

variable {G W : Type} {db : GraphDb G W}

theorem attemptAll_append (g : G) (calls calls' : List (GraphCall W)) :
    attemptAll db g (calls ++ calls') = attemptAll db g calls >>= (attemptAll db · calls') :=
  List.foldlM_append

theorem attemptAll_singleton (g : G) (call : GraphCall W) :
    attemptAll db g [call] = attempt db g call := by
  simp [attemptAll]

variable {c : Change W} {g g' : G} {changes : List (Change W)}

theorem syncTrigger_of_readable (h : Readable db c) (g : G) :
    syncTrigger db g c = attemptAll db g (callsOf db c) := by
  cases c with
  | delete old => rw [callsOf, attemptAll_singleton, syncTrigger]
  | insert new =>
    obtain ⟨w, hw⟩ := h new rfl
    simp [syncTrigger, callsOf, hw, ok_bind, Except.toOption, attemptAll_singleton]
  | update old new =>
    obtain ⟨w, hw⟩ := h new rfl
    cases hkey : rekeyed old new with
    | false => simp [syncTrigger, callsOf, hw, hkey, ok_bind, Except.toOption, attemptAll_singleton]
    | true =>
      simp [syncTrigger, callsOf, hw, hkey, ok_bind, Except.toOption, attemptAll]

theorem readable_of_syncTrigger (h : syncTrigger db g c = .ok g') :
    Readable db c := by
  intro link hlink
  cases hw : syncedWeight db link with
  | ok w => exact ⟨w, rfl⟩
  | error e =>
    cases c with
    | delete old => cases hlink
    | insert new =>
      cases hlink
      simp [syncTrigger, hw, error_bind] at h
    | update old new =>
      cases hlink
      cases hkey : rekeyed old link with
      | false => simp [syncTrigger, hkey, hw, ok_bind, error_bind] at h
      | true =>
        cases hdelete : attempt db g (deleteCall db old) with
        | error e' => simp [syncTrigger, hkey, hdelete, error_bind] at h
        | ok g₀ => simp [syncTrigger, hkey, hdelete, hw, ok_bind, error_bind] at h

/-- With readable weights the triggers make the calls of all changes. -/
theorem fireTriggers_of_readable (h : ∀ c ∈ changes, Readable db c) (g : G) :
    fireTriggers db g changes = attemptAll db g (changes.flatMap (callsOf db)) := by
  induction changes generalizing g with
  | nil => rfl
  | cons c changes ih =>
    have hrest : ∀ g', fireTriggers db g' changes =
        attemptAll db g' (changes.flatMap (callsOf db)) :=
      ih fun c' hc' => h c' (List.mem_cons_of_mem c hc')
    rw [List.flatMap_cons, attemptAll_append, ← syncTrigger_of_readable (h c List.mem_cons_self)]
    simp only [← hrest]
    rfl

theorem readable_of_fireTriggers (h : fireTriggers db g changes = .ok g') :
    ∀ c ∈ changes, Readable db c := by
  induction changes generalizing g with
  | nil => simp
  | cons c changes ih =>
    have hsplit : fireTriggers db g (c :: changes) =
        syncTrigger db g c >>= (fireTriggers db · changes) := rfl
    rw [hsplit] at h
    cases hc : syncTrigger db g c with
    | error e => simp [hc, error_bind] at h
    | ok g₀ =>
      rw [hc, ok_bind] at h
      intro c' hc'
      rcases List.mem_cons.mp hc' with rfl | hc'
      · exact readable_of_syncTrigger hc
      · exact ih h c' hc'

end

/-- **A statement succeeds as without the trigger** if every weight is readable and no graph call is
interrupted. -/
theorem statement_succeeds_iff {G W : Type} (db : GraphDb G W) (g : G) (rows : List (MemoryLink W))
    (changes : List (Change W)) :
    (∃ g', runStatement db g rows changes = .ok (rows, g')) ↔
      (∀ c ∈ changes, Readable db c) ∧ ¬Interrupted db g (changes.flatMap (callsOf db)) := by
  have hfires : (∃ g', runStatement db g rows changes = .ok (rows, g')) ↔
      ∃ g', fireTriggers db g changes = .ok g' := by
    unfold runStatement
    cases fireTriggers db g changes <;> simp [Except.map]
  rw [hfires]
  constructor
  · rintro ⟨g', h⟩
    have hreadable := readable_of_fireTriggers h
    rw [fireTriggers_of_readable hreadable] at h
    refine ⟨hreadable, ?_⟩
    rintro ⟨e, he⟩
    cases he.symm.trans h
  · rintro ⟨hreadable, hcalls⟩
    rw [fireTriggers_of_readable hreadable]
    cases hall : attemptAll db g (changes.flatMap (callsOf db)) with
    | ok g' => exact ⟨g', rfl⟩
    | error e => exact absurd ⟨e, hall⟩ hcalls

/-! ## A weight that is no number -/

def plainGraphDb : GraphDb Unit Nat where
  jsonText
    | .num 1 0 => "1"
    | .num 2 0 => "2"
    | _ => ""
  castFloat8 text := if text = "1" then some 1 else if text = "2" then some 2 else none
  word := asciiWords
  exec _ g := .ok g

def weightedLink (weight : Json) : MemoryLink Nat where
  id := 1
  tenantId := "t"
  fromPath := ⟨["a"]⟩
  toPath := ⟨["b"]⟩
  linkType := "related"
  metadata := .obj [("weight", weight)]
  weight := 1

/-- **An insert fails for its weight**, though the graph takes every call. -/
theorem insert_fails_for_weight :
    runStatement plainGraphDb () [weightedLink (.str "high")]
        [.insert (weightedLink (.str "high"))] = .error (.invalidFloat8 "high") ∧
      ¬∃ g', runStatement plainGraphDb () [weightedLink (.str "high")]
        [.insert (weightedLink (.str "high"))] = .ok ([weightedLink (.str "high")], g') := by
  refine ⟨rfl, ?_⟩
  rintro ⟨g', h⟩
  cases h

end Pcmi.Graph
