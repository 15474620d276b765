import Pcmi.Retention.Workers

/-!
# What an erasure leaves of the erased memories

A consolidated memory names its sources in its metadata, and so does its run (`Db.sourceIds`).
Erasure deletes derived rows by the ids they cite, but memories only by their paths.
-/

namespace Pcmi.Retention

open List Pcmi.Lib Pcmi.Memory

def jsonId : Json → Option Nat
  | .num mantissa 0 => if 0 ≤ mantissa then some mantissa.toNat else none
  | _ => none

/-- `source_entry_ids` in the metadata of a consolidated memory. -/
def metadataSourceIds (metadata : JsonMap) : List Nat :=
  match metadata.lookup "consolidated", metadata.lookup "source_entry_ids" with
  | some (.bool true), some (.arr items) => items.filterMap jsonId
  | _, _ => []

/-- The sources of a memory in its metadata and its consolidation run. -/
def Db.sourceIds (db : Db) (r : Row) : List Nat :=
  metadataSourceIds r.metadata ++
    (db.runs.filter fun run => run.consolidatedEntryId == some r.id).flatMap (·.sourceEntryIds)

theorem metadataSourceIds_consolidated (ids : List Nat) :
    metadataSourceIds (consolidatedMetadata ids) = ids := by
  have hconsolidated : (consolidatedMetadata ids).lookup "consolidated" = some (.bool true) :=
    AList.lookup_insert _
  have hsources : (consolidatedMetadata ids).lookup "source_entry_ids" =
      some (.arr (ids.map fun id : Nat => .num id 0)) :=
    (AList.lookup_insert_ne (by decide)).trans (AList.lookup_insert _)
  have hid : (jsonId ∘ fun id : Nat => Json.num id 0) = some :=
    funext fun id => by simp [jsonId]
  rw [metadataSourceIds, hconsolidated, hsources]
  dsimp only
  rw [filterMap_map, hid, filterMap_some]

section

variable {env : Env} {w : World} {db : Db} {tenantId apiKeyId : String} {req : EraseRequest}
  {counts : EraseCounts} {vertices : List String} {path : Ltree}

/-- **No derived row cites an erased memory**, in any of the five tables. -/
theorem derived_not_cites (hsound : Sound w)
    (herase : w.db.erase env tenantId req apiKeyId = .ok (counts, vertices, db))
    (hpath : env.castLtree req.pathPrefix = some path) (hdry : req.dryRun = false) {m : Row}
    (hm : m ∈ w.db.memories.rows) (herased : erasesMemory (req.target tenantId path) m = true) :
    ∀ d ∈ db.derived, m.id ∉ d.refs := by
  intro d hd hid
  rw [(erase_eq_ok herase hpath hdry).2] at hd
  obtain ⟨hd, hkept⟩ := mem_filter.mp hd
  have htenant : m.tenantId = d.tenantId :=
    (hsound.derived d hd m.id hid).2 (m.id, m.tenantId) (mem_map_of_mem hm) rfl
  have htarget : m.tenantId = tenantId := beq_iff_eq.mp (Bool.and_eq_true_iff.mp herased).1
  have hcollected : m.id ∈ (w.db.collect (req.target tenantId path)).map (·.id) :=
    mem_map_of_mem (mem_filter.mpr ⟨hm, herased⟩)
  rw [erasesDerived_of_ref (htenant.symm.trans htarget) hid hcollected] at hkept
  cases hkept

/-- **Erasure is complete** exactly when memories with an erased source are erased. -/
theorem erase_complete_iff {nextId : Nat}
    (hreach : Reaches (World.step env) (World.start nextId) w)
    (herase : w.db.erase env tenantId req apiKeyId = .ok (counts, vertices, db))
    (hpath : env.castLtree req.pathPrefix = some path) (hdry : req.dryRun = false) :
    (∀ m ∈ w.db.memories.rows, erasesMemory (req.target tenantId path) m = true →
        (∀ d, .distilled d ∈ db.derived → m.id ∉ d.sourceEntryIds) ∧
          ∀ r ∈ db.memories.rows, m.id ∉ w.db.sourceIds r) ↔
      ∀ m ∈ w.db.memories.rows, erasesMemory (req.target tenantId path) m = true →
        ∀ r ∈ w.db.memories.rows, m.id ∈ w.db.sourceIds r →
          erasesMemory (req.target tenantId path) r = true := by
  have hrows := (erase_eq_ok herase hpath hdry).1
  refine forall₃_congr fun m hm herased => ?_
  constructor
  · rintro ⟨-, hmemories⟩ r hr hid
    by_contra hkept
    refine hmemories r ?_ hid
    rw [hrows]
    exact mem_filter.mpr ⟨hr, by simpa using hkept⟩
  · intro hcond
    -- distilled rows need no condition: they are deleted by their source ids
    refine ⟨fun d hd => ?_, fun r hr hid => ?_⟩
    · exact derived_not_cites (sound_of_reaches hreach) herase hpath hdry hm herased _ hd
    · rw [hrows] at hr
      obtain ⟨hr, hkept⟩ := mem_filter.mp hr
      rw [hcond r hr hid] at hkept
      cases hkept

end

/-! ## Three users -/

def dottedEnv : Env where
  encryptContent s := .ok s
  decryptContent s := .ok s
  contentHash s := s
  castLtree s := some ⟨(s.toList.splitOn '.').map String.ofList⟩
  castUuid s := some s
  quote s := s

def storeAction (now : Time) (path content : String) : Action :=
  .memory { now := now } (.serviceStore { path := path, content := content } "t")

def storeActions : List Action :=
  [storeAction 1 "users.alice" "a", storeAction 2 "users.bob" "b", storeAction 3 "users.carol" "c"]

def consolidateActions : List Action :=
  [.trigger "t" "users.carol", .startConsolidation 0, .storeConsolidated 0 4, .completeRun 0]

def distillActions : List Action :=
  [.startDistillation "t" "users.alice" 10, .finishDistillation 0 ⟨"summary", []⟩]

def worldAfter (acts : List Action) : World :=
  (runAll (World.step dottedEnv) (World.start 1) acts).getD (World.start 1)

theorem reaches_worldAfter (acts : List Action)
    (h : (runAll (World.step dottedEnv) (World.start 1) acts).isSome = true) :
    Reaches (World.step dottedEnv) (World.start 1) (worldAfter acts) := reaches_getD _ h

example : (worldAfter (storeActions ++ consolidateActions)).db.memories.rows.map (fun r =>
    (r.id, r.path.labels, r.content, metadataSourceIds r.metadata)) =
      [(1, ["users", "alice"], "a", []), (2, ["users", "bob"], "b", []),
        (3, ["users", "carol"], "c", []),
        (4, ["users", "consolidated"], "c\n---\nb\n---\na", [3, 2, 1])] := by
  decide +kernel

def eraseAlice : EraseRequest := { pathPrefix := "users.alice" }

/-- Without a consolidation nothing is left of `users.alice`. -/
theorem erase_distilled_complete :
    ∃ counts vertices db,
      (worldAfter (storeActions ++ distillActions)).db.erase dottedEnv "t" eraseAlice "" =
        .ok (counts, vertices, db) ∧ counts.memoryVersions = 1 ∧ counts.distilled = 1 ∧
      ∀ m ∈ (worldAfter (storeActions ++ distillActions)).db.memories.rows,
        erasesMemory (eraseAlice.target "t" ⟨["users", "alice"]⟩) m = true →
          (∀ d, .distilled d ∈ db.derived → m.id ∉ d.sourceEntryIds) ∧
            ∀ r ∈ db.memories.rows,
              m.id ∉ (worldAfter (storeActions ++ distillActions)).db.sourceIds r := by
  have hreach := reaches_worldAfter (storeActions ++ distillActions) (by decide +kernel)
  refine ⟨_, _, _, rfl, by decide +kernel, by decide +kernel, ?_⟩
  refine (erase_complete_iff hreach rfl rfl rfl).mpr ?_
  decide +kernel

/-- With one, the content of `users.alice` is left at `users.consolidated`. -/
theorem erase_leaves_consolidated :
    Reaches (World.step dottedEnv) (World.start 1)
        (worldAfter (storeActions ++ consolidateActions)) ∧
      ((worldAfter (storeActions ++ consolidateActions)).db.collect
        (eraseAlice.target "t" ⟨["users", "alice"]⟩)).map (fun m => (m.id, m.content)) =
          [(1, "a")] ∧
      ((worldAfter (storeActions ++ consolidateActions)).db.erase dottedEnv "t" eraseAlice ""
        ).toOption.map (fun out => out.2.2.memories.rows.map fun r =>
          (r.id, r.path.labels, r.content,
            (worldAfter (storeActions ++ consolidateActions)).db.sourceIds r)) =
        some [(2, ["users", "bob"], "b", []), (3, ["users", "carol"], "c", []),
          (4, ["users", "consolidated"], "c\n---\nb\n---\na", [3, 2, 1, 3, 2, 1])] :=
  ⟨reaches_worldAfter _ (by decide +kernel), by decide +kernel, by decide +kernel⟩

end Pcmi.Retention
