import Pcmi.Lib.Relocation
import Pcmi.Lib.Steps
import Pcmi.Memory.Service

/-!
# `SessionRepository.Promote`

A promotion gives the open rows of a session a long-term path, in place. The `SELECT` has no `ORDER
BY`, so the batch is any order of the rows. A row whose target path has another open row at its turn
is skipped, so the index on open rows, which is not modelled, never refuses an `UPDATE`.
-/

namespace Pcmi.Session

open List Pcmi.Go Pcmi.Lib Pcmi.Memory

/-- The cast to `ltree`, and the text of a `jsonb` that is no string. -/
structure Db where
  castLtree : String → Option Ltree
  jsonText : Json → String

/-! ## Paths and metadata -/

def trimPrefix (s p : List Char) : List Char := if p.isPrefixOf s then s.drop p.length else s

/-- `strings.ReplaceAll(sessionID, "-", "_")`. -/
def underscored (sessionId : String) : List Char :=
  sessionId.toList.map fun c => if c = '-' then '_' else c

/-- The `switch` of `promotePath`. -/
def promoteSuffix (currentPath : List Char) (sessionId : String) : List Char :=
  let sessionPrefix := "sessions.".toList ++ underscored sessionId ++ ['.']
  let altPrefix := "sessions.".toList ++ sessionId.toList ++ ['.']
  if sessionPrefix.isPrefixOf currentPath then trimPrefix currentPath sessionPrefix
  else if altPrefix.isPrefixOf currentPath then trimPrefix currentPath altPrefix
  else trimPrefix currentPath "sessions.".toList

def promotePath (currentPath sessionId targetPrefix : String) : String :=
  let suffix := trimBoth (· == '.') (promoteSuffix currentPath.toList sessionId)
  if suffix = [] then targetPrefix else targetPrefix ++ "." ++ String.ofList suffix

/-- `metadata->>'session_id'`. -/
def sessionIdOf (db : Db) (metadata : JsonMap) : Option String :=
  match metadata.lookup "session_id" with
  | none => none
  | some .null => none
  | some (.str s) => some s
  | some v => some (db.jsonText v)

/-- The metadata of a promoted row. -/
def promoteMetadata (sessionId : String) (metadata : JsonMap) : JsonMap :=
  ((metadata.erase "session_id").insert "memory_scope" (.str "long_term")).insert
    "promoted_from_session" (.str sessionId)

def targetOrRoot (targetPrefix : String) : String :=
  let target := trimSpaceText targetPrefix
  if target = "" then "root" else target

example : promotePath "sessions.a_1.notes.x" "a-1" "root" = "root.notes.x" := by decide +kernel

/-! ## The transaction -/

/-- The rows that the `SELECT … FOR UPDATE` reads. -/
def sessionRows (db : Db) (tenantId sessionId : String) (rows : List Row) : List Row :=
  rows.filter fun r =>
    r.tenantId == tenantId && r.isOpen && sessionIdOf db r.metadata == some sessionId

/-- The counters and the table between two rounds of the loop. -/
structure Loop where
  promoted : Nat
  skipped : Nat
  rows : List Row

/-- Another open row has the path. -/
def occupied (tenantId : String) (path : Ltree) (id : Nat) (rows : List Row) : Bool :=
  rows.any fun r => r.current tenantId path && r.id != id

/-- `UPDATE memory_entries SET path, metadata WHERE id`. -/
def updateRow (id : Nat) (path : Ltree) (metadata : JsonMap) (rows : List Row) : List Row :=
  rows.map fun r => if r.id = id then { r with path := path, metadata := metadata } else r

def promoteItem (db : Db) (tenantId sessionId target : String) (l : Loop) (item : Row) :
    Except String Loop :=
  match db.castLtree (promotePath item.path.text sessionId target) with
  | none => .error ("promote collision check id=" ++ toString item.id ++ ": invalid ltree")
  | some path =>
    if occupied tenantId path item.id l.rows then .ok { l with skipped := l.skipped + 1 }
    else .ok {
      promoted := l.promoted + 1
      skipped := l.skipped
      rows := updateRow item.id path (promoteMetadata sessionId item.metadata) l.rows }

def promoteLoop (db : Db) (tenantId sessionId target : String) (batch rows : List Row) :
    Except String Loop :=
  batch.foldlM (promoteItem db tenantId sessionId target) ⟨0, 0, rows⟩

/-- `Promote`, for an order of the session's rows. -/
def promote (db : Db) (tenantId sessionId targetPrefix : String) (batch rows : List Row) :
    Except String Loop :=
  promoteLoop db tenantId sessionId (targetOrRoot targetPrefix) batch rows

/-! ## The loop as a relocation of open rows -/

section Relocation

variable (db : Db) (tenantId sessionId target : String)

/-- The path a row is promoted to; its own where the text is no path. -/
def promoteTarget (r : Row) : Ltree :=
  (db.castLtree (promotePath r.path.text sessionId target)).getD r.path

def moves : Moves Row Nat Ltree where
  key := Row.id
  place := Columns.path ∘ Row.toColumns
  target := promoteTarget db sessionId target

/-- The rows that can be in the way of a promotion. -/
def openRows (rows : List Row) : List Row :=
  rows.filter fun r => r.tenantId == tenantId && r.isOpen

def promotedRow (moved : List Nat) (r : Row) : Row :=
  if r.id ∈ moved then
    { r with
      path := promoteTarget db sessionId target r
      metadata := promoteMetadata sessionId r.metadata }
  else r

def promotedRows (moved : List Nat) (rows : List Row) : List Row :=
  rows.map (promotedRow db sessionId target moved)

end Relocation

section

variable {db : Db} {tenantId sessionId target : String} {rows : List Row} {r : Row}
  {batch : List Row}

theorem mem_openRows :
    r ∈ openRows tenantId rows ↔ r ∈ rows ∧ r.tenantId = tenantId ∧ r.isOpen = true := by
  simp [openRows]

theorem mem_sessionRows : r ∈ sessionRows db tenantId sessionId rows ↔
    r ∈ rows ∧ (r.tenantId = tenantId ∧ r.isOpen = true) ∧
      sessionIdOf db r.metadata = some sessionId := by
  simp [sessionRows]

theorem sessionRows_subset (h : r ∈ sessionRows db tenantId sessionId rows) :
    r ∈ openRows tenantId rows :=
  mem_openRows.mpr ⟨(mem_sessionRows.mp h).1, (mem_sessionRows.mp h).2.1⟩

theorem promotedRows_nil : promotedRows db sessionId target [] rows = rows := by
  refine (map_congr_left fun r _ => ?_).trans (map_id rows)
  simp [promotedRow]

/-- What a promotion keeps of a row. -/
structure Kept (r r' : Row) : Prop where
  id : r'.id = r.id
  tenantId : r'.tenantId = r.tenantId
  content : r'.content = r.content
  version : r'.version = r.version
  validFrom : r'.validFrom = r.validFrom
  validTo : r'.validTo = r.validTo

theorem promotedRow_kept (moved : List Nat) (r : Row) :
    Kept r (promotedRow db sessionId target moved r) := by
  unfold promotedRow
  split <;> exact ⟨rfl, rfl, rfl, rfl, rfl, rfl⟩

theorem Kept.isOpen {r r' : Row} (h : Kept r r') : r'.isOpen = r.isOpen := by
  rw [Row.isOpen, h.validTo, Row.isOpen]

variable {moved : List Nat} {item : Row}

theorem promotedRow_of_notMem (h : r.id ∉ moved) :
    promotedRow db sessionId target moved r = r :=
  if_neg h

theorem promotedRow_path (moved : List Nat) (r : Row) :
    (promotedRow db sessionId target moved r).path =
      (moves db sessionId target).placeAfter moved r := by
  unfold promotedRow Moves.placeAfter
  split
  · next h => exact (if_pos h).symm
  · next h => exact (if_neg h).symm

/-- The check of the loop is the one of the relocation. -/
theorem occupied_promotedRows (moved : List Nat) (item : Row) :
    occupied tenantId (promoteTarget db sessionId target item) item.id
        (promotedRows db sessionId target moved rows) =
      (moves db sessionId target).taken (openRows tenantId rows) moved item := by
  unfold occupied promotedRows Moves.taken openRows
  rw [any_map, any_filter]
  congr 1
  funext r
  have hkept : Kept r (promotedRow db sessionId target moved r) := promotedRow_kept moved r
  rw [Bool.eq_iff_iff]
  simp only [Function.comp, Row.current, Row.at, hkept.tenantId, hkept.isOpen, hkept.id,
    promotedRow_path, Bool.and_eq_true, beq_iff_eq, bne_iff_ne, decide_eq_true_eq]
  change _ ↔ (_ ∧ _) ∧ r.id ≠ item.id ∧ _ = promoteTarget db sessionId target item
  tauto

theorem updateRow_promotedRows (hids : (rows.map Row.id).Nodup) (hitem : item ∈ rows)
    (hnot : item.id ∉ moved) :
    updateRow item.id (promoteTarget db sessionId target item)
        (promoteMetadata sessionId item.metadata) (promotedRows db sessionId target moved rows) =
      promotedRows db sessionId target (moved ++ [item.id]) rows := by
  unfold updateRow promotedRows
  rw [map_map]
  refine map_congr_left fun r hr => ?_
  by_cases hid : r.id = item.id
  · obtain rfl := inj_on_of_nodup_map hids hr hitem hid
    simp [promotedRow, hnot]
  · by_cases hmoved : r.id ∈ moved <;> simp [promotedRow, hmoved, hid]

def movedIds (db : Db) (tenantId sessionId target : String) (rows before : List Row) : List Nat :=
  (moves db sessionId target).relocateAll (openRows tenantId rows) before

theorem movedIds_sublist (before : List Row) :
    (movedIds db tenantId sessionId target rows before).Sublist (before.map Row.id) :=
  Moves.relocateAll_sublist before

theorem length_movedIds_le (before : List Row) :
    (movedIds db tenantId sessionId target rows before).length ≤ before.length :=
  (movedIds_sublist before).length_le.trans_eq (length_map _)

theorem movedIds_concat (before : List Row) (item : Row) :
    movedIds db tenantId sessionId target rows (before ++ [item]) =
      (moves db sessionId target).relocate (openRows tenantId rows)
        (movedIds db tenantId sessionId target rows before) item :=
  Moves.relocateAll_concat ..

def loopAfter (db : Db) (tenantId sessionId target : String) (rows before : List Row) : Loop where
  promoted := (movedIds db tenantId sessionId target rows before).length
  skipped := before.length - (movedIds db tenantId sessionId target rows before).length
  rows := promotedRows db sessionId target (movedIds db tenantId sessionId target rows before) rows

def Castable (db : Db) (sessionId target : String) (r : Row) : Prop :=
  (db.castLtree (promotePath r.path.text sessionId target)).isSome

theorem Castable.eq (h : Castable db sessionId target r) :
    db.castLtree (promotePath r.path.text sessionId target) =
      some (promoteTarget db sessionId target r) := by
  obtain ⟨path, hpath⟩ := Option.isSome_iff_exists.mp h
  rw [promoteTarget, hpath, Option.getD_some]

/-- **One round of the loop is one turn of the relocation.** -/
theorem promoteItem_eq (hids : (rows.map Row.id).Nodup) {before : List Row} (hitem : item ∈ rows)
    (hnew : item.id ∉ before.map Row.id) (hcast : Castable db sessionId target item) :
    promoteItem db tenantId sessionId target (loopAfter db tenantId sessionId target rows before)
        item =
      .ok (loopAfter db tenantId sessionId target rows (before ++ [item])) := by
  have hnot : item.id ∉ movedIds db tenantId sessionId target rows before :=
    fun h => hnew ((movedIds_sublist before).subset h)
  have hle : (movedIds db tenantId sessionId target rows before).length ≤ before.length :=
    length_movedIds_le before
  have hoccupied : occupied tenantId (promoteTarget db sessionId target item) item.id
      (loopAfter db tenantId sessionId target rows before).rows = _ :=
    occupied_promotedRows (movedIds db tenantId sessionId target rows before) item
  unfold promoteItem
  rw [hcast.eq]
  by_cases htaken : (moves db sessionId target).taken (openRows tenantId rows)
      (movedIds db tenantId sessionId target rows before) item = true
  · refine (if_pos (hoccupied.trans htaken)).trans (congrArg Except.ok ?_)
    simp only [loopAfter]
    rw [movedIds_concat, Moves.relocate, if_pos htaken, length_append, length_singleton]
    congr 1
    omega
  · refine (if_neg fun h => htaken (hoccupied.symm.trans h)).trans (congrArg Except.ok ?_)
    simp only [loopAfter]
    rw [movedIds_concat, Moves.relocate, if_neg htaken, length_append, length_append]
    congr 1
    · exact (Nat.add_sub_add_right _ 1 _).symm
    · exact updateRow_promotedRows hids hitem hnot

/-- **The loop, where every target is a path.** -/
theorem promoteLoop_eq (hids : (rows.map Row.id).Nodup) (hsub : ∀ r ∈ batch, r ∈ rows)
    (hnodup : (batch.map Row.id).Nodup) (hcast : ∀ r ∈ batch, Castable db sessionId target r) :
    promoteLoop db tenantId sessionId target batch rows =
      .ok (loopAfter db tenantId sessionId target rows batch) := by
  induction batch using List.reverseRecOn with
  | nil =>
    have hrows : promotedRows db sessionId target [] rows = rows := promotedRows_nil
    change Except.ok _ = Except.ok (Loop.mk 0 0 (promotedRows db sessionId target [] rows))
    rw [hrows]
  | append_singleton before item ih =>
    have hitem : item ∈ before ++ [item] := mem_append_right _ mem_cons_self
    obtain ⟨hbefore, hnew⟩ := Moves.nodup_map_concat (m := moves db sessionId target) |>.mp hnodup
    have ih := ih (fun r hr => hsub r (mem_append_left _ hr)) hbefore
      fun r hr => hcast r (mem_append_left _ hr)
    unfold promoteLoop at ih ⊢
    rw [foldlM_append, ih]
    change (promoteItem db tenantId sessionId target _ item >>= _) = _
    rw [promoteItem_eq hids (hsub item hitem) hnew (hcast item hitem)]
    rfl

theorem castable_of_ok {start l : Loop}
    (h : batch.foldlM (promoteItem db tenantId sessionId target) start = .ok l) :
    ∀ r ∈ batch, Castable db sessionId target r := by
  induction batch generalizing start with
  | nil => exact fun r hr => absurd hr not_mem_nil
  | cons item batch ih =>
    rw [foldlM_cons] at h
    obtain ⟨next, hround, hrest⟩ := bind_eq_ok h
    refine forall_mem_cons.mpr ⟨?_, ih hrest⟩
    rw [promoteItem] at hround
    split at hround
    · cases hround
    · next path hcast => exact Option.isSome_iff_exists.mpr ⟨path, hcast⟩

theorem nodup_batch (hids : (rows.map Row.id).Nodup)
    (hbatch : batch.Perm (sessionRows db tenantId sessionId rows)) : (batch.map Row.id).Nodup :=
  (hbatch.map Row.id).nodup_iff.mpr (hids.sublist (filter_sublist.map _))

section

variable {targetPrefix : String} {batch : List Row}

theorem promote_eq (hids : (rows.map Row.id).Nodup)
    (hbatch : batch.Perm (sessionRows db tenantId sessionId rows))
    (hcast : ∀ r ∈ sessionRows db tenantId sessionId rows,
      Castable db sessionId (targetOrRoot targetPrefix) r) :
    promote db tenantId sessionId targetPrefix batch rows =
      .ok (loopAfter db tenantId sessionId (targetOrRoot targetPrefix) rows batch) :=
  promoteLoop_eq hids (fun _ hr => (mem_sessionRows.mp (hbatch.subset hr)).1)
    (nodup_batch hids hbatch) fun r hr => hcast r (hbatch.subset hr)

theorem promote_ok (hids : (rows.map Row.id).Nodup)
    (hbatch : batch.Perm (sessionRows db tenantId sessionId rows)) {l : Loop}
    (h : promote db tenantId sessionId targetPrefix batch rows = .ok l) :
    (∀ r ∈ sessionRows db tenantId sessionId rows,
        Castable db sessionId (targetOrRoot targetPrefix) r) ∧
      l = loopAfter db tenantId sessionId (targetOrRoot targetPrefix) rows batch := by
  have hcast : ∀ r ∈ sessionRows db tenantId sessionId rows,
      Castable db sessionId (targetOrRoot targetPrefix) r :=
    fun r hr => castable_of_ok h r (hbatch.symm.subset hr)
  rw [promote_eq hids hbatch hcast] at h
  exact ⟨hcast, (Except.ok.inj h).symm⟩

end

/-! ## What a promotion leaves -/

/-- At most one open row per tenant and path. -/
def OneOpen (rows : List Row) : Prop :=
  ∀ tenantId path, (rows.filter (Row.current tenantId path)).length ≤ 1

theorem current_iff {path : Ltree} : r.current tenantId path = true ↔
    (r.tenantId = tenantId ∧ r.path = path) ∧ r.isOpen = true := by
  simp [Row.current, Row.at]

theorem length_le_one_iff {α : Type} {l : List α} (hnodup : l.Nodup) :
    l.length ≤ 1 ↔ ∀ a ∈ l, ∀ b ∈ l, a = b := by
  match l with
  | [] => simp
  | [a] => simp
  | a :: b :: l =>
    have hne : a ≠ b := fun heq => (nodup_cons.mp hnodup).1 (heq ▸ mem_cons_self)
    exact ⟨fun h => by simp at h, fun h => absurd (h a (by simp) b (by simp)) hne⟩

theorem oneOpen_iff (hids : (rows.map Row.id).Nodup) : OneOpen rows ↔
    ∀ a ∈ rows, ∀ b ∈ rows, a.isOpen = true → b.isOpen = true → a.tenantId = b.tenantId →
      a.path = b.path → a = b := by
  have hnodup := fun tenantId path =>
    (hids.of_map Row.id).sublist (filter_sublist (p := Row.current tenantId path))
  constructor
  · intro h a ha b hb hopena hopenb htenant hpath
    refine (length_le_one_iff (hnodup b.tenantId b.path)).mp (h _ _) a ?_ b ?_
    · exact mem_filter.mpr ⟨ha, current_iff.mpr ⟨⟨htenant, hpath⟩, hopena⟩⟩
    · exact mem_filter.mpr ⟨hb, current_iff.mpr ⟨⟨rfl, rfl⟩, hopenb⟩⟩
  · intro h tenantId path
    refine (length_le_one_iff (hnodup tenantId path)).mpr fun a ha b hb => ?_
    obtain ⟨hamem, hcura⟩ := mem_filter.mp ha
    obtain ⟨hbmem, hcurb⟩ := mem_filter.mp hb
    obtain ⟨⟨htenanta, hpatha⟩, hopena⟩ := current_iff.mp hcura
    obtain ⟨⟨htenantb, hpathb⟩, hopenb⟩ := current_iff.mp hcurb
    exact h a hamem b hbmem hopena hopenb (htenanta.trans htenantb.symm) (hpatha.trans hpathb.symm)

theorem oneOpen_of_nodup (hids : (rows.map Row.id).Nodup)
    (h : ((rows.filter Row.isOpen).map fun r => (r.tenantId, r.path)).Nodup) : OneOpen rows := by
  refine (oneOpen_iff hids).mpr fun a ha b hb hopena hopenb htenant hpath => ?_
  exact inj_on_of_nodup_map h (mem_filter.mpr ⟨ha, hopena⟩)
    (mem_filter.mpr ⟨hb, hopenb⟩) (Prod.ext htenant hpath)

theorem apart_openRows (hids : (rows.map Row.id).Nodup) (hopen : OneOpen rows) :
    (moves db sessionId target).Apart (openRows tenantId rows) [] := by
  constructor
  · intro a ha b hb hid
    exact inj_on_of_nodup_map hids (mem_openRows.mp ha).1 (mem_openRows.mp hb).1 hid
  · intro a ha b hb hpath
    obtain ⟨ha, htenanta, hopena⟩ := mem_openRows.mp ha
    obtain ⟨hb, htenantb, hopenb⟩ := mem_openRows.mp hb
    exact (oneOpen_iff hids).mp hopen a ha b hb hopena hopenb (htenanta.trans htenantb.symm) hpath

theorem map_id_promotedRows (moved : List Nat) :
    (promotedRows db sessionId target moved rows).map Row.id = rows.map Row.id := by
  rw [promotedRows, map_map]
  exact map_congr_left fun r _ => (promotedRow_kept moved r).id

section

variable {batch : List Row}

theorem mem_batch_of_moved (hids : (rows.map Row.id).Nodup) (hsub : ∀ r ∈ batch, r ∈ rows) {r : Row}
    (hr : r ∈ rows) (h : r.id ∈ movedIds db tenantId sessionId target rows batch) : r ∈ batch := by
  obtain ⟨r', hr', hid⟩ := mem_map.mp ((movedIds_sublist batch).subset h)
  rwa [inj_on_of_nodup_map hids (hsub r' hr') hr hid] at hr'

theorem oneOpen_promotedRows (hids : (rows.map Row.id).Nodup) (hopen : OneOpen rows)
    (hsub : ∀ r ∈ batch, r ∈ openRows tenantId rows) :
    OneOpen (promotedRows db sessionId target
      (movedIds db tenantId sessionId target rows batch) rows) := by
  have hrows : ∀ r ∈ batch, r ∈ rows := fun r hr => (mem_openRows.mp (hsub r hr)).1
  have hapart : (moves db sessionId target).Apart (openRows tenantId rows)
      (movedIds db tenantId sessionId target rows batch) :=
    (apart_openRows hids hopen).relocateAll hsub
  refine (oneOpen_iff (by rwa [map_id_promotedRows])).mpr fun a' ha' b' hb' => ?_
  obtain ⟨a, ha, rfl⟩ := mem_map.mp ha'
  obtain ⟨b, hb, rfl⟩ := mem_map.mp hb'
  intro hopena hopenb htenant hpath
  rw [(promotedRow_kept _ a).isOpen] at hopena
  rw [(promotedRow_kept _ b).isOpen] at hopenb
  rw [(promotedRow_kept _ a).tenantId, (promotedRow_kept _ b).tenantId] at htenant
  refine congrArg _ ?_
  by_cases hown : a.tenantId = tenantId
  · rw [promotedRow_path, promotedRow_path] at hpath
    exact hapart.place a (mem_openRows.mpr ⟨ha, hown, hopena⟩) b
      (mem_openRows.mpr ⟨hb, htenant.symm.trans hown, hopenb⟩) hpath
  · -- nothing of another tenant is promoted
    have hother : ∀ r ∈ rows, r.tenantId ≠ tenantId →
        r.id ∉ movedIds db tenantId sessionId target rows batch := fun r hr hne h =>
      hne (mem_openRows.mp (hsub r (mem_batch_of_moved hids hrows hr h))).2.1
    rw [promotedRow_of_notMem (hother a ha hown),
      promotedRow_of_notMem (hother b hb fun h => hown (htenant.trans h))] at hpath
    exact (oneOpen_iff hids).mp hopen a ha b hb hopena hopenb htenant hpath

theorem lookup_promoteMetadata (m : JsonMap) :
    (promoteMetadata sessionId m).lookup "session_id" = none := by
  unfold promoteMetadata
  rw [AList.lookup_insert_ne (by decide), AList.lookup_insert_ne (by decide), AList.lookup_erase]

/-- A row not promoted has found another open row at its target. -/
theorem exists_occupied (hids : (rows.map Row.id).Nodup) (hsub : ∀ r ∈ batch, r ∈ rows)
    (hnodup : (batch.map Row.id).Nodup) (hcast : ∀ r ∈ batch, Castable db sessionId target r)
    {item : Row} (hitem : item ∈ batch)
    (hnot : item.id ∉ movedIds db tenantId sessionId target rows batch) :
    ∃ before behind l, batch = before ++ item :: behind ∧
      promoteLoop db tenantId sessionId target before rows = .ok l ∧
      occupied tenantId (promoteTarget db sessionId target item) item.id l.rows = true := by
  obtain ⟨before, behind, rfl⟩ := append_of_mem hitem
  have hbefore : before.Sublist (before ++ item :: behind) := sublist_append_left _ _
  refine ⟨before, behind, _, rfl,
    promoteLoop_eq hids (fun r hr => hsub r (hbefore.subset hr)) (hnodup.sublist (hbefore.map _))
      fun r hr => hcast r (hbefore.subset hr), ?_⟩
  rw [loopAfter, occupied_promotedRows]
  by_contra hfree
  refine hnot ?_
  rw [append_cons]
  refine Moves.mem_relocateAll_append ?_ behind
  change item.id ∈ movedIds db tenantId sessionId target rows (before ++ [item])
  rw [movedIds_concat, Moves.relocate, if_neg hfree]
  exact mem_append_right _ mem_cons_self

end

/-- What a promotion has done, for the ids it has promoted. -/
structure PromoteFrame (db : Db) (tenantId sessionId target : String) (batch rows : List Row)
    (l : Loop) (moved : List Nat) : Prop where
  oneOpen : OneOpen l.rows
  ids : l.rows.map Row.id = rows.map Row.id
  nodup : moved.Nodup
  ofSession : ∀ id ∈ moved, ∃ r ∈ sessionRows db tenantId sessionId rows, r.id = id
  promoted : l.promoted = moved.length
  counted : l.promoted + l.skipped = (sessionRows db tenantId sessionId rows).length
  /-- A promoted row keeps its columns, and leaves the session. -/
  moves : ∀ r ∈ rows, r.id ∈ moved → ∃ r' ∈ l.rows, Kept r r' ∧
    db.castLtree (promotePath r.path.text sessionId target) = some r'.path ∧
    r'.metadata.lookup "session_id" = none
  /-- Every other row is as it was. -/
  stays : ∀ r ∈ rows, r.id ∉ moved → r ∈ l.rows
  /-- A row of the session is skipped because of another open row at its turn. -/
  skips : ∀ r ∈ sessionRows db tenantId sessionId rows, r.id ∉ moved →
    ∃ before behind turn, batch = before ++ r :: behind ∧
      promoteLoop db tenantId sessionId target before rows = .ok turn ∧
      ∃ other ∈ turn.rows, other.id ≠ r.id ∧ other.tenantId = tenantId ∧ other.isOpen = true ∧
        db.castLtree (promotePath r.path.text sessionId target) = some other.path

/-- **The frame of a promotion**, for every order of its rows. -/
theorem promote_frame {targetPrefix : String} {batch : List Row} {l : Loop}
    (hids : (rows.map Row.id).Nodup) (hopen : OneOpen rows)
    (hbatch : batch.Perm (sessionRows db tenantId sessionId rows))
    (h : promote db tenantId sessionId targetPrefix batch rows = .ok l) :
    ∃ moved, PromoteFrame db tenantId sessionId (targetOrRoot targetPrefix) batch rows l moved := by
  obtain ⟨hcast, rfl⟩ := promote_ok hids hbatch h
  have hcast : ∀ r ∈ batch, Castable db sessionId _ r := fun r hr => hcast r (hbatch.subset hr)
  have hopenRows : ∀ r ∈ batch, r ∈ openRows tenantId rows :=
    fun r hr => sessionRows_subset (hbatch.subset hr)
  have hrows : ∀ r ∈ batch, r ∈ rows := fun r hr => (mem_openRows.mp (hopenRows r hr)).1
  have hnodup := nodup_batch hids hbatch
  refine ⟨_, oneOpen_promotedRows hids hopen hopenRows, map_id_promotedRows _,
    hnodup.sublist (movedIds_sublist batch), fun id hid => ?_, rfl, ?_, fun r hr hmem => ?_,
    fun r hr hmem => ?_, fun r hr hmem => ?_⟩
  · obtain ⟨r, hr, rfl⟩ := mem_map.mp ((movedIds_sublist batch).subset hid)
    exact ⟨r, hbatch.subset hr, rfl⟩
  · rw [← hbatch.length_eq]
    exact Nat.add_sub_cancel' (length_movedIds_le batch)
  · refine ⟨_, mem_map_of_mem hr, promotedRow_kept _ r, ?_, ?_⟩
    · rw [promotedRow, if_pos hmem]
      exact (hcast r (mem_batch_of_moved hids hrows hr hmem)).eq
    · rw [promotedRow, if_pos hmem]
      exact lookup_promoteMetadata _
  · exact mem_map.mpr ⟨r, hr, promotedRow_of_notMem hmem⟩
  · have hr := hbatch.symm.subset hr
    obtain ⟨before, behind, turn, hsplit, hloop, hoccupied⟩ :=
      exists_occupied hids hrows hnodup hcast hr hmem
    obtain ⟨other, hother, hcur⟩ := any_eq_true.mp hoccupied
    obtain ⟨hcur, hid⟩ := Bool.and_eq_true_iff.mp hcur
    obtain ⟨⟨htenant, hpath⟩, hotheropen⟩ := current_iff.mp hcur
    refine ⟨before, behind, turn, hsplit, hloop, other, hother, bne_iff_ne.mp hid, htenant,
      hotheropen, ?_⟩
    rw [hpath]
    exact (hcast r hr).eq

end

/-! ## A promotion that skips a row -/

/-- A database whose labels are whatever stands between dots. -/
def plainDb : Db where
  castLtree s := some ⟨(s.toList.splitOn '.').map String.ofList⟩
  jsonText _ := ""

def sampleRow (id : Nat) (labels : List String) (metadata : JsonMap) (version : Int) : Row :=
  { plainColumns ⟨labels⟩ "text" with metadata := metadata }.toRow "t" id version 0

def sampleRows : List Row :=
  [sampleRow 1 ["sessions", "s_1", "a"] (AList.singleton "session_id" (.str "s-1")) 1,
    sampleRow 2 ["sessions", "s_1", "b"] (AList.singleton "session_id" (.str "s-1")) 1,
    sampleRow 3 ["root", "b"] ∅ 4]

theorem promote_frame_sampleRows :
    ∃ l, promote plainDb "t" "s-1" "" (sampleRows.take 2) sampleRows = .ok l ∧
      (l.promoted = 1 ∧ l.skipped = 1) ∧
      ∃ moved, PromoteFrame plainDb "t" "s-1" (targetOrRoot "") (sampleRows.take 2) sampleRows l
        moved := by
  have hids : (sampleRows.map Row.id).Nodup := by decide
  obtain ⟨l, hl, hcounts⟩ := exists_ok (P := fun l => l.promoted = 1 ∧ l.skipped = 1)
    (x := promote plainDb "t" "s-1" "" (sampleRows.take 2) sampleRows) (by decide +kernel)
  refine ⟨l, hl, hcounts, ?_⟩
  exact promote_frame hids (oneOpen_of_nodup hids (by decide)) (.refl _) hl

end Pcmi.Session
