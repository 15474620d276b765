import Mathlib.Data.Int.ConditionallyCompleteOrder
import Mathlib.Data.Prod.Lex
import Mathlib.Order.ConditionallyCompleteLattice.Basic
import Mathlib.Order.WithBot
import Pcmi.Lib.Follow
import Pcmi.Listing.Pages
import Pcmi.Memory.Versions
import Pcmi.Retention.Workers

/-!
# Lists with numeric ids, page by page

The audit list, the list of links and the retrieval without a query are ordered by `created_at DESC,
id DESC`. The rows behind a cursor are those with a greater key (`Stamp.key`).
-/

namespace Pcmi.Listing

open List Pcmi.Go Pcmi.Lib Pcmi.Memory

/-! ## The order of the rows -/

def sortKeyCreatedAtIdDesc : Bytes := ascii "created_at_id_desc"

/-- The columns that a list is ordered by. -/
structure Stamp (α : Type) where
  createdAt : α → Time
  id : α → Nat

namespace Stamp

variable {α : Type} (stamp : Stamp α)

/-- `ORDER BY created_at DESC, id DESC`. -/
def NewestFirst (a b : α) : Prop :=
  stamp.createdAt b < stamp.createdAt a ∨
    stamp.createdAt b = stamp.createdAt a ∧ stamp.id b ≤ stamp.id a

instance : DecidableRel stamp.NewestFirst := fun _ _ => inferInstanceAs (Decidable (_ ∨ _))

def newestFirst (rows : List α) : List α := rows.insertionSort stamp.NewestFirst

/-- A table with this primary key, written at database times. -/
structure Keyed (rows : List α) : Prop where
  unique : (rows.map stamp.id).Nodup
  serial : ∀ r ∈ rows, 1 ≤ stamp.id r ∧ stamp.id r ≤ 9223372036854775807
  clock : ∀ r ∈ rows, ClockTime (readTime (stamp.createdAt r))

end Stamp

/-- `KeysetTimeIDClause`, and its alias for the column `created_at`. -/
def keysetTimeIdClause (srv : Server) (cur : Cursor) (sortKey : Bytes) :
    Except String (Time → Nat → Bool) :=
  if cur.isZero then .ok fun _ _ => true
  else if cur.sortKey ≠ sortKey then
    .error ("cursor sort mismatch: want " ++ srv.quote sortKey ++ " got " ++ srv.quote cur.sortKey)
  else if cur.lastId < 1 then .error "invalid cursor id"
  else if cur.lastTimestamp = zeroInstant then .ok fun _ id => decide (id < cur.lastId)
  else .ok fun createdAt id =>
    decide (createdAt < sentTime cur.lastTimestamp) ||
      decide (createdAt = sentTime cur.lastTimestamp) && decide (id < cur.lastId)

/-- What `AuditRepository.List` and `LinksRepository.List` have in common. -/
def keysetList {α : Type} (srv : Server) (stamp : Stamp α) (selects : Except String (α → Bool))
    (rows : List α) (page : PageRequest) : Except String (List α × PageResponse) :=
  let limit := clampLimit 50 page.limit
  let sortKey :=
    if page.cursor.isZero = false ∧ page.cursor.sortKey ≠ [] then page.cursor.sortKey
    else sortKeyCreatedAtIdDesc
  match keysetTimeIdClause srv page.cursor sortKey with
  | .error e => .error e
  | .ok clause =>
    match selects with
    | .error e => .error e
    | .ok selects =>
      finishInt64Page srv
        ((stamp.newestFirst (rows.filter fun r =>
          selects r && clause (stamp.createdAt r) (stamp.id r))).take (fetchLimit limit).toNat)
        limit sortKey (fun r => stamp.id r) fun r => readTime (stamp.createdAt r)

/-! ## The three lists -/

structure AuditEntry where
  id : Nat
  tenantId : String
  apiKeyId : Option String
  eventType : String
  path : String
  method : String
  statusCode : Int
  ipAddress : Option String
  userAgent : Option String
  createdAt : Time

def auditStamp : Stamp AuditEntry := ⟨(·.createdAt), (·.id)⟩

/-- `tenant_id = $1`, and `created_at >= $2` if a time is given. -/
def auditSelects (tenantId : String) (since : Option Instant) (e : AuditEntry) : Bool :=
  e.tenantId == tenantId && since.all fun t => decide (sentTime t ≤ e.createdAt)

def auditList (srv : Server) (tenantId : String) (since : Option Instant) (rows : List AuditEntry)
    (page : PageRequest) : Except String (List AuditEntry × PageResponse) :=
  keysetList srv auditStamp (.ok (auditSelects tenantId since)) rows page

/-- `model.MemoryLink`, with the tenant of the row. -/
structure MemoryLink where
  id : Nat
  tenantId : String
  fromPath : Ltree
  toPath : Ltree
  linkType : String
  metadata : Json
  createdAt : Time

def linkStamp : Stamp MemoryLink := ⟨(·.createdAt), (·.id)⟩

/-- A path to be equal to; the empty text selects every path. -/
def pathFilter (env : Env) (path : String) : Except String (Ltree → Bool) :=
  if path = "" then .ok fun _ => true
  else
    match env.castLtree path with
    | none => .error "invalid ltree"
    | some path => .ok fun p => p == path

/-- The `WHERE` clause of `LinksRepository.List` up to the cursor. -/
def linkSelects (env : Env) (tenantId fromPath toPath linkType : String) :
    Except String (MemoryLink → Bool) :=
  let linkType := trimSpaceText linkType
  match pathFilter env (trimSpaceText fromPath) with
  | .error e => .error e
  | .ok fromFilter =>
    match pathFilter env (trimSpaceText toPath) with
    | .error e => .error e
    | .ok toFilter => .ok fun l =>
        l.tenantId == tenantId && fromFilter l.fromPath && toFilter l.toPath &&
          (linkType == "" || l.linkType == linkType)

def linksList (srv : Server) (env : Env) (tenantId fromPath toPath linkType : String)
    (rows : List MemoryLink) (page : PageRequest) :
    Except String (List MemoryLink × PageResponse) :=
  keysetList srv linkStamp (linkSelects env tenantId fromPath toPath linkType) rows page

/-- `model.RetrieveRequest` with an empty query. -/
structure RetrieveRequest where
  pathPrefix : String
  limit : Int
  asOf : Option Instant := none
  sourceAgentId : String := ""
  embeddingSpace : String := ""
  tags : List String := []
  tagsMatch : String := ""
  cursor : Bytes := []

def rowStamp : Stamp Row := ⟨(·.createdAt), (·.id)⟩

def scopeFilters (agent : Option String) (space : String) (r : Row) : Bool :=
  (agent.isNone || r.sourceAgentId == agent) && (space == "" || r.embeddingSpace == space)

def tagFilters (tags : List String) (tagsMatch : String) (r : Row) : Bool :=
  tags.isEmpty ||
    ((tagsMatch == "" || tagsMatch == "any") && tags.any (r.tags.contains ·) ||
      tagsMatch == "all" && tags.all (r.tags.contains ·))

/-- The `WHERE` clause of `MemoryRepository.Retrieve` up to the cursor. -/
def retrieveSelects (env : Env) (tenantId : String) (req : RetrieveRequest) :
    Except String (Row → Bool) :=
  let path := trimSpaceText req.pathPrefix
  let tagsMatch := trimSpaceText req.tagsMatch
  match env.castLtree (if path = "" then "root" else path) with
  | none => .error "retrieve failed: invalid ltree"
  | some path =>
    match castAgent env (trimSpaceText req.sourceAgentId) with
    | .error _ => .error "retrieve failed: invalid uuid"
    | .ok agent => .ok fun r =>
        r.tenantId == tenantId && r.path.under path && temporalClause (req.asOf.map sentTime) r &&
          scopeFilters agent (trimSpaceText req.embeddingSpace) r &&
          tagFilters req.tags (if tagsMatch = "" then "any" else tagsMatch) r

/-- `(created_at, id) < ($8, $9)`, unless the cursor is empty. -/
def retrieveAfter (cur : Cursor) (r : Row) : Bool :=
  cur.isZero || decide (r.createdAt < sentTime cur.lastTimestamp) ||
    decide (r.createdAt = sentTime cur.lastTimestamp) && decide (r.id < cur.lastId)

/-- `MemoryRepository.Retrieve` without a query. -/
def retrieveRows (srv : Server) (env : Env) (tenantId : String) (rows : List Row)
    (req : RetrieveRequest) : Except String (List Row) :=
  match decodeCursor srv.parse req.cursor with
  | .error e => .error ("invalid cursor: " ++ e)
  | .ok cur =>
    if cur.isZero = false ∧ cur.sortKey ≠ [] ∧ cur.sortKey ≠ sortKeyCreatedAtIdDesc then
      .error ("cursor sort key mismatch: got " ++ srv.quote cur.sortKey)
    else
      match retrieveSelects env tenantId req with
      | .error e => .error e
      | .ok selects =>
        Retention.scanAll env
          ((rowStamp.newestFirst (rows.filter fun r => selects r && retrieveAfter cur r)).take
            (clampLimit 10 req.limit + 1).toNat)

structure RetrieveResponse where
  entries : List Row
  total : Nat
  page : PageResponse

/-- `MemoryService.Retrieve` without a query. -/
def retrieve (srv : Server) (env : Env) (tenantId : String) (rows : List Row)
    (req : RetrieveRequest) : Except String RetrieveResponse :=
  let limit := clampLimit 10 req.limit
  match retrieveRows srv env tenantId rows req with
  | .error e => .error ("retrieve failed: " ++ e)
  | .ok entries =>
    if entries.length ≤ limit then .ok ⟨entries, entries.length, { hasMore := false }⟩
    else
      let shown := entries.take limit.toNat
      match shown.getLast? with
      -- the limit is positive
      | none => .error "retrieve failed: no entries"
      | some last =>
        match makeNextCursor srv sortKeyCreatedAtIdDesc last.id (readTime last.createdAt) true with
        | .error e => .error e
        | .ok page => .ok ⟨shown, shown.length, page⟩

def retrieveNext (srv : Server) (env : Env) (tenantId : String) (rows : List Row)
    (req : RetrieveRequest) (cursor : Bytes) (items : List Row) (next : Option Bytes) : Prop :=
  ∃ resp, retrieve srv env tenantId rows { req with cursor := cursor } = .ok resp ∧
    items = resp.entries ∧ next = resp.page.next

/-! ## Keys -/

namespace Stamp

variable {α : Type} {stamp : Stamp α}

def key (stamp : Stamp α) (r : α) : WithBot (Time ×ₗ Nat)ᵒᵈ :=
  ↑(OrderDual.toDual (toLex (stamp.createdAt r, stamp.id r)))

variable {a b : α} {rows : List α}

theorem key_lt_key_iff : stamp.key a < stamp.key b ↔
    stamp.createdAt b < stamp.createdAt a ∨
      stamp.createdAt b = stamp.createdAt a ∧ stamp.id b < stamp.id a := by
  rw [key, key, WithBot.coe_lt_coe, OrderDual.toDual_lt_toDual, Prod.Lex.toLex_lt_toLex]

theorem newestFirst_iff : stamp.NewestFirst a b ↔ stamp.key a ≤ stamp.key b := by
  rw [key, key, WithBot.coe_le_coe, OrderDual.toDual_le_toDual, Prod.Lex.toLex_le_toLex]
  rfl

theorem bot_lt_key (r : α) : ⊥ < stamp.key r := WithBot.bot_lt_coe _

theorem key_inj_on_id (h : stamp.key a = stamp.key b) : stamp.id a = stamp.id b := by
  have h := OrderDual.toDual.injective (WithBot.coe_injective h)
  exact (Prod.mk.inj (toLex.injective h)).2

instance : Std.Total stamp.NewestFirst :=
  ⟨fun a b => by simpa only [newestFirst_iff] using le_total (stamp.key a) (stamp.key b)⟩

instance : IsTrans α stamp.NewestFirst :=
  ⟨fun _ _ _ hab hbc => newestFirst_iff.mpr
    ((newestFirst_iff.mp hab).trans (newestFirst_iff.mp hbc))⟩

theorem mem_newestFirst {r : α} : r ∈ stamp.newestFirst rows ↔ r ∈ rows :=
  mem_insertionSort _

theorem Keyed.filter {rows : List α} (h : stamp.Keyed rows) (p : α → Bool) :
    stamp.Keyed (rows.filter p) where
  unique := h.unique.sublist (filter_sublist.map _)
  serial := fun r hr => h.serial r (mem_of_mem_filter hr)
  clock := fun r hr => h.clock r (mem_of_mem_filter hr)

theorem Keyed.ascending (h : stamp.Keyed rows) :
    Ascending stamp.key (stamp.newestFirst rows) := by
  have hperm : (stamp.newestFirst rows).Perm rows := perm_insertionSort _ rows
  have hunique : (stamp.newestFirst rows).Pairwise fun a b => stamp.id a ≠ stamp.id b :=
    pairwise_map.mp ((hperm.map stamp.id).nodup_iff.mpr h.unique)
  have hsorted : (stamp.newestFirst rows).Pairwise stamp.NewestFirst :=
    pairwise_insertionSort _ rows
  exact (hsorted.and hunique).imp fun hab =>
    lt_of_le_of_ne (newestFirst_iff.mp hab.1) fun hkey => hab.2 (key_inj_on_id hkey)

theorem Keyed.newestFirst_filter (h : stamp.Keyed rows) (p : α → Bool) :
    stamp.newestFirst (rows.filter p) = (stamp.newestFirst rows).filter p := by
  have hperm : (stamp.newestFirst (rows.filter p)).Perm ((stamp.newestFirst rows).filter p) :=
    (perm_insertionSort _ _).trans ((perm_insertionSort _ rows).symm.filter p)
  refine hperm.eq_of_pairwise ?_ (pairwise_insertionSort _ _)
    ((pairwise_insertionSort stamp.NewestFirst rows).filter p)
  intro a b ha hb hab hba
  exact h.ascending.eq_of_key
    (mem_newestFirst.mpr (mem_of_mem_filter (mem_newestFirst.mp ha)))
    (mem_of_mem_filter hb)
    (le_antisymm (newestFirst_iff.mp hab) (newestFirst_iff.mp hba))

end Stamp

/-! ## Cursors of rows -/

namespace Stamp

variable {α : Type} {stamp : Stamp α}

def cursorAt (stamp : Stamp α) (r : α) : Cursor :=
  ⟨cursorVersion, sortKeyCreatedAtIdDesc, stamp.id r, readTime (stamp.createdAt r)⟩

/-- Where a reader with a cursor continues. -/
inductive Behind (stamp : Stamp α) (rows : List α) : Cursor → WithBot (Time ×ₗ Nat)ᵒᵈ → Prop where
  | start : Behind stamp rows Cursor.zero ⊥
  | row {r : α} : r ∈ rows → Behind stamp rows (stamp.cursorAt r) (stamp.key r)

theorem Keyed.issued {rows : List α} (h : stamp.Keyed rows) {r : α} (hr : r ∈ rows) :
    (stamp.cursorAt r).Issued where
  version := rfl
  sortKey := (by decide +kernel : Plain sortKeyCreatedAtIdDesc)
  lastId := ⟨Int.natCast_nonneg _, Int.ofNat_le.mpr (h.serial r hr).2⟩
  lastTimestamp := h.clock r hr

theorem Keyed.lastTimestamp_ne {rows : List α} (h : stamp.Keyed rows) {r : α} (hr : r ∈ rows) :
    (stamp.cursorAt r).lastTimestamp ≠ zeroInstant := by
  intro hzero
  have hclock : ClockTime (stamp.cursorAt r).lastTimestamp := h.clock r hr
  rw [hzero] at hclock
  revert hclock
  decide

theorem cursorAt_isZero (r : α) : (stamp.cursorAt r).isZero = false :=
  beq_eq_false_iff_ne.mpr fun heq => by cases congrArg Cursor.version heq

theorem lt_key_iff {a b : α} : stamp.key a < stamp.key b ↔
    stamp.createdAt b < sentTime (stamp.cursorAt a).lastTimestamp ∨
      stamp.createdAt b = sentTime (stamp.cursorAt a).lastTimestamp ∧
        (stamp.id b : Int) < (stamp.cursorAt a).lastId := by
  rw [key_lt_key_iff, cursorAt, sentTime_readTime, Int.ofNat_lt]

end Stamp

section

variable {α : Type} {stamp : Stamp α} {rows : List α} {cur : Cursor}
  {after : WithBot (Time ×ₗ Nat)ᵒᵈ}

theorem keysetTimeIdClause_behind (srv : Server) (h : stamp.Keyed rows)
    (hcur : stamp.Behind rows cur after) :
    ∃ clause, keysetTimeIdClause srv cur sortKeyCreatedAtIdDesc = .ok clause ∧
      ∀ r, clause (stamp.createdAt r) (stamp.id r) = decide (after < stamp.key r) := by
  cases hcur with
  | start =>
    refine ⟨fun _ _ => true, rfl, fun r => ?_⟩
    rw [decide_eq_true (Stamp.bot_lt_key r)]
  | @row a ha =>
    have hid : ¬ (stamp.cursorAt a).lastId < 1 :=
      not_lt.mpr (Int.ofNat_le.mpr (h.serial a ha).1)
    have hzero : ¬ (stamp.cursorAt a).isZero = true := by
      rw [Stamp.cursorAt_isZero]
      exact Bool.false_ne_true
    refine ⟨_, (if_neg hzero).trans ((if_neg (not_not.mpr rfl)).trans
      ((if_neg hid).trans (if_neg (h.lastTimestamp_ne ha)))), fun r => ?_⟩
    rw [Bool.eq_iff_iff, decide_eq_true_eq, Stamp.lt_key_iff]
    simp only [Bool.or_eq_true, Bool.and_eq_true, decide_eq_true_eq]

theorem retrieveAfter_behind {rows : List Row} (hcur : rowStamp.Behind rows cur after) (r : Row) :
    retrieveAfter cur r = decide (after < rowStamp.key r) := by
  cases hcur with
  | start => rw [decide_eq_true (Stamp.bot_lt_key r)]; rfl
  | row ha =>
    rw [retrieveAfter, Stamp.cursorAt_isZero, Bool.false_or, Bool.eq_iff_iff, decide_eq_true_eq,
      Stamp.lt_key_iff]
    simp only [Bool.or_eq_true, Bool.and_eq_true, decide_eq_true_eq]
    rfl

theorem newestFirst_filter_and (h : stamp.Keyed rows) (selects : α → Bool) (p : α → Bool)
    (hp : ∀ r, p r = decide (after < stamp.key r)) :
    stamp.newestFirst (rows.filter fun r => selects r && p r) =
      above stamp.key after (stamp.newestFirst (rows.filter selects)) := by
  have hfilter : (rows.filter fun r => selects r && p r) = (rows.filter selects).filter p := by
    rw [filter_filter]
    exact filter_congr fun r _ => Bool.and_comm _ _
  rw [hfilter, (h.filter selects).newestFirst_filter]
  exact filter_congr fun r _ => hp r

end

/-! ## The pages of a list -/

/-- Where a reader with a cursor text continues. -/
def Stands {α : Type} (srv : Server) (stamp : Stamp α) (rows : List α) (text : Bytes)
    (after : WithBot (Time ×ₗ Nat)ᵒᵈ) : Prop :=
  ∃ cur, decodeCursor srv.parse text = .ok cur ∧ stamp.Behind rows cur after

section

variable {α : Type} {srv : Server} {stamp : Stamp α} {rows : List α}

theorem stands_nil : Stands srv stamp rows [] ⊥ := ⟨Cursor.zero, rfl, .start⟩

theorem Stamp.Keyed.exists_next (h : stamp.Keyed rows) (srv : Server) {r : α} (hr : r ∈ rows) :
    ∃ text, makeNextCursor srv sortKeyCreatedAtIdDesc (stamp.id r) (readTime (stamp.createdAt r))
        true = .ok ⟨text, true⟩ ∧
      text ≠ [] ∧ Stands srv stamp rows text (stamp.key r) := by
  obtain ⟨text, hmake, hne, -, hdecode⟩ :=
    makeNextCursor_issued srv (h.issued hr)
      (by decide : sortKeyCreatedAtIdDesc ≠ [])
  exact ⟨text, hmake, hne, _, hdecode, .row hr⟩

variable {after : WithBot (Time ×ₗ Nat)ᵒᵈ}

theorem keysetList_behind (srv : Server) (h : stamp.Keyed rows) (selects : α → Bool) {cur : Cursor}
    (hcur : stamp.Behind rows cur after) (limit : Int) :
    keysetList srv stamp (.ok selects) rows ⟨cur, limit⟩ =
      finishInt64Page srv
        ((above stamp.key after (stamp.newestFirst (rows.filter selects))).take
          (fetchLimit (clampLimit 50 limit)).toNat)
        (clampLimit 50 limit) sortKeyCreatedAtIdDesc (fun r => stamp.id r)
        fun r => readTime (stamp.createdAt r) := by
  obtain ⟨clause, hclause, hdecide⟩ := keysetTimeIdClause_behind srv h hcur
  have hkey : (if cur.isZero = false ∧ cur.sortKey ≠ [] then cur.sortKey
      else sortKeyCreatedAtIdDesc) = sortKeyCreatedAtIdDesc := by
    cases hcur with
    | start => rfl
    | row => exact ite_self _
  unfold keysetList
  dsimp only
  rw [hkey, hclause]
  dsimp only
  rw [newestFirst_filter_and h selects _ hdecide]

theorem mem_of_getLast?_page {selects : α → Bool} {n : Nat} {last : α}
    (hlast : (page stamp.key after n (stamp.newestFirst (rows.filter selects))).getLast? =
      some last) :
    last ∈ rows := by
  have hmem := (mem_above.mp (mem_of_mem_take (mem_of_getLast? hlast))).1
  exact mem_of_mem_filter (Stamp.mem_newestFirst.mp hmem)

/-- **The pages of a list.** -/
theorem pagesOf_keysetList (srv : Server) (h : stamp.Keyed rows) (selects : α → Bool)
    (limit : Int) :
    PagesOf (listNext srv (keysetList srv stamp (.ok selects) rows) limit) stamp.key
      (stamp.newestFirst (rows.filter selects)) (clampLimit 50 limit).toNat Eq
      (Stands srv stamp rows) := by
  have hn : 0 < clampLimit 50 limit := clampLimit_pos (by decide) limit
  constructor
  · rintro text after ⟨cur, hdecode, hcur⟩ hlength items next
    have hlist := keysetList_behind srv h selects hcur limit
    rw [finishInt64Page_last srv hn _ _ _ (by omega)] at hlist
    rw [listNext_iff srv hdecode hlist, forall₂_eq_eq_eq, eq_comm]
    rfl
  · rintro text after ⟨cur, hdecode, hcur⟩ hlength
    have hlist := keysetList_behind srv h selects hcur limit
    obtain ⟨last, hlast, hfinish⟩ := finishInt64Page_more srv hn sortKeyCreatedAtIdDesc
      (fun r => (stamp.id r : Int)) (fun r => readTime (stamp.createdAt r))
      (l := above stamp.key after (stamp.newestFirst (rows.filter selects))) (by omega)
    obtain ⟨text', hmake, hne, hstands⟩ := h.exists_next srv (mem_of_getLast?_page hlast)
    refine ⟨text', (lastKey_of_getLast? hlast _).symm ▸ hstands, fun items next => ?_⟩
    rw [listNext_iff srv hdecode (hlist.trans (hfinish hmake)), forall₂_eq_eq_eq]
    have hnext : PageResponse.next ⟨text', true⟩ = some text' := if_neg hne
    rw [hnext]
    refine and_congr_left fun _ => ⟨fun hitems => ⟨_, rfl, ?_⟩, ?_⟩
    · rw [take_page_succ, hitems]
      rfl
    · rintro ⟨_, rfl, rfl⟩
      exact take_page_succ _ _ _

end

/-! ## The pages of memories -/

section

variable {env : Env}

def Scans (env : Env) (r e : Row) : Prop := scanMemoryEntry env r = .ok e

variable {l : List Row} {r : Row} {selects : Row → Bool} {text : Bytes}

theorem scanAll_eq_ok_iff {entries : List Row} :
    Retention.scanAll env l = .ok entries ↔ List.Forall₂ (Scans env) l entries := by
  refine ⟨Retention.forall₂_of_scanAll, fun h => ?_⟩
  induction h with
  | nil => rfl
  | @cons r e l rest hscan _ ih =>
    have hscan : scanMemoryEntry env r = .ok e := hscan
    rw [Retention.scanAll, hscan, ih]
    rfl

theorem Scans.stamp {e : Row} (h : Scans env r e) :
    (e.id, e.createdAt) = (r.id, r.createdAt) := by
  unfold Scans scanMemoryEntry at h
  split at h
  · split at h
    · rw [← Except.ok.inj h]
    · cases h
  · rw [← Except.ok.inj h]

/-- The last row of a page and the last entry shown have one cursor. -/
theorem exists_last_of_forall₂ {entries : List Row} (h : List.Forall₂ (Scans env) l entries)
    (hr : l.getLast? = some r) :
    ∃ e, entries.getLast? = some e ∧ e.id = r.id ∧ e.createdAt = r.createdAt := by
  have hmap : entries.map (fun e => (e.id, e.createdAt)) = l.map fun r => (r.id, r.createdAt) := by
    rw [← forall₂_eq_eq_eq, forall₂_map_left_iff, forall₂_map_right_iff]
    exact h.flip.imp fun _ _ hscan => Scans.stamp hscan
  have hlast : (entries.getLast?.map fun e => (e.id, e.createdAt)) = some (r.id, r.createdAt) := by
    rw [← getLast?_map, hmap, getLast?_map, hr]
    rfl
  obtain ⟨e, he, heq⟩ := Option.map_eq_some_iff.mp hlast
  exact ⟨e, he, (Prod.mk.inj heq).1, (Prod.mk.inj heq).2⟩

variable {srv : Server} {tenantId : String} {rows entries : List Row} {req : RetrieveRequest}

theorem retrieve_last (hrows : retrieveRows srv env tenantId rows req = .ok entries)
    (hle : entries.length ≤ clampLimit 10 req.limit) :
    retrieve srv env tenantId rows req =
      .ok ⟨entries, entries.length, { hasMore := false }⟩ := by
  unfold retrieve
  dsimp only
  rw [hrows]
  exact if_pos hle

theorem retrieve_more (hrows : retrieveRows srv env tenantId rows req = .ok entries)
    (hlt : clampLimit 10 req.limit < entries.length) {last : Row}
    (hlast : (entries.take (clampLimit 10 req.limit).toNat).getLast? = some last)
    {page : PageResponse}
    (hmake : makeNextCursor srv sortKeyCreatedAtIdDesc last.id (readTime last.createdAt) true =
      .ok page) :
    retrieve srv env tenantId rows req =
      .ok ⟨entries.take (clampLimit 10 req.limit).toNat,
        (entries.take (clampLimit 10 req.limit).toNat).length, page⟩ := by
  unfold retrieve
  dsimp only
  rw [hrows]
  dsimp only
  rw [if_neg (not_le.mpr hlt), hlast]
  dsimp only
  rw [hmake]

theorem exists_rows_of_retrieve {resp : RetrieveResponse}
    (h : retrieve srv env tenantId rows req = .ok resp) :
    ∃ entries, retrieveRows srv env tenantId rows req = .ok entries := by
  cases hrows : retrieveRows srv env tenantId rows req with
  | error e =>
    unfold retrieve at h
    dsimp only at h
    rw [hrows] at h
    cases h
  | ok entries => exact ⟨entries, rfl⟩

theorem retrieveRows_behind (h : rowStamp.Keyed rows)
    (hselects : retrieveSelects env tenantId req = .ok selects) {cur : Cursor}
    (hdecode : decodeCursor srv.parse text = .ok cur) {after : WithBot (Time ×ₗ Nat)ᵒᵈ}
    (hcur : rowStamp.Behind rows cur after) :
    retrieveRows srv env tenantId rows { req with cursor := text } =
      Retention.scanAll env
        ((above rowStamp.key after (rowStamp.newestFirst (rows.filter selects))).take
          (clampLimit 10 req.limit + 1).toNat) := by
  have hkey : ¬ (cur.isZero = false ∧ cur.sortKey ≠ [] ∧ cur.sortKey ≠ sortKeyCreatedAtIdDesc) := by
    cases hcur with
    | start => decide
    | row => exact fun hkey => hkey.2.2 rfl
  have hselects' : retrieveSelects env tenantId { req with cursor := text } = .ok selects := by
    simpa only [retrieveSelects] using hselects
  unfold retrieveRows
  dsimp only
  rw [hdecode]
  dsimp only
  rw [if_neg hkey, hselects']
  dsimp only
  rw [newestFirst_filter_and h selects _ (retrieveAfter_behind hcur)]

/-- A page of memories, when what is scanned is known. -/
theorem retrieveNext_iff {answer : List Row → RetrieveResponse}
    (hrows : retrieveRows srv env tenantId rows { req with cursor := text } =
      Retention.scanAll env l)
    (hanswer : ∀ {entries}, List.Forall₂ (Scans env) l entries → retrieve srv env tenantId rows
      { req with cursor := text } = .ok (answer entries))
    (items : List Row) (next : Option Bytes) :
    retrieveNext srv env tenantId rows req text items next ↔
      ∃ entries, List.Forall₂ (Scans env) l entries ∧ items = (answer entries).entries ∧
        next = (answer entries).page.next := by
  constructor
  · rintro ⟨resp, hresp, rfl, rfl⟩
    obtain ⟨entries, hentries⟩ := exists_rows_of_retrieve hresp
    have hall := scanAll_eq_ok_iff.mp (hrows.symm.trans hentries)
    obtain rfl := Except.ok.inj ((hanswer hall).symm.trans hresp)
    exact ⟨entries, hall, rfl, rfl⟩
  · rintro ⟨entries, hall, rfl, rfl⟩
    exact ⟨_, hanswer hall, rfl, rfl⟩

/-- **The pages of memories.** -/
theorem pagesOf_retrieve (h : rowStamp.Keyed rows)
    (hselects : retrieveSelects env tenantId req = .ok selects) :
    PagesOf (retrieveNext srv env tenantId rows req) rowStamp.key
      (rowStamp.newestFirst (rows.filter selects)) (clampLimit 10 req.limit).toNat (Scans env)
      (Stands srv rowStamp rows) := by
  have hn : 0 < clampLimit 10 req.limit := clampLimit_pos (by decide) req.limit
  constructor
  · rintro text after ⟨cur, hdecode, hcur⟩ hlength items next
    have hrows := retrieveRows_behind h hselects hdecode hcur
    rw [take_of_length_le (by omega)] at hrows
    rw [retrieveNext_iff hrows fun hall => retrieve_last (hrows.trans (scanAll_eq_ok_iff.mpr hall))
      (by have := hall.length_eq; dsimp only; omega)]
    constructor
    · rintro ⟨entries, hall, rfl, rfl⟩
      exact ⟨hall, rfl⟩
    · rintro ⟨hall, rfl⟩
      exact ⟨items, hall, rfl, rfl⟩
  · rintro text after ⟨cur, hdecode, hcur⟩ hlength
    have hrows := retrieveRows_behind h hselects hdecode hcur
    rw [Int.toNat_add hn.le (by decide)] at hrows
    obtain ⟨last, hlast⟩ := exists_getLast?_take (n := (clampLimit 10 req.limit).toNat) (by omega)
      (ne_nil_of_length_pos (Nat.zero_lt_of_lt hlength))
    obtain ⟨text', hmake, hne, hstands⟩ := h.exists_next srv (mem_of_getLast?_page hlast)
    have hnext : PageResponse.next ⟨text', true⟩ = some text' := if_neg hne
    have hshown {entries : List Row} (hall : List.Forall₂ (Scans env)
        (page rowStamp.key after ((clampLimit 10 req.limit).toNat + 1)
          (rowStamp.newestFirst (rows.filter selects))) entries) :
        retrieve srv env tenantId rows { req with cursor := text } =
          .ok ⟨entries.take (clampLimit 10 req.limit).toNat,
            (entries.take (clampLimit 10 req.limit).toNat).length, ⟨text', true⟩⟩ := by
      have hlen := hall.length_eq
      rw [page, length_take] at hlen
      have hpage := forall₂_take (clampLimit 10 req.limit).toNat hall
      rw [take_page_succ] at hpage
      -- the cursor is made from the last entry, which has the columns of the last row
      obtain ⟨e, he, hid, hcreated⟩ := exists_last_of_forall₂ hpage hlast
      refine retrieve_more (hrows.trans (scanAll_eq_ok_iff.mpr hall)) ?_ he ?_
      · dsimp only
        omega
      · rw [hid, hcreated]
        exact hmake
    refine ⟨text', (lastKey_of_getLast? hlast _).symm ▸ hstands, fun items next => ?_⟩
    rw [retrieveNext_iff hrows hshown]
    constructor
    · rintro ⟨entries, hall, rfl, rfl⟩
      exact ⟨⟨entries, hall, rfl⟩, hnext⟩
    · rintro ⟨⟨entries, hall, rfl⟩, rfl⟩
      exact ⟨entries, hall, rfl, hnext.symm⟩

end

/-! ## Completeness -/

variable {α : Type}

theorem above_bot (stamp : Stamp α) (l : List α) : above stamp.key ⊥ l = l :=
  filter_eq_self.mpr fun r _ => decide_eq_true (Stamp.bot_lt_key r)

theorem follows_keysetList_iff (srv : Server) {stamp : Stamp α} {rows : List α}
    (h : stamp.Keyed rows) (selects : α → Bool) (limit : Int) (entries : List α) :
    Follows (listNext srv (keysetList srv stamp (.ok selects) rows) limit) [] entries ↔
      entries = stamp.newestFirst (rows.filter selects) := by
  have hn : 0 < clampLimit 50 limit := clampLimit_pos (by decide) limit
  rw [(pagesOf_keysetList srv h selects limit).follows_iff (h.filter selects).ascending (by omega)
    stands_nil, above_bot, forall₂_eq_eq_eq, eq_comm]

/-- **The pages hold every matching row once, newest first**, up to a memory that cannot be
decrypted. -/
theorem keyset_pages_complete (srv : Server) (env : Env) (tenantId : String) :
    (∀ rows, auditStamp.Keyed rows → ∀ since limit entries,
      Follows (listNext srv (auditList srv tenantId since rows) limit) [] entries ↔
        entries = auditStamp.newestFirst (rows.filter (auditSelects tenantId since))) ∧
    (∀ rows, linkStamp.Keyed rows → ∀ fromPath toPath linkType selects,
      linkSelects env tenantId fromPath toPath linkType = .ok selects → ∀ limit entries,
      Follows (listNext srv (linksList srv env tenantId fromPath toPath linkType rows) limit) []
          entries ↔
        entries = linkStamp.newestFirst (rows.filter selects)) ∧
    ∀ rows, rowStamp.Keyed rows → ∀ req selects,
      retrieveSelects env tenantId req = .ok selects → ∀ entries,
      Follows (retrieveNext srv env tenantId rows req) [] entries ↔
        Retention.scanAll env (rowStamp.newestFirst (rows.filter selects)) = .ok entries := by
  refine ⟨fun rows h since limit entries => ?_, ?_, fun rows h req selects hselects entries => ?_⟩
  · exact follows_keysetList_iff srv h (auditSelects tenantId since) limit entries
  · intro rows h fromPath toPath linkType selects hselects limit entries
    unfold linksList
    rw [hselects]
    exact follows_keysetList_iff srv h selects limit entries
  · have hn : 0 < clampLimit 10 req.limit := clampLimit_pos (by decide) req.limit
    rw [(pagesOf_retrieve h hselects).follows_iff (h.filter selects).ascending (by omega)
      stands_nil, above_bot, scanAll_eq_ok_iff]

def newYearEvent (id : Nat) : AuditEntry :=
  ⟨id, "t", none, "store", "/v1/memory", "POST", 201, none, none, 1767225600000000⟩

def newYearLink (id : Nat) : MemoryLink :=
  ⟨id, "t", ⟨["a"]⟩, ⟨["b"]⟩, "related", .null, 1767225600000000⟩

def newYearMemory (id : Nat) : Row :=
  { plainColumns ⟨["root"]⟩ "a" with contentEncrypted := true }.toRow "t" id 1 1767225600000000

/-- Three rows of one time, read one by one. -/
theorem keyset_pages_complete_ties :
    Follows (listNext eastServer
        (auditList eastServer "t" none [newYearEvent 1, newYearEvent 2, newYearEvent 3]) 1) []
      [newYearEvent 3, newYearEvent 2, newYearEvent 1] ∧
    Follows (listNext eastServer
        (linksList eastServer plainEnv "t" "a" "" "" [newYearLink 1, newYearLink 2, newYearLink 3])
        1) []
      [newYearLink 3, newYearLink 2, newYearLink 1] ∧
    Follows (retrieveNext eastServer plainEnv "t"
        [newYearMemory 1, newYearMemory 2, newYearMemory 3] { pathPrefix := "", limit := 1 }) []
      [newYearMemory 3, newYearMemory 2, newYearMemory 1] := by
  obtain ⟨haudit, hlinks, hmemories⟩ := keyset_pages_complete eastServer plainEnv "t"
  refine ⟨?_, ?_, ?_⟩
  · refine (haudit _ ⟨by decide, by decide, by decide⟩ none 1 _).mpr rfl
  · refine (hlinks _ ⟨by decide, by decide, by decide⟩ "a" "" "" _ rfl 1 _).mpr rfl
  · refine (hmemories _ ⟨by decide, by decide, by decide⟩ _ _ rfl _).mpr rfl

end Pcmi.Listing
