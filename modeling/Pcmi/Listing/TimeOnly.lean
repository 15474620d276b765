import Mathlib.Data.Int.ConditionallyCompleteOrder
import Mathlib.Order.ConditionallyCompleteLattice.Basic
import Mathlib.Order.WithBot
import Pcmi.Admin.ApiKeys
import Pcmi.Lib.Ties
import Pcmi.Listing.Pages
import Pcmi.Webhook.Dispatcher

/-!
# Lists with ids that are no numbers, page by page

The lists of tenants, API keys, webhook endpoints and dead letters are ordered by `created_at DESC`
alone, and the next page begins with the rows created before the cursor. Rows of that same time that
did not fit on the page are on no page at all.

The order of rows with equal times is an argument of the lists (`order`).
-/

namespace Pcmi.Listing

open List Pcmi.Go Pcmi.Lib

/-! ## Common parts -/

def sortKeyCreatedAtDesc : Bytes := ascii "created_at_desc"

def keysetTimeClause (srv : Server) (cur : Cursor) (sortKey : Bytes) :
    Except String (Time → Bool) :=
  if cur.isZero then .ok fun _ => true
  else if cur.sortKey ≠ sortKey then
    .error ("cursor sort mismatch: want " ++ srv.quote sortKey ++ " got " ++ srv.quote cur.sortKey)
  else if cur.lastTimestamp = zeroInstant then .error "invalid cursor timestamp"
  else .ok fun createdAt => decide (createdAt < sentTime cur.lastTimestamp)

/-- What the four lists share. Rows that cannot be scanned are passed over. -/
def timeList {α : Type} (srv : Server) (createdAt : α → Time) (selects scans : α → Bool)
    (rows : List α) (order : List α → List α) (limit : Int) (cur : Cursor) :
    Except String (List α × PageResponse) :=
  match keysetTimeClause srv cur sortKeyCreatedAtDesc with
  | .error e => .error e
  | .ok clause =>
    finishInt64Page srv
      (((order (rows.filter fun r => selects r && clause (createdAt r))).take
        (fetchLimit limit).toNat).filter scans)
      limit sortKeyCreatedAtDesc (fun _ => 0) fun r => readTime (createdAt r)

/-- The limit of a handler, at least 1 and at most `maxListLimit`. -/
def pageLimit (limit : Int) : Int := if limit < 1 then 1 else if 200 < limit then 200 else limit

/-- `ParseListPagination` of a request without `after_id`. -/
def parseListPagination (srv : Server) (sortKey : Bytes) (limit : Int) (cursor : Bytes) :
    Except String PageRequest :=
  let limit := pageLimit limit
  let cursorRaw := trimSpace cursor
  if cursorRaw = [] then .ok ⟨Cursor.zero, limit⟩
  else
    match decodeCursor srv.parse cursorRaw with
    | .error e => .error ("invalid cursor: " ++ e)
    | .ok decoded =>
      if decoded.isZero = false ∧ decoded.sortKey ≠ sortKey then .error "cursor sort mismatch"
      else .ok ⟨decoded, limit⟩

/-! ## The four lists -/

structure TenantResponse where
  id : String
  slug : String
  name : String
  settings : Option Json
  createdAt : Time

def listTenants (srv : Server) (rows : List TenantResponse)
    (order : List TenantResponse → List TenantResponse) (page : PageRequest) :
    Except String (List TenantResponse × PageResponse) :=
  timeList srv (·.createdAt) (fun _ => true) (fun _ => true) rows order (clampLimit 100 page.limit)
    page.cursor

/-- A row of `api_keys` as it is listed, with its tenant. -/
structure ApiKeyEntry where
  id : String
  tenantId : String
  name : String
  role : Admin.Role
  isActive : Bool
  expiresAt : Option Time
  createdAt : Time
  lastUsedAt : Option Time
  rotatedTo : Option String
  rotationGraceEndsAt : Option Time
  lastUsedIp : Option String

def listApiKeys (srv : Server) (tenantId : String) (rows : List ApiKeyEntry)
    (order : List ApiKeyEntry → List ApiKeyEntry) (page : PageRequest) :
    Except String (List ApiKeyEntry × PageResponse) :=
  timeList srv (·.createdAt) (·.tenantId == tenantId) (fun _ => true) rows order
    (clampLimit 50 page.limit) page.cursor

structure WebhookEndpoint where
  id : String
  tenantId : String
  url : String
  eventTypes : List String
  enabled : Bool
  createdAt : Time

structure DeliveryEntry where
  id : String
  tenantId : String
  endpointId : String
  eventType : String
  payload : Json
  status : Webhook.Status
  attempts : Int
  lastError : Option String
  createdAt : Time

/-- What the two handlers of webhooks have in common. -/
def webhookPage {α : Type} (srv : Server) (createdAt : α → Time) (selects scans : α → Bool)
    (rows : List α) (order : List α → List α) (limit : Int) (cursor : Bytes) :
    Except String (List α × PageResponse) :=
  match parseListPagination srv sortKeyCreatedAtDesc limit cursor with
  | .error e => .error e
  | .ok page =>
    if page.cursor.isZero = false ∧ 0 < page.cursor.lastId ∧
        page.cursor.lastTimestamp = zeroInstant then
      .error "after_id is not supported for webhook listings; use cursor"
    else timeList srv createdAt selects scans rows order page.limit page.cursor

/-- `WebhookHandler.List`. Every column it scans is `NOT NULL`. -/
def webhookList (srv : Server) (tenantId : String) (rows : List WebhookEndpoint)
    (order : List WebhookEndpoint → List WebhookEndpoint) (limit : Int) (cursor : Bytes) :
    Except String (List WebhookEndpoint × PageResponse) :=
  webhookPage srv (·.createdAt) (·.tenantId == tenantId) (fun _ => true) rows order limit cursor

/-- `WebhookHandler.DeadLetter`, which fails to scan a `NULL` in `last_error`. -/
def deadLetterList (srv : Server) (tenantId : String) (rows : List DeliveryEntry)
    (order : List DeliveryEntry → List DeliveryEntry) (limit : Int) (cursor : Bytes) :
    Except String (List DeliveryEntry × PageResponse) :=
  webhookPage srv (·.createdAt) (fun d => d.tenantId == tenantId && d.status == .deadLetter)
    (·.lastError.isSome) rows order limit cursor

/-! ## Clients -/

section

variable {α : Type}

/-- An order that `ORDER BY created_at DESC` allows. -/
def NewestOrder (createdAt : α → Time) (order : List α → List α) : Prop :=
  ∀ l, (order l).Perm l ∧ (order l).Pairwise fun a b => createdAt b ≤ createdAt a

/-- A page from a cursor text, in any order allowed. -/
def timeNext (createdAt : α → Time)
    (list : (List α → List α) → Bytes → Except String (List α × PageResponse)) (cursor : Bytes)
    (items : List α) (next : Option Bytes) : Prop :=
  ∃ order resp, NewestOrder createdAt order ∧ list order cursor = .ok (items, resp) ∧
    next = resp.next

/-- A list that is called with the decoded cursor. -/
def decoded (srv : Server)
    (list : (List α → List α) → PageRequest → Except String (List α × PageResponse)) (limit : Int)
    (order : List α → List α) (cursor : Bytes) : Except String (List α × PageResponse) :=
  match decodeCursor srv.parse cursor with
  | .error e => .error e
  | .ok cur => list order ⟨cur, limit⟩

def newestTimes (createdAt : α → Time) (rows : List α) : List Time :=
  (rows.map createdAt).insertionSort (· ≥ ·)

/-- A client ends, and gets every row once exactly if `condition` holds. -/
def ReadsAllIff (fetch : Bytes → List α → Option Bytes → Prop) (rows : List α) (condition : Prop) :
    Prop :=
  (∃ entries, Follows fetch [] entries) ∧
    ∀ entries, Follows fetch [] entries → (entries.Perm rows ↔ condition)

end

/-! ## Cursors of rows -/

def newestKey (t : Time) : WithBot Timeᵒᵈ := ↑(OrderDual.toDual t)

theorem newestKey_le_iff {s t : Time} : newestKey s ≤ newestKey t ↔ t ≤ s := by
  rw [newestKey, newestKey, WithBot.coe_le_coe, OrderDual.toDual_le_toDual]

theorem newestKey_injective : Function.Injective newestKey := fun _ _ h =>
  OrderDual.toDual.injective (WithBot.coe_injective h)

section

variable {α : Type} {createdAt : α → Time} {rows : List α}

def timeKey (createdAt : α → Time) (r : α) : WithBot Timeᵒᵈ := newestKey (createdAt r)

def timeCursor (createdAt : α → Time) (r : α) : Cursor :=
  ⟨cursorVersion, sortKeyCreatedAtDesc, 0, readTime (createdAt r)⟩

inductive BehindTime (createdAt : α → Time) (rows : List α) : Cursor → WithBot Timeᵒᵈ → Prop where
  | start : BehindTime createdAt rows Cursor.zero ⊥
  | row {r : α} : r ∈ rows →
      BehindTime createdAt rows (timeCursor createdAt r) (timeKey createdAt r)

def StandsAtTime (srv : Server) (createdAt : α → Time) (rows : List α) (text : Bytes)
    (after : WithBot Timeᵒᵈ) : Prop :=
  ∃ cur, trimSpace text = text ∧ decodeCursor srv.parse text = .ok cur ∧
    BehindTime createdAt rows cur after

def Clocked (createdAt : α → Time) (rows : List α) : Prop :=
  ∀ r ∈ rows, ClockTime (readTime (createdAt r))

instance (createdAt : α → Time) (rows : List α) : Decidable (Clocked createdAt rows) :=
  inferInstanceAs (Decidable (∀ r ∈ rows, ClockTime (readTime (createdAt r))))

variable {a b r : α}

theorem timeKey_le_iff :
    timeKey createdAt a ≤ timeKey createdAt b ↔ createdAt b ≤ createdAt a := newestKey_le_iff

theorem timeKey_lt_iff :
    timeKey createdAt a < timeKey createdAt b ↔ createdAt b < createdAt a := by
  rw [← not_le, ← not_le, timeKey_le_iff]

theorem bot_lt_timeKey (r : α) : ⊥ < timeKey createdAt r := WithBot.bot_lt_coe _

theorem timeCursor_isZero (r : α) : (timeCursor createdAt r).isZero = false :=
  beq_eq_false_iff_ne.mpr fun heq => by cases congrArg Cursor.version heq

theorem Clocked.issued (h : Clocked createdAt rows) (hr : r ∈ rows) :
    (timeCursor createdAt r).Issued where
  version := rfl
  sortKey := (by decide +kernel : Plain sortKeyCreatedAtDesc)
  lastId := (by decide : 0 ≤ (0 : Int) ∧ (0 : Int) ≤ 9223372036854775807)
  lastTimestamp := h r hr

theorem standsAtTime_nil (srv : Server) : StandsAtTime srv createdAt rows [] ⊥ :=
  ⟨Cursor.zero, rfl, rfl, .start⟩

/-- The next cursor leads behind its row, and behind all that have its time. -/
theorem Clocked.exists_next (h : Clocked createdAt rows) (srv : Server) (hr : r ∈ rows) :
    ∃ text, makeNextCursor srv sortKeyCreatedAtDesc 0 (readTime (createdAt r)) true =
        .ok ⟨text, true⟩ ∧
      text ≠ [] ∧ StandsAtTime srv createdAt rows text (timeKey createdAt r) := by
  obtain ⟨text, hmake, hne, htrim, hdecode⟩ := makeNextCursor_issued srv (h.issued hr)
    (by decide : sortKeyCreatedAtDesc ≠ [])
  exact ⟨text, hmake, hne, _, htrim, hdecode, .row hr⟩

theorem keysetTimeClause_behind (srv : Server) (h : Clocked createdAt rows) {cur : Cursor}
    {after : WithBot Timeᵒᵈ} (hcur : BehindTime createdAt rows cur after) :
    ∃ clause, keysetTimeClause srv cur sortKeyCreatedAtDesc = .ok clause ∧
      ∀ r, clause (createdAt r) = decide (after < timeKey createdAt r) := by
  cases hcur with
  | start =>
    refine ⟨fun _ => true, rfl, fun r => ?_⟩
    rw [decide_eq_true (bot_lt_timeKey r)]
  | @row a ha =>
    have hts : (timeCursor createdAt a).lastTimestamp ≠ zeroInstant := by
      intro hzero
      have hclock : ClockTime (timeCursor createdAt a).lastTimestamp := h a ha
      rw [hzero] at hclock
      revert hclock
      decide
    have hzero : ¬ (timeCursor createdAt a).isZero = true := by
      rw [timeCursor_isZero]
      exact Bool.false_ne_true
    refine ⟨_, (if_neg hzero).trans ((if_neg (not_not.mpr rfl)).trans (if_neg hts)), fun r => ?_⟩
    have hsent : sentTime (timeCursor createdAt a).lastTimestamp = createdAt a :=
      sentTime_readTime _
    rw [hsent]
    exact decide_eq_decide.mpr timeKey_lt_iff.symm

/-- The orders that the database may choose from are those by the key. -/
theorem NewestOrder.arranges {order : List α → List α} (h : NewestOrder createdAt order)
    (l : List α) : Arranges (timeKey createdAt) l (order l) :=
  ⟨(h l).1, (h l).2.imp fun hab => timeKey_le_iff.mpr hab⟩

theorem newestOrder_insertionSort (createdAt : α → Time) :
    NewestOrder createdAt (List.insertionSort fun a b => createdAt b ≤ createdAt a) := by
  intro l
  have htotal : Std.Total fun a b => createdAt b ≤ createdAt a := ⟨fun a b => le_total _ _⟩
  have htrans : IsTrans α fun a b => createdAt b ≤ createdAt a :=
    ⟨fun _ _ _ hab hbc => le_trans hbc hab⟩
  exact ⟨perm_insertionSort _ l, pairwise_insertionSort _ l⟩

theorem sortedKeys_timeKey (l : List α) :
    sortedKeys (timeKey createdAt) l = (newestTimes createdAt l).map newestKey := by
  have hmap := map_insertionSort (r := fun a b : Time => a ≥ b) (s := (· ≤ ·)) newestKey
    (l.map createdAt) fun _ _ _ _ => newestKey_le_iff.symm
  rw [newestTimes, hmap, map_map]
  rfl

end

/-! ## The pages of a list -/

section

variable {α : Type} {srv : Server} {createdAt : α → Time} {selects scans : α → Bool}
  {rows : List α} {n : Int}
  {list : (List α → List α) → Bytes → Except String (List α × PageResponse)}

/-- A list that is `timeList` on the cursors given out. -/
def ListsBy (srv : Server) (createdAt : α → Time) (selects scans : α → Bool) (rows : List α)
    (n : Int) (list : (List α → List α) → Bytes → Except String (List α × PageResponse)) : Prop :=
  ∀ ⦃text cur after⦄, trimSpace text = text → decodeCursor srv.parse text = .ok cur →
    BehindTime createdAt rows cur after →
      ∀ order, list order text = timeList srv createdAt selects scans rows order n cur

/-- The rows of a page that were scanned, and maybe one more. -/
def timePage (createdAt : α → Time) (selects scans : α → Bool) (rows : List α) (n : Int)
    (after : WithBot Timeᵒᵈ) (order : List α → List α) : List α :=
  ((order (above (timeKey createdAt) after (rows.filter selects))).take
    (fetchLimit n).toNat).filter scans

variable {after : WithBot Timeᵒᵈ}

theorem mem_timePage {order : List α → List α} (horder : NewestOrder createdAt order) {r : α}
    (h : r ∈ timePage createdAt selects scans rows n after order) :
    scans r = true ∧ r ∈ rows.filter selects ∧ after < timeKey createdAt r := by
  obtain ⟨hmem, hscans⟩ := mem_filter.mp h
  exact ⟨hscans, mem_above.mp ((horder _).1.mem_iff.mp (mem_of_mem_take hmem))⟩

theorem timeList_behind (srv : Server) (h : Clocked createdAt rows) (selects scans : α → Bool)
    (order : List α → List α) {cur : Cursor} (hcur : BehindTime createdAt rows cur after) (n :
      Int) :
    timeList srv createdAt selects scans rows order n cur =
      finishInt64Page srv (timePage createdAt selects scans rows n after order) n
        sortKeyCreatedAtDesc (fun _ => 0) fun r => readTime (createdAt r) := by
  obtain ⟨clause, hclause, hdecide⟩ := keysetTimeClause_behind srv h hcur
  have hfilter : (rows.filter fun r => selects r && clause (createdAt r)) =
      above (timeKey createdAt) after (rows.filter selects) := by
    rw [above, filter_filter]
    exact filter_congr fun r _ => by rw [hdecide, Bool.and_comm]
  unfold timeList
  rw [hclause]
  dsimp only
  rw [hfilter]
  rfl

namespace ListsBy

variable (hlist : ListsBy srv createdAt selects scans rows n list) (hclock : Clocked createdAt rows)
  (hn : 0 < n)

include hlist hclock hn

variable {text : Bytes} {after : WithBot Timeᵒᵈ} {order : List α → List α}

theorem eq_last (hstands : StandsAtTime srv createdAt rows text after)
    (hle : (timePage createdAt selects scans rows n after order).length ≤ n) :
    list order text =
      .ok (timePage createdAt selects scans rows n after order, { hasMore := false }) := by
  obtain ⟨cur, htrim, hdecode, hcur⟩ := hstands
  rw [hlist htrim hdecode hcur order, timeList_behind srv hclock selects scans order hcur n,
    finishInt64Page_of_le srv hn _ _ _ hle]

theorem eq_more (hstands : StandsAtTime srv createdAt rows text after)
    (horder : NewestOrder createdAt order)
    (hlt : n < (timePage createdAt selects scans rows n after order).length) :
    ∃ last text',
      ((timePage createdAt selects scans rows n after order).take n.toNat).getLast? = some last ∧
      list order text =
        .ok ((timePage createdAt selects scans rows n after order).take n.toNat, ⟨text', true⟩) ∧
      PageResponse.next ⟨text', true⟩ = some text' ∧
      StandsAtTime srv createdAt rows text' (timeKey createdAt last) := by
  obtain ⟨cur, htrim, hdecode, hcur⟩ := hstands
  obtain ⟨last, hlast, hfinish⟩ := finishInt64Page_of_lt srv hn sortKeyCreatedAtDesc (fun _ => 0)
    (fun r => readTime (createdAt r)) hlt
  have hmem := mem_timePage horder (mem_of_mem_take (mem_of_getLast? hlast))
  obtain ⟨text', hmake, hne, hstands'⟩ := hclock.exists_next srv (mem_of_mem_filter hmem.2.1)
  refine ⟨last, text', hlast, ?_, if_neg hne, hstands'⟩
  rw [hlist htrim hdecode hcur order, timeList_behind srv hclock selects scans order hcur n,
    hfinish hmake]

theorem scans_of_timeNext {items : List α} {next : Option Bytes}
    (hstands : ∃ after, StandsAtTime srv createdAt rows text after)
    (hfetch : timeNext createdAt list text items next) :
    (∀ r ∈ items, scans r = true) ∧
      ∀ text', next = some text' → ∃ after, StandsAtTime srv createdAt rows text' after := by
  obtain ⟨after, hstands⟩ := hstands
  obtain ⟨order, resp, horder, heq, rfl⟩ := hfetch
  rcases lt_or_ge n (timePage createdAt selects scans rows n after order).length with hlt | hle
  · obtain ⟨last, text', -, heq', hnext, hstands'⟩ := hlist.eq_more hclock hn hstands horder hlt
    obtain ⟨rfl, rfl⟩ := Prod.mk.inj (Except.ok.inj (heq.symm.trans heq'))
    refine ⟨fun r hr => (mem_timePage horder (mem_of_mem_take hr)).1, fun text'' htext => ?_⟩
    obtain rfl := Option.some.inj (hnext.symm.trans htext)
    exact ⟨_, hstands'⟩
  · have heq' := hlist.eq_last hclock hn hstands hle
    obtain ⟨rfl, rfl⟩ := Prod.mk.inj (Except.ok.inj (heq.symm.trans heq'))
    exact ⟨fun r hr => (mem_timePage horder hr).1, fun _ htext => nomatch htext⟩

/-- A client comes to an end: the time of the last row goes down. -/
theorem exists_follows (hstands : StandsAtTime srv createdAt rows text after) :
    ∃ entries, Follows (timeNext createdAt list) text entries := by
  refine Lib.exists_follows
    (R := fun text m => ∃ after, StandsAtTime srv createdAt rows text after ∧
      (above (timeKey createdAt) after (rows.filter selects)).length = m)
    ?_ ⟨after, hstands, rfl⟩
  rintro text m ⟨after, hstands, rfl⟩
  have horder := newestOrder_insertionSort createdAt
  rcases lt_or_ge n (timePage createdAt selects scans rows n after
    (List.insertionSort fun a b => createdAt b ≤ createdAt a)).length with hlt | hle
  · obtain ⟨last, text', hlast, heq, hnext, hstands'⟩ :=
      hlist.eq_more hclock hn hstands horder hlt
    refine ⟨_, _, ⟨_, _, horder, heq, rfl⟩, fun c' hc' => ?_⟩
    obtain rfl := Option.some.inj (hnext.symm.trans hc')
    have hmem := mem_timePage horder (mem_of_mem_take (mem_of_getLast? hlast))
    refine ⟨_, ?_, _, hstands', rfl⟩
    rw [← above_above hmem.2.2.le]
    exact length_filter_lt_length_iff_exists.mpr ⟨last, mem_above.mpr hmem.2, by simp⟩
  · exact ⟨_, _, ⟨_, _, horder, hlist.eq_last hclock hn hstands hle, rfl⟩, fun c' hc' =>
      nomatch hc'⟩

theorem tiedPagesOf (hscans : ∀ r ∈ rows.filter selects, scans r = true) :
    TiedPagesOf (timeNext createdAt list) (timeKey createdAt) (rows.filter selects) n.toNat
      (StandsAtTime srv createdAt rows) := by
  rintro text after items next hstands ⟨order, resp, horder, heq, rfl⟩
  have harranges := horder.arranges (above (timeKey createdAt) after (rows.filter selects))
  have hpage : timePage createdAt selects scans rows n after order =
      (order (above (timeKey createdAt) after (rows.filter selects))).take
        (fetchLimit n).toNat := by
    refine filter_eq_self.mpr fun r hr => hscans r ?_
    exact (mem_above.mp (harranges.1.mem_iff.mp (mem_of_mem_take hr))).1
  have hfetch : fetchLimit n = n + 1 := if_neg (by omega)
  refine ⟨_, harranges, ?_⟩
  rcases Nat.lt_or_ge n.toNat
    (order (above (timeKey createdAt) after (rows.filter selects))).length with hlt | hle
  · have hlt' : n < (timePage createdAt selects scans rows n after order).length := by
      rw [hpage, length_take]
      omega
    obtain ⟨last, text', hlast, heq', hnext, hstands'⟩ :=
      hlist.eq_more hclock hn hstands horder hlt'
    obtain ⟨rfl, rfl⟩ := Prod.mk.inj (Except.ok.inj (heq.symm.trans heq'))
    refine ⟨?_, .inr ⟨hlt, text', hnext, (lastKey_of_getLast? hlast _).symm ▸ hstands'⟩⟩
    rw [hpage, take_take, Nat.min_eq_left (by omega)]
  · have hall : timePage createdAt selects scans rows n after order =
        order (above (timeKey createdAt) after (rows.filter selects)) := by
      rw [hpage, take_of_length_le (by omega)]
    have hle' : (timePage createdAt selects scans rows n after order).length ≤ n := by
      rw [hall]
      omega
    have heq' := hlist.eq_last hclock hn hstands hle'
    obtain ⟨rfl, rfl⟩ := Prod.mk.inj (Except.ok.inj (heq.symm.trans heq'))
    exact ⟨by rw [hall, take_of_length_le hle], .inl ⟨hle, rfl⟩⟩

/-- **When a client gets every row.** -/
theorem readsAllIff :
    ReadsAllIff (timeNext createdAt list) (rows.filter selects)
      ((∀ r ∈ rows.filter selects, scans r = true) ∧
        Apart n.toNat (newestTimes createdAt (rows.filter selects))) := by
  have hstart : StandsAtTime srv createdAt rows [] ⊥ := standsAtTime_nil srv
  have hbot : above (timeKey createdAt) ⊥ (rows.filter selects) = rows.filter selects :=
    filter_eq_self.mpr fun r _ => decide_eq_true (bot_lt_timeKey r)
  refine ⟨hlist.exists_follows hclock hn hstart, fun entries hfollows => ?_⟩
  have hiff (hscans : ∀ r ∈ rows.filter selects, scans r = true) :
      entries.Perm (rows.filter selects) ↔
        Apart n.toNat (newestTimes createdAt (rows.filter selects)) := by
    have hperm := (hlist.tiedPagesOf hclock hn hscans).perm_iff (by omega) hfollows hstart
    rwa [hbot, sortedKeys_timeKey, apart_map_iff newestKey_injective] at hperm
  constructor
  · intro hperm
    have hentries := hfollows.forall_mem (hlist.scans_of_timeNext hclock hn) ⟨_, hstart⟩
    have hscans : ∀ r ∈ rows.filter selects, scans r = true := fun r hr =>
      hentries r (hperm.mem_iff.mpr hr)
    exact ⟨hscans, (hiff hscans).mp hperm⟩
  · rintro ⟨hscans, hapart⟩
    exact (hiff hscans).mpr hapart

end ListsBy

/-- Without a column that can be `NULL`, times decide alone. -/
theorem ListsBy.readsAllIff_apart
    (hlist : ListsBy srv createdAt selects (fun _ => true) rows n list)
    (hclock : Clocked createdAt rows) (hn : 0 < n) :
    ReadsAllIff (timeNext createdAt list) (rows.filter selects)
      (Apart n.toNat (newestTimes createdAt (rows.filter selects))) := by
  obtain ⟨hend, hiff⟩ := hlist.readsAllIff hclock hn
  exact ⟨hend, fun entries hfollows =>
    (hiff entries hfollows).trans (and_iff_right fun _ _ => rfl)⟩

theorem listsBy_decoded (srv : Server) {list : (List α → List α) → PageRequest →
      Except String (List α × PageResponse)} {limit : Int}
    (h : ∀ order cur, list order ⟨cur, limit⟩ =
      timeList srv createdAt selects scans rows order n cur) :
    ListsBy srv createdAt selects scans rows n (decoded srv list limit) := by
  intro text cur after _ hdecode _ order
  rw [decoded, hdecode]
  exact h order cur

theorem listsBy_webhookPage (srv : Server) (createdAt : α → Time) (selects scans : α → Bool)
    (rows : List α) (limit : Int) :
    ListsBy srv createdAt selects scans rows (pageLimit limit) fun order cursor =>
      webhookPage srv createdAt selects scans rows order limit cursor := by
  intro text cur after htrim hdecode hcur order
  have hkey : ¬ (cur.isZero = false ∧ cur.sortKey ≠ sortKeyCreatedAtDesc) := by
    cases hcur with
    | start => decide
    | row => exact fun h => h.2 rfl
  have hid : ¬ (cur.isZero = false ∧ 0 < cur.lastId ∧ cur.lastTimestamp = zeroInstant) := by
    cases hcur with
    | start => decide
    | row => exact fun h => absurd h.2.1 (lt_irrefl 0)
  have hparse : parseListPagination srv sortKeyCreatedAtDesc limit text =
      .ok ⟨cur, pageLimit limit⟩ := by
    unfold parseListPagination
    dsimp only
    rw [htrim]
    split
    · next hnil =>
      rw [hnil] at hdecode
      rw [← Except.ok.inj hdecode]
    · rw [hdecode]
      exact if_neg hkey
  dsimp only [webhookPage]
  rw [hparse]
  exact if_neg hid

theorem pageLimit_pos (limit : Int) : 0 < pageLimit limit := by
  unfold pageLimit
  split_ifs <;> omega

end

/-! ## Completeness -/

theorem readsAllIff_listTenants (srv : Server) {rows : List TenantResponse}
    (hclock : Clocked TenantResponse.createdAt rows) (limit : Int) :
    ReadsAllIff (timeNext (·.createdAt) (decoded srv (listTenants srv rows) limit)) rows
      (Apart (clampLimit 100 limit).toNat (newestTimes (·.createdAt) rows)) := by
  have hlist : ListsBy srv TenantResponse.createdAt (fun _ => true) (fun _ => true) rows
      (clampLimit 100 limit) (decoded srv (listTenants srv rows) limit) :=
    listsBy_decoded srv fun _ _ => rfl
  have hall := hlist.readsAllIff_apart hclock (clampLimit_pos (by decide) limit)
  rwa [filter_true] at hall

/-- **A client gets every row once exactly if no page ends between two rows with equal times**, and
each dead letter has an error. -/
theorem time_pages_complete_iff (srv : Server) (tenantId : String) (limit : Int) :
    (∀ rows, Clocked TenantResponse.createdAt rows →
      ReadsAllIff (timeNext (·.createdAt) (decoded srv (listTenants srv rows) limit)) rows
        (Apart (clampLimit 100 limit).toNat (newestTimes (·.createdAt) rows))) ∧
    (∀ rows, Clocked ApiKeyEntry.createdAt rows →
      ReadsAllIff (timeNext (·.createdAt) (decoded srv (listApiKeys srv tenantId rows) limit))
        (rows.filter (·.tenantId == tenantId))
        (Apart (clampLimit 50 limit).toNat
          (newestTimes (·.createdAt) (rows.filter (·.tenantId == tenantId))))) ∧
    (∀ rows, Clocked WebhookEndpoint.createdAt rows →
      ReadsAllIff (timeNext (·.createdAt) fun order => webhookList srv tenantId rows order limit)
        (rows.filter (·.tenantId == tenantId))
        (Apart (pageLimit limit).toNat
          (newestTimes (·.createdAt) (rows.filter (·.tenantId == tenantId))))) ∧
    ∀ rows, Clocked DeliveryEntry.createdAt rows →
      ReadsAllIff (timeNext (·.createdAt) fun order => deadLetterList srv tenantId rows order limit)
        (rows.filter fun d => d.tenantId == tenantId && d.status == .deadLetter)
        ((∀ d ∈ rows.filter fun d => d.tenantId == tenantId && d.status == .deadLetter,
            d.lastError.isSome = true) ∧
          Apart (pageLimit limit).toNat
            (newestTimes (·.createdAt)
              (rows.filter fun d => d.tenantId == tenantId && d.status == .deadLetter))) := by
  have hn : 0 < clampLimit 50 limit := clampLimit_pos (by decide) limit
  have hpage := pageLimit_pos limit
  refine ⟨fun rows hclock => ?_, fun rows hclock => ?_, fun rows hclock => ?_, fun rows hclock =>
    ?_⟩
  · exact readsAllIff_listTenants srv hclock limit
  · exact ListsBy.readsAllIff_apart (listsBy_decoded srv fun _ _ => rfl) hclock hn
  · exact (listsBy_webhookPage srv _ _ _ rows limit).readsAllIff_apart hclock hpage
  · exact (listsBy_webhookPage srv _ _ _ rows limit).readsAllIff hclock hpage

def tenantAt (slug : String) (createdAt : Time) : TenantResponse :=
  ⟨slug, slug, slug, none, createdAt⟩

def deadLetterAt (id : String) (createdAt : Time) : DeliveryEntry :=
  ⟨id, "t", "e", "stored", .null, .deadLetter, 5, some "timeout", createdAt⟩

theorem time_pages_complete_distinct :
    (∀ entries,
      Follows (timeNext (·.createdAt) (decoded eastServer (listTenants eastServer
        [tenantAt "a" 1767225600000000, tenantAt "b" 1767225600000001]) 1)) [] entries →
      entries.Perm [tenantAt "a" 1767225600000000, tenantAt "b" 1767225600000001]) ∧
    ∀ entries,
      Follows (timeNext (·.createdAt) fun order => deadLetterList eastServer "t"
        [deadLetterAt "a" 1767225600000000, deadLetterAt "b" 1767225600000001] order 1) [] entries →
      entries.Perm [deadLetterAt "a" 1767225600000000, deadLetterAt "b" 1767225600000001] := by
  have hapart : Apart 1 [(1767225600000001 : Time), 1767225600000000] :=
    (apart_iff (by decide) (by decide)).mpr ⟨by decide, apart_of_length_le (by decide)⟩
  obtain ⟨htenants, -, -, hdead⟩ := time_pages_complete_iff eastServer "t" 1
  constructor
  · intro entries hfollows
    exact ((htenants [tenantAt "a" 1767225600000000, tenantAt "b" 1767225600000001]
      (by decide)).2 entries hfollows).mpr hapart
  · intro entries hfollows
    exact ((hdead [deadLetterAt "a" 1767225600000000, deadLetterAt "b" 1767225600000001]
      (by decide)).2 entries hfollows).mpr ⟨by decide, hapart⟩

/-- **A tenant is on no page** if another of the same time ends one. -/
theorem tenant_on_no_page :
    (∃ entries, Follows (timeNext (·.createdAt) (decoded eastServer (listTenants eastServer
        [tenantAt "a" 1767225600000000, tenantAt "b" 1767225600000000]) 1)) [] entries) ∧
    ∀ entries,
      Follows (timeNext (·.createdAt) (decoded eastServer (listTenants eastServer
        [tenantAt "a" 1767225600000000, tenantAt "b" 1767225600000000]) 1)) [] entries →
      ¬ entries.Perm [tenantAt "a" 1767225600000000, tenantAt "b" 1767225600000000] := by
  have htied : ¬ Apart 1 [(1767225600000000 : Time), 1767225600000000] := fun h =>
    h 1 (by decide) (by decide) rfl
  have hclock : Clocked (·.createdAt)
      [tenantAt "a" 1767225600000000, tenantAt "b" 1767225600000000] := by decide
  obtain ⟨hend, hiff⟩ := readsAllIff_listTenants eastServer hclock 1
  exact ⟨hend, fun entries hfollows hperm => htied ((hiff entries hfollows).mp hperm)⟩

end Pcmi.Listing
