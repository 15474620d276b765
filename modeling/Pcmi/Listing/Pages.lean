import Mathlib.Tactic.SplitIfs
import Pcmi.Listing.Cursor
import Pcmi.Values

/-!
# Pages

A page is fetched with one row more than it shows; if it is there, the last row shown becomes the
next cursor (`finishInt64Page`). A client passes cursors on until there is none (`listNext`).
-/

namespace Pcmi.Listing

open Pcmi.Go

/-- The zone of the server, other layouts of `time`, and `%q` of `fmt`. -/
structure Server where
  loc : Location
  parse : Bytes → Option Instant
  quote : Bytes → String

structure PageRequest where
  cursor : Cursor
  limit : Int

structure PageResponse where
  nextCursor : Bytes := []
  hasMore : Bool
  deriving DecidableEq

/-- The cursor a client continues with. -/
def PageResponse.next (resp : PageResponse) : Option Bytes :=
  if resp.nextCursor = [] then none else some resp.nextCursor

/-- A time as it is sent to the database, which counts microseconds. -/
def sentTime (t : Instant) : Time := t / 1000

def readTime (t : Time) : Instant := t * 1000

/-- The limits of a request: a default if it names none, at most 200. -/
def clampLimit (default limit : Int) : Int :=
  if limit ≤ 0 then default else if 200 < limit then 200 else limit

def fetchLimit (limit : Int) : Int := if limit < 1 then 2 else limit + 1

section

variable {α : Type} (srv : Server)

def makeNextCursor (sortKey : Bytes) (lastId : Int) (lastTimestamp : Instant) (hasMore : Bool) :
    Except String PageResponse :=
  if !hasMore then .ok { hasMore := false }
  else if sortKey = [] then .error "MakeNextCursor: sortKey required"
  else
    match encodeCursor srv.loc ⟨cursorVersion, sortKey, lastId, lastTimestamp⟩ with
    | .error e => .error e
    | .ok enc => .ok { nextCursor := enc, hasMore := true }

def finishInt64Page (items : List α) (limit : Int) (sortKey : Bytes) (idOf : α → Int)
    (tsOf : α → Instant) : Except String (List α × PageResponse) :=
  let limit := if limit < 1 then 1 else limit
  let hasMore := decide (limit < items.length)
  let items := if hasMore then items.take limit.toNat else items
  match items.getLast? with
  | none => .ok (items, { hasMore := false })
  | some last =>
    match makeNextCursor srv sortKey (idOf last) (tsOf last) hasMore with
    | .error e => .error e
    | .ok resp => .ok (items, resp)

/-- A list read from the cursor text that the client got. -/
def listNext (list : PageRequest → Except String (List α × PageResponse)) (limit : Int)
    (cursor : Bytes) (items : List α) (next : Option Bytes) : Prop :=
  ∃ cur resp, decodeCursor srv.parse cursor = .ok cur ∧ list ⟨cur, limit⟩ = .ok (items, resp) ∧
    next = resp.next

end

/-! ## Times -/

theorem sentTime_readTime (t : Int) : sentTime (readTime t) = t :=
  (Int.mul_ediv_cancel t (by decide) : t * 1000 / 1000 = t)

/-! ## Ends of pages -/

section

variable {α : Type}

theorem clampLimit_pos {default : Int} (h : 0 < default) (limit : Int) :
    0 < clampLimit default limit := by
  unfold clampLimit
  split_ifs <;> omega

variable {cur : Cursor}

theorem makeNextCursor_issued (srv : Server) (h : cur.Issued) (hkey : cur.sortKey ≠ []) :
    ∃ text, makeNextCursor srv cur.sortKey cur.lastId cur.lastTimestamp true =
        .ok ⟨text, true⟩ ∧
      text ≠ [] ∧ trimSpace text = text ∧ decodeCursor srv.parse text = .ok cur := by
  obtain ⟨text, hencode, hne, htrim, hdecode⟩ := decodeCursor_encodeCursor srv.loc srv.parse h
  have hcur : (⟨cursorVersion, cur.sortKey, cur.lastId, cur.lastTimestamp⟩ : Cursor) = cur := by
    rw [← h.version]
  refine ⟨text, ?_, hne, htrim, hdecode⟩
  rw [makeNextCursor, hcur, hencode, if_neg (by decide), if_neg hkey]

theorem exists_getLast?_take {l : List α} {n : Nat} (hn : 0 < n) (hl : l ≠ []) :
    ∃ last, (l.take n).getLast? = some last := by
  have hne : l.take n ≠ [] := by
    rw [Ne, List.take_eq_nil_iff, not_or]
    exact ⟨hn.ne', hl⟩
  exact ⟨_, List.getLast?_eq_some_getLast hne⟩

section

variable (srv : Server) {n : Int} (hn : 0 < n) (sortKey : Bytes) (idOf : α → Int)
  (tsOf : α → Instant)

include hn

variable {l items : List α}

theorem finishInt64Page_of_le (h : items.length ≤ n) :
    finishInt64Page srv items n sortKey idOf tsOf = .ok (items, { hasMore := false }) := by
  have hmore : decide (n < (items.length : Int)) = false := decide_eq_false (by omega)
  unfold finishInt64Page
  dsimp only
  rw [if_neg (by omega : ¬ n < 1), hmore, if_neg Bool.false_ne_true]
  cases items.getLast? with
  | none => rfl
  | some last => rfl

theorem finishInt64Page_of_lt (h : n < items.length) :
    ∃ last, (items.take n.toNat).getLast? = some last ∧
      ∀ {resp}, makeNextCursor srv sortKey (idOf last) (tsOf last) true = .ok resp →
        finishInt64Page srv items n sortKey idOf tsOf = .ok (items.take n.toNat, resp) := by
  obtain ⟨last, hlast⟩ := exists_getLast?_take (n := n.toNat) (by omega)
    (List.ne_nil_of_length_pos (l := items) (by omega))
  have hmore : decide (n < (items.length : Int)) = true := decide_eq_true h
  refine ⟨last, hlast, fun {resp} hresp => ?_⟩
  unfold finishInt64Page
  dsimp only
  rw [if_neg (by omega : ¬ n < 1), hmore, if_pos rfl, hlast]
  dsimp only
  rw [hresp]

theorem finishInt64Page_last (h : l.length ≤ n) :
    finishInt64Page srv (l.take (fetchLimit n).toNat) n sortKey idOf tsOf =
      .ok (l, { hasMore := false }) := by
  have hfetch : fetchLimit n = n + 1 := if_neg (by omega)
  rw [List.take_of_length_le (by omega), finishInt64Page_of_le srv hn sortKey idOf tsOf h]

theorem finishInt64Page_more (h : n < l.length) :
    ∃ last, (l.take n.toNat).getLast? = some last ∧
      ∀ {resp}, makeNextCursor srv sortKey (idOf last) (tsOf last) true = .ok resp →
        finishInt64Page srv (l.take (fetchLimit n).toNat) n sortKey idOf tsOf =
          .ok (l.take n.toNat, resp) := by
  have hfetch : fetchLimit n = n + 1 := if_neg (by omega)
  have hshown : (l.take (fetchLimit n).toNat).take n.toNat = l.take n.toNat := by
    rw [List.take_take, Nat.min_eq_left (by omega)]
  have hlt : n < (l.take (fetchLimit n).toNat).length := by
    rw [List.length_take]
    omega
  have hfinish := finishInt64Page_of_lt srv hn sortKey idOf tsOf hlt
  rwa [hshown] at hfinish

end

theorem listNext_iff (srv : Server) {list : PageRequest → Except String (List α × PageResponse)}
    {limit : Int} {text : Bytes} {shown : List α} {resp : PageResponse}
    (hdecode : decodeCursor srv.parse text = .ok cur)
    (hlist : list ⟨cur, limit⟩ = .ok (shown, resp)) (items : List α) (next : Option Bytes) :
    listNext srv list limit text items next ↔ items = shown ∧ next = resp.next := by
  constructor
  · rintro ⟨cur', resp', hdecode', hlist', rfl⟩
    obtain rfl := Except.ok.inj (hdecode.symm.trans hdecode')
    obtain ⟨rfl, rfl⟩ := Prod.mk.inj (Except.ok.inj (hlist.symm.trans hlist'))
    exact ⟨rfl, rfl⟩
  · rintro ⟨rfl, rfl⟩
    exact ⟨cur, resp, hdecode, hlist, rfl⟩

end

def eastServer : Server := ⟨eastTwo, fun _ => none, fun _ => ""⟩

end Pcmi.Listing
