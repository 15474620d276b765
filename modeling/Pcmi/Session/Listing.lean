import Pcmi.Lib.Ties
import Pcmi.Memory.Encryption
import Pcmi.Memory.Export
import Pcmi.Session.Service

/-!
# `ListSessionMemories`

The listing's own scan, `scanMemoryRows`, copies the column `content`; the lookup of a path decrypts
(`scanMemoryEntry`).
-/

namespace Pcmi.Session

open List Pcmi.Go Pcmi.Lib Pcmi.Memory

/-- One round of `scanMemoryRows`. -/
def scanMemoryRow (r : Row) : MemoryEntry :=
  { r.toEntry with embedding := [], contentEncrypted := false }

def sessionLimit (limit : Int) : Nat :=
  let limit := if limit ≤ 0 then 50 else limit
  (if limit > 200 then 200 else limit).toNat

/-- The rows of the second query: current, below the path and of no session. -/
def longTermRows (db : Db) (tenantId : String) (path : Ltree) (rows : List Row) : List Row :=
  rows.filter fun r => r.tenantId == tenantId && r.isOpen && r.path.under path &&
    (sessionIdOf db r.metadata == none || sessionIdOf db r.metadata == some "")

/-- `ListSessionMemories`; `newestFirst` is its `ORDER BY`. -/
def listSessionMemories (db : Db) (newestFirst : List Row → List Row)
    (tenantId sessionId pathPrefix : String) (limit : Int) (includeLongTerm : Bool)
    (rows : List Row) : Except String (List MemoryEntry) :=
  let limit := sessionLimit limit
  let entries :=
    ((newestFirst (sessionRows db tenantId sessionId rows)).take limit).map scanMemoryRow
  if !includeLongTerm then .ok entries
  else
    let remaining := limit - entries.length
    if remaining = 0 then .ok entries
    else
      match db.castLtree (targetOrRoot pathPrefix) with
      | none => .error "list long-term memories: invalid ltree"
      | some path =>
        .ok (entries ++
          ((newestFirst (longTermRows db tenantId path rows)).take remaining).map scanMemoryRow)

/-- Ids and current paths are unique, and a path is what its text is cast to. -/
structure Addressed (rules : LabelRules) (env : Env) (rows : List Row) : Prop where
  cast : env.castLtree = rules.castLtree
  stores : ∀ r ∈ rows, rules.stores r.path = true
  /-- A store refuses an empty path. -/
  nonempty : ∀ r ∈ rows, r.path.labels ≠ []
  ids : (rows.map Row.id).Nodup
  unique : ∀ a ∈ rows, ∀ b ∈ rows, a.isOpen = true → b.isOpen = true →
    a.tenantId = b.tenantId → a.path = b.path → a = b

/-- The content listed for a row is the one at the row's path. -/
def Agrees (db : Db) (env : Env) (tenantId sessionId : String) (rows : List Row)
    (entries : List MemoryEntry) : Prop :=
  ∀ r ∈ sessionRows db tenantId sessionId rows, ∀ e ∈ entries, e.id = r.id →
    (getByPath env tenantId r.path.text none none (.ok rows)).map (·.content) = .ok e.content

section

variable {db : Db} {newestFirst : List Row → List Row} {rules : LabelRules} {env : Env}
  {tenantId sessionId pathPrefix : String} {limit : Int} {includeLongTerm : Bool} {rows : List Row}
  {entries : List MemoryEntry}

theorem exists_row_of_listed (hperm : ∀ l, (newestFirst l).Perm l)
    (h : listSessionMemories db newestFirst tenantId sessionId pathPrefix limit includeLongTerm
      rows = .ok entries) {e : MemoryEntry} (he : e ∈ entries) :
    ∃ r ∈ rows, e = scanMemoryRow r := by
  have hscanned : ∀ (p : Row → Bool) (n : Nat),
      e ∈ ((newestFirst (rows.filter p)).take n).map scanMemoryRow →
        ∃ r ∈ rows, e = scanMemoryRow r := by
    intro p n he
    obtain ⟨r, hr, rfl⟩ := mem_map.mp he
    exact ⟨r, mem_of_mem_filter ((hperm _).mem_iff.mp (mem_of_mem_take hr)), rfl⟩
  unfold listSessionMemories at h
  dsimp only at h
  split at h
  · cases h
    exact hscanned _ _ he
  split at h
  · cases h
    exact hscanned _ _ he
  split at h <;> cases h
  rcases mem_append.mp he with he | he <;> exact hscanned _ _ he

variable {r : Row}

theorem Addressed.eq_of_id (h : Addressed rules env rows) {r' : Row} (hr : r ∈ rows)
    (hr' : r' ∈ rows) (hid : r.id = r'.id) : r = r' :=
  inj_on_of_nodup_map h.ids hr hr' hid

theorem Addressed.getByPath_eq (h : Addressed rules env rows) (hr : r ∈ rows)
    (htenant : r.tenantId = tenantId) (hopen : r.isOpen = true) :
    getByPath env tenantId r.path.text none none (.ok rows) =
      (scanMemoryEntry env r).mapError ("get by path: " ++ ·) := by
  have htrim := LabelRules.trimSpaceText_text (h.stores r hr)
  have hne : r.path.text ≠ "" :=
    mt (LabelRules.text_eq_empty_iff (h.stores r hr)).mp (h.nonempty r hr)
  have hcast : env.castLtree r.path.text = some r.path := by
    rw [h.cast]
    exact LabelRules.castLtree_text (h.stores r hr)
  have hfind : rows.find? (Row.current tenantId r.path) = some r := by
    have hcur : r.current tenantId r.path = true := Row.current_iff.mpr ⟨htenant, rfl, hopen⟩
    cases hfind : rows.find? (Row.current tenantId r.path) with
    | none => exact absurd hcur (find?_eq_none.mp hfind r hr)
    | some r' =>
      have hr' := mem_of_find?_eq_some hfind
      obtain ⟨htenant', hpath, hopen'⟩ := Row.current_iff.mp (find?_some hfind)
      rw [h.unique r' hr' r hr hopen' hopen (htenant'.trans htenant.symm) hpath]
  simp [getByPath, htrim, hne, hcast, hfind]

theorem scan_content_iff :
    (scanMemoryEntry env r).map (·.content) = .ok r.content ↔
      (r.contentEncrypted = true → env.decryptContent r.content = .ok r.content) := by
  unfold scanMemoryEntry
  split
  · next henc =>
    cases hplain : env.decryptContent r.content with
    | error e | ok plain => simp [henc, Except.map]
  · next henc => simp [henc, Except.map]

theorem mem_sessionRows_iff : r ∈ sessionRows db tenantId sessionId rows ↔
    r ∈ rows ∧ r.tenantId = tenantId ∧ r.isOpen = true ∧
      sessionIdOf db r.metadata = some sessionId := by
  simp [sessionRows, and_assoc]

/-- **The listing agrees with the lookup where decryption changes nothing listed.** -/
theorem listing_agrees_iff (h : Addressed rules env rows)
    (harranges : ∀ l, Arranges (fun r : Row => OrderDual.toDual r.createdAt) l (newestFirst l))
    (hlist : listSessionMemories db newestFirst tenantId sessionId pathPrefix limit includeLongTerm
      rows = .ok entries) :
    Agrees db env tenantId sessionId rows entries ↔
      ∀ r ∈ sessionRows db tenantId sessionId rows, (∃ e ∈ entries, e.id = r.id) →
        r.contentEncrypted = true → env.decryptContent r.content = .ok r.content := by
  have hentry : ∀ r ∈ sessionRows db tenantId sessionId rows, ∀ e ∈ entries, e.id = r.id →
      ((getByPath env tenantId r.path.text none none (.ok rows)).map (·.content) = .ok e.content ↔
        (r.contentEncrypted = true → env.decryptContent r.content = .ok r.content)) := by
    intro r hsession e he hid
    obtain ⟨hr, htenant, hopen, -⟩ := mem_sessionRows_iff.mp hsession
    obtain ⟨r', hr', rfl⟩ := exists_row_of_listed (fun l => (harranges l).1) hlist he
    have hsame : r' = r := h.eq_of_id hr' hr hid
    rw [h.getByPath_eq hr htenant hopen, hsame, ← scan_content_iff]
    cases scanMemoryEntry env r with
    | error e => exact ⟨nofun, nofun⟩
    | ok e => exact Iff.rfl
  constructor
  · intro hagrees r hsession hlisted
    obtain ⟨e, he, hid⟩ := hlisted
    exact (hentry r hsession e he hid).mp (hagrees r hsession e he hid)
  · intro hplain r hsession e he hid
    exact (hentry r hsession e he hid).mpr (hplain r hsession ⟨e, he, hid⟩)

end

/-! ## A session with one memory -/

def sealedEnv : Env := { prefixEnv with castLtree := wordRules.castLtree }

def wordDb : Db := { plainDb with castLtree := wordRules.castLtree }

def listedRow (contentEncrypted : Bool) : Row :=
  { dedupRow 1 "x" "enc:v1:note" with
    path := ⟨["sessions", "a_1", "x"]⟩, metadata := AList.singleton "session_id" (.str "a-1"),
    contentEncrypted := contentEncrypted }

theorem addressed_listedRow (contentEncrypted : Bool) :
    Addressed wordRules sealedEnv [listedRow contentEncrypted] where
  cast := rfl
  stores := forall_mem_singleton.mpr
    (by decide : wordRules.stores ⟨["sessions", "a_1", "x"]⟩ = true)
  nonempty := forall_mem_singleton.mpr (cons_ne_nil _ _)
  ids := nodup_singleton _
  unique := by
    intro a ha b hb _ _ _ _
    rw [mem_singleton.mp ha, mem_singleton.mp hb]

def byCreated (l : List Row) : List Row := l.insertionSort fun a b => b.createdAt ≤ a.createdAt

theorem arranges_byCreated (l : List Row) :
    Arranges (fun r : Row => OrderDual.toDual r.createdAt) l (byCreated l) :=
  ⟨perm_insertionSort _ l, pairwise_insertionSort _ l⟩

theorem listing_agrees_plain :
    ∃ entries, listSessionMemories wordDb byCreated "t" "a-1" "" 0 false [listedRow false] =
        .ok entries ∧ Agrees wordDb sealedEnv "t" "a-1" [listedRow false] entries := by
  obtain ⟨entries, hlist⟩ : ∃ entries, listSessionMemories wordDb byCreated "t" "a-1" "" 0 false
      [listedRow false] = .ok entries := ⟨_, rfl⟩
  refine ⟨entries, hlist, ?_⟩
  refine (listing_agrees_iff (addressed_listedRow false) arranges_byCreated hlist).mpr ?_
  intro r hsession hlisted henc
  obtain ⟨hr, -⟩ := mem_sessionRows_iff.mp hsession
  rw [mem_singleton.mp hr] at henc
  cases henc

/-- **An encrypted memory is listed as it is stored.** -/
theorem listing_shows_ciphertext :
    ∃ entries, listSessionMemories wordDb byCreated "t" "a-1" "" 0 false [listedRow true] =
        .ok entries ∧ entries.map (·.content) = ["enc:v1:note"] ∧
      (getByPath sealedEnv "t" "sessions.a_1.x" none none (.ok [listedRow true])).toOption.map
        (·.content) = some "note" ∧
      ¬Agrees wordDb sealedEnv "t" "a-1" [listedRow true] entries := by
  refine ⟨_, rfl, rfl, by decide +kernel, ?_⟩
  intro hagrees
  have hsession : listedRow true ∈ sessionRows wordDb "t" "a-1" [listedRow true] :=
    mem_sessionRows_iff.mpr ⟨mem_singleton_self _, rfl, rfl, rfl⟩
  have hcontent := hagrees (listedRow true) hsession _ mem_cons_self rfl
  revert hcontent
  decide +kernel

end Pcmi.Session
