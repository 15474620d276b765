import Pcmi.Memory.Paths
import Pcmi.Session.Service

/-!
# Where a session stores

A path that begins with `sessions.` is kept as sent, whichever session it names; every other one is
put below the prefix of the session, which promotion takes off again.
-/

namespace Pcmi.Memory

open List Pcmi.Lib

def Ltree.Below (path anc : Ltree) : Prop := path.under anc = true ∧ path ≠ anc

instance (path anc : Ltree) : Decidable (path.Below anc) := inferInstanceAs (Decidable (_ ∧ _))

theorem Ltree.below_iff {path anc : Ltree} :
    path.Below anc ↔ ∃ l ls, path.labels = anc.labels ++ l :: ls := by
  obtain ⟨labels⟩ := path
  obtain ⟨labels'⟩ := anc
  simp only [Ltree.Below, Ltree.under, isPrefixOf_iff_prefix, ne_eq, Ltree.mk.injEq]
  constructor
  · rintro ⟨⟨rest, rfl⟩, hne⟩
    cases rest with
    | nil => simp at hne
    | cons l ls => exact ⟨l, ls, rfl⟩
  · rintro ⟨l, ls, rfl⟩
    exact ⟨⟨_, rfl⟩, by simp⟩

/-- A path is below another where its text goes on behind it. -/
theorem LabelRules.below_labelsOf_iff {db : LabelRules} {path : Ltree}
    (hstores : db.stores path = true) {text : String} (htext : text ≠ "") :
    path.Below ⟨labelsOf text⟩ ↔ text.toList ++ ['.'] <+: path.text.toList := by
  have hlabels : labelsOf text = (text.toList.splitOn '.').map String.ofList := if_neg htext
  have hnonempty : (text.toList.splitOn '.').map String.ofList ≠ [] := by
    simp [splitOn_ne_nil]
  rw [Ltree.below_iff]
  constructor
  · rintro ⟨l, ls, hpath⟩
    have hjoin : path.text.toList = ['.'].intercalate
        (text.toList.splitOn '.' ++ (l :: ls).map String.toList) := by
      rw [Ltree.toList_text, hpath, hlabels]
      simp [Function.comp_def]
    rw [hjoin, intercalate_append '.' (splitOn_ne_nil _ _) (by simp),
      intercalate_splitOn]
    simp
  · rintro ⟨rest, hrest⟩
    have hne : path.text ≠ "" := by
      intro hempty
      simp [hempty] at hrest
    have hsplit : path.text.toList.splitOn '.' =
        text.toList.splitOn '.' ++ rest.splitOn '.' := by
      rw [← hrest, append_assoc, singleton_append, splitOn_append_cons_self]
    obtain ⟨l, ls, hls⟩ := exists_cons_of_ne_nil (splitOn_ne_nil '.' rest)
    refine ⟨String.ofList l, ls.map String.ofList, ?_⟩
    rw [← labelsOf_text hstores, labelsOf, if_neg hne, hsplit, hls, hlabels]
    simp

end Pcmi.Memory

namespace Pcmi.Session

open Pcmi.Go Pcmi.Lib Pcmi.Memory

def sessionScope (sessionId : String) : Ltree :=
  ⟨labelsOf (String.ofList (sessionPrefix sessionId))⟩

def writesTo : Plan → Option Ltree
  | .skipped _ => none
  | .linked _ _ => none
  | .merged _ path _ _ => some path
  | .insert _ c => some c.path

/-- What is written is below the session's scope, and the rest stays. -/
structure Confined (sessionId : String) (path : Ltree) (t t' : Table) : Prop where
  below : path.Below (sessionScope sessionId)
  others : ∀ r ∈ t.rows, ¬r.path.Below (sessionScope sessionId) → r ∈ t'.rows

theorem ofList_sessionPrefix_ne (sessionId : String) :
    String.ofList (sessionPrefix sessionId) ≠ "" := by
  intro h
  have hchars : sessionPrefix sessionId = [] := by
    rw [← String.toList_ofList (l := sessionPrefix sessionId), h, String.toList_empty]
  exact List.cons_ne_nil _ _ hchars

theorem isPrefix_sessionPrefix (sessionId : String) :
    "sessions.".toList <+: sessionPrefix sessionId ++ ['.'] :=
  ⟨underscored sessionId ++ ['.'], (List.append_assoc _ _ _).symm⟩

/-- The path is kept, and it does not continue the prefix of the session. -/
def NamesOther (sessionId reqPath : String) : Prop :=
  "sessions.".toList <+: (trimSpaceText reqPath).toList ∧
    ¬sessionPrefix sessionId ++ ['.'] <+: (trimSpaceText reqPath).toList

instance (sessionId reqPath : String) : Decidable (NamesOther sessionId reqPath) :=
  inferInstanceAs (Decidable (_ ∧ _))

/-! ## The path of the request -/

section

variable {sessionId reqPath : String}

theorem sessionScopedPath_of_namesOther (h : NamesOther sessionId reqPath) :
    sessionScopedPath sessionId reqPath = trimSpaceText reqPath := by
  have hkept := List.isPrefixOf_iff_prefix.mpr h.1
  unfold sessionScopedPath
  dsimp only
  rw [if_neg, if_neg]
  · rw [hkept, Bool.not_true, Bool.and_false]
    exact Bool.false_ne_true
  · intro hempty
    rw [hempty] at hkept
    exact absurd hkept (by decide)

/-- Every other path continues the prefix of the session. -/
theorem isPrefix_sessionScopedPath (hne : trimSpaceText reqPath ≠ "")
    (h : ¬NamesOther sessionId reqPath) :
    sessionPrefix sessionId ++ ['.'] <+: (sessionScopedPath sessionId reqPath).toList := by
  unfold sessionScopedPath
  dsimp only
  rw [if_neg hne]
  split
  · rw [String.toList_ofList]
    exact List.prefix_append _ _
  next hkept =>
  by_contra hother
  refine h ⟨?_, hother⟩
  rw [← List.isPrefixOf_iff_prefix] at hother
  rw [Bool.eq_false_iff.mpr hother, Bool.not_false, Bool.true_and, Bool.not_eq_true',
    Bool.not_eq_false] at hkept
  exact List.isPrefixOf_iff_prefix.mp hkept

/-- The store trims the path once more. -/
theorem isPrefix_trimSpaceText {text : String}
    (h : sessionPrefix sessionId ++ ['.'] <+: text.toList) :
    sessionPrefix sessionId ++ ['.'] <+: (trimSpaceText text).toList := by
  rw [trimSpaceText, String.toList_ofList]
  refine isPrefix_trimBoth ?_ ?_ h
  · exact List.dropWhile_cons_of_neg (by decide)
  · rw [List.reverse_append]
    exact List.dropWhile_cons_of_neg (by decide)

theorem isPrefix_iff_not_namesOther (hne : trimSpaceText reqPath ≠ "") :
    sessionPrefix sessionId ++ ['.'] <+:
        (trimSpaceText (sessionScopedPath sessionId reqPath)).toList ↔
      ¬NamesOther sessionId reqPath := by
  constructor
  · intro hbelow hother
    rw [sessionScopedPath_of_namesOther hother, trimSpaceText_trimSpaceText] at hbelow
    exact hother.2 hbelow
  · intro hother
    exact isPrefix_trimSpaceText (isPrefix_sessionScopedPath hne hother)

end

/-! ## What a store writes -/

variable {tenantId : String} {rows : List Row} {plan : Plan} {path : Ltree} {now : Time} {r : Row}

theorem castLtree_of_writesTo {env : Env} {settings : DedupSettings} {req : StoreRequest}
    (h : serviceStore env settings req tenantId rows = .ok plan)
    (hwrites : writesTo plan = some path) :
    env.castLtree (trimSpaceText req.path) = some path := by
  cases serviceStore_ok h with
  | stored c hno hcolumns => exact (storedColumns_ok hcolumns).path.trans hwrites
  | skipped mode e hmode hskip hdup hpath | linked e p hmode hdup hpath hcast => cases hwrites
  | merged e p hmode hdup hpath hcast => exact hcast.trans hwrites

theorem mem_closeCurrent_of_not_current (hr : r ∈ rows) (h : r.current tenantId path = false) :
    r ∈ closeCurrent tenantId path now rows := by
  refine List.mem_map.mpr ⟨r, hr, ?_⟩
  rw [h]
  rfl

theorem mem_run_of_path_ne {t t' : Table} (hrun : plan.run now t = .ok t')
    (hwrites : writesTo plan = some path) (hr : r ∈ t.rows) (hpath : r.path ≠ path) :
    r ∈ t'.rows := by
  have hother : ∀ tenantId, r.current tenantId path = false := by
    intro tenantId
    simp [Row.current, Row.at, hpath]
  cases plan with
  | skipped e | linked e linkedFrom => cases hwrites
  | merged tenantId p metadata tags =>
    cases hwrites
    rw [run_merged_ok hrun, mergeCurrent]
    exact List.mem_map.mpr ⟨r, hr, by simp [hother]⟩
  | insert tenantId c =>
    obtain rfl := Option.some.inj hwrites
    obtain ⟨version, hrows⟩ := run_insert_ok hrun
    rw [hrows]
    exact List.mem_append_left _ (mem_closeCurrent_of_not_current hr (hother tenantId))

/-- **A store through a session is confined to it** unless its path names something else below
`sessions`. -/
theorem store_confined_iff {db : LabelRules} {env : Env} (hdb : env.castLtree = db.castLtree)
    {settings : DedupSettings} {tenantId idParam : String} {req : SessionStoreMemoryRequest}
    {sessions : List AgentSession} {rows : List Row} {plan : Plan} {path : Ltree} {now : Time}
    {t t' : Table}
    (haccepted : postMemories env settings tenantId idParam req sessions rows = .ok plan)
    (hwrites : writesTo plan = some path) (hrun : plan.run now t = .ok t') :
    Confined (trimSpaceText idParam) path t t' ↔ ¬NamesOther (trimSpaceText idParam) req.path := by
  obtain ⟨hne, hstore⟩ := storeMemory_of_postMemories haccepted
  have hcast := castLtree_of_writesTo hstore hwrites
  rw [hdb, LabelRules.castLtree_eq_some_iff] at hcast
  have hbelow : path.Below (sessionScope (trimSpaceText idParam)) ↔
      ¬NamesOther (trimSpaceText idParam) req.path := by
    rw [← isPrefix_iff_not_namesOther hne, sessionScope,
      LabelRules.below_labelsOf_iff hcast.1 (ofList_sessionPrefix_ne _), hcast.2,
      String.toList_ofList, sessionScopedStoreRequest]
  constructor
  · intro hconfined
    exact hbelow.mp hconfined.below
  · intro hother
    refine ⟨hbelow.mpr hother, ?_⟩
    intro r hr hapart
    refine mem_run_of_path_ne hrun hwrites hr ?_
    rintro rfl
    exact hapart (hbelow.mpr hother)

def twoSessions : List AgentSession := [⟨"a-1", "t", none⟩, ⟨"b-2", "t", none⟩]

def sessionRow : Row := { dedupRow 1 "x" "kept" with path := ⟨["sessions", "b_2", "x"]⟩ }

def newNote (path : String) : SessionStoreMemoryRequest := { path := path, content := "new" }

theorem store_confined_note :
    ∃ plan path t', postMemories wordEnv {} "t" "a-1" (newNote "x") twoSessions [sessionRow] =
        .ok plan ∧ writesTo plan = some path ∧ plan.run 1 ⟨[sessionRow], 2⟩ = .ok t' ∧
      Confined (trimSpaceText "a-1") path ⟨[sessionRow], 2⟩ t' := by
  have hdb : wordEnv.castLtree = wordRules.castLtree := rfl
  obtain ⟨plan, path, t', haccepted, hwrites, hrun⟩ : ∃ plan path t',
      postMemories wordEnv {} "t" "a-1" (newNote "x") twoSessions [sessionRow] = .ok plan ∧
        writesTo plan = some path ∧ plan.run 1 ⟨[sessionRow], 2⟩ = .ok t' :=
    ⟨_, _, _, rfl, rfl, rfl⟩
  exact ⟨plan, path, t', haccepted, hwrites, hrun,
    (store_confined_iff hdb haccepted hwrites hrun).mpr (by decide)⟩

/-- **Through the first session the row of the second one is replaced.** -/
theorem store_replaces_other_session :
    ∃ plan path t', postMemories wordEnv {} "t" "a-1" (newNote "sessions.b_2.x") twoSessions
        [sessionRow] = .ok plan ∧ writesTo plan = some path ∧
      plan.run 1 ⟨[sessionRow], 2⟩ = .ok t' ∧ path = sessionRow.path ∧
      t'.rows.map (fun r => (r.id, r.isOpen)) = [(1, false), (2, true)] ∧
      ¬Confined (trimSpaceText "a-1") path ⟨[sessionRow], 2⟩ t' := by
  refine ⟨_, _, _, rfl, rfl, rfl, rfl, rfl, ?_⟩
  intro hconfined
  exact absurd hconfined.below (by decide)

/-! ## Promotion -/

theorem trimPrefix_append (front rest : List Char) : trimPrefix (front ++ rest) front = rest := by
  simp [trimPrefix]

theorem trimPrefix_of_not_isPrefix {s front : List Char} (h : ¬front <+: s) :
    trimPrefix s front = s :=
  if_neg (mt List.isPrefixOf_iff_prefix.mp h)

section

variable {db : LabelRules} {p : Ltree}

theorem dot_not_end (hstores : db.stores p = true) (hne : p.labels ≠ []) :
    p.text.toList.head? ≠ some '.' ∧ p.text.toList.getLast? ≠ some '.' := by
  refine ends_ne_of_pieces ?_
  rw [LabelRules.splitOn_text hstores hne]
  intro piece hpiece
  obtain ⟨l, hl, rfl⟩ := List.mem_map.mp hpiece
  have hlabel := (LabelRules.stores_iff.mp hstores).1 l hl
  exact mt String.toList_eq_nil_iff.mp (LabelRules.label_iff.mp hlabel).1

theorem sessionScopedPath_text (hstores : db.stores p = true) (hne : p.labels ≠ [])
    (hsessions : ¬"sessions.".toList <+: p.text.toList) (sessionId : String) :
    sessionScopedPath sessionId p.text =
      String.ofList (sessionPrefix sessionId ++ ['.'] ++ p.text.toList) := by
  have hscope : ¬sessionPrefix sessionId ++ ['.'] <+: p.text.toList := by
    intro h
    exact hsessions ((isPrefix_sessionPrefix sessionId).trans h)
  have hdot : ¬['.'] <+: p.text.toList := by
    rintro ⟨rest, hrest⟩
    exact (dot_not_end hstores hne).1 (by rw [← hrest]; rfl)
  rw [← List.isPrefixOf_iff_prefix, Bool.not_eq_true] at hsessions hscope
  unfold sessionScopedPath
  rw [LabelRules.trimSpaceText_text hstores]
  rw [if_neg (mt (LabelRules.text_eq_empty_iff hstores).mp hne)]
  rw [hscope, hsessions, if_pos (by decide), trimPrefix_of_not_isPrefix hdot]

theorem promotePath_sessionPrefix (hstores : db.stores p = true) (hne : p.labels ≠ [])
    (sessionId target : String) :
    promotePath (String.ofList (sessionPrefix sessionId ++ ['.'] ++ p.text.toList)) sessionId
      target = target ++ "." ++ p.text := by
  have hsuffix : promoteSuffix (sessionPrefix sessionId ++ ['.'] ++ p.text.toList) sessionId =
      p.text.toList := by
    have hfront : (sessionPrefix sessionId ++ ['.']).isPrefixOf
        (sessionPrefix sessionId ++ ['.'] ++ p.text.toList) = true :=
      List.isPrefixOf_iff_prefix.mpr (List.prefix_append _ _)
    exact (if_pos hfront).trans (trimPrefix_append _ _)
  have htrim : trimBoth (· == '.') p.text.toList = p.text.toList := by
    obtain ⟨hfirst, hlast⟩ := dot_not_end hstores hne
    refine trimBoth_eq_self ?_ ?_
    · intro c hc
      exact beq_false_of_ne fun hdot => hfirst (hdot ▸ hc)
    · intro c hc
      exact beq_false_of_ne fun hdot => hlast (hdot ▸ hc)
  have hchars : p.text.toList ≠ [] :=
    mt (String.toList_eq_nil_iff.trans (LabelRules.text_eq_empty_iff hstores)).mp hne
  unfold promotePath
  rw [String.toList_ofList, hsuffix, htrim, if_neg hchars, String.ofList_toList]

end

/-- **Promotion takes off what a store through the session has put on.** -/
theorem promotePath_sessionScoped {db : LabelRules} {req : SessionStoreMemoryRequest} {p : Ltree}
    (hpath : db.castLtree req.path = some p) (hne : req.path ≠ "")
    (hsessions : ¬"sessions.".toList <+: req.path.toList) (sessionId target : String) :
    promotePath (sessionScopedStoreRequest sessionId req).path sessionId target =
      target ++ "." ++ req.path := by
  obtain ⟨hstores, htext⟩ := LabelRules.castLtree_eq_some_iff.mp hpath
  rw [← htext] at hne hsessions ⊢
  have hlabels := mt (LabelRules.text_eq_empty_iff hstores).mpr hne
  rw [← promotePath_sessionPrefix hstores hlabels, sessionScopedStoreRequest, ← htext,
    sessionScopedPath_text hstores hlabels hsessions]

theorem promotePath_sessionScoped_nested :
    promotePath (sessionScopedStoreRequest "a-1" (newNote "x.sessions.a_1.y")).path "a-1" "root.u" =
      "root.u" ++ "." ++ "x.sessions.a_1.y" := by
  have hpath : wordRules.castLtree (newNote "x.sessions.a_1.y").path =
      some ⟨["x", "sessions", "a_1", "y"]⟩ := by decide
  exact promotePath_sessionScoped hpath (by decide) (by decide) "a-1" "root.u"

end Pcmi.Session
