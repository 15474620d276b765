import Pcmi.Lib.Literal

/-!
# Entity statements

`reconcile_entity_mentions_for_memory` and `merge_entity_alias_in_graph` build Cypher texts with
`format` and `%L`, which quotes by the rules of SQL, between two `$cypher$` delimiters. Kinds and
slots are reduced to word characters before, keys are not.
-/

namespace Pcmi.Graph

open List Pcmi.Lib

abbrev Text := List Char

def apostrophe : Char := Char.ofNat 39

def backslashChar : Char := Char.ofNat 92

/-- `$cypher$`, in two parts. -/
def delimiterTail : Text := "cypher$".toList

def delimiter : Text := '$' :: delimiterTail

/-! ## `format` -/

/-- A character of a literal: quotes and backslashes stand twice. -/
def double (c : Char) : Text := if c = apostrophe ∨ c = backslashChar then [c, c] else [c]

/-- `quote_literal`, which `%L` stands for. -/
def quoteLiteral (s : Text) : Text :=
  (if backslashChar ∈ s then ['E'] else []) ++ apostrophe :: (s.flatMap double ++ [apostrophe])

/-- Digits, letters, `.`, `+` and `-`: a UUID, a vertex id, a number. -/
structure PlainText where
  text : Text
  plain : ∀ c ∈ text, c.isAlphanum = true ∨ c ∈ ['.', '+', '-']

/-- An argument of `format` with its placeholder. -/
inductive Arg where
  | literal (text : Text)
  | number (text : PlainText)

def Arg.format : Arg → Text
  | .literal text => quoteLiteral text
  | .number text => text.text

/-- The text up to the first placeholder, and the text behind each one. -/
structure Template where
  indent : Nat
  head : Text
  tails : List Text
  plain : '$' ∉ head ∧ ∀ t ∈ tails, '$' ∉ t

/-- A template with an argument for every placeholder. -/
structure Statement where
  template : Template
  args : List Arg
  arity : args.length = template.tails.length

namespace Statement

def body (st : Statement) : Text :=
  st.template.head ++ (st.args.zip st.template.tails).flatMap fun p => p.1.format ++ p.2

def spaces (n : Nat) : Text := List.replicate n ' '

def select : Text := "SELECT * FROM ag_catalog.cypher('pcmi_memory_graph',".toList

def columns : Text := " AS (result ag_catalog.agtype)".toList

def opening (st : Statement) : Text := '\n' :: (spaces st.template.indent ++ select)

def closing (st : Statement) : Text := columns ++ '\n' :: spaces st.template.indent

def sql (st : Statement) : Text :=
  st.opening ++ ' ' :: (delimiter ++ '\n' :: (st.body ++ '\n' ::
    (spaces st.template.indent ++ (delimiter ++ ')' :: st.closing))))

def openAt (st : Statement) : Nat := st.opening.length + 1

def closeAt (st : Statement) : Nat :=
  st.openAt + (delimiter.length + 1 + (st.body.length + 1 + st.template.indent))

end Statement

/-! ## The functions -/

/-- `\w`: on ASCII the letters, the digits and the underscore. -/
structure WordClass where
  mem : Char → Bool
  ascii : ∀ c, c.toNat < 128 → mem c = (c.isAlphanum || c == '_')

/-- `regexp_replace(…, '[^\w]', '_', 'g')`. -/
def WordClass.safe (w : WordClass) (s : Text) : Text := s.map fun c => if w.mem c then c else '_'

/-- An element of `p_mentions`; a missing field or a `null` is `none`. -/
structure Mention where
  slot : Option Text
  kind : Option Text
  key : Option Text
  confidence : PlainText

def mergeMemoryTemplate : Template where
  indent := 8
  head := "            MERGE (m:Memory \x7bid: ".toList
  tails := [", tenant_id: ".toList, "\x7d)".toList]
  plain := by decide +kernel

def deleteMentionsTemplate : Template where
  indent := 8
  head := "            MATCH (m:Memory \x7bid: ".toList
  tails := [", tenant_id: ".toList, "\x7d)-[r:mentions]->()\n            DELETE r".toList]
  plain := by decide +kernel

def mergeMentionTemplate : Template where
  indent := 12
  head := "                MERGE (e:Entity \x7bkind: ".toList
  tails :=
    [", key: ".toList,
     ", tenant_id: ".toList,
     "\x7d)\n                WITH e\n                MATCH (m:Memory \x7bid: ".toList,
     ", tenant_id: ".toList,
     "\x7d)\n                MERGE (m)-[r:mentions \x7bslot: ".toList,
     "\x7d]->(e)\n                SET r.confidence = ".toList,
     ",\n                    r.memory_version = ".toList,
     ",\n                    r.kind = ".toList,
     []]
  plain := by
    repeat rw [String.toList_ofList]
    decide +kernel

def mergeMention (memoryId tenantId memoryVersion confidence : PlainText) (kind key slot : Text) :
    Statement where
  template := mergeMentionTemplate
  args :=
    [.literal kind, .literal key, .literal tenantId.text,
     .literal memoryId.text, .literal tenantId.text,
     .literal slot,
     .number confidence,
     .number memoryVersion,
     .literal kind]
  arity := rfl

/-- One round of the loop over the mentions. -/
def reconcileMention (w : WordClass) (memoryId tenantId memoryVersion : PlainText) (m : Mention) :
    List Statement :=
  let safeSlot := w.safe (m.slot.getD [])
  let safeKind := w.safe (m.kind.getD [])
  let entKey := m.key.getD []
  if safeSlot = [] ∨ safeKind = [] ∨ entKey = [] then []
  else [mergeMention memoryId tenantId memoryVersion m.confidence safeKind entKey safeSlot]

/-- `reconcile_entity_mentions_for_memory`; `none` is no array. -/
def reconcileEntityMentionsForMemory (w : WordClass) (memoryId tenantId memoryVersion : PlainText)
    (mentions : Option (List Mention)) : List Statement :=
  [⟨mergeMemoryTemplate, [.literal memoryId.text, .literal tenantId.text], rfl⟩,
   ⟨deleteMentionsTemplate, [.literal memoryId.text, .literal tenantId.text], rfl⟩] ++
    (mentions.getD []).flatMap (reconcileMention w memoryId tenantId memoryVersion)

def mergeAliasTemplate : Template where
  indent := 8
  head := "            MERGE (alias:Entity \x7bkind: ".toList
  tails :=
    [", key: ".toList,
     ", tenant_id: ".toList,
     "\x7d)\n            MERGE (canon:Entity \x7bkind: ".toList,
     ", key: ".toList,
     ", tenant_id: ".toList,
     "\x7d)\n            WITH alias, canon\n            MATCH (m:Memory \x7btenant_id: ".toList,
     "\x7d)-[r:mentions]->(alias)\n".toList ++
      "            MERGE (m)-[r2:mentions \x7bslot: r.slot\x7d]->(canon)\n".toList ++
      "            SET r2.confidence = COALESCE(r.confidence, 0.0),\n".toList ++
      "                r2.memory_version = COALESCE(r.memory_version, 0),\n".toList ++
      "                r2.kind = COALESCE(r.kind, ".toList,
     ")\n            DELETE r\n            WITH alias, canon\n".toList ++
      "            MERGE (alias)-[:same_as]->(canon)".toList]
  plain := by
    repeat rw [String.toList_ofList]
    decide +kernel

def mergeAlias (tenantId : PlainText) (kind aliasKey canonicalKey : Text) : Statement where
  template := mergeAliasTemplate
  args :=
    [.literal kind, .literal aliasKey, .literal tenantId.text, .literal kind, .literal canonicalKey,
     .literal tenantId.text, .literal tenantId.text, .literal kind]
  arity := by simp only [mergeAliasTemplate, length_cons, length_nil]

/-- `merge_entity_alias_in_graph`; a `NULL` argument is `none`. -/
def mergeEntityAliasInGraph (w : WordClass) (tenantId : PlainText)
    (kind aliasKey canonicalKey : Option Text) : List Statement :=
  let safeKind := w.safe (kind.getD [])
  if safeKind = [] ∨ aliasKey.getD [] = [] ∨ canonicalKey.getD [] = [] then []
  else if aliasKey.getD [] = canonicalKey.getD [] then []
  else [mergeAlias tenantId safeKind (aliasKey.getD []) (canonicalKey.getD [])]

/-! ## Reading a statement -/

/-- A Cypher string literal at the front of a text. -/
def readCypherLiteral : Text → Option (Text × Text)
  | [] => none
  | c :: s => if c = apostrophe then readLiteral backslashChar apostrophe s else none

def ReadsBack (t : Text) : Prop :=
  ∀ rest, readCypherLiteral (quoteLiteral t ++ rest) = some (t, rest)

/-- The delimiters are the template's, and literals are read as their arguments. -/
def Statement.Faithful (st : Statement) : Prop :=
  (∀ i, Occurs delimiter st.sql i ↔ i = st.openAt ∨ i = st.closeAt) ∧
    ∀ t, .literal t ∈ st.args → ReadsBack t

def Harmless (t : Text) : Prop :=
  apostrophe ∉ t ∧ backslashChar ∉ t ∧ ¬ ∃ i, Occurs delimiter t i

/-! ## Literals -/

variable {s t : Text} {c : Char}

theorem flatMap_double (hquote : apostrophe ∉ t) (hback : backslashChar ∉ t) :
    t.flatMap double = t := by
  refine flatMap_eq_self fun c hc => if_neg ?_
  rintro (rfl | rfl)
  · exact hquote hc
  · exact hback hc

theorem escape_eq_self (hquote : apostrophe ∉ t) (hback : backslashChar ∉ t) :
    escape backslashChar apostrophe t = t := by
  refine flatMap_eq_self fun c hc => if_neg ?_
  rintro (rfl | rfl)
  · exact hback hc
  · exact hquote hc

/-- What is read up to the first quote of a text without backslashes. -/
theorem readLiteral_append_quote (hquote : apostrophe ∉ t) (hback : backslashChar ∉ t) (rest :
    Text) :
    readLiteral backslashChar apostrophe (t ++ apostrophe :: rest) = some (t, rest) := by
  have hread := readLiteral_escape backslashChar apostrophe (by decide) t rest
  rwa [escape_eq_self hquote hback] at hread

/-- **SQL quoting is Cypher quoting** exactly for the texts that need none. -/
theorem readsBack_iff (t : Text) : ReadsBack t ↔ apostrophe ∉ t ∧ backslashChar ∉ t := by
  constructor
  · intro h
    have hback : backslashChar ∉ t := by
      intro hmem
      have hread := h []
      rw [quoteLiteral, if_pos hmem] at hread
      cases hread
    refine ⟨fun hmem => ?_, hback⟩
    -- the first quote of the text ends the literal
    obtain ⟨u, v, rfl, hu⟩ := eq_append_cons_of_mem hmem
    have hbacku : backslashChar ∉ u := fun hc => hback (mem_append_left _ hc)
    have hread := h []
    rw [quoteLiteral, if_neg hback, nil_append, cons_append, readCypherLiteral,
      if_pos rfl, flatMap_append, flatMap_double hu hbacku, flatMap_cons] at hread
    simp only [double, true_or, if_true, cons_append, append_assoc] at hread
    rw [readLiteral_append_quote hu hbacku] at hread
    have hlen := congrArg (fun p => p.1.length) (Option.some.inj hread)
    simp at hlen
  · rintro ⟨hquote, hback⟩ rest
    rw [quoteLiteral, if_neg hback, nil_append, cons_append, readCypherLiteral,
      if_pos rfl, flatMap_double hquote hback, append_assoc]
    exact readLiteral_append_quote hquote hback rest

/-! ## Delimiters -/

theorem exists_occurs_append_of_not_mem (h : '$' ∉ s) :
    (∃ i, Occurs delimiter (s ++ t) i) ↔ ∃ i, Occurs delimiter t i := by
  constructor
  · rintro ⟨i, hi⟩
    obtain ⟨j, -, hj⟩ := (occurs_append_of_not_mem h).mp hi
    exact ⟨j, hj⟩
  · rintro ⟨j, hj⟩
    exact ⟨_, (occurs_append_of_not_mem h).mpr ⟨j, rfl, hj⟩⟩

theorem not_occurs_of_not_mem (h : '$' ∉ s) : ¬ ∃ i, Occurs delimiter s i := by
  have hnil := exists_occurs_append_of_not_mem (t := []) h
  rw [append_nil] at hnil
  rw [hnil]
  rintro ⟨i, hi⟩
  cases (occurs_nil_iff.mp hi).1

theorem double_keepsOccurrences : KeepsOccurrences delimiter double := by
  intro c
  by_cases hc : c = apostrophe ∨ c = backslashChar
  · have hforeign : c ∉ delimiter := by
      rcases hc with rfl | rfl <;> decide
    refine Or.inr ⟨hforeign, ?_, ?_⟩
    · rw [double, if_pos hc]
      exact cons_ne_nil _ _
    · rw [double, if_pos hc]
      simpa using hforeign
  · exact Or.inl (if_neg hc)

theorem exists_occurs_quoteLiteral (t rest : Text) :
    (∃ i, Occurs delimiter (quoteLiteral t ++ rest) i) ↔
      (∃ i, Occurs delimiter t i) ∨ ∃ i, Occurs delimiter rest i := by
  have hmark : '$' ∉ (if backslashChar ∈ t then ['E'] else []) := by
    split <;> decide
  have hopen : '$' ∉ [apostrophe] := by decide
  have hquote : apostrophe ∉ delimiter := by decide
  rw [quoteLiteral, append_assoc, exists_occurs_append_of_not_mem hmark, cons_append,
    ← singleton_append, exists_occurs_append_of_not_mem hopen, append_assoc,
    singleton_append, exists_occurs_append_cons_iff hquote,
    exists_occurs_flatMap_iff double_keepsOccurrences]

theorem PlainText.not_mem_text (p : PlainText) (hc : c.isAlphanum = false)
    (hother : c ∉ ['.', '+', '-']) : c ∉ p.text := by
  intro hmem
  rcases p.plain c hmem with halnum | hmem
  · rw [hc] at halnum
    cases halnum
  · exact hother hmem

/-- The delimiter stands in the body exactly when it stands in an argument. -/
theorem exists_occurs_args : ∀ {args : List Arg} {tails : List Text},
    args.length = tails.length → (∀ t ∈ tails, '$' ∉ t) →
      ((∃ i, Occurs delimiter ((args.zip tails).flatMap fun p => p.1.format ++ p.2) i) ↔
        ∃ t, .literal t ∈ args ∧ ∃ i, Occurs delimiter t i)
  | [], [], _, _ => by
    have hnil := not_occurs_of_not_mem (s := []) not_mem_nil
    simpa using hnil
  | arg :: args, tail :: tails, hlen, hplain => by
    have ih := exists_occurs_args (Nat.succ.inj hlen) fun t ht =>
      hplain t (mem_cons_of_mem _ ht)
    have htail := hplain tail mem_cons_self
    rw [zip_cons_cons, flatMap_cons, append_assoc]
    cases arg with
    | literal t =>
      rw [show (Arg.literal t).format = quoteLiteral t from rfl, exists_occurs_quoteLiteral,
        exists_occurs_append_of_not_mem htail, ih]
      simp [or_and_right, exists_or]
    | number n =>
      have hn : '$' ∉ n.text := n.not_mem_text (by decide) (by decide)
      rw [show (Arg.number n).format = n.text from rfl, exists_occurs_append_of_not_mem hn,
        exists_occurs_append_of_not_mem htail, ih]
      simp

namespace Statement

variable (st : Statement)

theorem exists_occurs_body :
    (∃ i, Occurs delimiter st.body i) ↔ ∃ t, .literal t ∈ st.args ∧ ∃ i, Occurs delimiter t i := by
  rw [body, exists_occurs_append_of_not_mem st.template.plain.1]
  exact exists_occurs_args st.arity st.template.plain.2

theorem not_mem_spaces (n : Nat) : '$' ∉ spaces n := by
  intro h
  cases (mem_replicate.mp h).2

theorem not_mem_opening : '$' ∉ st.opening := by
  have hselect : '$' ∉ select := by decide +kernel
  simp [opening, not_mem_spaces, hselect]

theorem not_mem_closing : '$' ∉ st.closing := by
  have hcolumns : '$' ∉ columns := by decide +kernel
  simp [closing, not_mem_spaces, hcolumns]

theorem occurs_closing_iff {i : Nat} :
    Occurs delimiter (spaces st.template.indent ++ (delimiter ++ ')' :: st.closing)) i ↔
      i = st.template.indent := by
  have hparen : ')' ∉ delimiter := by decide
  have hlen : (spaces st.template.indent).length = st.template.indent := length_replicate
  have hclosing : ∀ j, ¬ Occurs delimiter st.closing j := fun j hj =>
    not_occurs_of_not_mem st.not_mem_closing ⟨j, hj⟩
  constructor
  · intro h
    obtain ⟨j, rfl, hj⟩ := (occurs_append_of_not_mem (not_mem_spaces _)).mp h
    rcases (occurs_self_append_cons_iff hparen).mp hj with rfl | ⟨k, -, hk⟩
    · rw [hlen, Nat.add_zero]
    · exact absurd hk (hclosing k)
  · rintro rfl
    refine (occurs_append_of_not_mem (not_mem_spaces _)).mpr ⟨0, ?_, ?_⟩
    · rw [hlen, Nat.add_zero]
    · exact (occurs_self_append_cons_iff hparen).mpr (Or.inl rfl)

/-- **Where the delimiter stands**: at its two places and in the body. -/
theorem occurs_sql_iff {i : Nat} :
    Occurs delimiter st.sql i ↔
      i = st.openAt ∨ i = st.closeAt ∨
        ∃ j, i = st.openAt + (delimiter.length + 1 + j) ∧ Occurs delimiter st.body j := by
  have hspace : ' ' ∉ delimiter := by decide
  have hline : '\n' ∉ delimiter := by decide
  have hopening : ∀ j, ¬ Occurs delimiter st.opening j := fun j hj =>
    not_occurs_of_not_mem st.not_mem_opening ⟨j, hj⟩
  rw [sql, occurs_append_cons_iff hspace, or_iff_right (hopening i)]
  simp only [occurs_self_append_cons_iff hline, occurs_append_cons_iff hline, occurs_closing_iff]
  constructor
  · rintro ⟨_, rfl, rfl | ⟨_, rfl, hbody | ⟨_, rfl, rfl⟩⟩⟩
    · exact Or.inl rfl
    · exact Or.inr (Or.inr ⟨_, rfl, hbody⟩)
    · exact Or.inr (Or.inl rfl)
  · rintro (rfl | rfl | ⟨j, rfl, hbody⟩)
    · exact ⟨0, rfl, Or.inl rfl⟩
    · exact ⟨_, rfl, Or.inr ⟨_, rfl, Or.inr ⟨_, rfl, rfl⟩⟩⟩
    · exact ⟨_, rfl, Or.inr ⟨j, rfl, Or.inl hbody⟩⟩

/-- The delimiters are the template's exactly when no argument holds another. -/
theorem delimiters_iff :
    (∀ i, Occurs delimiter st.sql i ↔ i = st.openAt ∨ i = st.closeAt) ↔
      ∀ t, .literal t ∈ st.args → ¬ ∃ i, Occurs delimiter t i := by
  have hbody : (∀ i, Occurs delimiter st.sql i ↔ i = st.openAt ∨ i = st.closeAt) ↔
      ¬ ∃ j, Occurs delimiter st.body j := by
    constructor
    · rintro h ⟨j, hj⟩
      have hlen := hj.length_le
      rcases (h _).mp (st.occurs_sql_iff.mpr (Or.inr (Or.inr ⟨j, rfl, hj⟩))) with hopen | hclose
      · omega
      · rw [closeAt] at hclose
        omega
    · intro h i
      rw [occurs_sql_iff]
      refine or_congr_right (or_iff_left ?_)
      rintro ⟨j, -, hj⟩
      exact h ⟨j, hj⟩
  rw [hbody, exists_occurs_body]
  constructor
  · exact fun h t ht hocc => h ⟨t, ht, hocc⟩
  · rintro h ⟨t, ht, hocc⟩
    exact h t ht hocc

/-- **A statement is faithful** exactly when its arguments are harmless. -/
theorem faithful_iff : st.Faithful ↔ ∀ t, .literal t ∈ st.args → Harmless t := by
  rw [Faithful, delimiters_iff]
  simp only [readsBack_iff, Harmless]
  constructor
  · rintro ⟨hdelimiters, hreads⟩ t ht
    exact ⟨(hreads t ht).1, (hreads t ht).2, hdelimiters t ht⟩
  · exact fun h => ⟨fun t ht => (h t ht).2.2, fun t ht => ⟨(h t ht).1, (h t ht).2.1⟩⟩

end Statement

/-! ## The two functions -/

theorem PlainText.harmless (p : PlainText) : Harmless p.text :=
  ⟨p.not_mem_text (by decide) (by decide), p.not_mem_text (by decide) (by decide),
    not_occurs_of_not_mem (p.not_mem_text (by decide) (by decide))⟩

theorem WordClass.not_mem_safe (w : WordClass) (hascii : c.toNat < 128)
    (halnum : c.isAlphanum = false) (hunderscore : c ≠ '_') (s : Text) : c ∉ w.safe s := by
  intro h
  obtain ⟨d, -, hd⟩ := mem_map.mp h
  split at hd
  · next hmem =>
    subst hd
    rw [w.ascii d hascii, halnum, Bool.false_or, beq_iff_eq] at hmem
    exact hunderscore hmem
  · exact hunderscore hd.symm

theorem WordClass.harmless_safe (w : WordClass) (s : Text) : Harmless (w.safe s) :=
  ⟨w.not_mem_safe (by decide) (by decide) (by decide) s,
    w.not_mem_safe (by decide) (by decide) (by decide) s,
    not_occurs_of_not_mem (w.not_mem_safe (by decide) (by decide) (by decide) s)⟩

@[simp] theorem WordClass.safe_eq_nil (w : WordClass) (s : Text) : w.safe s = [] ↔ s = [] :=
  map_eq_nil_iff

def Mention.Complete (m : Mention) : Prop :=
  m.slot.getD [] ≠ [] ∧ m.kind.getD [] ≠ [] ∧ m.key.getD [] ≠ []

instance (m : Mention) : Decidable m.Complete := inferInstanceAs (Decidable (_ ∧ _))

theorem reconcileMention_faithful_iff (w : WordClass) (memoryId tenantId memoryVersion : PlainText)
    (m : Mention) :
    (∀ st ∈ reconcileMention w memoryId tenantId memoryVersion m, st.Faithful) ↔
      (m.Complete → Harmless (m.key.getD [])) := by
  unfold reconcileMention Mention.Complete
  dsimp only
  simp only [WordClass.safe_eq_nil]
  split
  · next hskip =>
    constructor
    · intro _ hcomplete
      rcases hskip with h | h | h
      · exact absurd h hcomplete.1
      · exact absurd h hcomplete.2.1
      · exact absurd h hcomplete.2.2
    · exact fun _ => nofun
  · next hcomplete =>
    rw [not_or, not_or] at hcomplete
    rw [forall_mem_singleton, Statement.faithful_iff]
    simp [mergeMention, hcomplete, w.harmless_safe, PlainText.harmless]

/-- **The statements are faithful exactly for harmless keys**, without a quote, a backslash and the
delimiter. -/
theorem entity_statements_faithful_iff (w : WordClass) (tenantId : PlainText) :
    (∀ (memoryId memoryVersion : PlainText) (mentions : Option (List Mention)),
      (∀ st ∈ reconcileEntityMentionsForMemory w memoryId tenantId memoryVersion mentions,
        st.Faithful) ↔
        ∀ m ∈ mentions.getD [], m.Complete → Harmless (m.key.getD [])) ∧
    ∀ kind aliasKey canonicalKey : Option Text,
      (∀ st ∈ mergeEntityAliasInGraph w tenantId kind aliasKey canonicalKey, st.Faithful) ↔
        (kind.getD [] ≠ [] → aliasKey.getD [] ≠ [] → canonicalKey.getD [] ≠ [] →
          aliasKey.getD [] ≠ canonicalKey.getD [] →
          Harmless (aliasKey.getD []) ∧ Harmless (canonicalKey.getD [])) := by
  constructor
  · intro memoryId memoryVersion mentions
    have hfirst : ∀ template arity,
        Statement.Faithful ⟨template, [.literal memoryId.text, .literal tenantId.text], arity⟩ := by
      intro template arity
      rw [Statement.faithful_iff]
      simp [PlainText.harmless]
    unfold reconcileEntityMentionsForMemory
    rw [forall_mem_append, forall_mem_flatMap]
    simp only [reconcileMention_faithful_iff]
    refine and_iff_right ?_
    simpa using ⟨hfirst _ _, hfirst _ _⟩
  · intro kind aliasKey canonicalKey
    unfold mergeEntityAliasInGraph
    dsimp only
    simp only [WordClass.safe_eq_nil]
    split
    · next hskip =>
      constructor
      · intro _ hkind halias hcanonical
        rcases hskip with h | h | h
        · exact absurd h hkind
        · exact absurd h halias
        · exact absurd h hcanonical
      · exact fun _ => nofun
    · next hcomplete =>
      rw [not_or, not_or] at hcomplete
      split
      · next hsame =>
        exact ⟨fun _ _ _ _ hne => absurd hsame hne, fun _ => nofun⟩
      next hne =>
      rw [forall_mem_singleton, Statement.faithful_iff]
      simp [mergeAlias, hcomplete, hne, w.harmless_safe, PlainText.harmless]

def asciiWords : WordClass := ⟨fun c => c.isAlphanum || c == '_', fun _ _ => rfl⟩

def plainOne : PlainText where
  text := ['1']
  plain := fun _ hc => Or.inl (mem_singleton.mp hc ▸ rfl)

def mentionOf (key : String) : Mention :=
  ⟨some "author".toList, some "person".toList, some key.toList, plainOne⟩

/-- Cypher reads `'O''Brien'` as `O` and nothing from `E'a\\b'`; a delimiter ends the statement. -/
theorem entity_keys_misread :
    (∀ key ∈ ["O'Brien", "a\\b", "a$cypher$b"], ¬ ∀ st ∈
      reconcileEntityMentionsForMemory asciiWords plainOne plainOne plainOne (some [mentionOf key]),
      st.Faithful) ∧
    readCypherLiteral (quoteLiteral "O'Brien".toList) = some ("O".toList, "'Brien'".toList) ∧
    readCypherLiteral (quoteLiteral "a\\b".toList) = none ∧
    Occurs delimiter (quoteLiteral "a$cypher$b".toList) 2 := by
  refine ⟨?_, by decide +kernel, by decide +kernel, by decide +kernel⟩
  intro key hkey hall
  have hround : ∀ st ∈ reconcileMention asciiWords plainOne plainOne plainOne (mentionOf key),
      st.Faithful := by
    intro st hst
    refine hall st (mem_append_right _ ?_)
    exact mem_flatMap.mpr ⟨_, mem_singleton_self _, hst⟩
  rw [reconcileMention_faithful_iff] at hround
  simp only [mem_cons, not_mem_nil, or_false] at hkey
  rcases hkey with rfl | rfl | rfl
  · obtain ⟨hquote, -, -⟩ := hround (by decide +kernel)
    exact hquote (by decide +kernel)
  · obtain ⟨-, hback, -⟩ := hround (by decide +kernel)
    exact hback (by decide +kernel)
  · obtain ⟨-, -, hdelimiter⟩ := hround (by decide +kernel)
    exact hdelimiter ⟨1, by decide +kernel⟩

end Pcmi.Graph
