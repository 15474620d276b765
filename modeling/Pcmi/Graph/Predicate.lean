import Pcmi.Graph.Lexer
import Pcmi.Lib.Kleene
import Pcmi.Lib.Slots

/-!
# The predicate of a scoped query

The `WHERE` of a query gets the tenant filter as a conjunct and its own predicate, in parentheses,
as the last one. `closing` finds the parenthesis that closes the one before a text, `pieces` splits
a predicate at the connectives outside parentheses, `evalPredicate` gives it a value.
-/

namespace Pcmi.Graph

open List Pcmi.Go Pcmi.Lib

/-! ## Parentheses -/

/-- The open parentheses after a byte; `none` if it closes none of them. -/
def nextDepth (m : Mode) (depth : Nat) (b : UInt8) : Option Nat :=
  if m.live = true ∧ b = 0x29 then
    match depth with
    | 0 => none
    | depth + 1 => some depth
  else if m.live = true ∧ b = 0x28 then some (depth + 1)
  else some depth

/-- The offset of the parenthesis that closes one opened before the text. -/
def closing : Mode → Nat → Bytes → Option Nat
  | _, _, [] => none
  | m, depth, b :: rest =>
    match nextDepth m depth b with
    | none => some 0
    | some depth => (closing (m.next b) depth rest).map (· + 1)

/-- The mode and the open parentheses after a text that closes only its own. -/
def balance : Mode → Nat → Bytes → Option (Mode × Nat)
  | m, depth, [] => some (m, depth)
  | m, depth, b :: rest =>
    match nextDepth m depth b with
    | none => none
    | some depth => balance (m.next b) depth rest

/-- The text closes every parenthesis, literal and comment it opens. -/
def Closed (text : Bytes) : Prop := ∃ m, balance .code 0 text = some (m, 0) ∧ m.live = true

theorem nextDepth_close {m : Mode} {depth : Nat} :
    nextDepth m depth 0x29 = none ↔ m.live = true ∧ depth = 0 := by
  unfold nextDepth
  cases hm : m.live <;> cases depth <;> simp

/-- **A parenthesis behind a text closes the one before exactly when the text is closed.** -/
theorem closing_append_iff {rest : Bytes} : ∀ {text : Bytes} {m : Mode} {depth : Nat},
    closing m depth (text ++ 0x29 :: rest) = some text.length ↔
      ∃ m', balance m depth text = some (m', 0) ∧ m'.live = true
  | [], m, depth => by
    rw [nil_append, closing, balance]
    split
    · next hnone =>
      obtain ⟨hlive, rfl⟩ := nextDepth_close.mp hnone
      simpa using hlive
    · next d hsome =>
      have hopen : ¬ (m.live = true ∧ depth = 0) := fun h => by
        rw [nextDepth_close.mpr h] at hsome
        cases hsome
      constructor
      · intro h
        obtain ⟨k, -, hk⟩ := Option.map_eq_some_iff.mp h
        cases hk
      · rintro ⟨m', heq, hlive⟩
        cases heq
        exact absurd ⟨hlive, rfl⟩ hopen
  | b :: text, m, depth => by
    rw [cons_append, closing, balance]
    cases nextDepth m depth b with
    | none => simp
    | some d =>
      have ih : closing (m.next b) d (text ++ 0x29 :: rest) = some text.length ↔
          ∃ m', balance (m.next b) d text = some (m', 0) ∧ m'.live = true := closing_append_iff
      simpa using ih

/-! ## Connectives -/

inductive Connective where
  | and
  | or
  | xor
  deriving DecidableEq

def connective? (word : Bytes) : Option Connective :=
  if word.map upperByte = ascii "AND" then some .and
  else if word.map upperByte = ascii "OR" then some .or
  else if word.map upperByte = ascii "XOR" then some .xor
  else none

inductive Piece where
  | text (s : Bytes)
  | connective (c : Connective)
  deriving DecidableEq

/-- A reader that splits a predicate at its connectives. -/
structure Reader where
  mode : Mode
  depth : Nat
  /-- The word read last, outside parentheses. -/
  word : Bytes
  /-- The word follows a dot, as the name of a property. -/
  dotted : Bool
  /-- The text since the last connective, without `word`. -/
  chunk : Bytes
  pieces : List Piece

namespace Reader

def endWord (s : Reader) : Reader :=
  match if s.dotted then none else connective? s.word with
  | some c =>
    { s with word := [], chunk := [], pieces := s.pieces ++ [.text s.chunk, .connective c] }
  | none => { s with word := [], chunk := s.chunk ++ s.word }

def read (s : Reader) (b : UInt8) : Reader :=
  if s.mode.live = true ∧ s.depth = 0 ∧ wordByte b = true then
    { s with mode := s.mode.next b, word := s.word ++ [b] }
  else
    { s.endWord with
      mode := s.mode.next b
      depth := (nextDepth s.mode s.depth b).getD 0
      dotted := s.mode.live && b == 0x2E
      chunk := s.endWord.chunk ++ [b] }

def finish (s : Reader) : List Piece := s.endWord.pieces ++ [.text s.endWord.chunk]

def between (chunk : Bytes) (pieces : List Piece) : Reader := ⟨.code, 0, [], false, chunk, pieces⟩

end Reader

/-- The connectives outside parentheses, and the texts between them. -/
def pieces (text : Bytes) : List Piece := (text.foldl Reader.read (Reader.between [] [])).finish

/-- The value of what stands between two connectives. -/
def operandValue (value : Bytes → Kleene.Truth) : List Piece → Kleene.Truth
  | [.text s] => value s
  | _ => none

/-- `AND` binds closer than `XOR`, and `XOR` closer than `OR`. -/
def evalPieces (value : Bytes → Kleene.Truth) (l : List Piece) : Kleene.Truth :=
  Kleene.any ((l.splitOn (.connective .or)).map fun l =>
    Kleene.odd ((l.splitOn (.connective .xor)).map fun l =>
      Kleene.all ((l.splitOn (.connective .and)).map (operandValue value))))

/-- The value of a predicate, given values of the texts in it. -/
def evalPredicate (value : Bytes → Kleene.Truth) (text : Bytes) : Kleene.Truth :=
  evalPieces value (pieces text)

/-! ## Conjunctions -/

def conjoin : List Bytes → List Piece
  | [] => []
  | [s] => [.text s]
  | s :: rest => .text s :: .connective .and :: conjoin rest

theorem conjoin_cons_cons (s s' : Bytes) (rest : List Bytes) :
    conjoin (s :: s' :: rest) = .text s :: .connective .and :: conjoin (s' :: rest) := rfl

theorem mem_conjoin : ∀ {texts : List Bytes} {p : Piece}, p ∈ conjoin texts →
    p = .connective .and ∨ ∃ s, p = .text s
  | [], _, h => by cases h
  | [s], p, h => .inr ⟨s, by simpa [conjoin] using h⟩
  | s :: s' :: rest, p, h => by
    rw [conjoin_cons_cons, mem_cons, mem_cons] at h
    rcases h with rfl | rfl | h
    · exact .inr ⟨s, rfl⟩
    · exact .inl rfl
    · exact mem_conjoin h

theorem splitOn_conjoin : ∀ {texts : List Bytes}, texts ≠ [] →
    (conjoin texts).splitOn (.connective .and) = texts.map ([.text ·])
  | [], h => absurd rfl h
  | [s], _ => splitOn_eq_singleton (by simp [conjoin])
  | s :: s' :: rest, _ => by
    have ih := splitOn_conjoin (show s' :: rest ≠ [] by simp)
    have hfirst : ∀ p ∈ [Piece.text s], (p == .connective .and) = false := by simp
    rw [conjoin_cons_cons, map_cons, ← ih]
    exact splitOnP_append_cons_of_forall_mem hfirst _ (beq_self_eq_true _) _

/-- **A conjunction has the value of its conjuncts.** -/
theorem evalPieces_conjoin (value : Bytes → Kleene.Truth) {texts : List Bytes} (h : texts ≠ []) :
    evalPieces value (conjoin texts) = Kleene.all (texts.map value) := by
  have hor : Piece.connective .or ∉ conjoin texts := fun hmem => by
    rcases mem_conjoin hmem with heq | ⟨s, heq⟩ <;> cases heq
  have hxor : Piece.connective .xor ∉ conjoin texts := fun hmem => by
    rcases mem_conjoin hmem with heq | ⟨s, heq⟩ <;> cases heq
  unfold evalPieces
  rw [splitOn_eq_singleton hor, map_singleton, Kleene.any_singleton,
    splitOn_eq_singleton hxor, map_singleton, Kleene.odd_singleton, splitOn_conjoin h,
    map_map]
  rfl

/-! ## Reading the scoped predicate -/

namespace Reader

theorem foldl_read_word {dotted : Bool} {chunk : Bytes} {l : List Piece} :
    ∀ {name word : Bytes}, (∀ b ∈ name, wordByte b = true) →
      name.foldl read ⟨.code, 0, word, dotted, chunk, l⟩ =
        ⟨.code, 0, word ++ name, dotted, chunk, l⟩
  | [], word, _ => by simp
  | b :: name, word, h => by
    have hb := h b mem_cons_self
    have hread : read ⟨.code, 0, word, dotted, chunk, l⟩ b =
        ⟨.code, 0, word ++ [b], dotted, chunk, l⟩ := by
      unfold read
      rw [if_pos ⟨rfl, rfl, hb⟩, Mode.next_plain rfl (plainByte_of_wordByte hb)]
    rw [foldl_cons, hread, foldl_read_word fun x hx => h x (mem_cons_of_mem _ hx)]
    simp

variable {l : List Piece} {b : UInt8} {word chunk : Bytes} {dotted : Bool}

theorem read_symbol (hb : wordByte b = false ∧ plainByte b = true ∧ b ≠ 0x28 ∧ b ≠ 0x29)
    (hword : dotted = true ∨ connective? word = none) :
    read ⟨.code, 0, word, dotted, chunk, l⟩ b =
      ⟨.code, 0, [], b == 0x2E, chunk ++ word ++ [b], l⟩ := by
  obtain ⟨hnot, hplain, hopen, hclose⟩ := hb
  have hmode : Mode.next .code b = .code := Mode.next_plain rfl hplain
  have hend : endWord ⟨.code, 0, word, dotted, chunk, l⟩ =
      ⟨.code, 0, [], dotted, chunk ++ word, l⟩ := by
    unfold endWord
    rcases hword with hword | hword <;> simp [hword]
  simp [read, hend, hnot, hmode, nextDepth, hopen, hclose, Mode.live]

theorem read_connective {c : Connective} (hword : connective? word = some c) :
    read ⟨.code, 0, word, false, chunk, l⟩ 0x20 =
      between (ascii " ") (l ++ [.text chunk, .connective c]) := by
  have hend : endWord ⟨.code, 0, word, false, chunk, l⟩ =
      ⟨.code, 0, [], false, [], l ++ [.text chunk, .connective c]⟩ := by
    simp [endWord, hword]
  unfold read
  rw [if_neg (fun h => absurd h.2.2 (by decide)), hend]
  rfl

theorem read_chunk {m : Mode} {depth : Nat} (hb : ¬ (m.live = true ∧ depth = 0 ∧ wordByte b =
    true)) :
    read ⟨m, depth, [], dotted, chunk, l⟩ b =
      ⟨m.next b, (nextDepth m depth b).getD 0, [], m.live && b == 0x2E, chunk ++ [b], l⟩ := by
  have hend : endWord ⟨m, depth, [], dotted, chunk, l⟩ = ⟨m, depth, [], dotted, chunk, l⟩ := by
    simp [endWord, connective?, ascii]
  unfold read
  rw [if_neg hb, hend]

theorem foldl_read_escape {l : List Piece} : ∀ s chunk : Bytes,
    (escape backslash singleQuote s).foldl read ⟨.single, 0, [], false, chunk, l⟩ =
      ⟨.single, 0, [], false, chunk ++ escape backslash singleQuote s, l⟩
  | [], chunk => by simp [escape]
  | b :: s, chunk => by
    have ih := foldl_read_escape (l := l) s (chunk ++ escapeOne backslash singleQuote b)
    unfold escape at ih ⊢
    have hone : (escapeOne backslash singleQuote b).foldl read ⟨.single, 0, [], false, chunk, l⟩ =
        ⟨.single, 0, [], false, chunk ++ escapeOne backslash singleQuote b, l⟩ := by
      unfold escapeOne
      split
      · rw [foldl_cons, read_chunk (by simp [Mode.live]), foldl_cons,
          read_chunk (by simp [Mode.live, Mode.next, backslash])]
        simp [Mode.live, Mode.next, nextDepth, backslash]
      · next hb =>
        rw [not_or] at hb
        have hb1 : b ≠ 0x5C := hb.1
        have hb2 : b ≠ 0x27 := hb.2
        rw [foldl_cons, read_chunk (by simp [Mode.live])]
        simp [Mode.live, Mode.next, nextDepth, hb1, hb2]
    rw [flatMap_cons, foldl_append, hone, ih, append_assoc]

theorem foldl_read_balance {l : List Piece} :
    ∀ {text : Bytes} (chunk : Bytes) {m m' : Mode} {depth depth' : Nat} (dotted : Bool),
      balance m depth text = some (m', depth') →
        ∃ dotted', text.foldl read ⟨m, depth + 1, [], dotted, chunk, l⟩ =
          ⟨m', depth' + 1, [], dotted', chunk ++ text, l⟩
  | [], chunk, m, m', depth, depth', dotted, h => by
    cases h
    exact ⟨dotted, by simp⟩
  | b :: text, chunk, m, m', depth, depth', dotted, h => by
    rw [balance] at h
    split at h
    · cases h
    next d hd =>
    have hnext : nextDepth m (depth + 1) b = some (d + 1) := by
      unfold nextDepth at hd ⊢
      split_ifs at hd ⊢
      · cases depth <;> cases hd
        rfl
      · cases hd
        rfl
      · cases hd
        rfl
    have hread : read ⟨m, depth + 1, [], dotted, chunk, l⟩ b =
        ⟨m.next b, d + 1, [], m.live && b == 0x2E, chunk ++ [b], l⟩ := by
      rw [read_chunk (fun h => Nat.succ_ne_zero depth h.2.1), hnext]
      rfl
    obtain ⟨dotted', ih⟩ := foldl_read_balance (l := l) (chunk ++ [b])
      (m.live && b == 0x2E) h
    refine ⟨dotted', ?_⟩
    rw [foldl_cons, hread, ih, append_assoc]
    rfl

end Reader

/-- A name in backquotes. -/
def QuotedName (name : Bytes) : Prop :=
  name = 0x60 :: (name.tail.dropLast ++ [0x60]) ∧ 0x60 ∉ name.tail.dropLast

/-- A word that is no connective, or a quoted name. -/
def PlainName (name : Bytes) : Prop :=
  ((∀ b ∈ name, wordByte b = true) ∧ connective? name = none) ∨ QuotedName name

instance (name : Bytes) : Decidable (PlainName name) :=
  inferInstanceAs (Decidable ((_ ∧ _) ∨ _ ∧ _))

theorem Mode.run_backtick {s : Bytes} (h : 0x60 ∉ s) : run .backtick s = .backtick := by
  induction s with
  | nil => rfl
  | cons b s ih =>
    rw [mem_cons, not_or] at h
    rw [run_cons, next, if_neg (Ne.symm h.1), ih h.2]

/-- A name that reads as one leaves the text in code. -/
theorem PlainName.run_live {name : Bytes} (h : PlainName name) :
    (Mode.run .code name).live = true := by
  rcases h with ⟨hword, -⟩ | ⟨hquoted, hbody⟩
  · exact Mode.run_plain rfl fun b hb => plainByte_of_wordByte (hword b hb)
  rw [hquoted, Mode.run_cons, Mode.run_append, show Mode.next .code 0x60 = .backtick from rfl,
    Mode.run_backtick hbody]
  rfl

namespace Reader

theorem foldl_read_backtick {l : List Piece} : ∀ {s : Bytes}, 0x60 ∉ s → ∀ chunk : Bytes,
    s.foldl read ⟨.backtick, 0, [], false, chunk, l⟩ = ⟨.backtick, 0, [], false, chunk ++ s, l⟩
  | [], _, chunk => by simp
  | b :: s, h, chunk => by
    rw [mem_cons, not_or] at h
    have hread : read ⟨.backtick, 0, [], false, chunk, l⟩ b =
        ⟨.backtick, 0, [], false, chunk ++ [b], l⟩ := by
      rw [read_chunk (by simp [Mode.live])]
      simp [Mode.next, nextDepth, Mode.live, Ne.symm h.1]
    rw [foldl_cons, hread, foldl_read_backtick h.2, append_assoc]
    rfl

variable {name chunk : Bytes} {l : List Piece}

/-- A name is read into the word or the chunk, and a dot behind it ends it. -/
theorem foldl_read_name (h : PlainName name) :
    read (name.foldl read (between chunk l)) 0x2E =
      ⟨.code, 0, [], true, chunk ++ name ++ [0x2E], l⟩ := by
  rcases h with ⟨hword, hconn⟩ | ⟨hquoted, hbody⟩
  · unfold between
    rw [foldl_read_word hword, nil_append, read_symbol (by decide) (.inr hconn)]
    rfl
  · have hopen : read (between chunk l) 0x60 = ⟨.backtick, 0, [], false, chunk ++ [0x60], l⟩ :=
      read_chunk (by decide)
    have hclose : ∀ c, read ⟨.backtick, 0, [], false, c, l⟩ 0x60 =
        ⟨.code, 0, [], false, c ++ [0x60], l⟩ := fun c => read_chunk (by decide)
    rw [hquoted]
    simp only [foldl_cons, foldl_append, foldl_nil]
    rw [hopen, foldl_read_backtick hbody, hclose, read_symbol (by decide) (.inr rfl)]
    simp

/-- The text is read without a connective. -/
def Joins (text : Bytes) : Prop :=
  ∀ chunk l, text.foldl read (between chunk l) = between (chunk ++ text) l

theorem joins_aliasFilter {tenantId : Bytes} (h : PlainName name) :
    Joins (aliasFilter tenantId name) := by
  intro chunk l
  have hquote : ∀ c, read ⟨.code, 0, [], false, c, l⟩ 0x27 =
      ⟨.single, 0, [], false, c ++ [0x27], l⟩ := fun c => read_chunk (by decide)
  have hclose : ∀ c, read ⟨.single, 0, [], false, c, l⟩ 0x27 =
      ⟨.code, 0, [], false, c ++ [0x27], l⟩ := fun c => read_chunk (by decide)
  rw [aliasFilter_eq, show ascii ".tenant_id = '" =
    [0x2E] ++ (ascii "tenant_id" ++ [0x20, 0x3D, 0x20, 0x27]) from rfl,
    show ascii "'" = [0x27] from rfl]
  simp only [foldl_append, foldl_cons, foldl_nil]
  rw [foldl_read_name h, foldl_read_word (all_eq_true.mp (by decide)), nil_append,
    read_symbol (by decide) (.inl rfl), read_symbol (by decide) (.inr rfl),
    read_symbol (by decide) (.inr rfl)]
  rw [show ((0x20 : UInt8) == 0x2E) = false from rfl, hquote, foldl_read_escape, hclose]
  simp [between]

theorem foldl_read_and :
    (ascii " AND ").foldl read (between chunk l) =
      between (ascii " ") (l ++ [.text (chunk ++ ascii " "), .connective .and]) := by
  rw [show ascii " AND " = [0x20] ++ (ascii "AND" ++ [0x20]) from rfl]
  simp only [foldl_append, foldl_cons, foldl_nil]
  unfold between
  rw [read_symbol (by decide) (.inr rfl), foldl_read_word (all_eq_true.mp (by decide)),
    nil_append, append_nil]
  exact read_connective (by decide)

theorem joins_group {text : Bytes} (h : Closed text) : Joins (ascii "(" ++ text ++ ascii ")") := by
  intro chunk l
  obtain ⟨m, hbalance, hlive⟩ := h
  have hopen : read (between chunk l) 0x28 = ⟨.code, 0 + 1, [], false, chunk ++ [0x28], l⟩ :=
    read_chunk (by decide)
  obtain ⟨dotted, htext⟩ :=
    foldl_read_balance (l := l) (chunk ++ [0x28]) false hbalance
  have hmode : m.next 0x29 = .code := Mode.next_plain hlive (by decide)
  have hclose : read ⟨m, 0 + 1, [], dotted, chunk ++ [0x28] ++ text, l⟩ 0x29 =
      ⟨.code, 0, [], false, chunk ++ [0x28] ++ text ++ [0x29], l⟩ := by
    rw [read_chunk (by simp), hmode]
    simp [nextDepth, hlive]
  rw [show ascii "(" = [0x28] from rfl, show ascii ")" = [0x29] from rfl]
  simp only [foldl_append, foldl_cons, foldl_nil]
  rw [hopen, htext, hclose]
  simp [between]

theorem joins_blank : Joins (ascii " ") := by
  intro chunk l
  have hread : read (between chunk l) 0x20 = between (chunk ++ [0x20]) l := read_chunk (by decide)
  exact hread

/-- Texts without connectives with `AND` between them are a conjunction. -/
theorem finish_join : ∀ {parts : List Bytes}, parts ≠ [] → (∀ p ∈ parts, Joins p) → ∀ l,
    ((join parts (ascii " AND ") ++ ascii " ").foldl read (between (ascii " ") l)).finish =
      l ++ conjoin (parts.map fun p => ascii " " ++ p ++ ascii " ")
  | [], h, _, _ => absurd rfl h
  | [p], _, hjoins, l => by
    rw [join, intercalate_singleton, foldl_append, hjoins p mem_cons_self, joins_blank]
    simp [finish, between, endWord, connective?, conjoin, ascii]
  | p :: p' :: rest, _, hjoins, l => by
    have ih := finish_join (show p' :: rest ≠ [] by simp)
      (fun x hx => hjoins x (mem_cons_of_mem _ hx))
      (l ++ [.text (ascii " " ++ p ++ ascii " "), .connective .and])
    unfold join at ih ⊢
    rw [intercalate_cons_cons, append_assoc, append_assoc, foldl_append,
      foldl_append, hjoins p mem_cons_self, foldl_read_and, ih]
    simp only [map_cons, conjoin_cons_cons, append_assoc, cons_append,
      nil_append]

end Reader

/-- **Such a conjunction has the value of its conjuncts.** -/
theorem evalPredicate_join (value : Bytes → Kleene.Truth) {parts : List Bytes} (h : parts ≠ [])
    (hjoins : ∀ p ∈ parts, Reader.Joins p) :
    evalPredicate value (ascii " " ++ join parts (ascii " AND ") ++ ascii " ") =
      Kleene.all (parts.map fun p => value (ascii " " ++ p ++ ascii " ")) := by
  unfold evalPredicate pieces
  rw [append_assoc, foldl_append, Reader.joins_blank, nil_append,
    Reader.finish_join h hjoins, nil_append, evalPieces_conjoin _ (by simpa using h),
    map_map]
  rfl

/-! ## The scoped predicate -/

/-- What stands between `WHERE` and `RETURN` in a scoped query. -/
def scopedPredicate (tenantId : Bytes) (aliases : List Bytes) (predicate : Bytes) : Bytes :=
  ascii " " ++ tenantFilter tenantId aliases ++ ascii " AND (" ++ predicate ++ ascii ") "

/-- The rewritten query conjoins the tenant filter with the user's whole predicate: it stands
between the tokens `WHERE` and `RETURN` in parentheses of its own, and for every valuation the
result is the conjunction. -/
structure Conjoined (query tenantId rewritten : Bytes) (aliases : List Bytes)
    (whereIdx returnIdx : Nat) : Prop where
  whereToken : KeywordToken query (ascii "WHERE") whereIdx
  returnToken : KeywordToken query (ascii "RETURN") returnIdx
  text : rewritten = query.take (whereIdx + 5) ++
    scopedPredicate tenantId aliases
      (userPredicate query whereIdx returnIdx) ++ query.drop returnIdx
  opened : Mode.run .code (scopedBefore query tenantId aliases whereIdx) = .code
  matched : closing .code 0 (userPredicate query whereIdx returnIdx ++
      (ascii ") " ++ query.drop returnIdx)) =
    some (userPredicate query whereIdx returnIdx).length
  conjunction : ∀ value,
    evalPredicate value
        (scopedPredicate tenantId aliases (userPredicate query whereIdx returnIdx)) =
      Kleene.and (Kleene.all (aliases.map fun name =>
          value (ascii " " ++ aliasFilter tenantId name ++ ascii " ")))
        (value (ascii " (" ++ userPredicate query whereIdx returnIdx ++ ascii ") "))
  implied : ∀ value,
    evalPredicate value
        (scopedPredicate tenantId aliases (userPredicate query whereIdx returnIdx)) = some true →
      ∀ name ∈ aliases, value (ascii " " ++ aliasFilter tenantId name ++ ascii " ") = some true

def PredicateConjoined (query tenantId rewritten : Bytes) (whereIdx returnIdx : Nat) : Prop :=
  ∃ aliases, memoryAliases query = .ok aliases ∧
    Conjoined query tenantId rewritten aliases whereIdx returnIdx

theorem join_append_singleton (sep p : Bytes) : ∀ {parts : List Bytes}, parts ≠ [] →
    join (parts ++ [p]) sep = join parts sep ++ sep ++ p
  | [], h => absurd rfl h
  | [q], _ => by simp [join]
  | q :: q' :: parts, _ => by
    have ih := join_append_singleton sep p (show q' :: parts ≠ [] by simp)
    unfold join at ih ⊢
    rw [cons_append, cons_append, intercalate_cons_cons, ← cons_append, ih,
      intercalate_cons_cons]
    simp only [append_assoc]

variable {aliases : List Bytes} {query tenantId predicate : Bytes}

theorem scopedPredicate_eq (h : aliases ≠ []) :
    scopedPredicate tenantId aliases predicate =
      ascii " " ++ join (aliases.map (aliasFilter tenantId) ++
        [ascii "(" ++ predicate ++ ascii ")"])
        (ascii " AND ") ++ ascii " " := by
  rw [join_append_singleton _ _ (by simpa using h)]
  simp [scopedPredicate, tenantFilter, ascii]

theorem evalPredicate_scopedPredicate (value : Bytes → Kleene.Truth) (tenantId : Bytes)
    (hne : aliases ≠ []) (hplain : ∀ name ∈ aliases, PlainName name) (hclosed : Closed predicate) :
    evalPredicate value (scopedPredicate tenantId aliases predicate) =
      Kleene.and (Kleene.all (aliases.map fun name =>
          value (ascii " " ++ aliasFilter tenantId name ++ ascii " ")))
        (value (ascii " (" ++ predicate ++ ascii ") ")) := by
  have hjoins : ∀ p ∈ aliases.map (aliasFilter tenantId) ++ [ascii "(" ++ predicate ++ ascii ")"],
      Reader.Joins p := by
    refine forall_mem_concat (fun p hp => ?_) (Reader.joins_group hclosed)
    obtain ⟨name, hname, rfl⟩ := mem_map.mp hp
    exact Reader.joins_aliasFilter (hplain name hname)
  rw [scopedPredicate_eq hne, evalPredicate_join value (by simp) hjoins, map_append,
    map_singleton, Kleene.all_append_singleton, map_map]
  simp [Function.comp_def, ascii]

theorem memoryAliases_ne_nil (h : memoryAliases query = .ok aliases) :
    aliases ≠ [] := by
  rintro rfl
  unfold memoryAliases at h
  split at h <;> cases h
  next hne hfound => exact hne rfl

/-- The aliases are the names in front of the label colons. -/
theorem memoryAliases_plain (h : memoryAliases query = .ok aliases)
    (hplain : ∀ i ∈ indices (toUpper query) (ascii ":MEMORY"), PlainName (labelName query i)) :
    ∀ name ∈ aliases, PlainName name := by
  intro name hname
  obtain ⟨i, hi, hat⟩ := mem_memoryAliases h name hname
  rw [(aliasAt_eq_ok hat).1]
  exact hplain i hi

theorem run_scopedBefore {whereIdx : Nat} (htoken : KeywordToken query (ascii "WHERE") whereIdx)
    (hplain : ∀ name ∈ aliases, PlainName name) :
    Mode.run .code (scopedBefore query tenantId aliases whereIdx) = .code := by
  have hlive := htoken.run_take wordByte_of_mem_where
  have hfilter : Mode.run .code (tenantFilter tenantId aliases) = .code :=
    run_tenantFilter fun name hname =>
      (run_aliasFilter_iff name).mpr (hplain name hname).run_live tenantId
  have hblank : Mode.run .code (query.take (whereIdx + 5) ++ ascii " ") = .code := by
    rw [Mode.run_append]
    exact Mode.run_plain_eq hlive (by decide) (all_eq_true.mp (by decide))
  unfold scopedBefore
  rw [Mode.run_append, Mode.run_append, hblank, hfilter]
  rfl

def closedPredicate : Bytes := ascii "MATCH (m:Memory) WHERE m.a = '(' OR (m.b = 1) RETURN m"

/-- The user's text closes the parenthesis, and opens another. -/
def closingPredicate : Bytes := ascii "MATCH (m:Memory) WHERE m.a = 1) OR (true RETURN m"

/-- The user's text ends in a comment, whose line end is trimmed away. -/
def commentedPredicate : Bytes := ascii "MATCH (m:Memory) WHERE m.a = 1 // one\n RETURN m"

end Pcmi.Graph
