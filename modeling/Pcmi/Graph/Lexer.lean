import Pcmi.Graph.Cypher

/-!
# The lexical structure of Cypher text

`Mode` says what a byte belongs to: code, a quoted literal or name, or a comment. `Lexer` adds the
open brackets and the last byte of code, to tell keywords and node labels from the same letters
elsewhere.
-/

namespace Pcmi.Graph

open List Pcmi.Go Pcmi.Lib

/-! ## Modes -/

inductive Mode where
  | code
  /-- Code, right after a `/`. -/
  | slash
  | single
  | singleEscape
  | double
  | doubleEscape
  | backtick
  | lineComment
  | blockComment
  /-- A block comment, right after a `*`. -/
  | blockStar
  deriving DecidableEq, Repr

namespace Mode

def opened (b : UInt8) : Mode :=
  if b = 0x27 then .single
  else if b = 0x22 then .double
  else if b = 0x60 then .backtick
  else if b = 0x2F then .slash
  else .code

def next : Mode → UInt8 → Mode
  | .code, b => opened b
  | .slash, b => if b = 0x2F then .lineComment else if b = 0x2A then .blockComment else opened b
  | .single, b => if b = 0x5C then .singleEscape else if b = 0x27 then .code else .single
  | .singleEscape, _ => .single
  | .double, b => if b = 0x5C then .doubleEscape else if b = 0x22 then .code else .double
  | .doubleEscape, _ => .double
  | .backtick, b => if b = 0x60 then .code else .backtick
  | .lineComment, b => if b = 0x0A ∨ b = 0x0D then .code else .lineComment
  | .blockComment, b => if b = 0x2A then .blockStar else .blockComment
  | .blockStar, b =>
    if b = 0x2F then .code else if b = 0x2A then .blockStar else .blockComment

def live : Mode → Bool
  | .code | .slash => true
  | _ => false

def run (m : Mode) (s : Bytes) : Mode := s.foldl next m

@[simp] theorem run_nil (m : Mode) : run m [] = m := rfl
@[simp] theorem run_cons (m : Mode) (b : UInt8) (s : Bytes) : run m (b :: s) = run
    (m.next b) s := rfl
@[simp] theorem run_append (m : Mode) (s t : Bytes) : run m (s ++ t) = run (run m s) t :=
  foldl_append

end Mode

/-- A byte that begins no literal, quoted name or comment. -/
def plainByte (b : UInt8) : Bool := b != 0x27 && b != 0x22 && b != 0x60 && b != 0x2F && b != 0x2A

variable {b : UInt8} {text keyword : Bytes} {i : Nat} {m : Mode}

theorem Mode.next_plain (hm : m.live = true) (hb : plainByte b = true) :
    m.next b = .code := by
  simp only [plainByte, Bool.and_eq_true, bne_iff_ne, ne_eq] at hb
  obtain ⟨⟨⟨⟨h1, h2⟩, h3⟩, h4⟩, h5⟩ := hb
  cases m <;> simp_all [next, opened, live]

theorem Mode.run_plain {m : Mode} (hm : m.live = true) :
    ∀ {s : Bytes}, (∀ b ∈ s, plainByte b = true) → (run m s).live = true
  | [], _ => hm
  | b :: s, h => by
    rw [run_cons, next_plain hm (h b mem_cons_self)]
    exact run_plain rfl fun x hx => h x (mem_cons_of_mem _ hx)

theorem Mode.run_plain_eq (hm : m.live = true) {s : Bytes} (hs : s ≠ [])
    (h : ∀ b ∈ s, plainByte b = true) : run m s = .code := by
  induction s generalizing m with
  | nil => exact absurd rfl hs
  | cons b s ih =>
    rw [run_cons, next_plain hm (h b mem_cons_self)]
    by_cases hs' : s = []
    · rw [hs', run_nil]
    · exact ih rfl hs' fun x hx => h x (mem_cons_of_mem _ hx)

theorem Mode.run_escape : ∀ s : Bytes, run .single (escape backslash singleQuote s) = .single
  | [] => rfl
  | b :: s => by
    have ih := run_escape s
    unfold escape at ih ⊢
    rw [flatMap_cons, run_append]
    have hone : run .single (escapeOne backslash singleQuote b) = .single := by
      unfold escapeOne
      split
      · rfl
      next hb =>
      rw [not_or] at hb
      have hb1 : b ≠ 0x5C := hb.1
      have hb2 : b ≠ 0x27 := hb.2
      simp [next, hb1, hb2]
    rw [hone, ih]

/-! ## Brackets and words -/

/-- A byte of a name or a number. -/
def wordByte (b : UInt8) : Bool :=
  (0x41 ≤ b && b ≤ 0x5A) || (0x61 ≤ b && b ≤ 0x7A) || (0x30 ≤ b && b ≤ 0x39) || b == 0x5F ||
    b == 0x24 || 0x80 ≤ b

theorem plainByte_of_wordByte (h : wordByte b = true) : plainByte b = true := by
  by_contra hplain
  simp only [plainByte, Bool.and_eq_true, bne_iff_ne, ne_eq, not_and_or, not_not] at hplain
  rcases hplain with (((rfl | rfl) | rfl) | rfl) | rfl <;> revert h <;> decide

def blankByte (b : UInt8) : Bool := (0x09 ≤ b && b ≤ 0x0D) || b == 0x20

/-- An open bracket, and whether nothing but names and colons followed it. -/
structure Bracket where
  byte : UInt8
  onlyNames : Bool
  deriving DecidableEq

/-- The open brackets after a byte of code, innermost first. -/
def nextBrackets (brackets : List Bracket) (b : UInt8) : List Bracket :=
  if b = 0x28 ∨ b = 0x5B ∨ b = 0x7B then ⟨b, true⟩ :: brackets
  else if b = 0x29 ∨ b = 0x5D ∨ b = 0x7D then brackets.tail
  else if wordByte b || b == 0x3A || b == 0x60 then brackets
  else
    match brackets with
    | [] => []
    | top :: rest => { top with onlyNames := false } :: rest

structure Lexer where
  mode : Mode
  /-- The last byte of code that is not blank. -/
  last : Option UInt8
  brackets : List Bracket
  /-- `last` and `brackets` before a `/` that begins a comment. -/
  saved : Option UInt8 × List Bracket

namespace Lexer

def start : Lexer := ⟨.code, none, [], none, []⟩

def next (s : Lexer) (b : UInt8) : Lexer :=
  let mode := s.mode.next b
  if !s.mode.live then { s with mode := mode }
  else if mode = .lineComment ∨ mode = .blockComment then
    { s with mode := mode, last := s.saved.1, brackets := s.saved.2 }
  else if blankByte b then { s with mode := mode }
  else
    { mode := mode, last := some b, brackets := nextBrackets s.brackets b
      saved := (s.last, s.brackets) }

def scan (s : Bytes) : Lexer := s.foldl next start

theorem next_mode (s : Lexer) (b : UInt8) : (s.next b).mode = s.mode.next b := by
  unfold next
  dsimp only
  split_ifs <;> rfl

theorem foldl_next_mode : ∀ (text : Bytes) (s : Lexer),
    (text.foldl next s).mode = s.mode.run text
  | [], _ => rfl
  | b :: text, s => by
    rw [foldl_cons, foldl_next_mode text, next_mode, Mode.run_cons]

theorem scan_mode (text : Bytes) : (scan text).mode = Mode.run .code text :=
  foldl_next_mode text start

theorem nextBrackets_byte {brackets : List Bracket} {b : UInt8} :
    ∀ x ∈ nextBrackets brackets b, x.byte = b ∨ x.byte ∈ brackets.map (·.byte) := by
  intro x hx
  unfold nextBrackets at hx
  split_ifs at hx
  · rcases mem_cons.mp hx with rfl | hx
    · exact .inl rfl
    · exact .inr (mem_map_of_mem hx)
  · exact .inr (mem_map_of_mem (mem_of_mem_tail hx))
  · exact .inr (mem_map_of_mem hx)
  · cases brackets with
    | nil => exact .inr (mem_map_of_mem hx)
    | cons top rest =>
      rcases mem_cons.mp hx with rfl | hx
      · exact .inr (by simp)
      · exact .inr (mem_map_of_mem (mem_cons_of_mem _ hx))

/-- The open brackets and the saved ones stand in the text. -/
def BracketsIn (s : Lexer) (text : Bytes) : Prop :=
  (∀ x ∈ s.brackets, x.byte ∈ text) ∧ ∀ x ∈ s.saved.2, x.byte ∈ text

theorem BracketsIn.next {s : Lexer} {text : Bytes} (h : s.BracketsIn text) (b : UInt8) :
    (s.next b).BracketsIn (text ++ [b]) := by
  have hold : ∀ x ∈ s.brackets, x.byte ∈ text ++ [b] := fun x hx =>
    mem_append_left _ (h.1 x hx)
  have hsaved : ∀ x ∈ s.saved.2, x.byte ∈ text ++ [b] := fun x hx =>
    mem_append_left _ (h.2 x hx)
  unfold Lexer.next
  dsimp only
  split_ifs
  · exact ⟨hold, hsaved⟩
  · exact ⟨hsaved, hsaved⟩
  · exact ⟨hold, hsaved⟩
  · refine ⟨fun x hx => ?_, hold⟩
    rcases nextBrackets_byte x hx with hb | hmem
    · simp [hb]
    · obtain ⟨y, hy, hyx⟩ := mem_map.mp hmem
      exact hyx ▸ hold y hy

theorem bracketsIn_scan (text : Bytes) : (scan text).BracketsIn text := by
  induction text using List.reverseRecOn with
  | nil => exact ⟨by simp [scan, start], by simp [scan, start]⟩
  | append_singleton text b ih =>
    have hscan : scan (text ++ [b]) = (scan text).next b := by simp [scan]
    rw [hscan]
    exact ih.next b

end Lexer

def wordEnds (rest : Bytes) : Bool := rest.head?.all fun b => !wordByte b

/-- The keyword stands at `i` as a token: in either case, in code, a word of its own, no name of a
property or a label. -/
def KeywordToken (text keyword : Bytes) (i : Nat) : Prop :=
  Occurs keyword (text.map upperByte) i ∧
  (Lexer.scan (text.take i)).mode.live = true ∧
  (Lexer.scan (text.take i)).last ≠ some 0x2E ∧ (Lexer.scan (text.take i)).last ≠ some 0x3A ∧
  wordEnds (text.take i).reverse = true ∧ wordEnds (text.drop (i + keyword.length)) = true

instance (text keyword : Bytes) (i : Nat) : Decidable (KeywordToken text keyword i) :=
  inferInstanceAs (Decidable (_ ∧ _))

/-- The keyword of a clause: a token outside all brackets. -/
def ClauseKeyword (text keyword : Bytes) (i : Nat) : Prop :=
  KeywordToken text keyword i ∧ (Lexer.scan (text.take i)).brackets = []

instance (text keyword : Bytes) (i : Nat) : Decidable (ClauseKeyword text keyword i) :=
  inferInstanceAs (Decidable (_ ∧ _))

/-- A colon of code after the name of a node pattern or its parenthesis. -/
def NodeLabelColon (text : Bytes) (i : Nat) : Prop :=
  text[i]? = some 0x3A ∧
  (Lexer.scan (text.take i)).mode.live = true ∧
  (Lexer.scan (text.take i)).brackets.head? = some ⟨0x28, true⟩

instance (text : Bytes) (i : Nat) : Decidable (NodeLabelColon text i) :=
  inferInstanceAs (Decidable (_ ∧ _))

/-! ## What the positions give -/

theorem NodeLabelColon.paren_mem (h : NodeLabelColon text i) : 0x28 ∈ text.take i := by
  have hhead := mem_of_mem_head? (Option.mem_def.mpr h.2.2)
  exact (Lexer.bracketsIn_scan (text.take i)).1 _ hhead

theorem NodeLabelColon.le_length (h : NodeLabelColon text i) : i ≤ text.length := by
  obtain ⟨hlt, -⟩ := List.getElem?_eq_some_iff.mp h.1
  exact le_of_lt hlt

theorem KeywordToken.add_le_length (h : KeywordToken text keyword i) :
    i + keyword.length ≤ text.length := by
  simpa using h.1.length_le

theorem KeywordToken.mode_live (h : KeywordToken text keyword i) :
    (Mode.run .code (text.take i)).live = true := by
  rw [← Lexer.scan_mode]
  exact h.2.1

theorem KeywordToken.upperByte_mem (h : KeywordToken text keyword i) :
    ∀ b ∈ (text.drop i).take keyword.length, upperByte b ∈ keyword := by
  intro b hb
  have hletters : ((text.drop i).take keyword.length).map upperByte = keyword := by
    rw [map_take, map_drop]
    exact (prefix_iff_eq_take.mp h.1.2).symm
  exact hletters ▸ mem_map_of_mem hb

theorem wordByte_of_upperByte (h : wordByte (upperByte b) = true) : wordByte b = true := by
  unfold upperByte at h
  split at h
  · next hb => simp [wordByte, hb.1, hb.2]
  · exact h

/-- **After a keyword of letters the text is in code again.** -/
theorem KeywordToken.run_take (h : KeywordToken text keyword i)
    (hword : ∀ b ∈ keyword, wordByte b = true) :
    (Mode.run .code (text.take (i + keyword.length))).live = true := by
  rw [take_add, Mode.run_append]
  refine Mode.run_plain h.mode_live fun b hb => plainByte_of_wordByte (wordByte_of_upperByte ?_)
  exact hword _ (h.upperByte_mem b hb)

theorem wordByte_of_mem_where : ∀ b ∈ ascii "WHERE", wordByte b = true :=
  all_eq_true.mp (by decide)

/-- Two keywords of letters do not overlap. -/
theorem KeywordToken.add_le {keyword' : Bytes} {j : Nat} (h : KeywordToken text keyword i)
    (hword : ∀ b ∈ keyword, wordByte b = true) (h' : KeywordToken text keyword' j) (hij : i < j) :
    i + keyword.length ≤ j := by
  by_contra hlt
  -- the byte before the second keyword would belong to the first
  have hlen := h.add_le_length
  have hj : j - 1 < text.length := by omega
  have hmem : text[j - 1] ∈ (text.drop i).take keyword.length := by
    refine mem_iff_getElem.mpr ⟨j - 1 - i, by simp; omega, ?_⟩
    simp [show i + (j - 1 - i) = j - 1 by omega]
  have hletter := wordByte_of_upperByte (hword _ (h.upperByte_mem _ hmem))
  have hends := h'.2.2.2.2.1
  have hhead : (text.take j).reverse.head? = some text[j - 1] := by
    rw [head?_reverse, getLast?_eq_getElem?, length_take,
      getElem?_take_of_lt (by omega)]
    simp [show min j text.length = j by omega]
  unfold wordEnds at hends
  rw [hhead] at hends
  simp [hletter] at hends

/-! ## The filter as code -/

theorem Mode.run_join {sep : Bytes} (hsep : run .code sep = .code) :
    ∀ {parts : List Bytes}, (∀ p ∈ parts, run .code p = .code) → run .code (join parts sep) = .code
  | [], _ => rfl
  | [p], h => by
    simpa [join] using h p mem_cons_self
  | p :: p' :: parts, h => by
    have hrest := run_join hsep fun x hx => h x (mem_cons_of_mem p hx)
    unfold join at hrest ⊢
    rw [intercalate_cons_cons, run_append, run_append, h p mem_cons_self, hsep, hrest]

/-- **The filter of an alias is code exactly when the alias is.** -/
theorem run_aliasFilter_iff (name : Bytes) :
    (∀ tenantId, Mode.run .code (aliasFilter tenantId name) = .code) ↔
      (Mode.run .code name).live = true := by
  constructor
  · intro h
    -- with an empty tenant id the text behind an open quotation or comment leaves it open
    have hnil := h []
    rw [aliasFilter_eq, Mode.run_append] at hnil
    revert hnil
    cases Mode.run .code name <;> decide
  · intro hlive tenantId
    rw [aliasFilter_eq, show ascii ".tenant_id = '" = ascii ".tenant_id = " ++ [0x27] from rfl]
    simp only [Mode.run_append]
    rw [Mode.run_plain_eq hlive (s := ascii ".tenant_id = ") (by decide)
      (all_eq_true.mp (by decide))]
    rw [show Mode.run .code [0x27] = .single from rfl, Mode.run_escape]
    rfl

theorem run_tenantFilter {tenantId : Bytes} {aliases : List Bytes}
    (h : ∀ name ∈ aliases, Mode.run .code (aliasFilter tenantId name) = .code) :
    Mode.run .code (tenantFilter tenantId aliases) = .code := by
  refine Mode.run_join (by decide) fun filter hfilter => ?_
  obtain ⟨name, hname, rfl⟩ := mem_map.mp hfilter
  exact h name hname

end Pcmi.Graph
