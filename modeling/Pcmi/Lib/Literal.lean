import Pcmi.Lib.Search

/-!
# Quoted literals

A literal stands between two `quote` elements; inside it `esc` takes away the meaning of the element
after it. `escape` puts `esc` before every `esc` and `quote`, so that a literal ends at its own
closing quote and reads back as the original.
-/

namespace Pcmi.Lib

variable {α : Type} [DecidableEq α] (esc quote : α)

/-- The text up to the closing quote, unescaped, and what follows. -/
def readUntilQuote : Bool → List α → Option (List α × List α)
  | _, [] => none
  | true, c :: rest => (readUntilQuote false rest).map fun p => (c :: p.1, p.2)
  | false, c :: rest =>
    if c = quote then some ([], rest)
    else if c = esc then readUntilQuote true rest
    else (readUntilQuote false rest).map fun p => (c :: p.1, p.2)

/-- The unescaped literal and what follows it; `none` if it is not closed. -/
def readLiteral (s : List α) : Option (List α × List α) := readUntilQuote esc quote false s

def escapeOne (c : α) : List α := if c = esc ∨ c = quote then [esc, c] else [c]

def escape (s : List α) : List α := s.flatMap (escapeOne esc quote)

/-- **An escaped text followed by the closing quote reads back.** -/
theorem readLiteral_escape (h : esc ≠ quote) :
    ∀ s rest : List α, readLiteral esc quote (escape esc quote s ++ quote :: rest) = some (s, rest)
  | [], rest => by simp [escape, readLiteral, readUntilQuote]
  | c :: s, rest => by
    have ih := readLiteral_escape h s rest
    unfold escape readLiteral at ih ⊢
    rw [List.flatMap_cons, List.append_assoc]
    by_cases hc : c = esc ∨ c = quote
    · simp [escapeOne, hc, readUntilQuote, h, ih]
    have hesc : c ≠ esc := fun he => hc (.inl he)
    have hquote : c ≠ quote := fun he => hc (.inr he)
    simp [escapeOne, hesc, hquote, readUntilQuote, ih]

/-! ## Templates -/

/-- `head` and, for every argument, its literal and the text after it. -/
def fill : List α → List (List α × List α) → List α
  | head, [] => head
  | head, (arg, tail) :: rest =>
    head ++ quote :: (escape esc quote arg ++ quote :: fill tail rest)

/-- The literals of a text that follows the template, unescaped. -/
def readFilled : List α → List (List α) → List α → Option (List (List α))
  | head, [], text => if text = head then some [] else none
  | head, tail :: tails, text =>
    if head ++ [quote] <+: text then
      match readLiteral esc quote (text.drop (head.length + 1)) with
      | none => none
      | some (arg, rest) => (readFilled tail tails rest).map (arg :: ·)
    else none

/-- **A filled template reads back as its arguments.** -/
theorem readFilled_fill (h : esc ≠ quote) :
    ∀ (head : List α) (args : List (List α × List α)),
      readFilled esc quote head (args.map (·.2)) (fill esc quote head args) = some (args.map (·.1))
  | head, [] => by simp [readFilled, fill]
  | head, (arg, tail) :: rest => by
    have ih := readFilled_fill h tail rest
    have hpre : head ++ [quote] <+:
        head ++ quote :: (escape esc quote arg ++ quote :: fill esc quote tail rest) :=
      ⟨escape esc quote arg ++ quote :: fill esc quote tail rest, by simp⟩
    have hdrop : (head ++ quote :: (escape esc quote arg ++ quote :: fill esc quote tail rest)).drop
        (head.length + 1) = escape esc quote arg ++ quote :: fill esc quote tail rest := by
      rw [List.drop_length_add_append]
      rfl
    simp only [List.map_cons, readFilled, fill, if_pos hpre, hdrop]
    rw [readLiteral_escape esc quote h]
    simp [ih]

/-! ## Occurrences of a foreign separator -/

variable {sep : List α}

/-- Escaping keeps the occurrences of a separator without `esc` and `quote`. -/
theorem exists_occurs_escape_iff (hesc : esc ∉ sep) (hquote : quote ∉ sep) (s : List α) :
    (∃ i, Occurs sep (escape esc quote s) i) ↔ ∃ i, Occurs sep s i := by
  refine exists_occurs_flatMap_iff (fun c => ?_) s
  unfold escapeOne
  by_cases hc : c = esc ∨ c = quote
  · have hcsep : c ∉ sep := by
      rcases hc with rfl | rfl
      · exact hesc
      · exact hquote
    rw [if_pos hc]
    refine Or.inr ⟨hcsep, List.cons_ne_nil _ _, ?_⟩
    simp [hesc, hcsep]
  · exact Or.inl (if_neg hc)

/-- The separator stands in a filled template as in its parts. -/
theorem exists_occurs_fill_iff (hesc : esc ∉ sep) (hquote : quote ∉ sep) :
    ∀ (head : List α) (args : List (List α × List α)),
      (∃ i, Occurs sep (fill esc quote head args) i) ↔
        (∃ i, Occurs sep head i) ∨
          ∃ p ∈ args, (∃ i, Occurs sep p.1 i) ∨ ∃ i, Occurs sep p.2 i
  | head, [] => by simp [fill]
  | head, (arg, tail) :: rest => by
    rw [fill, exists_occurs_append_cons_iff hquote, exists_occurs_append_cons_iff hquote,
      exists_occurs_escape_iff esc quote hesc hquote, exists_occurs_fill_iff hesc hquote tail rest]
    simp only [List.mem_cons, exists_eq_or_imp, or_assoc]

end Pcmi.Lib
