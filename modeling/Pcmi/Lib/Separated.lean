import Mathlib.Data.List.Induction

/-!
# Texts joined by a separator

`[sep].intercalate` joins pieces with a separator, `flatMap (· ++ [sep])` ends each with one. Either
text gives its pieces back when none contains the separator; if one of two or more does, there is
another reading.
-/

namespace Pcmi.Lib

open List

variable {α : Type} [BEq α] [LawfulBEq α] {sep : α}

/-! ## Joined texts -/

omit [BEq α] [LawfulBEq α] in
theorem intercalate_append (sep : α) {ls ms : List (List α)} (hls : ls ≠ []) (hms : ms ≠ []) :
    [sep].intercalate (ls ++ ms) = [sep].intercalate ls ++ sep :: [sep].intercalate ms := by
  induction ls with
  | nil => exact absurd rfl hls
  | cons l ls ih =>
    cases ls with
    | nil =>
      obtain ⟨m, ms, rfl⟩ := exists_cons_of_ne_nil hms
      simp [intercalate_cons_cons]
    | cons l' ls =>
      have hrest := ih (cons_ne_nil l' ls)
      simp only [cons_append] at hrest ⊢
      rw [intercalate_cons_cons, intercalate_cons_cons, hrest,
        append_assoc _ _ (_ ++ _)]
      simp

omit [BEq α] [LawfulBEq α] in
theorem intercalate_congr (front back : List (List α)) {ls ls' : List (List α)} (hls : ls ≠ [])
    (hls' : ls' ≠ []) (h : [sep].intercalate ls = [sep].intercalate ls') :
    [sep].intercalate (front ++ ls ++ back) = [sep].intercalate (front ++ ls' ++ back) := by
  have hfront : [sep].intercalate (front ++ ls) = [sep].intercalate (front ++ ls') := by
    by_cases hf : front = []
    · rw [hf, nil_append, nil_append, h]
    · rw [intercalate_append sep hf hls, intercalate_append sep hf hls', h]
  by_cases hb : back = []
  · rw [hb, append_nil, append_nil, hfront]
  · rw [intercalate_append sep (by simp [hls]) hb, intercalate_append sep (by simp [hls']) hb,
      hfront]

omit [BEq α] [LawfulBEq α] in
theorem intercalate_flatten (sep : α) (front back : List (List α)) {ls : List (List α)}
    (hls : ls ≠ []) :
    [sep].intercalate (front ++ [sep].intercalate ls :: back)
      = [sep].intercalate (front ++ ls ++ back) := by
  have hone : [sep].intercalate [[sep].intercalate ls] = [sep].intercalate ls :=
    intercalate_singleton
  have h := intercalate_congr front back (cons_ne_nil _ []) hls hone
  simpa using h

omit [BEq α] [LawfulBEq α] in
/-- **A separator inside a piece is a border.** -/
theorem intercalate_border (sep : α) (front : List (List α)) (a b : List α)
    (back : List (List α)) :
    [sep].intercalate (front ++ (a ++ sep :: b) :: back)
      = [sep].intercalate (front ++ a :: b :: back) := by
  have hpair : [sep].intercalate [a, b] = a ++ sep :: b := by simp [intercalate_cons_cons]
  have h := intercalate_flatten sep front back (cons_ne_nil a [b])
  rw [hpair] at h
  simpa using h

omit [BEq α] [LawfulBEq α] in
/-- A text without separator begins where it begins the first piece. -/
theorem isPrefix_append_cons_iff {x a b : List α} (hx : sep ∉ x) :
    x <+: a ++ sep :: b ↔ x <+: a := by
  refine ⟨fun h => ?_, fun h => h.trans (prefix_append a _)⟩
  rcases prefix_or_prefix_of_prefix h (prefix_append a (sep :: b)) with h' | ⟨y, rfl⟩
  · exact h'
  cases y with
  | nil => exact ⟨[], by simp⟩
  | cons c y =>
    rw [prefix_append_right_inj] at h
    obtain ⟨rfl, -⟩ := cons_prefix_cons.mp h
    exact absurd (mem_append_right a mem_cons_self) hx

omit [BEq α] [LawfulBEq α] in
/-- A text with a separator begins where its first piece is the first. -/
theorem append_cons_isPrefix_iff {x y a b : List α} (hx : sep ∉ x) (ha : sep ∉ a) :
    x ++ sep :: y <+: a ++ sep :: b ↔ x = a ∧ y <+: b := by
  constructor
  · intro h
    have hxa : x <+: a := (isPrefix_append_cons_iff hx).mp ((prefix_append x _).trans h)
    obtain ⟨z, rfl⟩ := hxa
    rw [append_assoc, prefix_append_right_inj] at h
    cases z with
    | nil => exact ⟨by simp, (cons_prefix_cons.mp h).2⟩
    | cons c z =>
      obtain ⟨rfl, -⟩ := cons_prefix_cons.mp h
      exact absurd (mem_append_right x mem_cons_self) ha
  · rintro ⟨rfl, hyb⟩
    exact (prefix_append_right_inj x).mpr (cons_prefix_cons.mpr ⟨rfl, hyb⟩)

/-- What a joined text determines: the pieces of its pieces. -/
theorem splitOn_intercalate_eq_flatMap : ∀ {ls : List (List α)}, ls ≠ [] →
    ([sep].intercalate ls).splitOn sep = ls.flatMap (List.splitOn sep)
  | [], h => absurd rfl h
  | [l], _ => by simp
  | l :: m :: ls, _ => by
    have ih := splitOn_intercalate_eq_flatMap (cons_ne_nil m ls)
    rw [intercalate_cons_cons, append_assoc, singleton_append,
      splitOn_append_cons_self, ih, ← flatMap_cons]

omit [LawfulBEq α] in
theorem one_le_length_splitOn (sep : α) (l : List α) : 1 ≤ (l.splitOn sep).length :=
  length_pos_iff.mpr (splitOn_ne_nil sep l)

theorem not_mem_of_mem_splitOn {l piece : List α} (h : piece ∈ l.splitOn sep) : sep ∉ piece := by
  induction l generalizing piece with
  | nil =>
    rw [splitOn_nil] at h
    rw [mem_singleton.mp h]
    exact not_mem_nil
  | cons x l ih =>
    rw [splitOn_cons_eq_if_modifyHead] at h
    split at h
    · rcases mem_cons.mp h with rfl | h
      · exact not_mem_nil
      · exact ih h
    · next hx =>
      have hx : sep ≠ x := fun heq => hx (beq_iff_eq.mpr heq.symm)
      obtain ⟨p, ps, hps⟩ := exists_cons_of_ne_nil (splitOn_ne_nil sep l)
      rw [hps, modifyHead_cons] at h
      rcases mem_cons.mp h with rfl | h
      · exact not_mem_cons_of_ne_of_not_mem hx (ih (hps ▸ mem_cons_self))
      · exact ih (hps ▸ mem_cons_of_mem _ h)

/-- A text without empty pieces neither begins nor ends with the separator. -/
theorem ends_ne_of_pieces {l : List α} (h : ∀ piece ∈ l.splitOn sep, piece ≠ []) :
    l.head? ≠ some sep ∧ l.getLast? ≠ some sep := by
  constructor
  · intro hhead
    obtain ⟨rest, rfl⟩ := head?_eq_some_iff.mp hhead
    have hsplit : (sep :: rest).splitOn sep = [] :: rest.splitOn sep := by
      simpa using splitOn_append_cons_self (a := sep) [] rest
    exact h [] (hsplit ▸ mem_cons_self) rfl
  · intro hlast
    obtain ⟨front, rfl⟩ := getLast?_eq_some_iff.mp hlast
    have hsplit : (front ++ [sep]).splitOn sep = front.splitOn sep ++ [[]] := by
      simpa using splitOn_append_cons_self (a := sep) front []
    exact h [] (hsplit ▸ mem_append_right _ mem_cons_self) rfl

/-- Pieces begin those of another text exactly if the text is the other or, with the separator,
begins it. -/
theorem splitOn_isPrefix_iff {a b : List α} :
    a.splitOn sep <+: b.splitOn sep ↔ b = a ∨ a ++ [sep] <+: b := by
  have hne : ∀ l : List α, l.splitOn sep ≠ [] := fun l h => by
    have := one_le_length_splitOn sep l
    rw [h] at this
    exact Nat.not_succ_le_zero 0 this
  constructor
  · rintro ⟨ms, hms⟩
    have hb : [sep].intercalate (b.splitOn sep) = b := intercalate_splitOn sep
    rw [← hms] at hb
    by_cases hnil : ms = []
    · rw [hnil, append_nil, intercalate_splitOn] at hb
      exact .inl hb.symm
    · rw [intercalate_append sep (hne a) hnil, intercalate_splitOn] at hb
      exact .inr ⟨_, by rw [← hb, append_assoc, singleton_append]⟩
  · rintro (rfl | ⟨t, rfl⟩)
    · exact prefix_rfl
    · have hjoin := intercalate_append sep (hne a) (hne t)
      rw [intercalate_splitOn, intercalate_splitOn] at hjoin
      rw [append_assoc, singleton_append, ← hjoin, splitOn_intercalate]
      · exact prefix_append _ _
      · intro l hl
        rcases mem_append.mp hl with hl | hl
        · exact not_mem_of_mem_splitOn hl
        · exact not_mem_of_mem_splitOn hl
      · exact append_ne_nil_of_left_ne_nil (hne a) _

theorem splitOn_eq_singleton_of_length {l : List α} (h : (l.splitOn sep).length = 1) :
    l.splitOn sep = [l] := by
  obtain ⟨piece, hpiece⟩ := length_eq_one_iff.mp h
  have hl : [sep].intercalate (l.splitOn sep) = l := intercalate_splitOn sep
  rw [hpiece, intercalate_singleton] at hl
  rw [hpiece, hl]

omit [LawfulBEq α] in
theorem length_le_flatMap_splitOn (sep : α) (ls : List (List α)) :
    ls.length ≤ (ls.flatMap (List.splitOn sep)).length := by
  induction ls with
  | nil => exact Nat.le_refl 0
  | cons l ls ih =>
    have hl := one_le_length_splitOn sep l
    rw [flatMap_cons, length_append, length_cons]
    omega

/-- Pieces that fall apart into no more pieces than they are stay whole. -/
theorem flatMap_splitOn_eq_self {ls : List (List α)}
    (h : (ls.flatMap (List.splitOn sep)).length = ls.length) :
    ls.flatMap (List.splitOn sep) = ls := by
  induction ls with
  | nil => rfl
  | cons l ls ih =>
    have hls := length_le_flatMap_splitOn sep ls
    have hl := one_le_length_splitOn sep l
    rw [flatMap_cons, length_append, length_cons] at h
    have hone : (l.splitOn sep).length = 1 := by omega
    have hrest : (ls.flatMap (List.splitOn sep)).length = ls.length := by omega
    rw [flatMap_cons, splitOn_eq_singleton_of_length hone, ih hrest, singleton_append]

theorem flatMap_splitOn_of_free {ls : List (List α)} (hfree : ∀ l ∈ ls, sep ∉ l) :
    ls.flatMap (List.splitOn sep) = ls := by
  induction ls with
  | nil => rfl
  | cons l ls ih =>
    rw [flatMap_cons, splitOn_eq_singleton (hfree l mem_cons_self),
      ih fun m hm => hfree m (mem_cons_of_mem _ hm), singleton_append]

/-- **Pieces without the separator are read back.** -/
theorem intercalate_inj {ls ls' : List (List α)} (hfree : ∀ l ∈ ls, sep ∉ l)
    (hlen : ls'.length = ls.length) (h : [sep].intercalate ls' = [sep].intercalate ls) :
    ls' = ls := by
  by_cases hnil : ls = []
  · subst hnil
    exact length_eq_zero_iff.mp hlen
  have hnil' : ls' ≠ [] := by
    intro h0
    rw [h0] at hlen
    exact hnil (length_eq_zero_iff.mp hlen.symm)
  have hpieces : ls'.flatMap (List.splitOn sep) = ls := by
    rw [← splitOn_intercalate_eq_flatMap hnil', h, splitOn_intercalate sep hfree hnil]
  rw [← hpieces, flatMap_splitOn_eq_self (by rw [hpieces, hlen])]

omit [BEq α] [LawfulBEq α] in
/-- **A separator in a piece gives the text another reading.** -/
theorem exists_ne_intercalate {ls : List (List α)} (hlen : 2 ≤ ls.length)
    (hsep : ∃ l ∈ ls, sep ∈ l) :
    ∃ ls', ls'.length = ls.length ∧ ls' ≠ ls ∧
      [sep].intercalate ls' = [sep].intercalate ls := by
  obtain ⟨l, hl, hmem⟩ := hsep
  obtain ⟨front, back, rfl⟩ := append_of_mem hl
  obtain ⟨a, b, rfl⟩ := append_of_mem hmem
  cases back with
  | cons m back =>
    -- the text behind the separator moves into the next piece
    refine ⟨front ++ a :: (b ++ sep :: m) :: back, by simp, ?_, ?_⟩
    · intro h
      have hhead := (cons.inj (append_cancel_left h)).1
      have := congrArg List.length hhead
      rw [length_append, length_cons] at this
      omega
    · have hleft := intercalate_border sep (front ++ [a]) b m back
      have hright := intercalate_border sep front a b (m :: back)
      simp only [append_assoc, singleton_append] at hleft
      rw [hleft, hright]
  | nil =>
    -- the last piece: the text before the separator moves into the piece before it
    cases front using List.reverseRecOn with
    | nil => simp at hlen
    | append_singleton front m =>
      refine ⟨front ++ [m ++ sep :: a, b], by simp, ?_, ?_⟩
      · intro h
        rw [append_assoc] at h
        have hlast := (cons.inj (cons.inj (append_cancel_left h)).2).1
        have := congrArg List.length hlast
        rw [length_append, length_cons] at this
        omega
      · have hleft := intercalate_border sep front m a [b]
        have hright := intercalate_border sep (front ++ [m]) a b []
        simp only [append_assoc, singleton_append] at hright
        rw [hleft, append_assoc, singleton_append, hright]

/-! ## Terminated texts -/

/-- **Terminated pieces are read back.** -/
theorem splitOn_flatMap_append {ls : List (List α)} (hfree : ∀ l ∈ ls, sep ∉ l) :
    (ls.flatMap (· ++ [sep])).splitOn sep = ls ++ [[]] := by
  induction ls with
  | nil => simp
  | cons l ls ih =>
    have hrest := ih fun m hm => hfree m (mem_cons_of_mem _ hm)
    rw [flatMap_cons, append_assoc, singleton_append,
      splitOn_append_cons_self_of_not_mem (hfree l mem_cons_self), hrest,
      cons_append]

theorem flatMap_append_inj {ls ls' : List (List α)} (hfree : ∀ l ∈ ls, sep ∉ l)
    (hfree' : ∀ l ∈ ls', sep ∉ l) (h : ls.flatMap (· ++ [sep]) = ls'.flatMap (· ++ [sep])) :
    ls = ls' := by
  have hpieces := congrArg (List.splitOn sep) h
  rw [splitOn_flatMap_append hfree, splitOn_flatMap_append hfree'] at hpieces
  exact append_cancel_right hpieces

theorem append_sep_inj {a b c d : List α} (ha : sep ∉ a) (hc : sep ∉ c)
    (h : a ++ sep :: b = c ++ sep :: d) : a = c ∧ b = d := by
  have hpieces := congrArg (List.splitOn sep) h
  rw [splitOn_append_cons_self_of_not_mem ha, splitOn_append_cons_self_of_not_mem hc]
    at hpieces
  have hac : a = c := (cons.inj hpieces).1
  subst hac
  exact ⟨rfl, (cons.inj (append_cancel_left h)).2⟩

end Pcmi.Lib
