import Pcmi.Go.JsonText

/-!
# The grammar of JSON texts

`Derives` says which texts are values, members and items, with the space in front of each. The
scanner reads exactly these and never runs out of calls.
-/

namespace Pcmi.Go

open List

/-! ## Space -/

def Spaces (s : Bytes) : Prop := ∀ c ∈ s, isJsonSpace c = true

variable {sp s : Bytes} {c : UInt8}

theorem spaces_nil : Spaces [] := nofun

theorem skipSpace_append (hsp : Spaces sp) (hc : isJsonSpace c = false) (rest : Bytes) :
    skipSpace (sp ++ c :: rest) = c :: rest := by
  rw [skipSpace, dropWhile_append_of_pos hsp]
  exact skipSpace_cons hc rest

theorem skipSpace_spaces (hsp : Spaces sp) : skipSpace sp = [] :=
  dropWhile_eq_nil_iff.mpr hsp

/-- What stands in front of the first character that is no space. -/
theorem exists_spaces (s : Bytes) : ∃ sp, s = sp ++ skipSpace s ∧ Spaces sp ∧
    ∀ c ∈ (skipSpace s).head?, isJsonSpace c = false := by
  refine ⟨s.takeWhile isJsonSpace, takeWhile_append_dropWhile.symm,
    fun c hc => mem_takeWhile_imp hc, fun c hc => ?_⟩
  have := head?_dropWhile_not isJsonSpace s
  rw [skipSpace] at hc
  rw [hc] at this
  simpa using this

/-! ## Strings -/

/-- A text that is read as a string when a quote follows. -/
def StringBody (raw : Bytes) : Prop := ∀ rest, readString (raw ++ 0x22 :: rest) = some (raw, rest)

/-- An escape behind its backslash that may be followed by `rest`. -/
def EscapeOk (e : UInt8) (rest : Bytes) : Prop :=
  (ascii "bfnrt\\/\"").contains e ∨
    e = 0x75 ∧ 4 ≤ rest.length ∧ (rest.take 4).all (fun d => (fromHexChar d).isSome)

variable {e : UInt8} {u rest : Bytes} {stop : UInt8 → Prop} {depth : Nat}
  {fields : List (Bytes × Bytes × RawJson)}

/-- The digits of an escaped code are before the quote that ends the string. -/
theorem EscapeOk.congr {raw rest' : Bytes} (h : EscapeOk e (raw ++ 0x22 :: rest)) :
    EscapeOk e (raw ++ 0x22 :: rest') := by
  refine h.imp_right fun ⟨he, hlength, hdigits⟩ => ⟨he, ?_⟩
  have hraw : 4 ≤ raw.length := by
    by_contra hlt
    have hquote : (0x22 : UInt8) ∈ (raw ++ 0x22 :: rest).take 4 := by
      rw [take_append, show 4 - raw.length = (3 - raw.length) + 1 by omega,
        take_succ_cons]
      exact mem_append_right _ mem_cons_self
    have hhex := all_eq_true.mp hdigits _ hquote
    exact absurd hhex (by decide)
  rw [take_append_of_le_length hraw] at hdigits ⊢
  exact ⟨by rw [length_append]; omega, hdigits⟩

theorem readString_ok : ∀ {s raw rest : Bytes}, readString s = some (raw, rest) →
    s = raw ++ 0x22 :: rest ∧ StringBody raw
  | [], _, _, h => by cases h
  | c :: s, raw, rest, h => by
    rw [readString.eq_def] at h
    dsimp only at h
    split at h
    · next hc =>
      cases h
      refine ⟨by rw [hc]; rfl, fun rest => ?_⟩
      rw [nil_append, readString.eq_def]
      exact if_pos rfl
    next hquote =>
    split at h
    · cases h
    next hcontrol =>
    split at h
    · next hbackslash =>
      cases s with
      | nil => cases h
      | cons e s =>
        dsimp only at h
        split at h
        · next hescape =>
          obtain ⟨⟨raw, tail⟩, hx, heq⟩ := Option.map_eq_some_iff.mp h
          cases heq
          obtain ⟨hs, hbody⟩ := readString_ok hx
          refine ⟨by rw [hs]; rfl, fun rest => ?_⟩
          have hescape' : EscapeOk e (raw ++ 0x22 :: rest) := (hs ▸ hescape : EscapeOk e _).congr
          rw [cons_append, cons_append, readString.eq_def]
          dsimp only
          rw [if_neg hquote, if_neg hcontrol, if_pos hbackslash]
          refine (if_pos hescape').trans ?_
          rw [hbody]
          rfl
        · cases h
    · next hbackslash =>
      obtain ⟨⟨raw, tail⟩, hx, heq⟩ := Option.map_eq_some_iff.mp h
      cases heq
      obtain ⟨hs, hbody⟩ := readString_ok hx
      refine ⟨by rw [hs]; rfl, fun rest => ?_⟩
      rw [cons_append, readString.eq_def]
      dsimp only
      rw [if_neg hquote, if_neg hcontrol, if_neg hbackslash, hbody]
      rfl

/-! ## Literals -/

/-- The first character of `rest`, if any, is none that `t` could go on with. -/
def Stops (stop : UInt8 → Prop) (rest : Bytes) : Prop := ∀ c ∈ rest.head?, stop c

/-- `t` is read up to its end wherever it ends with one of these characters. -/
def ReadsUpTo (read : Bytes → Option (Bytes × Bytes)) (stop : UInt8 → Prop) (t : Bytes) : Prop :=
  ∀ rest, Stops stop rest → read (t ++ rest) = some (t, rest)

def EndsInteger (c : UInt8) : Prop := isDigit c = false

/-- What ends a fraction, or stands where there is none. -/
def EndsFraction (c : UInt8) : Prop := isDigit c = false ∧ c ≠ 0x2E

def EndsNumber (c : UInt8) : Prop := isDigit c = false ∧ c ≠ 0x2E ∧ c ≠ 0x65 ∧ c ≠ 0x45

instance : DecidablePred EndsNumber := fun _ => inferInstanceAs (Decidable (_ ∧ _))

theorem Stops.mono {stop' : UInt8 → Prop} (himp : ∀ c, stop c → stop' c) (h : Stops stop rest) :
    Stops stop' rest:= fun c hc => himp c (h c hc)

def LiteralChar (c : UInt8) : Prop := isDigit c = true ∨ c ∈ ascii "+-.Eaeflnrstu"

instance : DecidablePred LiteralChar := fun _ => inferInstanceAs (Decidable (_ ∨ _))

theorem stops_nil (stop : UInt8 → Prop) : Stops stop [] := by
  intro c hc
  cases hc

theorem stops_append {t : Bytes} (ht : Stops stop t) (hrest : Stops stop rest) :
    Stops stop (t ++ rest) := by
  cases t with
  | nil => exact hrest
  | cons c t => exact ht

section

variable {s t rest : Bytes}

theorem takeWhile_digits (ht : ∀ c ∈ t, isDigit c = true) (hrest : Stops EndsInteger rest) :
    (t ++ rest).takeWhile isDigit = t ∧ (t ++ rest).dropWhile isDigit = rest := by
  rw [takeWhile_append_of_pos ht, dropWhile_append_of_pos ht]
  cases rest with
  | nil => exact ⟨append_nil t, rfl⟩
  | cons c rest =>
    have hc : ¬ isDigit c = true := Bool.eq_false_iff.mp (hrest c rfl)
    rw [takeWhile_cons_of_neg hc, dropWhile_cons_of_neg hc, append_nil]
    exact ⟨rfl, rfl⟩

theorem digits_span (s : Bytes) : s = s.takeWhile isDigit ++ s.dropWhile isDigit ∧
    ∀ c ∈ s.takeWhile isDigit, isDigit c = true :=
  ⟨takeWhile_append_dropWhile.symm, fun _ hc => mem_takeWhile_imp hc⟩

theorem readExponent_sign {e : UInt8} {sign ds : Bytes} (he : e = 0x65 ∨ e = 0x45)
    (hsign : sign = [] ∨ sign = [0x2B] ∨ sign = [0x2D]) (hds : ∀ c ∈ ds, isDigit c = true)
    (hne : ds ≠ []) : ReadsUpTo readExponent EndsNumber (e :: (sign ++ ds)) := by
  intro rest hrest
  obtain ⟨htake, hdrop⟩ := takeWhile_digits hds (hrest.mono fun c hc => hc.1)
  have hhead : ¬ ((e :: (sign ++ ds) ++ rest).head? ≠ some 0x65 ∧
      (e :: (sign ++ ds) ++ rest).head? ≠ some 0x45) := by
    rcases he with rfl | rfl <;> simp
  unfold readExponent
  dsimp only
  rw [if_neg hhead, cons_append, tail_cons, append_assoc]
  rcases hsign with rfl | hsign
  · obtain ⟨d, ds, rfl⟩ := exists_cons_of_ne_nil hne
    have hd := hds d mem_cons_self
    have hnone : ¬ (([] ++ (d :: ds ++ rest)).head? = some 0x2B ∨
        ([] ++ (d :: ds ++ rest)).head? = some 0x2D) := by
      rintro (h | h) <;> cases h <;> exact absurd hd (by decide)
    rw [if_neg hnone, nil_append, take_zero, length_nil, drop_zero, htake,
      hdrop, if_neg (cons_ne_nil d ds)]
    rfl
  · obtain ⟨c, rfl, hc⟩ : ∃ c, sign = [c] ∧ (some c = some (0x2B : UInt8) ∨ some c = some 0x2D) := by
      rcases hsign with rfl | rfl
      · exact ⟨_, rfl, Or.inl rfl⟩
      · exact ⟨_, rfl, Or.inr rfl⟩
    rw [singleton_append, head?_cons, if_pos hc, take_succ_cons, take_zero, length_singleton,
      drop_succ_cons, drop_zero, htake, hdrop, if_neg hne]
    rfl

theorem exists_sign (s : Bytes) : ∃ sign tail, s = sign ++ tail ∧
    (sign = [] ∨ sign = [0x2B] ∨ sign = [0x2D]) ∧
      s.take (if s.head? = some 0x2B ∨ s.head? = some 0x2D then 1 else 0) = sign := by
  split
  · next h =>
    cases s with
    | nil => simp at h
    | cons c tail =>
      refine ⟨[c], tail, rfl, ?_, by simp⟩
      simpa using h
  · exact ⟨[], s, rfl, Or.inl rfl, rfl⟩

theorem readExponent_ok (h : readExponent s = some (t, rest)) :
    s = t ++ rest ∧ (∀ c ∈ t, LiteralChar c) ∧ Stops (fun c => c = 0x65 ∨ c = 0x45) t ∧
      ReadsUpTo readExponent EndsNumber t := by
  by_cases hhead : s.head? ≠ some 0x65 ∧ s.head? ≠ some 0x45
  · rw [readExponent, if_pos hhead] at h
    cases h
    refine ⟨rfl, forall_mem_nil _, stops_nil _, fun rest' hrest' =>
      if_pos ⟨fun heq => ?_, fun heq => ?_⟩⟩
    · exact (hrest' _ heq).2.2.1 rfl
    · exact (hrest' _ heq).2.2.2 rfl
  obtain ⟨e, tail, rfl, he⟩ : ∃ e tail, s = e :: tail ∧ (e = 0x65 ∨ e = 0x45) := by
    cases s with
    | nil => simp at hhead
    | cons e tail =>
      refine ⟨e, tail, rfl, ?_⟩
      simpa [or_iff_not_imp_left] using hhead
  obtain ⟨sign, tail, rfl, hsign, htake⟩ := exists_sign tail
  rw [readExponent, if_neg hhead, tail_cons, htake, drop_left] at h
  obtain ⟨hspan, hds⟩ := digits_span tail
  split at h <;> cases h
  next hne =>
  have htext : (e :: (sign ++ tail)).take 1 ++ sign ++ tail.takeWhile isDigit =
      e :: (sign ++ tail.takeWhile isDigit) := by simp
  rw [htext]
  refine ⟨?_, ?_, ?_, readExponent_sign he hsign hds hne⟩
  · rw [cons_append, append_assoc, ← hspan]
  · refine forall_mem_cons.mpr ⟨?_, fun c hc => ?_⟩
    · rcases he with rfl | rfl <;> decide
    rcases mem_append.mp hc with hc | hc
    · rcases hsign with rfl | rfl | rfl
      · cases hc
      · rw [mem_singleton.mp hc]
        decide
      · rw [mem_singleton.mp hc]
        decide
    · exact Or.inl (hds c hc)
  · rintro c ⟨⟩
    exact he

theorem readFraction_ok (h : readFraction s = some (t, rest)) :
    s = t ++ rest ∧ (∀ c ∈ t, LiteralChar c) ∧ Stops (fun c => c = 0x2E) t ∧
      ReadsUpTo readFraction EndsFraction t := by
  unfold readFraction at h
  dsimp only at h
  split at h
  · cases h
    exact ⟨rfl, forall_mem_nil _, stops_nil _, fun rest' hrest' =>
      if_pos fun heq => (hrest' _ heq).2 rfl⟩
  next hhead =>
  split at h <;> cases h
  next hne =>
  obtain ⟨tail, rfl⟩ := head?_eq_some_iff.mp (not_not.mp hhead)
  rw [tail_cons] at hne ⊢
  obtain ⟨hspan, hds⟩ := digits_span tail
  have hchars := forall_mem_cons.mpr ⟨(by decide : LiteralChar 0x2E), fun c hc =>
    (Or.inl (hds c hc) : LiteralChar c)⟩
  refine ⟨by rw [cons_append, ← hspan], hchars, ?_, fun rest' hrest' => ?_⟩
  · rintro c ⟨⟩
    rfl
  · obtain ⟨htake, hdrop⟩ := takeWhile_digits hds (hrest'.mono fun c hc => hc.1)
    unfold readFraction
    dsimp only
    rw [cons_append, head?_cons, tail_cons, if_neg (not_not.mpr rfl), htake, hdrop,
      if_neg hne]

theorem readInteger_ok (h : readInteger s = some (t, rest)) :
    s = t ++ rest ∧ (∀ c ∈ t, LiteralChar c) ∧ (∃ d ds, t = d :: ds ∧ isDigit d = true) ∧
      ReadsUpTo readInteger EndsInteger t := by
  unfold readInteger at h
  split at h
  · next hzero =>
    cases h
    obtain ⟨tail, rfl⟩ := head?_eq_some_iff.mp hzero
    exact ⟨rfl, forall_mem_singleton.mpr (by decide), ⟨0x30, [], rfl, by decide⟩,
      fun rest' _ => if_pos rfl⟩
  next hzero =>
  split at h <;> cases h
  next hne =>
  obtain ⟨hspan, hds⟩ := digits_span s
  obtain ⟨d, ds, htext⟩ := exists_cons_of_ne_nil hne
  rw [htext] at hds hspan ⊢
  refine ⟨hspan, fun c hc => Or.inl (hds c hc), ⟨d, ds, rfl, hds d mem_cons_self⟩,
    fun rest' hrest' => ?_⟩
  obtain ⟨htake, hdrop⟩ := takeWhile_digits hds hrest'
  have hfirst : ¬ (d :: ds ++ rest').head? = some 0x30 := by
    intro heq
    apply hzero
    rw [hspan]
    exact heq
  unfold readInteger
  rw [if_neg hfirst, htake, hdrop, if_neg (cons_ne_nil d ds)]

theorem readSign_ok (s : Bytes) : s = (readSign s).1 ++ (readSign s).2 ∧
    ((readSign s).1 = [] ∨ (readSign s).1 = [0x2D]) := by
  unfold readSign
  split
  · next h =>
    obtain ⟨tail, rfl⟩ := head?_eq_some_iff.mp h
    exact ⟨rfl, Or.inr rfl⟩
  · exact ⟨rfl, Or.inl rfl⟩

variable {d : UInt8}

theorem readSign_append {sign tail : Bytes} (hsign : sign = [] ∨ sign = [0x2D])
    (hd : isDigit d = true) : readSign (sign ++ d :: tail) = (sign, d :: tail) := by
  rcases hsign with rfl | rfl
  · refine if_neg fun heq => ?_
    obtain rfl : d = 0x2D := Option.some.inj heq
    exact absurd hd (by decide)
  · exact if_pos rfl

theorem readNumber_ok (h : readNumber s = some (t, rest)) :
    s = t ++ rest ∧ (∀ c ∈ t, LiteralChar c) ∧
      (∃ d ds, t = d :: ds ∧ (isDigit d = true ∨ d = 0x2D)) ∧
        ReadsUpTo readNumber EndsNumber t := by
  unfold readNumber at h
  obtain ⟨⟨i, s₁⟩, hinteger, h⟩ := Option.bind_eq_some_iff.mp h
  obtain ⟨⟨f, s₂⟩, hfraction, h⟩ := Option.bind_eq_some_iff.mp h
  obtain ⟨⟨x, s₃⟩, hexponent, h⟩ := Option.map_eq_some_iff.mp h
  cases h
  dsimp only at hfraction hexponent ⊢
  obtain ⟨hs, hsign⟩ := readSign_ok s
  obtain ⟨hi, hcharsi, ⟨d, ds, hd, hdigit⟩, hreadi⟩ := readInteger_ok hinteger
  obtain ⟨hf, hcharsf, hstopf, hreadf⟩ := readFraction_ok hfraction
  obtain ⟨hx, hcharsx, hstopx, hreadx⟩ := readExponent_ok hexponent
  have hchars : ∀ c ∈ (readSign s).1, LiteralChar c := by
    rcases hsign with hsign | hsign
    · rw [hsign]
      nofun
    · rw [hsign]
      exact forall_mem_singleton.mpr (by decide)
  refine ⟨?_, ?_, ?_, fun rest' hrest' => ?_⟩
  · rw [append_assoc, append_assoc, append_assoc, ← hx, ← hf, ← hi]
    exact hs
  · simp only [forall_mem_append]
    exact ⟨⟨⟨hchars, hcharsi⟩, hcharsf⟩, hcharsx⟩
  · rcases hsign with hsign | hsign
    · exact ⟨d, ds ++ f ++ x, by rw [hsign, hd]; simp, Or.inl hdigit⟩
    · exact ⟨0x2D, i ++ f ++ x, by rw [hsign]; simp, Or.inr rfl⟩
  · -- What follows the digits begins with a dot, an `e`, or does not go on.
    have hafterx : Stops EndsFraction (x ++ rest') := by
      refine stops_append (hstopx.mono ?_) (hrest'.mono fun c hc => ⟨hc.1, hc.2.1⟩)
      rintro c (rfl | rfl) <;> exact ⟨by decide, by decide⟩
    have hafterf : Stops EndsInteger (f ++ (x ++ rest')) := by
      refine stops_append (hstopf.mono ?_) (hafterx.mono fun c hc => hc.1)
      rintro c rfl
      exact (by decide : isDigit 0x2E = false)
    have hsplit : (readSign s).1 ++ i ++ f ++ x ++ rest' =
        (readSign s).1 ++ (i ++ (f ++ (x ++ rest'))) := by simp
    have hunsigned : readSign ((readSign s).1 ++ (i ++ (f ++ (x ++ rest')))) =
        ((readSign s).1, i ++ (f ++ (x ++ rest'))) := by
      rw [hd]
      exact readSign_append hsign hdigit
    rw [hsplit, readNumber, hunsigned, hreadi _ hafterf, Option.bind_some, hreadf _ hafterx,
      Option.bind_some, hreadx _ hrest']
    rfl

def literalWords : List Bytes := [ascii "null", ascii "true", ascii "false"]

theorem find_word {word : Bytes} (hword : word ∈ literalWords) (rest : Bytes) :
    literalWords.find? (· <+: word ++ rest) = some word := by
  simp only [literalWords, mem_cons, not_mem_nil, or_false] at hword
  rcases hword with rfl | rfl | rfl <;> rfl

theorem find_word_number (hd : isDigit d = true ∨ d = 0x2D) (rest : Bytes) :
    literalWords.find? (· <+: d :: rest) = none := by
  refine find?_eq_none.mpr fun word hword hpre => ?_
  have hfirst : ∀ word ∈ literalWords, ∃ e ∈ word.head?, isDigit e = false ∧ e ≠ 0x2D := by decide
  obtain ⟨e, he, hdigit, hminus⟩ := hfirst word hword
  obtain ⟨tail, rfl⟩ := head?_eq_some_iff.mp he
  obtain rfl := (cons_prefix_cons.mp (of_decide_eq_true hpre)).1
  rcases hd with hd | hd
  · rw [hdigit] at hd
    cases hd
  · exact hminus hd

def BeginsLiteral (d : UInt8) : Prop :=
  isDigit d = true ∨ d = 0x2D ∨ d = 0x6E ∨ d = 0x74 ∨ d = 0x66

instance : DecidablePred BeginsLiteral := fun _ => inferInstanceAs (Decidable (_ ∨ _))

theorem BeginsLiteral.ne {e : UInt8} (hd : BeginsLiteral d) (he : ¬ BeginsLiteral e) : d ≠ e :=
  fun heq => he (heq ▸ hd)

theorem BeginsLiteral.not_space : BeginsLiteral d → isJsonSpace d = false :=
  forall_byte (P := fun d => BeginsLiteral d → isJsonSpace d = false) (by decide +kernel) d

/-- A text that is read as a literal, whatever ends it. -/
structure LiteralText (t : Bytes) : Prop where
  chars : ∀ c ∈ t, LiteralChar c
  begins : ∃ d ds, t = d :: ds ∧ BeginsLiteral d
  reads : ReadsUpTo readLiteral EndsNumber t

theorem readLiteral_ok (h : readLiteral s = some (t, rest)) : s = t ++ rest ∧ LiteralText t := by
  unfold readLiteral at h
  split at h
  · next word hfind =>
    cases h
    have hword : t ∈ literalWords := mem_of_find?_eq_some hfind
    have hfound := find?_some hfind
    have hpre : t <+: s := of_decide_eq_true hfound
    obtain ⟨tail, rfl⟩ := hpre
    rw [drop_left]
    have hchars : ∀ t ∈ literalWords, ∀ c ∈ t, LiteralChar c := by decide +kernel
    refine ⟨rfl, hchars t hword, ?_, fun rest' _ => ?_⟩
    · simp only [literalWords, mem_cons, not_mem_nil, or_false] at hword
      rcases hword with rfl | rfl | rfl <;> exact ⟨_, _, rfl, by decide⟩
    · have hfound := find_word hword rest'
      unfold readLiteral
      rw [literalWords] at hfound
      rw [hfound]
      simp
  · obtain ⟨hs, hchars, ⟨d, ds, hd, hfirst⟩, hread⟩ := readNumber_ok h
    refine ⟨hs, hchars, ⟨d, ds, hd, hfirst.imp_right Or.inl⟩, fun rest' hrest' => ?_⟩
    have hnone := find_word_number hfirst (ds ++ rest')
    rw [literalWords] at hnone
    rw [readLiteral, hd, cons_append, hnone, ← cons_append, ← hd]
    exact hread rest' hrest'

end

/-! ## Values -/

/-- The parts of a JSON text, members and items with the bracket that ends them. -/
inductive Part where
  | value (v : RawJson)
  | members (ms : List (Bytes × RawJson))
  | items (vs : List RawJson)

/-- A text is this part; so many arrays and objects may be open. -/
inductive Derives : Nat → Bytes → Part → Prop where
  | str {depth : Nat} {sp raw : Bytes} (hsp : Spaces sp) (hraw : StringBody raw) :
      Derives depth (sp ++ 0x22 :: (raw ++ [0x22])) (.value (.str raw))
  | literal {depth : Nat} {sp t : Bytes} (hsp : Spaces sp) (ht : LiteralText t) :
      Derives depth (sp ++ t) (.value (.literal t))
  | emptyObj {depth : Nat} {sp sp' : Bytes} (hsp : Spaces sp) (hsp' : Spaces sp') :
      Derives (depth + 1) (sp ++ 0x7B :: (sp' ++ [0x7D])) (.value (.obj []))
  | obj {depth : Nat} {sp u : Bytes} {ms : List (Bytes × RawJson)} (hsp : Spaces sp)
      (hu : Derives depth u (.members ms)) :
      Derives (depth + 1) (sp ++ 0x7B :: u) (.value (.obj ms))
  | emptyArr {depth : Nat} {sp sp' : Bytes} (hsp : Spaces sp) (hsp' : Spaces sp') :
      Derives (depth + 1) (sp ++ 0x5B :: (sp' ++ [0x5D])) (.value (.arr []))
  | arr {depth : Nat} {sp u : Bytes} {vs : List RawJson} (hsp : Spaces sp)
      (hu : Derives depth u (.items vs)) :
      Derives (depth + 1) (sp ++ 0x5B :: u) (.value (.arr vs))
  | lastMember {depth : Nat} {sp key sp' u sp'' : Bytes} {v : RawJson} (hsp : Spaces sp)
      (hkey : StringBody key) (hsp' : Spaces sp') (hu : Derives depth u (.value v))
      (hsp'' : Spaces sp'') :
      Derives depth (sp ++ 0x22 :: (key ++ 0x22 :: (sp' ++ 0x3A :: (u ++ (sp'' ++ [0x7D])))))
        (.members [(key, v)])
  | member {depth : Nat} {sp key sp' u sp'' u' : Bytes} {v : RawJson}
      {ms : List (Bytes × RawJson)} (hsp : Spaces sp) (hkey : StringBody key) (hsp' : Spaces sp')
      (hu : Derives depth u (.value v)) (hsp'' : Spaces sp'')
      (hu' : Derives depth u' (.members ms)) :
      Derives depth (sp ++ 0x22 :: (key ++ 0x22 :: (sp' ++ 0x3A :: (u ++ (sp'' ++ 0x2C :: u')))))
        (.members ((key, v) :: ms))
  | lastItem {depth : Nat} {u sp : Bytes} {v : RawJson} (hu : Derives depth u (.value v))
      (hsp : Spaces sp) : Derives depth (u ++ (sp ++ [0x5D])) (.items [v])
  | item {depth : Nat} {u sp u' : Bytes} {v : RawJson} {vs : List RawJson}
      (hu : Derives depth u (.value v)) (hsp : Spaces sp) (hu' : Derives depth u' (.items vs)) :
      Derives depth (u ++ (sp ++ 0x2C :: u')) (.items (v :: vs))

/-! ### What is read derives -/

theorem exists_spaces_head (h : (skipSpace s).head? = some c) :
    ∃ sp, s = sp ++ c :: (skipSpace s).tail ∧ Spaces sp := by
  obtain ⟨sp, hs, hsp, -⟩ := exists_spaces s
  obtain ⟨tail, htail⟩ := head?_eq_some_iff.mp h
  refine ⟨sp, ?_, hsp⟩
  rw [htail] at hs ⊢
  exact hs

theorem exists_spaces_cons {tail : Bytes} (h : skipSpace s = c :: tail) :
    ∃ sp, s = sp ++ c :: tail ∧ Spaces sp := by
  obtain ⟨sp, hs, hsp⟩ := exists_spaces_head (s := s) (c := c) (by rw [h]; rfl)
  rw [h] at hs
  exact ⟨sp, hs, hsp⟩

/-- Within so many calls, what has been read is a part of that kind. -/
structure Sound (fuel : Nat) : Prop where
  value : ∀ {depth s v rest}, readValue fuel depth s = some (v, rest) →
    ∃ u, s = u ++ rest ∧ Derives depth u (.value v)
  members : ∀ {depth s ms rest}, readMembers fuel depth s = some (ms, rest) →
    ∃ u, s = u ++ rest ∧ Derives depth u (.members ms)
  items : ∀ {depth s vs rest}, readItems fuel depth s = some (vs, rest) →
    ∃ u, s = u ++ rest ∧ Derives depth u (.items vs)

section

variable {fuel depth : Nat} {s rest : Bytes} {v : RawJson}

/-- The bracket that closes it, or what is read with one level less. -/
theorem opened_ok {α : Type} {close : UInt8} {make : List α → RawJson}
    {read : Nat → Bytes → Option (List α × Bytes)} {tail : Bytes}
    (h : (if depth = 0 then none else if (skipSpace tail).head? = some close then some (make [],
      (skipSpace tail).tail) else (read (depth - 1) tail).map fun x => (make x.1, x.2)) = some (v,
        rest)) :
    ∃ d, depth = d + 1 ∧ ((∃ sp, Spaces sp ∧ tail = sp ++ close :: rest ∧ v = make []) ∨
      ∃ xs, read d tail = some (xs, rest) ∧ v = make xs) := by
  cases depth with
  | zero => cases h
  | succ d =>
    refine ⟨d, rfl, ?_⟩
    rw [if_neg d.succ_ne_zero] at h
    split at h
    · next hclose =>
      cases h
      obtain ⟨sp, htail, hsp⟩ := exists_spaces_head hclose
      exact Or.inl ⟨sp, hsp, htail, rfl⟩
    · obtain ⟨⟨xs, rest⟩, hxs, heq⟩ := Option.map_eq_some_iff.mp h
      cases heq
      exact Or.inr ⟨xs, hxs, rfl⟩

theorem Sound.readValue_succ (h : Sound fuel)
    (hread : readValue (fuel + 1) depth s = some (v, rest)) :
    ∃ u, s = u ++ rest ∧ Derives depth u (.value v) := by
  rw [readValue] at hread
  split at hread
  · cases hread
  next c tail hskip =>
  obtain ⟨sp, rfl, hsp⟩ := exists_spaces_cons hskip
  split at hread
  · next hc =>
    obtain ⟨⟨raw, tail⟩, hraw, heq⟩ := Option.map_eq_some_iff.mp hread
    cases heq
    obtain ⟨rfl, hbody⟩ := readString_ok hraw
    exact ⟨sp ++ 0x22 :: (raw ++ [0x22]), by rw [hc]; simp, .str hsp hbody⟩
  split at hread
  · next hc =>
    rw [hc]
    obtain ⟨d, rfl, ⟨sp', hsp', rfl, rfl⟩ | ⟨ms, hms, rfl⟩⟩ := opened_ok hread
    · exact ⟨_, by simp, .emptyObj hsp hsp'⟩
    · obtain ⟨u, rfl, hu⟩ := h.members hms
      exact ⟨_, by simp, .obj hsp hu⟩
  split at hread
  · next hc =>
    rw [hc]
    obtain ⟨d, rfl, ⟨sp', hsp', rfl, rfl⟩ | ⟨vs, hvs, rfl⟩⟩ := opened_ok hread
    · exact ⟨_, by simp, .emptyArr hsp hsp'⟩
    · obtain ⟨u, rfl, hu⟩ := h.items hvs
      exact ⟨_, by simp, .arr hsp hu⟩
  · obtain ⟨⟨t, tail⟩, ht, heq⟩ := Option.map_eq_some_iff.mp hread
    cases heq
    obtain ⟨hs, htext⟩ := readLiteral_ok ht
    rw [hs]
    exact ⟨sp ++ t, by simp, .literal hsp htext⟩

theorem Sound.readMembers_succ (h : Sound fuel) {ms : List (Bytes × RawJson)}
    (hread : readMembers (fuel + 1) depth s = some (ms, rest)) :
    ∃ u, s = u ++ rest ∧ Derives depth u (.members ms) := by
  rw [readMembers] at hread
  split at hread
  · cases hread
  next hquote =>
  obtain ⟨⟨key, s₁⟩, hkey, hread⟩ := Option.bind_eq_some_iff.mp hread
  dsimp only at hread
  split at hread
  · cases hread
  next hcolon =>
  obtain ⟨⟨v, s₂⟩, hv, hread⟩ := Option.bind_eq_some_iff.mp hread
  dsimp only at hread
  obtain ⟨sp, hs, hsp⟩ := exists_spaces_head (not_not.mp hquote)
  obtain ⟨sp', hs₁, hsp'⟩ := exists_spaces_head (not_not.mp hcolon)
  obtain ⟨htail, hbody⟩ := readString_ok hkey
  obtain ⟨u, htail', hu⟩ := h.value hv
  rw [htail] at hs
  rw [htail'] at hs₁
  rw [hs, hs₁]
  split at hread
  · cases hread
  next c tail hskip =>
  obtain ⟨sp'', rfl, hsp''⟩ := exists_spaces_cons hskip
  split at hread
  · next hc =>
    cases hread
    rw [hc]
    exact ⟨_, by simp, .lastMember hsp hbody hsp' hu hsp''⟩
  split at hread
  · next hc =>
    obtain ⟨⟨ms, rest⟩, hms, heq⟩ := Option.map_eq_some_iff.mp hread
    cases heq
    obtain ⟨u', rfl, hu'⟩ := h.members hms
    rw [hc]
    exact ⟨_, by simp, .member hsp hbody hsp' hu hsp'' hu'⟩
  · cases hread

theorem Sound.readItems_succ (h : Sound fuel) {vs : List RawJson}
    (hread : readItems (fuel + 1) depth s = some (vs, rest)) :
    ∃ u, s = u ++ rest ∧ Derives depth u (.items vs) := by
  rw [readItems] at hread
  obtain ⟨⟨v, s₁⟩, hv, hread⟩ := Option.bind_eq_some_iff.mp hread
  dsimp only at hread
  obtain ⟨u, hs, hu⟩ := h.value hv
  rw [hs]
  split at hread
  · cases hread
  next c tail hskip =>
  obtain ⟨sp, rfl, hsp⟩ := exists_spaces_cons hskip
  split at hread
  · next hc =>
    cases hread
    rw [hc]
    exact ⟨_, by simp, .lastItem hu hsp⟩
  split at hread
  · next hc =>
    obtain ⟨⟨vs, rest⟩, hvs, heq⟩ := Option.map_eq_some_iff.mp hread
    cases heq
    obtain ⟨u', rfl, hu'⟩ := h.items hvs
    rw [hc]
    exact ⟨_, by simp, .item hu hsp hu'⟩
  · cases hread

end

theorem sound : ∀ fuel, Sound fuel
  | 0 =>
    { value h := by cases h
      members h := by cases h
      items h := by cases h }
  | fuel + 1 =>
    { value := (sound fuel).readValue_succ
      members := (sound fuel).readMembers_succ
      items := (sound fuel).readItems_succ }

/-! ### What derives is read -/

def BeginsPart (c : UInt8) : Prop := c = 0x22 ∨ c = 0x7B ∨ c = 0x5B ∨ BeginsLiteral c

instance : DecidablePred BeginsPart := fun _ => inferInstanceAs (Decidable (_ ∨ _))

theorem BeginsPart.ne {d : UInt8} (hd : BeginsPart d) (he : ¬ BeginsPart e) : d ≠ e :=
  fun heq => he (heq ▸ hd)

theorem BeginsPart.not_space {d : UInt8} (hd : BeginsPart d) : isJsonSpace d = false := by
  rcases hd with rfl | rfl | rfl | hd
  · rfl
  · rfl
  · rfl
  · exact hd.not_space

theorem Derives.exists_first {p : Part} (h : Derives depth u p) :
    ∃ sp c tail, u = sp ++ c :: tail ∧ Spaces sp ∧ BeginsPart c := by
  induction h with
  | str hsp _ | emptyObj hsp _ | obj hsp _ _ | emptyArr hsp _ | arr hsp _ _
  | lastMember hsp _ _ _ _ _ | member hsp _ _ _ _ _ _ _ => exact ⟨_, _, _, rfl, hsp, by decide⟩
  | literal hsp ht =>
    obtain ⟨d, ds, rfl, hd⟩ := ht.begins
    exact ⟨_, d, ds, rfl, hsp, Or.inr (Or.inr (Or.inr hd))⟩
  | lastItem _ _ ih | item _ _ _ ih _ =>
    obtain ⟨sp, c, tail, rfl, hc⟩ := ih
    exact ⟨sp, c, _, append_assoc .., hc⟩

/-- The scanner reads this part, if so many calls are allowed, up to `rest`. -/
def Part.ReadsTo (fuel depth : Nat) (u rest : Bytes) : Part → Prop
  | .value v => Stops EndsNumber rest → readValue fuel depth (u ++ rest) = some (v, rest)
  | .members ms => readMembers fuel depth (u ++ rest) = some (ms, rest)
  | .items vs => readItems fuel depth (u ++ rest) = some (vs, rest)

theorem stops_spaces (hsp : Spaces sp) (hc : EndsNumber c) (rest : Bytes) :
    Stops EndsNumber (sp ++ c :: rest) := by
  have hspace : ∀ c, isJsonSpace c = true → EndsNumber c := forall_byte (by decide +kernel)
  refine stops_append (fun e he => ?_) (by rintro e ⟨⟩; exact hc)
  exact hspace e (hsp e (mem_of_mem_head? he))

section

variable {fuel depth : Nat} {sp rest : Bytes}

theorem readValue_str (hsp : Spaces sp) {raw : Bytes} (hraw : StringBody raw) :
    readValue (fuel + 1) depth (sp ++ 0x22 :: (raw ++ [0x22]) ++ rest) = some (.str raw, rest) := by
  have hsplit : sp ++ 0x22 :: (raw ++ [0x22]) ++ rest = sp ++ 0x22 :: (raw ++ 0x22 :: rest) := by
    simp
  rw [hsplit, readValue, skipSpace_append hsp (by decide)]
  dsimp only
  rw [if_pos rfl, hraw]
  rfl

theorem readValue_literal (hsp : Spaces sp) {t : Bytes} (ht : LiteralText t)
    (hrest : Stops EndsNumber rest) :
    readValue (fuel + 1) depth (sp ++ t ++ rest) = some (.literal t, rest) := by
  obtain ⟨d, ds, rfl, hd⟩ := ht.begins
  rw [append_assoc, cons_append, readValue, skipSpace_append hsp hd.not_space]
  dsimp only
  rw [if_neg (hd.ne (by decide)), if_neg (hd.ne (by decide)), if_neg (hd.ne (by decide)),
    ← cons_append, ht.reads rest hrest]
  rfl

theorem readValue_brace (hsp : Spaces sp) (s : Bytes) :
    readValue (fuel + 1) (depth + 1) (sp ++ 0x7B :: s) =
      if (skipSpace s).head? = some 0x7D then some (.obj [], (skipSpace s).tail)
      else (readMembers fuel depth s).map fun x => (.obj x.1, x.2) := by
  rw [readValue, skipSpace_append hsp (by decide)]
  dsimp only
  rw [if_neg (by decide), if_pos rfl, if_neg depth.succ_ne_zero, Nat.add_sub_cancel]

theorem readValue_bracket (hsp : Spaces sp) (s : Bytes) :
    readValue (fuel + 1) (depth + 1) (sp ++ 0x5B :: s) =
      if (skipSpace s).head? = some 0x5D then some (.arr [], (skipSpace s).tail)
      else (readItems fuel depth s).map fun x => (.arr x.1, x.2) := by
  rw [readValue, skipSpace_append hsp (by decide)]
  dsimp only
  rw [if_neg (by decide), if_neg (by decide), if_pos rfl, if_neg depth.succ_ne_zero,
    Nat.add_sub_cancel]

theorem Derives.head_ne {u : Bytes} {p : Part} (h : Derives depth u p) :
    (skipSpace (u ++ rest)).head? ≠ some 0x7D ∧ (skipSpace (u ++ rest)).head? ≠ some 0x5D := by
  obtain ⟨sp, c, tail, rfl, hsp, hc⟩ := h.exists_first
  rw [append_assoc, cons_append, skipSpace_append hsp hc.not_space, head?_cons]
  exact ⟨fun heq => hc.ne (by decide) (Option.some.inj heq),
    fun heq => hc.ne (by decide) (Option.some.inj heq)⟩

/-- A key and its value are read, and what stands behind the value decides. -/
theorem readMembers_key (hsp : Spaces sp) {key sp' s : Bytes} (hkey : StringBody key)
    (hsp' : Spaces sp') :
    readMembers (fuel + 1) depth (sp ++ 0x22 :: (key ++ 0x22 :: (sp' ++ 0x3A :: s))) =
      (readValue fuel depth s).bind fun value =>
        match skipSpace value.2 with
        | [] => none
        | c :: rest =>
          if c = 0x7D then some ([(key, value.1)], rest)
          else if c = 0x2C then
            (readMembers fuel depth rest).map fun x => ((key, value.1) :: x.1, x.2)
          else none := by
  have hcolon : (skipSpace (sp' ++ 0x3A :: s)).head? = some 0x3A := by
    rw [skipSpace_append hsp' (by decide)]
    rfl
  rw [readMembers, skipSpace_append hsp (by decide), head?_cons, if_neg (not_not.mpr rfl),
    tail_cons, hkey, Option.bind_some, if_neg (not_not.mpr hcolon),
    skipSpace_append hsp' (by decide)]
  rfl

end

/-- **What derives is read**, and the calls are enough. -/
theorem Derives.readsTo : ∀ {fuel depth : Nat} {u : Bytes} {p : Part}, Derives depth u p →
    u.length ≤ fuel → ∀ rest, p.ReadsTo fuel depth u rest
  | 0, _, _, _, h, hfuel, _ => by
    obtain ⟨sp, c, tail, rfl, -⟩ := h.exists_first
    simp at hfuel
  | fuel + 1, _, _, _, h, hfuel, rest => by
    have hcomma : EndsNumber 0x2C := by decide
    have hbrace : EndsNumber 0x7D := by decide
    have hbracket : EndsNumber 0x5D := by decide
    cases h with
    | str hsp hraw => exact fun _ => readValue_str hsp hraw
    | literal hsp ht => exact readValue_literal hsp ht
    | emptyObj hsp hsp' =>
      simp only [Part.ReadsTo, append_assoc, cons_append, nil_append]
      rw [readValue_brace hsp, skipSpace_append hsp' (by decide)]
      exact fun _ => if_pos rfl
    | obj hsp hu =>
      rw [length_append, length_cons] at hfuel
      have hms := hu.readsTo (by omega : _ ≤ fuel) rest
      simp only [Part.ReadsTo, append_assoc, cons_append] at hms ⊢
      rw [readValue_brace hsp, if_neg hu.head_ne.1, hms]
      exact fun _ => rfl
    | emptyArr hsp hsp' =>
      simp only [Part.ReadsTo, append_assoc, cons_append, nil_append]
      rw [readValue_bracket hsp, skipSpace_append hsp' (by decide)]
      exact fun _ => if_pos rfl
    | arr hsp hu =>
      rw [length_append, length_cons] at hfuel
      have hvs := hu.readsTo (by omega : _ ≤ fuel) rest
      simp only [Part.ReadsTo, append_assoc, cons_append] at hvs ⊢
      rw [readValue_bracket hsp, if_neg hu.head_ne.2, hvs]
      exact fun _ => rfl
    | lastMember hsp hkey hsp' hu hsp'' =>
      simp only [length_append, length_cons] at hfuel
      have hv := hu.readsTo (by omega : _ ≤ fuel) _ (stops_spaces hsp'' hbrace rest)
      simp only [Part.ReadsTo, append_assoc, cons_append, nil_append]
      rw [readMembers_key hsp hkey hsp', hv, Option.bind_some, skipSpace_append hsp'' (by decide)]
      rfl
    | @member _ _ _ _ _ _ u' _ _ hsp hkey hsp' hu hsp'' hu' =>
      simp only [length_append, length_cons] at hfuel
      have hv := hu.readsTo (by omega : _ ≤ fuel) _ (stops_spaces hsp'' hcomma (u' ++ rest))
      have hms := hu'.readsTo (by omega : _ ≤ fuel) rest
      simp only [Part.ReadsTo, append_assoc, cons_append] at hms ⊢
      rw [readMembers_key hsp hkey hsp', hv, Option.bind_some, skipSpace_append hsp'' (by decide)]
      dsimp only
      rw [if_neg (by decide), if_pos rfl, hms]
      rfl
    | lastItem hu hsp =>
      simp only [length_append, length_cons] at hfuel
      have hv := hu.readsTo (by omega : _ ≤ fuel) _ (stops_spaces hsp hbracket rest)
      simp only [Part.ReadsTo, append_assoc, cons_append, nil_append]
      rw [readItems, hv, Option.bind_some, skipSpace_append hsp (by decide)]
      rfl
    | @item _ _ _ u' _ _ hu hsp hu' =>
      simp only [length_append, length_cons] at hfuel
      have hv := hu.readsTo (by omega : _ ≤ fuel) _ (stops_spaces hsp hcomma (u' ++ rest))
      have hvs := hu'.readsTo (by omega : _ ≤ fuel) rest
      simp only [Part.ReadsTo, append_assoc, cons_append] at hvs ⊢
      rw [readItems, hv, Option.bind_some, skipSpace_append hsp (by decide)]
      dsimp only
      rw [if_neg (by decide), if_pos rfl, hvs]
      rfl

/-- **Valid JSON is a value up to the space behind it.** -/
theorem readJson_iff {v : RawJson} : readJson s = some v ↔
    ∃ u sp, s = u ++ sp ∧ Spaces sp ∧ Derives maxNestingDepth u (.value v) := by
  constructor
  · intro h
    obtain ⟨⟨w, rest⟩, hread, h⟩ := Option.bind_eq_some_iff.mp h
    dsimp only at h
    split at h <;> cases h
    next hskip =>
    obtain ⟨u, hs, hu⟩ := (sound _).value hread
    exact ⟨u, rest, hs, dropWhile_eq_nil_iff.mp hskip, hu⟩
  · rintro ⟨u, sp, rfl, hsp, hu⟩
    have hend : Stops EndsNumber sp := by
      have := stops_spaces hsp (c := 0x2C) (by decide) []
      cases sp with
      | nil => nofun
      | cons c sp => exact this
    have hlength : u.length ≤ (u ++ sp).length + 2 := by
      rw [length_append]
      omega
    have hread := hu.readsTo hlength sp hend
    rw [readJson, hread, Option.bind_some, skipSpace_spaces hsp]
    rfl

theorem getLast_members {ms : List (Bytes × RawJson)} {part : Part} (h : Derives depth u part)
    (hpart : part = .members ms) : u.getLast? = some 0x7D := by
  induction h generalizing ms with
  | lastMember => simp [getLast?_cons]
  | member _ _ _ _ _ _ _ ih => simp [getLast?_cons, ih rfl]
  | _ => cases hpart

/-! ## Marshalled structs -/

theorem derives_string (h : Plain s) (depth : Nat) :
    Derives depth (0x22 :: (s ++ [0x22])) (.value (.str s)) :=
  .str spaces_nil (readString_plain h)

theorem derives_integer (x : Int) (depth : Nat) :
    Derives depth (formatInteger x) (.value (.literal (formatInteger x))) := by
  obtain ⟨d, ds, hx, hd⟩ := formatInteger_first x
  have hread : readLiteral (formatInteger x) = some (formatInteger x, []) := by
    have hnone := find_word_number hd ds
    rw [← hx, literalWords] at hnone
    rw [readLiteral, hnone]
    exact readNumber_formatInteger x
  exact .literal spaces_nil (readLiteral_ok hread).2

theorem derives_members (hne : fields ≠ [])
    (h : ∀ f ∈ fields, Plain f.1 ∧ Derives depth f.2.1 (.value f.2.2)) :
    Derives depth (join (fields.map fun f => marshalString f.1 ++ 0x3A :: f.2.1) [0x2C] ++ [0x7D])
      (.members (fields.map fun f => (f.1, f.2.2))) := by
  induction fields with
  | nil => exact absurd rfl hne
  | cons f fields ih =>
    obtain ⟨⟨hkey, hvalue⟩, hfields⟩ := forall_mem_cons.mp h
    cases fields with
    | nil =>
      have hlast := Derives.lastMember spaces_nil (readString_plain hkey) spaces_nil hvalue
        spaces_nil
      simpa [join, marshalString_plain hkey] using hlast
    | cons f' fields =>
      have hrest := ih (cons_ne_nil f' fields) hfields
      have hmember := Derives.member spaces_nil (readString_plain hkey) spaces_nil hvalue
        spaces_nil hrest
      simpa [join, intercalate_cons_cons, marshalString_plain hkey] using hmember

/-- **`json.Marshal` of a struct is read back.** -/
theorem readJson_marshalStruct (hne : fields ≠ [])
    (h : ∀ f ∈ fields, Plain f.1 ∧ ∀ depth, Derives depth f.2.1 (.value f.2.2)) :
    readJson (marshalStruct (fields.map fun f => (f.1, f.2.1))) =
      some (.obj (fields.map fun f => (f.1, f.2.2))) := by
  have hmembers := derives_members hne fun f hf => (h f hf).imp_right (· (maxNestingDepth - 1))
  refine readJson_iff.mpr ⟨_, [], (append_nil _).symm, spaces_nil, ?_⟩
  rw [marshalStruct, map_map]
  exact .obj spaces_nil hmembers

end Pcmi.Go
