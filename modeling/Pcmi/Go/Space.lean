import Mathlib.Data.List.DropRight

/-!
# White space of Go's `unicode` package

`unicode.IsSpace`, on code points, and `strings.TrimSpace` on decoded text.
-/

namespace Pcmi.Go

open List

/-- The code points of `unicode.IsSpace`. -/
def spaceRunes : List Nat :=
  [0x09, 0x0A, 0x0B, 0x0C, 0x0D, 0x20, 0x85, 0xA0, 0x1680, 0x2000, 0x2001, 0x2002, 0x2003, 0x2004,
   0x2005, 0x2006, 0x2007, 0x2008, 0x2009, 0x200A, 0x2028, 0x2029, 0x202F, 0x205F, 0x3000]

/-- Drops what satisfies `p` at both ends. -/
def trimBoth {α : Type} (p : α → Bool) (l : List α) : List α :=
  ((l.dropWhile p).reverse.dropWhile p).reverse

variable {α : Type} {p : α → Bool} {l m : List α}

theorem dropWhile_eq_self_of_isPrefix (hpre : m <+: l) (h : l.dropWhile p = l) :
    m.dropWhile p = m := by
  cases m with
  | nil => rfl
  | cons a m =>
    obtain ⟨rest, rfl⟩ := hpre
    refine dropWhile_cons_of_neg fun ha => ?_
    rw [cons_append, dropWhile_cons_of_pos ha] at h
    have hlength := length_dropWhile_le p (m ++ rest)
    rw [h, length_cons] at hlength
    omega

theorem dropWhile_eq_self_of_head (h : ∀ a ∈ l.head?, p a = false) :
    l.dropWhile p = l := by
  cases l with
  | nil => rfl
  | cons a l => simp [h a rfl]

theorem trimBoth_eq_self (hfirst : ∀ a ∈ l.head?, p a = false)
    (hlast : ∀ a ∈ l.getLast?, p a = false) : trimBoth p l = l := by
  rw [trimBoth, dropWhile_eq_self_of_head hfirst, dropWhile_eq_self_of_head, reverse_reverse]
  intro a ha
  rw [head?_reverse] at ha
  exact hlast a ha

theorem trimBoth_between (front : List α) {back : List α} (hfront : ∀ a ∈ front, p a = true)
    (hback : ∀ a ∈ back, p a = true) (hne : m ≠ []) (hfirst : ∀ a ∈ m.head?, p a = false)
    (hlast : ∀ a ∈ m.getLast?, p a = false) : trimBoth p (front ++ (m ++ back)) = m := by
  have hhead : ∀ a ∈ (m ++ back).head?, p a = false := by
    rwa [head?_append_of_ne_nil _ hne]
  rw [trimBoth, dropWhile_append_of_pos hfront, dropWhile_eq_self_of_head hhead, reverse_append,
    dropWhile_append_of_pos fun a ha => hback a (mem_reverse.mp ha), dropWhile_eq_self_of_head,
    reverse_reverse]
  rwa [head?_reverse]

theorem trimBoth_trimBoth (p : α → Bool) (l : List α) :
    trimBoth p (trimBoth p l) = trimBoth p l := by
  have hfront : (trimBoth p l).dropWhile p = trimBoth p l :=
    dropWhile_eq_self_of_isPrefix ( rdropWhile_prefix p (l.dropWhile p))
      (dropWhile_idempotent p l)
  have hback : (trimBoth p l).rdropWhile p = trimBoth p l :=
    rdropWhile_idempotent p (l.dropWhile p)
  change ((trimBoth p l).dropWhile p).rdropWhile p = trimBoth p l
  rw [hfront, hback]

/-- A beginning with nothing to drop at its own ends is still there. -/
theorem isPrefix_trimBoth {front : List α} (hfront : front.dropWhile p = front)
    (hback : front.reverse.dropWhile p = front.reverse) (h : front <+: l) :
    front <+: trimBoth p l := by
  obtain ⟨rest, rfl⟩ := h
  by_cases hne : front = []
  · simp [hne]
  have hkept : (front ++ rest).dropWhile p = front ++ rest := by
    simp [dropWhile_append, hfront, hne]
  rw [trimBoth, hkept, reverse_append, dropWhile_append, hback]
  split <;> simp

/-- `strings.TrimSpace` on text that is valid UTF-8. -/
def trimSpaceText (s : String) : String :=
  String.ofList (trimBoth (fun c => spaceRunes.contains c.toNat) s.toList)

theorem trimSpaceText_trimSpaceText (s : String) :
    trimSpaceText (trimSpaceText s) = trimSpaceText s := by
  unfold trimSpaceText
  rw [String.toList_ofList, trimBoth_trimBoth]

theorem trimSpaceText_of_forall {s : String} (h : ∀ c ∈ s.toList, c.toNat ∉ spaceRunes) :
    trimSpaceText s = s := by
  have hkept : ∀ c ∈ s.toList, spaceRunes.contains c.toNat = false := by
    intro c hc
    simp [h c hc]
  rw [trimSpaceText, trimBoth_eq_self, String.ofList_toList]
  · intro c hc
    exact hkept c (mem_of_mem_head? hc)
  · intro c hc
    exact hkept c (mem_of_mem_getLast? hc)

end Pcmi.Go
