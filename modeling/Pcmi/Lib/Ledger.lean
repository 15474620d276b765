import Mathlib.Algebra.BigOperators.Group.Multiset.Basic
import Mathlib.Algebra.GroupWithZero.Nat
import Mathlib.Algebra.Ring.Int.Defs
import Mathlib.Data.List.AList

/-!
# Ledgers

Amounts are paid in from outside and moved between accounts. The accounts always add up to what was
paid in: in the machine's integers, and in the integers as long as all of it fits.
-/

namespace Pcmi.Lib

open List Option

section Booking

variable {M : Type} [AddCommMonoid M]

/-- Bookings between two states of the accounts, with what is paid in. -/
inductive Booking : Multiset M → List M → Multiset M → Prop where
  | refl (l : Multiset M) : Booking l [] l
  | deposit (p x : M) (l : Multiset M) : Booking ({p} + l) [x] ({p + x} + l)
  /-- The first account is emptied into the second one and closed. -/
  | move (p q : M) (l : Multiset M) : Booking ({p} + ({q} + l)) [] ({q + p} + l)
  | opened (l : Multiset M) : Booking l [] ({0} + l)
  | trans {l l' l'' : Multiset M} {xs ys : List M} :
      Booking l xs l' → Booking l' ys l'' → Booking l (xs ++ ys) l''

variable {l l' : Multiset M} {xs : List M}

/-- **The accounts add up to what was paid in.** -/
theorem Booking.sum_eq (h : Booking l xs l') :
    l'.sum = l.sum + xs.sum := by
  induction h with
  | refl l => simp
  | deposit p x l => simp [add_right_comm]
  | move p q l => simp [add_assoc, add_left_comm]
  | opened l => simp
  | trans _ _ ih ih' => rw [ih', ih, sum_append, add_assoc]

theorem Booking.of_eq {m m' : Multiset M} (h : Booking l xs l') (hl : m = l) (hl' : m' = l') :
    Booking m xs m' := by
  rw [hl, hl']
  exact h

theorem Booking.transfer (p q : M) (l : Multiset M) :
    Booking ({p} + ({q} + l)) [] ({0} + ({q + p} + l)) :=
  (Booking.move p q l).trans (.opened _)

/-- The accounts as integers: their sum, and a bound on it without signs. -/
structure Exact (f : M → Int) (l : Multiset M) (total : Int) (size : Nat) : Prop where
  total : (l.map f).sum = total
  size : (l.map fun p => (f p).natAbs).sum ≤ size

section

variable {f : M → Int} {bound : Nat} {total : Int} {size : Nat} {l l' : Multiset M} {xs : List M}

omit [AddCommMonoid M] in
theorem exact_add_iff {p : M} : Exact f ({p} + l) total size ↔
    (f p).natAbs ≤ size ∧ Exact f l (total - f p) (size - (f p).natAbs) := by
  constructor
  · rintro ⟨htotal, hsize⟩
    rw [Multiset.map_add, Multiset.sum_add, Multiset.map_singleton, Multiset.sum_singleton]
      at htotal hsize
    exact ⟨by omega, by omega, by omega⟩
  · rintro ⟨hp, htotal, hsize⟩
    constructor <;>
      rw [Multiset.map_add, Multiset.sum_add, Multiset.map_singleton, Multiset.sum_singleton] <;>
      omega

/-- **The accounts add up as integers** as long as the amounts fit together. -/
theorem Booking.exact (hzero : f 0 = 0)
    (hadd : ∀ a b, (f a).natAbs + (f b).natAbs ≤ bound → f (a + b) = f a + f b)
    (h : Booking l xs l') (hl : Exact f l total size)
    (hbound : size + (xs.map fun x => (f x).natAbs).sum ≤ bound) :
    Exact f l' (total + (xs.map f).sum) (size + (xs.map fun x => (f x).natAbs).sum) := by
  induction h generalizing total size with
  | refl l => simpa using hl
  | deposit p x l =>
    obtain ⟨hp, htotal, hsize⟩ := exact_add_iff.mp hl
    rw [map_singleton, sum_singleton] at hbound ⊢
    rw [map_singleton, sum_singleton]
    have hpx : f (p + x) = f p + f x := hadd p x (by omega)
    exact exact_add_iff.mpr ⟨by omega, by omega, by omega⟩
  | move p q l =>
    obtain ⟨hp, hl⟩ := exact_add_iff.mp hl
    obtain ⟨hq, htotal, hsize⟩ := exact_add_iff.mp hl
    rw [map_nil, sum_nil, add_zero] at hbound ⊢
    rw [map_nil, sum_nil, add_zero]
    have hqp : f (q + p) = f q + f p := hadd q p (by omega)
    exact exact_add_iff.mpr ⟨by omega, by omega, by omega⟩
  | opened l =>
    rw [map_nil, sum_nil, add_zero, map_nil, sum_nil, add_zero]
    refine exact_add_iff.mpr ⟨by rw [hzero]; exact Nat.zero_le _, ?_⟩
    rwa [hzero, sub_zero, Int.natAbs_zero, Nat.sub_zero]
  | @trans l l' l'' xs ys _ _ ih ih' =>
    rw [map_append, sum_append, ← add_assoc] at hbound ⊢
    rw [map_append, sum_append, ← add_assoc]
    exact ih' (ih hl (by omega)) hbound

end

end Booking

/-! ## Maps of amounts -/

section Amount

variable {κ M : Type} [DecidableEq κ] [AddCommMonoid M]

def amount (m : AList fun _ : κ => M) (k : κ) : M := (m.lookup k).getD 0

theorem amount_empty (k : κ) : amount (∅ : AList fun _ : κ => M) k = 0 := by
  rw [amount, AList.lookup_empty, getD_none]

theorem amount_of_lookup {m : AList fun _ : κ => M} {k : κ} {x : M} (h : m.lookup k = some x) :
    amount m k = x := by
  rw [amount, h, getD_some]

theorem amount_insert (m : AList fun _ : κ => M) (k : κ) (x : M) (k' : κ) :
    amount (m.insert k x) k' = if k' = k then x else amount m k' := by
  unfold amount
  split
  · next h => rw [h, AList.lookup_insert, getD_some]
  · next h => rw [AList.lookup_insert_ne h]

theorem amount_erase (m : AList fun _ : κ => M) (k k' : κ) :
    amount (m.erase k) k' = if k' = k then 0 else amount m k' := by
  unfold amount
  split
  · next h => rw [h, AList.lookup_erase, getD_none]
  · next h => rw [AList.lookup_erase_ne h]

def credit (m : AList fun _ : κ => M) (e : Sigma fun _ : κ => M) : AList fun _ : κ => M :=
  match m.lookup e.1 with
  | none => m.insert e.1 e.2
  | some x => m.insert e.1 (x + e.2)

theorem amount_credit (m : AList fun _ : κ => M) (e : Sigma fun _ : κ => M) (k : κ) :
    amount (credit m e) k = if k = e.1 then amount m k + e.2 else amount m k := by
  unfold credit
  split
  · next hnone =>
    rw [amount_insert]
    split
    · next hk => rw [hk, amount, hnone, getD_none, zero_add]
    · rfl
  · next x hsome =>
    rw [amount_insert]
    split
    · next hk => rw [hk, amount_of_lookup hsome]
    · rfl

def creditAll (m m' : AList fun _ : κ => M) : AList fun _ : κ => M := m'.entries.foldl credit m

theorem amount_foldl_credit (k : κ) : ∀ {l : List (Sigma fun _ : κ => M)}, l.NodupKeys →
    ∀ m : AList fun _ : κ => M,
      amount (l.foldl credit m) k = amount m k + (l.dlookup k).getD 0
  | [], _, m => by simp
  | e :: l, hnodup, m => by
    obtain ⟨hfresh, hnodup⟩ := nodupKeys_cons.mp hnodup
    rw [foldl_cons, amount_foldl_credit k hnodup, amount_credit]
    by_cases hk : k = e.1
    · subst hk
      rw [if_pos rfl, dlookup_eq_none.mpr hfresh, getD_none, add_zero]
      obtain ⟨k, x⟩ := e
      rw [dlookup_cons_eq, getD_some]
    · rw [if_neg hk, dlookup_cons_ne _ _ hk]

theorem amount_creditAll (m m' : AList fun _ : κ => M) (k : κ) :
    amount (creditAll m m') k = amount m k + amount m' k :=
  amount_foldl_credit k m'.nodupKeys m

end Amount

end Pcmi.Lib
