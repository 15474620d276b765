import Mathlib.Algebra.BigOperators.Group.List.Basic
import Mathlib.Algebra.Order.BigOperators.Group.List
import Mathlib.Algebra.Order.Group.Nat
import Mathlib.Data.List.Sort
import Mathlib.Logic.Function.Iterate
import Pcmi.Lib.Ties

/-!
# Rounds of batches from the front of a queue

Elements wait in a queue by their keys, those of one key in any order. A round tries the first `n`;
an element leaves when a try succeeds, and nothing is kept of one that fails. `ok a k` says whether
try number `k` of `a` succeeds.
-/

namespace Pcmi.Lib

open List

/-- The elements that wait, and how often each has been tried. -/
@[ext]
structure Queue (α : Type) where
  waiting : List α
  tries : α → Nat

variable {α κ : Type} [DecidableEq α] [LinearOrder κ]

namespace Queue

def attempt (ok : α → Nat → Bool) (w : Queue α) (a : α) : Queue α where
  waiting := if ok a (w.tries a) then w.waiting.filter fun b => decide (b ≠ a) else w.waiting
  tries := Function.update w.tries a (w.tries a + 1)

def attemptAll (ok : α → Nat → Bool) (w : Queue α) (batch : List α) : Queue α :=
  batch.foldl (attempt ok) w

/-- A round: a batch of the first `n` elements in some arrangement by keys. -/
def Round (key : α → κ) (n : Nat) (ok : α → Nat → Bool) (w w' : Queue α) : Prop :=
  ∃ arranged, Arranges key w.waiting arranged ∧ w' = w.attemptAll ok (arranged.take n)

def Rounds (key : α → κ) (n : Nat) (ok : α → Nat → Bool) (run : Nat → Queue α) : Prop :=
  ∀ i, Round key n ok (run i) (run (i + 1))

/-! ## A round -/

section

variable {key : α → κ} {n : Nat} {ok : α → Nat → Bool} {w w' : Queue α} {l batch arranged : List α}
  {a r : α}

theorem mem_waiting_attempt {b : α} :
    b ∈ (w.attempt ok a).waiting ↔ b ∈ w.waiting ∧ ¬ (b = a ∧ ok a (w.tries a) = true) := by
  unfold attempt
  split <;> simp_all

theorem attempt_sublist : (w.attempt ok a).waiting.Sublist w.waiting := by
  unfold attempt
  split
  · exact filter_sublist
  · exact Sublist.refl _

theorem attemptAll_sublist : (w.attemptAll ok batch).waiting.Sublist w.waiting := by
  induction batch generalizing w with
  | nil => exact Sublist.refl _
  | cons b batch ih => exact (ih (w := w.attempt ok b)).trans attempt_sublist

theorem tries_attemptAll (hbatch : batch.Nodup) (a : α) :
    (w.attemptAll ok batch).tries a = w.tries a + if a ∈ batch then 1 else 0 := by
  induction batch generalizing w with
  | nil => rfl
  | cons b batch ih =>
    obtain ⟨hb, hbatch⟩ := nodup_cons.mp hbatch
    refine (ih hbatch).trans ?_
    by_cases hab : a = b
    · subst hab
      simp [attempt, hb]
    · simp [attempt, hab]

theorem mem_waiting_attemptAll (hbatch : batch.Nodup) :
    a ∈ (w.attemptAll ok batch).waiting ↔
      a ∈ w.waiting ∧ ¬ (a ∈ batch ∧ ok a (w.tries a) = true) := by
  induction batch generalizing w with
  | nil => simp [attemptAll]
  | cons b batch ih =>
    obtain ⟨hb, hbatch⟩ := nodup_cons.mp hbatch
    refine (ih hbatch).trans ?_
    rw [mem_waiting_attempt]
    by_cases hab : a = b
    · subst hab
      simp [hb]
    · simp [attempt, hab]

omit [DecidableEq α] in
/-- What waits outside the batch has a full batch before it. -/
theorem before_of_not_mem_take (h : Arranges key w.waiting arranged) (hr : r ∈ w.waiting)
    (hout : r ∉ arranged.take n) :
    (arranged.take n).length = n ∧ ∀ q ∈ arranged.take n, q ≠ r ∧ key q ≤ key r := by
  have hdrop : r ∈ arranged.drop n := by
    have hmem := h.1.mem_iff.mpr hr
    rw [← take_append_drop n arranged] at hmem
    exact (mem_append.mp hmem).resolve_left hout
  have hsorted := h.2
  rw [← take_append_drop n arranged] at hsorted
  refine ⟨?_, fun q hq => ⟨fun heq => hout (heq ▸ hq), ?_⟩⟩
  · have hne : arranged.drop n ≠ [] := ne_nil_of_mem hdrop
    rw [ne_eq, drop_eq_nil_iff] at hne
    rw [length_take]
    omega
  · exact (pairwise_append.mp hsorted).2.2 q hq r hdrop

/-! ## Runs -/

/-- What holds along a run that starts with `l`. -/
structure Tried (ok : α → Nat → Bool) (l : List α) (w : Queue α) : Prop where
  nodup : w.waiting.Nodup
  subset : ∀ a ∈ w.waiting, a ∈ l
  failed : ∀ a ∈ w.waiting, ∀ k < w.tries a, ok a k = false

omit [DecidableEq α] in
theorem nodup_batch (h : Arranges key w.waiting arranged) (hw : w.waiting.Nodup) (n : Nat) :
    (arranged.take n).Nodup :=
  (h.1.nodup_iff.mpr hw).sublist (take_sublist n arranged)

theorem Tried.round (h : Tried ok l w) (hround : Round key n ok w w') : Tried ok l w' := by
  obtain ⟨arranged, harranged, rfl⟩ := hround
  have hbatch := nodup_batch harranged h.nodup n
  refine ⟨h.nodup.sublist attemptAll_sublist, fun a ha => ?_, fun a ha k hk => ?_⟩
  · exact h.subset a ((mem_waiting_attemptAll hbatch).mp ha).1
  · obtain ⟨hwaiting, hfailed⟩ := (mem_waiting_attemptAll hbatch).mp ha
    rw [tries_attemptAll hbatch] at hk
    by_cases hlast : k < w.tries a
    · exact h.failed a hwaiting k hlast
    split at hk
    · next hmem =>
      obtain rfl : k = w.tries a := by omega
      exact Bool.eq_false_iff.mpr fun hok => hfailed ⟨hmem, hok⟩
    · omega

open Classical in
/-- The number of tries after which `a` is gone; `0` if it never is. -/
noncomputable def triesNeeded (ok : α → Nat → Bool) (a : α) : Nat :=
  if h : ∃ k, ok a k = true then Nat.find h + 1 else 0

/-- The tries that are left until only elements wait whose tries all fail. -/
noncomputable def triesLeft (ok : α → Nat → Bool) (l : List α) (w : Queue α) : Nat :=
  (l.map fun a => triesNeeded ok a - w.tries a).sum

omit [DecidableEq α] in
theorem Tried.tries_lt (h : Tried ok l w) (ha : a ∈ w.waiting) (hok : ∃ k, ok a k = true) :
    w.tries a < triesNeeded ok a := by
  classical
  rw [triesNeeded, dif_pos hok, Nat.lt_succ_iff, Nat.le_find_iff]
  intro k hk
  rw [h.failed a ha k hk]
  exact Bool.false_ne_true

/-- A batch with an element that is going to leave brings the end nearer. -/
theorem Tried.triesLeft_lt (h : Tried ok l w) (hbatch : batch.Nodup) {q : α} (hq : q ∈ batch)
    (hwaiting : q ∈ w.waiting) (hok : ∃ k, ok q k = true) :
    triesLeft ok l (w.attemptAll ok batch) < triesLeft ok l w := by
  refine sum_lt_sum _ _ (fun a _ => ?_) ⟨q, h.subset q hwaiting, ?_⟩
  · rw [tries_attemptAll hbatch]
    omega
  · have hlt := h.tries_lt hwaiting hok
    rw [tries_attemptAll hbatch, if_pos hq]
    omega

/-- Fewer than `n` elements, none above `r`, fail at every try. -/
def FewFail (key : α → κ) (n : Nat) (ok : α → Nat → Bool) (l : List α) (r : α) : Prop :=
  ∀ qs : List α, qs.Nodup →
    (∀ q ∈ qs, q ∈ l ∧ q ≠ r ∧ key q ≤ key r ∧ ∀ k, ok q k = false) → qs.length < n

/-- A round lets `r` go, or brings the end nearer. -/
theorem Tried.leaves_or_nearer (h : Tried ok l w) (hround : Round key n ok w w')
    (hfew : FewFail key n ok l r) (hr : ∀ k, ok r k = true) (hwaiting : r ∈ w.waiting) :
    r ∉ w'.waiting ∨ triesLeft ok l w' < triesLeft ok l w := by
  obtain ⟨arranged, harranged, rfl⟩ := hround
  have hbatch := nodup_batch harranged h.nodup n
  by_cases hin : r ∈ arranged.take n
  · refine Or.inl fun hstays => ?_
    exact ((mem_waiting_attemptAll hbatch).mp hstays).2 ⟨hin, hr _⟩
  obtain ⟨hfull, hbefore⟩ := before_of_not_mem_take harranged hwaiting hin
  have hmem : ∀ q ∈ arranged.take n, q ∈ w.waiting := fun q hq =>
    harranged.1.mem_iff.mp (mem_of_mem_take hq)
  -- The batch is full, so that not all of it can be among those that always fail.
  have hgood : ∃ q ∈ arranged.take n, ∃ k, ok q k = true := by
    by_contra hnone
    refine absurd (hfew _ hbatch fun q hq => ?_) (not_lt.mpr hfull.ge)
    refine ⟨h.subset q (hmem q hq), (hbefore q hq).1, (hbefore q hq).2, fun k => ?_⟩
    exact Bool.eq_false_iff.mpr fun hok => hnone ⟨q, hq, k, hok⟩
  obtain ⟨q, hq, hok⟩ := hgood
  exact Or.inr (h.triesLeft_lt hbatch hq (hmem q hq) hok)

/-- **Progress.** -/
theorem Tried.leaves {run : Nat → Queue α} (hrun : Rounds key n ok run)
    (hfew : FewFail key n ok l r) (hr : ∀ k, ok r k = true) {i : Nat} (h : Tried ok l (run i)) :
    ∃ j, r ∉ (run j).waiting := by
  induction hm : triesLeft ok l (run i) using Nat.strong_induction_on generalizing i with
  | _ m ih =>
    subst hm
    by_cases hwaiting : r ∈ (run i).waiting
    · rcases h.leaves_or_nearer (hrun i) hfew hr hwaiting with hgone | hnearer
      · exact ⟨i + 1, hgone⟩
      · exact ih _ hnearer (h.round (hrun i)) rfl
    · exact ⟨i, hwaiting⟩

/-! ## Starvation -/

theorem exists_arranges_behind (hl : l.Nodup) (hr : r ∈ l) (key : α → κ) :
    ∃ front back, Arranges key l (front ++ r :: back) ∧
      ∀ q, q ∈ front ↔ q ∈ l ∧ q ≠ r ∧ key q ≤ key r := by
  let front := (l.filter fun q => decide (q ≠ r ∧ key q ≤ key r)).insertionSort (key · ≤ key ·)
  let back := (l.filter fun q => decide (key r < key q)).insertionSort (key · ≤ key ·)
  have hfront : ∀ q, q ∈ front ↔ q ∈ l ∧ q ≠ r ∧ key q ≤ key r := by
    intro q
    simp [front]
  have hback : ∀ q, q ∈ back ↔ q ∈ l ∧ key r < key q := by
    intro q
    simp [back]
  have hsorted : ∀ m : List α, (m.insertionSort (key · ≤ key ·)).Pairwise (key · ≤ key ·) :=
    fun m => pairwise_insertionSort _ m
  have hnodup : ∀ p : α → Bool, ((l.filter p).insertionSort (key · ≤ key ·)).Nodup := fun p =>
    (perm_insertionSort _ _).nodup_iff.mpr (hl.filter p)
  refine ⟨front, back, ⟨?_, ?_⟩, hfront⟩
  · refine (perm_ext_iff_of_nodup ?_ hl).mpr fun q => ?_
    · refine nodup_append'.mpr ⟨hnodup _, nodup_cons.mpr ⟨?_, hnodup _⟩, ?_⟩
      · exact fun hmem => lt_irrefl _ ((hback r).mp hmem).2
      · intro q hq hq'
        obtain ⟨-, hne, hle⟩ := (hfront q).mp hq
        rcases mem_cons.mp hq' with heq | hmem
        · exact hne heq
        · exact hle.not_gt ((hback q).mp hmem).2
    · rw [mem_append, mem_cons, hfront, hback]
      constructor
      · rintro (h | rfl | h)
        · exact h.1
        · exact hr
        · exact h.1
      · intro hq
        by_cases heq : q = r
        · exact Or.inr (Or.inl heq)
        rcases le_or_gt (key q) (key r) with hle | hgt
        · exact Or.inl ⟨hq, heq, hle⟩
        · exact Or.inr (Or.inr ⟨hq, hgt⟩)
  · refine pairwise_append.mpr ⟨hsorted _, pairwise_cons.mpr ⟨?_, hsorted _⟩, ?_⟩
    · exact fun q hq => ((hback q).mp hq).2.le
    · intro q hq x hx
      refine ((hfront q).mp hq).2.2.trans ?_
      rcases mem_cons.mp hx with rfl | hx
      · exact le_rfl
      · exact ((hback x).mp hx).2.le

/-- `r` waits behind `qs`, which all wait. -/
structure Starves (qs : List α) (r : α) (w : Queue α) : Prop where
  nodup : w.waiting.Nodup
  self : r ∈ w.waiting
  before : ∀ q ∈ qs, q ∈ w.waiting

variable {qs : List α}

theorem Starves.round (h : Starves qs r w) (hqs : qs.Nodup)
    (hfail : ∀ q ∈ qs, q ≠ r ∧ key q ≤ key r ∧ ∀ k, ok q k = false) (hn : n ≤ qs.length) :
    ∃ w', Round key n ok w w' ∧ Starves qs r w' := by
  obtain ⟨front, back, harranged, hfront⟩ := exists_arranges_behind h.nodup h.self key
  have hbatch := nodup_batch harranged h.nodup n
  have hlength : n ≤ front.length := by
    refine hn.trans (subperm_of_subset hqs fun q hq => ?_).length_le
    exact (hfront q).mpr ⟨h.before q hq, (hfail q hq).1, (hfail q hq).2.1⟩
  have htake : (front ++ r :: back).take n = front.take n := take_append_of_le_length hlength
  refine ⟨_, ⟨_, harranged, rfl⟩, h.nodup.sublist attemptAll_sublist, ?_, fun q hq => ?_⟩
  · refine (mem_waiting_attemptAll hbatch).mpr ⟨h.self, fun hin => ?_⟩
    rw [htake] at hin
    exact ((hfront r).mp (mem_of_mem_take hin.1)).2.1 rfl
  · refine (mem_waiting_attemptAll hbatch).mpr ⟨h.before q hq, fun hin => ?_⟩
    rw [(hfail q hq).2.2] at hin
    exact Bool.false_ne_true hin.2

theorem Starves.exists_run (h : Starves qs r w) (hqs : qs.Nodup)
    (hfail : ∀ q ∈ qs, q ≠ r ∧ key q ≤ key r ∧ ∀ k, ok q k = false) (hn : n ≤ qs.length) :
    ∃ run : Nat → Queue α, run 0 = w ∧ Rounds key n ok run ∧ ∀ i, r ∈ (run i).waiting := by
  have hnext : ∀ u : { u : Queue α // Starves qs r u },
      ∃ u' : { u : Queue α // Starves qs r u }, Round key n ok u.1 u'.1 := fun u => by
    obtain ⟨u', hround, hu'⟩ := u.2.round hqs hfail hn
    exact ⟨⟨u', hu'⟩, hround⟩
  choose next hround using hnext
  refine ⟨fun i => (next^[i] ⟨w, h⟩).1, rfl, fun i => ?_, fun i => (next^[i] ⟨w, h⟩).2.self⟩
  dsimp only
  rw [Function.iterate_succ_apply']
  exact hround _

/-- **Who leaves in every run.** -/
theorem leaves_iff (hl : l.Nodup) (hmem : r ∈ l) (hr : ∀ k, ok r k = true) :
    (∀ run : Nat → Queue α, run 0 = ⟨l, fun _ => 0⟩ → Rounds key n ok run →
      ∃ i, r ∉ (run i).waiting) ↔ FewFail key n ok l r := by
  constructor
  · intro hleaves qs hqs hfail
    by_contra hn
    have hstarves : Starves qs r ⟨l, fun _ => 0⟩ := ⟨hl, hmem, fun q hq => (hfail q hq).1⟩
    obtain ⟨run, hstart, hrun, hstays⟩ :=
      hstarves.exists_run hqs (fun q hq => (hfail q hq).2) (not_lt.mp hn)
    obtain ⟨i, hi⟩ := hleaves run hstart hrun
    exact hi (hstays i)
  · intro hfew run hstart hrun
    have htried : Tried ok l (run 0) := by
      rw [hstart]
      exact ⟨hl, fun a ha => ha, fun _ _ k hk => absurd hk (Nat.not_lt_zero k)⟩
    exact htried.leaves hrun hfew hr

end

end Queue

/-! ## Systems that are served as a queue -/

/-- Steps of a view are seen of the system's own steps. -/
theorem exists_lift {σ τ : Type} {view : σ → τ} {step : σ → σ → Prop} {seen : τ → τ → Prop}
    {good : σ → Prop}
    (hlift : ∀ s t, good s → seen (view s) t → ∃ s', step s s' ∧ good s' ∧ view s' = t)
    {run : Nat → τ} (hrun : ∀ i, seen (run i) (run (i + 1))) {s : σ} (hs : good s)
    (hstart : view s = run 0) :
    ∃ run' : Nat → σ, run' 0 = s ∧ (∀ i, step (run' i) (run' (i + 1))) ∧
      ∀ i, view (run' i) = run i := by
  have hnext : ∀ i, ∀ u : { u : σ // good u ∧ view u = run i },
      ∃ u' : { u : σ // good u ∧ view u = run (i + 1) }, step u.1 u'.1 := by
    rintro i ⟨u, hu, hview⟩
    have hseen := hrun i
    rw [← hview] at hseen
    obtain ⟨u', hstep, hgood, hview⟩ := hlift u (run (i + 1)) hu hseen
    exact ⟨⟨u', hgood, hview⟩, hstep⟩
  choose next hstep using hnext
  let seq (i : Nat) : { u : σ // good u ∧ view u = run i } :=
    Nat.rec ⟨s, hs, hstart⟩ (fun i u => next i u) i
  exact ⟨fun i => (seq i).1, rfl, fun i => hstep i (seq i), fun i => (seq i).2.2⟩

end Pcmi.Lib
