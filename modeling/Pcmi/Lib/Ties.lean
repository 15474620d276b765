import Mathlib.Data.List.Pairwise
import Mathlib.Data.List.Sort
import Pcmi.Lib.Follow

/-!
# Pages of a list whose keys are not unique

A reader that continues behind the last key it got passes over elements with this key that were not
shown. Elements with one key come in any order, and in another one on the next page.
-/

namespace Pcmi.Lib

open List

variable {α γ κ : Type}

/-! ## Reading to the end -/

variable {fetch : γ → List α → Option γ → Prop} {c : γ} {n : Nat} {ks : List κ} {key : α → κ}
  {l : List α}

/-- What holds on every page reached holds for all that is read. -/
theorem Follows.forall_mem {P : α → Prop} {R : γ → Prop}
    (hfetch : ∀ {c items next}, R c → fetch c items next → (∀ a ∈ items, P a) ∧ ∀ c', next =
      some c' → R c')
    {entries : List α} (h : Follows fetch c entries) : R c → ∀ a ∈ entries, P a := by
  induction h with
  | last hpage => exact fun hR => (hfetch hR hpage).1
  | more hpage _ ih =>
    intro hR
    obtain ⟨hitems, hnext⟩ := hfetch hR hpage
    exact forall_mem_append.mpr ⟨hitems, ih (hnext _ rfl)⟩

/-- Pages that leave less and less end; `R` says how much is left. -/
theorem exists_follows {R : γ → Nat → Prop}
    (hstep : ∀ {c m}, R c m → ∃ items next, fetch c items next ∧ ∀ c', next = some c' → ∃ m' < m,
      R c' m')
    {m : Nat} (h : R c m) : ∃ entries, Follows fetch c entries := by
  induction m using Nat.strong_induction_on generalizing c with
  | _ m ih =>
    obtain ⟨items, next, hfetch, hnext⟩ := hstep h
    cases next with
    | none => exact ⟨items, .last hfetch⟩
    | some c' =>
      obtain ⟨m', hlt, hR⟩ := hnext c' rfl
      obtain ⟨rest, hrest⟩ := ih m' hlt hR
      exact ⟨items ++ rest, .more hfetch hrest⟩

/-! ## The ends of pages -/

/-- No value stands on both sides of the end of a page. -/
def Apart (n : Nat) (ks : List κ) : Prop :=
  ∀ k, 0 < k → k * n < ks.length → ks[k * n - 1]? ≠ ks[k * n]?

theorem apart_of_length_le (h : ks.length ≤ n) : Apart n ks := by
  intro k hk hlt
  have hle : n ≤ k * n := Nat.le_mul_of_pos_left n hk
  omega

theorem apart_iff (hn : 0 < n) (h : n < ks.length) :
    Apart n ks ↔ ks[n - 1]? ≠ ks[n]? ∧ Apart n (ks.drop n) := by
  constructor
  · intro hapart
    refine ⟨?_, fun k hk hlt => ?_⟩
    · have hfirst := hapart 1 Nat.one_pos
      rw [Nat.one_mul] at hfirst
      exact hfirst h
    · have hnext := hapart (k + 1) (Nat.succ_pos k)
      have hle : n ≤ k * n := Nat.le_mul_of_pos_left n hk
      rw [length_drop] at hlt
      rw [Nat.add_mul, Nat.one_mul] at hnext
      rw [getElem?_drop, getElem?_drop, Nat.add_comm n (k * n),
        show n + (k * n - 1) = k * n + n - 1 by omega]
      exact hnext (by omega)
  · rintro ⟨hfirst, hrest⟩ k hk hlt
    obtain ⟨k, rfl⟩ := Nat.exists_eq_succ_of_ne_zero hk.ne'
    rcases Nat.eq_zero_or_pos k with rfl | hpos
    · rw [Nat.one_mul]
      exact hfirst
    have hnext := hrest k hpos
    have hle : n ≤ k * n := Nat.le_mul_of_pos_left n hpos
    rw [Nat.succ_mul] at hlt ⊢
    rw [length_drop, getElem?_drop, getElem?_drop, Nat.add_comm n (k * n),
      show n + (k * n - 1) = k * n + n - 1 by omega] at hnext
    exact hnext (by omega)

theorem apart_map_iff {κ' : Type} {f : κ → κ'} (hf : Function.Injective f) :
    Apart n (ks.map f) ↔ Apart n ks := by
  simp only [Apart, length_map, getElem?_map, ne_eq,
    (Option.map_injective hf).eq_iff]

variable [LinearOrder κ]

/-- The elements of `l` by ascending keys, those of one key in any order. -/
def Arranges (key : α → κ) (l arranged : List α) : Prop :=
  arranged.Perm l ∧ arranged.Pairwise fun a b => key a ≤ key b

def sortedKeys (key : α → κ) (l : List α) : List κ := (l.map key).insertionSort (· ≤ ·)

theorem Arranges.map_eq_sortedKeys {arranged : List α} (h : Arranges key l arranged) :
    arranged.map key = sortedKeys key l :=
  ((h.1.map key).trans (perm_insertionSort _ _).symm).eq_of_pairwise
    (fun _ _ _ _ hab hba => le_antisymm hab hba) (pairwise_map.mpr h.2)
    (pairwise_insertionSort _ _)

/-- The first page ends between `front` and `b`. -/
theorem Arranges.apart_sortedKeys_iff {front back : List α} {b : α}
    (h : Arranges key l (front ++ b :: back)) (hne : front ≠ []) (after : κ) :
    Apart front.length (sortedKeys key l) ↔
      lastKey key after front ≠ key b ∧ Apart front.length ((b :: back).map key) := by
  have hpos : 0 < front.length := length_pos_iff.mpr hne
  have hlast := getLast?_eq_some_getLast hne
  have hbefore : (front.map key ++ (b :: back).map key)[front.length - 1]? =
      some (lastKey key after front) := by
    rw [getElem?_append_left (by rw [length_map]; omega), getElem?_map,
      ← getLast?_eq_getElem?, hlast, lastKey_of_getLast? hlast]
    rfl
  have hbehind : (front.map key ++ (b :: back).map key)[front.length]? = some (key b) := by
    simp
  rw [← h.map_eq_sortedKeys, map_append, apart_iff hpos (by simp), hbefore, hbehind,
    drop_left' (length_map key), ne_eq, Option.some_inj]

/-! ## What a page leaves over -/

section

variable {key : α → κ} {l front back : List α} {after : κ}

/-- Of the elements not shown, those with a greater key are left. -/
theorem Arranges.above_lastKey_perm (h : Arranges key (above key after l) (front ++ back))
    (hne : front ≠ []) :
    (above key (lastKey key after front) l).Perm (above key (lastKey key after front) back) := by
  have hlast : lastKey key after front = key (front.getLast hne) :=
    lastKey_of_getLast? (getLast?_eq_some_getLast hne) after
  have hle : after ≤ lastKey key after front := by
    rw [hlast]
    have hmem := h.1.mem_iff.mp (mem_append_left back (getLast_mem hne))
    exact (mem_above.mp hmem).2.le
  have hshown : above key (lastKey key after front) front = [] := by
    refine filter_eq_nil_iff.mpr fun a ha => ?_
    rw [decide_eq_true_eq, not_lt, hlast]
    exact (pairwise_append.mp h.2).1.rel_getLast_of_rel_getLast_getLast ha (le_refl _)
  have hsplit : above key (lastKey key after front) (front ++ back) =
      above key (lastKey key after front) back := by
    have happend := filter_append (p := fun a => decide (lastKey key after front < key a))
      front back
    exact happend.trans (congrArg (· ++ _) hshown)
  rw [← above_above hle l, ← hsplit]
  exact (h.1.filter _).symm

variable {b : α}

/-- If the next element has a greater key, nothing is passed over. -/
theorem Arranges.above_lastKey_of_lt (h : Arranges key (above key after l) (front ++ b :: back))
    (hne : front ≠ []) (hlt : lastKey key after front < key b) :
    (above key (lastKey key after front) l).Perm (b :: back) := by
  have hback : above key (lastKey key after front) (b :: back) = b :: back := by
    refine filter_eq_self.mpr (forall_mem_cons.mpr ⟨decide_eq_true hlt, fun a ha => ?_⟩)
    have hle := (pairwise_cons.mp (pairwise_append.mp h.2).2.1).1 a ha
    exact decide_eq_true (lt_of_lt_of_le hlt hle)
  have hperm := h.above_lastKey_perm hne
  rwa [hback] at hperm

/-- If it has the last key shown, it is passed over. -/
theorem Arranges.length_above_lastKey_lt (h : Arranges key (above key after l) (front ++ b :: back))
    (hne : front ≠ []) (heq : key b = lastKey key after front) :
    (above key (lastKey key after front) l).length < (b :: back).length := by
  rw [(h.above_lastKey_perm hne).length_eq]
  exact length_filter_lt_length_iff_exists.mpr ⟨b, mem_cons_self, by simp [heq]⟩

end

/-! ## Pages -/

/-- The pages of `l`, read behind a key that others may have too. -/
def TiedPagesOf (fetch : γ → List α → Option γ → Prop) (key : α → κ) (l : List α) (n : Nat)
    (R : γ → κ → Prop) : Prop :=
  ∀ ⦃c after items next⦄, R c after → fetch c items next →
    ∃ arranged, Arranges key (above key after l) arranged ∧ items = arranged.take n ∧
      (arranged.length ≤ n ∧ next = none ∨
        n < arranged.length ∧ ∃ c', next = some c' ∧ R c' (lastKey key after items))

namespace TiedPagesOf

variable {fetch : γ → List α → Option γ → Prop} {key : α → κ} {l : List α} {n : Nat}
  {R : γ → κ → Prop} {c : γ} {entries : List α}

theorem exists_front (h : TiedPagesOf fetch key l n R) (hn : 0 < n) {c' : γ} {after : κ}
    {items : List α} (hR : R c after) (hfetch : fetch c items (some c')) :
    ∃ b back, Arranges key (above key after l) (items ++ b :: back) ∧ items.length = n ∧
      items ≠ [] ∧ R c' (lastKey key after items) := by
  obtain ⟨arranged, harranged, rfl, ⟨-, hnone⟩ | ⟨hlt, c'', hc, hR'⟩⟩ := h hR hfetch
  · cases hnone
  obtain rfl := Option.some.inj hc
  have hlength : (arranged.take n).length = n := by rw [length_take]; omega
  refine ⟨arranged[n], arranged.drop (n + 1), ?_, hlength, ?_, hR'⟩
  · rwa [← drop_eq_getElem_cons hlt, take_append_drop]
  · exact ne_nil_of_length_pos (by omega)

theorem length_le (h : TiedPagesOf fetch key l n R) (hn : 0 < n)
    (hfollows : Follows fetch c entries) :
    ∀ {after : κ}, R c after → entries.length ≤ (above key after l).length := by
  induction hfollows with
  | last hfetch =>
    intro after hR
    obtain ⟨arranged, harranged, rfl, -⟩ := h hR hfetch
    rw [← harranged.1.length_eq]
    exact length_take_le' n arranged
  | @more c c' items rest hfetch _ ih =>
    intro after hR
    obtain ⟨b, back, harranged, -, hne, hR'⟩ := h.exists_front hn hR hfetch
    have hleft : (above key (lastKey key after items) l).length ≤ (b :: back).length := by
      rw [(harranged.above_lastKey_perm hne).length_eq]
      exact length_filter_le _ _
    have hrest := ih hR'
    rw [← harranged.1.length_eq, length_append, length_append]
    omega

/-- **The pages hold every element exactly if no key is on both sides of the end of a page.** -/
theorem perm_iff (h : TiedPagesOf fetch key l n R) (hn : 0 < n) (hfollows :
    Follows fetch c entries) :
    ∀ {after : κ}, R c after →
      (entries.Perm (above key after l) ↔ Apart n (sortedKeys key (above key after l))) := by
  induction hfollows with
  | @last c items hfetch =>
    intro after hR
    obtain ⟨arranged, harranged, rfl, ⟨hle, -⟩ | ⟨-, c', hc, -⟩⟩ := h hR hfetch
    · have hapart : Apart n (sortedKeys key (above key after l)) := by
        rw [← harranged.map_eq_sortedKeys]
        exact apart_of_length_le (by rwa [length_map])
      rw [take_of_length_le hle]
      exact iff_of_true harranged.1 hapart
    · cases hc
  | @more c c' items rest hfetch hrest ih =>
    intro after hR
    obtain ⟨b, back, harranged, hlength, hne, hR'⟩ := h.exists_front hn hR hfetch
    have hapart := harranged.apart_sortedKeys_iff hne after
    rw [hlength] at hapart
    rw [hapart]
    rcases eq_or_ne (key b) (lastKey key after items) with heq | hdiff
    · -- `b` is passed over
      refine iff_of_false (fun hperm => ?_) fun hapart => hapart.1 heq.symm
      have hle := h.length_le hn hrest hR'
      have hlt := harranged.length_above_lastKey_lt hne heq
      have hall := (hperm.trans harranged.1.symm).length_eq
      rw [length_append, length_append] at hall
      omega
    · have hlt : lastKey key after items < key b := by
        refine lt_of_le_of_ne ?_ hdiff.symm
        rw [lastKey_of_getLast? (getLast?_eq_some_getLast hne)]
        exact (pairwise_append.mp harranged.2).2.2 _ (getLast_mem hne) b
          mem_cons_self
      have hleft := harranged.above_lastKey_of_lt hne hlt
      have hsorted : (b :: back).map key = sortedKeys key (above key (lastKey key after items) l) :=
        Arranges.map_eq_sortedKeys ⟨hleft.symm, (pairwise_append.mp harranged.2).2.1⟩
      rw [hsorted, ← ih hR']
      have hperm : (items ++ rest).Perm (above key after l) ↔ rest.Perm (b :: back) :=
        ⟨fun hperm => (perm_append_left_iff items).mp (hperm.trans harranged.1.symm),
          fun hperm => (hperm.append_left items).trans harranged.1⟩
      rw [hperm]
      exact ⟨fun hall => ⟨hdiff.symm, hall.trans hleft.symm⟩, fun hall => hall.2.trans hleft⟩

end TiedPagesOf

end Pcmi.Lib
