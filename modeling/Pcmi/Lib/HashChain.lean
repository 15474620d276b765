import Mathlib.Data.List.Induction

/-!
# Hash chains

`link d a` is the digest of an entry over the digest before it. Where `link` determines both
arguments, the head determines the entries once their number is known. `D` restricts this to the
digests that occur.
-/

namespace Pcmi.Lib

variable {α δ : Type} {link : δ → α → δ} {D : δ → Prop} {anchor anchor' : δ}

theorem foldl_link_mem (hD : ∀ d a, D (link d a)) (h : D anchor) (entries : List α) :
    D (entries.foldl link anchor) := by
  induction entries using List.reverseRecOn with
  | nil => exact h
  | append_singleton entries a _ =>
    rw [List.foldl_append]
    exact hD _ a

/-- **The head binds the entries.** -/
theorem foldl_link_inj (hD : ∀ d a, D (link d a))
    (hlink : ∀ {d d' a a'}, D d → D d' → link d a = link d' a' → d = d' ∧ a = a')
    (h : D anchor) (h' : D anchor') {entries entries' : List α}
    (hlen : entries.length = entries'.length)
    (hhead : entries.foldl link anchor = entries'.foldl link anchor') :
    anchor = anchor' ∧ entries = entries' := by
  -- from the head back to the anchor: the last link gives the last entries and the heads before
  induction entries using List.reverseRecOn generalizing entries' with
  | nil =>
    obtain rfl := List.length_eq_zero_iff.mp hlen.symm
    exact ⟨hhead, rfl⟩
  | append_singleton entries a ih =>
    cases entries' using List.reverseRecOn with
    | nil => simp at hlen
    | append_singleton entries' a' =>
      rw [List.foldl_append, List.foldl_append] at hhead
      obtain ⟨hbefore, rfl⟩ :=
        hlink (foldl_link_mem hD h entries) (foldl_link_mem hD h' entries') hhead
      have hlen : entries.length = entries'.length := by simpa using hlen
      obtain ⟨hanchor, rfl⟩ := ih hlen hbefore
      exact ⟨hanchor, rfl⟩

end Pcmi.Lib
