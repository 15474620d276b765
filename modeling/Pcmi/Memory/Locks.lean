import Pcmi.Memory.Transaction

/-!
# Row locks and the open-version index

In every state of concurrent stores on one path: at most one committed open row; a transaction that
holds a row lock holds that of the open row, alone; at most one has an uncommitted open row.
-/

namespace Pcmi.Memory.Contention

open List Pcmi.Lib

variable {n : Nat} (k : Contention n)

/-! ## The open row -/

variable {rows : List Row} {r row : Row} {s : Sys n} {i : Fin n} {now : Time}
  {victim : Option (Nat × Int)}

theorem openRow_mem (h : k.openRow rows = some r) : r ∈ rows :=
  mem_of_find?_eq_some h

theorem openRow_current (h : k.openRow rows = some r) :
    r.current k.tenantId k.path = true := find?_some h

theorem openRow_eq_none_iff :
    k.openRow rows = none ↔ ∀ r ∈ rows, r.current k.tenantId k.path = false := by
  simp [openRow]

theorem OneOpen.eq {r' : Row} (h : k.OneOpen rows) (hr : k.openRow rows = some r) (hm : r' ∈ rows)
    (hc : r'.current k.tenantId k.path = true) : r' = r := by
  have hmem : r' ∈ rows.filter (Row.current k.tenantId k.path) := mem_filter.mpr ⟨hm, hc⟩
  have hrmem : r ∈ rows.filter (Row.current k.tenantId k.path) :=
    mem_filter.mpr ⟨k.openRow_mem hr, k.openRow_current hr⟩
  unfold OneOpen at h
  match hf : rows.filter (Row.current k.tenantId k.path) with
  | [] => rw [hf] at hmem; cases hmem
  | [x] =>
    rw [hf] at hmem hrmem
    rw [mem_singleton.mp hmem, mem_singleton.mp hrmem]
  | x :: y :: rest => rw [hf] at h; simp at h

variable {target : Option Nat} {s' : Sys n}

/-- What the closing statement finds after its wait is the open row. -/
theorem closeTarget_some (h : k.OneOpen rows) {v : Nat × Int}
    (hv : k.closeTarget rows target = some v) :
    target = some v.1 ∧ ∃ r, k.openRow rows = some r ∧ v = (r.id, r.version) := by
  cases target with
  | none => simp [closeTarget] at hv
  | some id =>
    simp only [closeTarget, Option.map_eq_some_iff] at hv
    obtain ⟨r, hf, rfl⟩ := hv
    have hp := find?_some hf
    simp only [Bool.and_eq_true, beq_iff_eq] at hp
    refine ⟨by rw [hp.1], r, ?_, rfl⟩
    cases ho : k.openRow rows with
    | none => cases hp.2.symm.trans (k.openRow_eq_none_iff.mp ho r (mem_of_find?_eq_some hf))
    | some r' => rw [h.eq k ho (mem_of_find?_eq_some hf) hp.2]

theorem closeRow_closed (h : k.OneOpen rows) (hr : k.openRow rows = some r) (now : Time) :
    ∀ x ∈ k.closeRow r.id now rows, x.current k.tenantId k.path = false := by
  intro x hx
  obtain ⟨y, hy, rfl⟩ := mem_map.mp hx
  by_cases hc : y.current k.tenantId k.path = true
  · have hyr : y = r := h.eq k hr hy hc
    have hcr : r.current k.tenantId k.path = true := hyr ▸ hc
    simp [hyr, hcr]
  · simp [hc]

theorem toRow_current (i : Fin n) (id : Nat) (v : Int) (now : Time) :
    ((k.columns i).toRow k.tenantId id v now).current k.tenantId k.path = true := by
  simp [Row.current, k.samePath i]

theorem openRow_append (h : ∀ x ∈ rows, x.current k.tenantId k.path = false)
    (hrow : row.current k.tenantId k.path = true) :
    k.openRow (rows ++ [row]) = some row ∧ k.OneOpen (rows ++ [row]) := by
  have hnone : rows.find? (Row.current k.tenantId k.path) = none := by
    simpa using h
  have hfil : rows.filter (Row.current k.tenantId k.path) = [] := by
    simpa using h
  constructor
  · simp [openRow, List.find?_append, hnone, hrow]
  · simp [OneOpen, filter_append, hfil, hrow]

/-! ## The invariant -/

structure Locks (s : Sys n) : Prop where
  oneOpen : k.OneOpen s.rows
  /-- A locked row is the open row. -/
  holds : ∀ i v, (s.calls i).phase.victim = some v →
    ∃ r, k.openRow s.rows = some r ∧ v = (r.id, r.version)
  holder : ∀ i j, (s.calls i).phase.victim.isSome → (s.calls j).phase.victim.isSome → i = j
  inserter : ∀ i j, (s.calls i).phase.pending.isSome → (s.calls j).phase.pending.isSome → i = j
  /-- A transaction that closed no row found none open, and none is. -/
  first : ∀ i, (s.calls i).phase.pending.isSome → (s.calls i).phase.victim = none →
    k.openRow s.rows = none
  /-- The uncommitted row is the one the columns and the closed version give. -/
  shape : ∀ i now v row, (s.calls i).phase = .inserted now v row →
    row = (k.columns i).toRow k.tenantId row.id (versionAfter v) now

variable {k}

theorem locks_start (h : k.OneOpen rows) (nextId : Nat) (clock : Time) :
    k.Locks (start rows nextId clock) where
  oneOpen := h
  holds := by simp [start, Phase.victim]
  holder := by simp [start, Phase.victim]
  inserter := by simp [start, Phase.pending]
  first := by simp [start, Phase.pending]
  shape := by simp [start]

/-- A step that takes no lock and inserts nothing keeps the locks. -/
theorem Locks.move (h : k.Locks s) (hrows : s'.rows = s.rows)
    (hother : ∀ j, j ≠ i → (s'.calls j).phase = (s.calls j).phase)
    (hvictim : (s'.calls i).phase.victim = none ∨ (s'.calls i).phase.victim =
      (s.calls i).phase.victim)
    (hpending : (s'.calls i).phase.pending = none) : k.Locks s' := by
  have hv : ∀ j v, (s'.calls j).phase.victim = some v → (s.calls j).phase.victim = some v := by
    intro j v hj
    by_cases hji : j = i
    · subst hji
      rcases hvictim with hn | he
      · rw [hn] at hj; cases hj
      · rw [← he]; exact hj
    · rw [← hother j hji]; exact hj
  have hvs : ∀ j, (s'.calls j).phase.victim.isSome → (s.calls j).phase.victim.isSome := by
    intro j hj
    obtain ⟨v, hv'⟩ := Option.isSome_iff_exists.mp hj
    rw [hv j v hv']; rfl
  have hp : ∀ j, (s'.calls j).phase.pending.isSome → j ≠ i := by
    intro j hj he
    subst he
    rw [hpending] at hj
    cases hj
  constructor
  · rw [hrows]; exact h.oneOpen
  · intro j v hj
    rw [hrows]
    exact h.holds j v (hv j v hj)
  · exact fun a b ha hb => h.holder a b (hvs a ha) (hvs b hb)
  · intro a b ha hb
    rw [hother a (hp a ha)] at ha
    rw [hother b (hp b hb)] at hb
    exact h.inserter a b ha hb
  · intro j hj hn
    have hji := hp j hj
    rw [hother j hji] at hj hn
    rw [hrows]
    exact h.first j hj hn
  · intro j now v row hj
    have hji : j ≠ i := hp j (by rw [hj]; rfl)
    rw [hother j hji] at hj
    exact h.shape j now v row hj

/-- The closing statement takes a lock that no other transaction holds. -/
theorem Locks.closeRun (h : k.Locks s) (hfree : ∀ id ∈ target, ¬ lockedByOther s i id) :
    k.Locks (setPhase s i (.closed now (k.closeTarget s.rows target))) := by
  -- a second holder would hold the same row, and the statement would still be waiting for it
  have halone : (k.closeTarget s.rows target).isSome →
      ∀ j, j ≠ i → (s.calls j).phase.victim.isSome = false := by
    intro hs j hj
    obtain ⟨v, hv⟩ := Option.isSome_iff_exists.mp hs
    obtain ⟨ht, r, hr, hvr⟩ := k.closeTarget_some h.oneOpen hv
    cases hvj : (s.calls j).phase.victim with
    | none => rfl
    | some w =>
      obtain ⟨r', hr', hw⟩ := h.holds j w hvj
      rw [hr] at hr'
      cases hr'
      refine absurd ⟨j, hj, ?_⟩ (hfree v.1 (by rw [ht]; rfl))
      rw [hvj, hw, hvr]
      rfl
  constructor
  · exact h.oneOpen
  · intro j v hj
    rw [setPhase_phase] at hj
    split at hj
    · exact (k.closeTarget_some h.oneOpen hj).2
    · exact h.holds j v hj
  · intro a b ha hb
    rw [setPhase_phase] at ha hb
    split at ha <;> split at hb
    · next hai hbi => rw [hai, hbi]
    · next hbi =>
      rw [halone ha b hbi] at hb
      cases hb
    · next hai _ =>
      rw [halone hb a hai] at ha
      cases ha
    · exact h.holder a b ha hb
  · intro a b ha hb
    rw [setPhase_phase] at ha hb
    split at ha
    · cases ha
    split at hb
    · cases hb
    · exact h.inserter a b ha hb
  · intro j hj hn
    rw [setPhase_phase] at hj hn
    split at hj
    · cases hj
    · next hji =>
      rw [if_neg hji] at hn
      exact h.first j hj hn
  · intro j now' v row hj
    rw [setPhase_phase] at hj
    split at hj
    · cases hj
    · exact h.shape j now' v row hj

theorem Locks.inserted {s : Sys n} {i : Fin n} {now : Time} {victim : Option (Nat × Int)} {id : Nat}
    (h : k.Locks s) (hp : (s.calls i).phase = .inserting now victim id)
    (hfree : ¬ insertPending s i)
    (hidx : ∀ r, k.openRow s.rows = some r → victim.map Prod.fst = some r.id) :
    k.Locks (setPhase s i (.inserted now victim
      ((k.columns i).toRow k.tenantId id (versionAfter victim) now))) := by
  have hvictim : (s.calls i).phase.victim = victim := by rw [hp]; rfl
  have hv : ∀ j, ((setPhase s i (.inserted now victim
      ((k.columns i).toRow k.tenantId id (versionAfter victim) now))).calls j).phase.victim
      = (s.calls j).phase.victim := by
    intro j
    rw [setPhase_phase]
    split
    · next hji => rw [hji, hvictim]; rfl
    · rfl
  have hpend : ∀ j, j ≠ i → (s.calls j).phase.pending.isSome = false := by
    intro j hj
    cases hq : (s.calls j).phase.pending with
    | none => rfl
    | some q => exact absurd ⟨j, hj, by rw [hq]; rfl⟩ hfree
  constructor
  · exact h.oneOpen
  · intro j v hj
    rw [hv] at hj
    exact h.holds j v hj
  · intro a b ha hb
    rw [hv] at ha hb
    exact h.holder a b ha hb
  · intro a b ha hb
    have hi : ∀ j, ((setPhase s i (.inserted now victim
        ((k.columns i).toRow k.tenantId id
          (versionAfter victim) now))).calls j).phase.pending.isSome →
        j = i := by
      intro j hj
      by_contra hji
      rw [setPhase_phase, if_neg hji, hpend j hji] at hj
      cases hj
    rw [hi a ha, hi b hb]
  · intro j hj hn
    rw [setPhase_phase] at hj
    split at hj
    · next hji =>
      rw [hv, hji, hvictim] at hn
      cases ho : k.openRow s.rows with
      | none => exact ho
      | some r =>
        have := hidx r ho
        rw [hn] at this
        cases this
    · next hji =>
      rw [hpend j hji] at hj
      cases hj
  · intro j now' v row hj
    rw [setPhase_phase] at hj
    split at hj
    · next hji =>
      cases hj
      subst hji
      rfl
    · exact h.shape j now' v row hj

/-- Before a commit the row closed is the open row, or none is open. -/
theorem Locks.openRow_before (h : k.Locks s) (hp : (s.calls i).phase = .inserted now victim row) :
    victim = (k.openRow s.rows).map fun r => (r.id, r.version) := by
  cases victim with
  | none =>
    rw [h.first i (by rw [hp]; rfl) (by rw [hp]; rfl)]
    rfl
  | some v =>
    obtain ⟨r, hr, hv⟩ := h.holds i v (by rw [hp]; rfl)
    rw [hr, hv]
    rfl

theorem Locks.openRow_after (h : k.Locks s) (hp : (s.calls i).phase = .inserted now victim row) :
    k.openRow (k.applyCommit s.rows ⟨i, now, victim.map Prod.fst, row⟩) = some row ∧
      k.OneOpen (k.applyCommit s.rows ⟨i, now, victim.map Prod.fst, row⟩) := by
  have hrow : row.current k.tenantId k.path = true := by
    rw [h.shape i now victim row hp]
    exact k.toRow_current i _ _ _
  obtain rfl := h.openRow_before hp
  cases ho : k.openRow s.rows with
  | none => exact k.openRow_append (k.openRow_eq_none_iff.mp ho) hrow
  | some r =>
    exact k.openRow_append (k.closeRow_closed h.oneOpen ho now) hrow

/-- At a commit no other transaction holds a lock or has an uncommitted row. -/
theorem Locks.alone {j : Fin n} (h : k.Locks s) (hp : (s.calls i).phase = .inserted now victim row)
    (hj : j ≠ i) : (s.calls j).phase.victim = none ∧ (s.calls j).phase.pending = none := by
  constructor
  · cases hv : (s.calls j).phase.victim with
    | none => rfl
    | some v =>
      obtain ⟨r, hr, _⟩ := h.holds j v hv
      have hb := h.openRow_before hp
      rw [hr] at hb
      exact absurd (h.holder j i (by rw [hv]; rfl) (by rw [hp, hb]; rfl)) hj
  · cases hq : (s.calls j).phase.pending with
    | none => rfl
    | some q => exact absurd (h.inserter j i (by rw [hq]; rfl) (by rw [hp]; rfl)) hj

theorem Locks.commit (h : k.Locks s) (hp : (s.calls i).phase = .inserted now victim row)
    {res : Option StoreOutcome} {log : List (Commit n)} :
    k.Locks { setPhase s i (.returned res) with
      rows := k.applyCommit s.rows ⟨i, now, victim.map Prod.fst, row⟩, log := log } := by
  have hnone : ∀ j, ((setPhase s i (.returned res)).calls j).phase.victim = none ∧
      ((setPhase s i (.returned res)).calls j).phase.pending = none := by
    intro j
    rw [setPhase_phase]
    split
    · exact ⟨rfl, rfl⟩
    · next hji => exact h.alone hp hji
  constructor
  · exact (h.openRow_after hp).2
  · intro j v hj
    cases (hnone j).1.symm.trans hj
  · intro a b ha
    rw [show _ = none from (hnone a).1] at ha
    cases ha
  · intro a b ha
    rw [show _ = none from (hnone a).2] at ha
    cases ha
  · intro j hj
    rw [show _ = none from (hnone j).2] at hj
    cases hj
  · intro j now' v row' hj
    cases (congrArg Phase.pending hj).symm.trans (hnone j).2

/-- **Every step keeps the locks.** -/
theorem Locks.step {s : Sys n} {a : Action n} (h : k.Locks s) (hs : k.step s a = some s') :
    k.Locks s' := by
  have hother : ∀ (i : Fin n) (c : Call), ∀ j, j ≠ i →
      ((setCall s i c).calls j).phase = (s.calls j).phase := by
    intro i c j hj
    rw [setCall_phase, if_neg hj]
  have hself : ∀ (i : Fin n) (c : Call), ((setCall s i c).calls i).phase = c.phase := by
    intro i c
    rw [setCall_phase, if_pos rfl]
  -- a phase without lock and without row
  have hquiet : ∀ (i : Fin n) (c : Call) (t : Time) (m : Nat), c.phase.victim = none →
      c.phase.pending = none → k.Locks { setCall s i c with clock := t, nextId := m } := by
    intro i c t m hv hq
    refine h.move rfl (hother i c) (Or.inl ?_) ?_
    · exact (congrArg Phase.victim (hself i c)).trans hv
    · exact (congrArg Phase.pending (hself i c)).trans hq
  cases k.fires_of_step hs with
  | begin hp ht | closeStart hp | rejected hp | conflict hp | fail hp =>
    exact hquiet _ _ _ _ rfl rfl
  | closeRun hp hfree => exact h.closeRun hfree
  | @insertStart i now victim hp =>
    refine h.move rfl (hother i _) (Or.inr ?_) (congrArg Phase.pending (hself i _))
    rw [hp]
    show ((setPhase s i (.inserting now victim s.nextId)).calls i).phase.victim = victim
    rw [setPhase_phase, if_pos rfl]
    rfl
  | inserted hp hfree hidx => exact h.inserted hp hfree hidx
  | commit hp => exact h.commit hp

end Pcmi.Memory.Contention
