import Pcmi.Memory.StoreHistory

/-!
# Validity periods under concurrent stores

The close and the insert of a transaction both write its begin time. One that began before the row
it closes ends that row before its start and opens the next version in the past.
-/

namespace Pcmi.Memory.Contention

open List Pcmi.Lib

variable {n : Nat} (k : Contention n)

def pathRows (rows : List Row) : List Row := rows.filter (Row.at k.tenantId k.path)

/-- Rows do not end before they start, and no instant lies in two. -/
structure Timeline (rows : List Row) : Prop where
  ordered : ∀ r ∈ k.pathRows rows, r.period.Ordered
  disjoint : (k.pathRows rows).Pairwise fun r r' => r.period.Disjoint r'.period

/-- The rows of the path that the `as_of` predicate selects at `t`. -/
def asOfRows (t : Time) (rows : List Row) : List Row :=
  (k.pathRows rows).filter (temporalClause (some t))

/-- `now` is not before the open row or, without one, any end. -/
def NotBefore (rows : List Row) (now : Time) : Prop :=
  match k.openRow rows with
  | some r => r.validFrom ≤ now
  | none => ∀ r ∈ k.pathRows rows, ∀ e ∈ r.validTo, e ≤ now

instance (rows : List Row) (now : Time) : Decidable (k.NotBefore rows now) :=
  match h : k.openRow rows with
  | some r => decidable_of_iff (r.validFrom ≤ now) (by simp [NotBefore, h])
  | none => decidable_of_iff (∀ r ∈ k.pathRows rows, ∀ e ∈ r.validTo, e ≤ now)
      (by simp [NotBefore, h])

/-- The begin time that a committing transaction has written. -/
def writtenAt : Phase → Option Time
  | .inserted now _ _ => some now
  | _ => none

/-- No commit of a transaction that began before the row it closes. -/
def Timely (s : Sys n) : Action n → Prop
  | .commit i => ∀ now ∈ writtenAt (s.calls i).phase, k.NotBefore s.rows now
  | _ => True

instance (s : Sys n) : (a : Action n) → Decidable (k.Timely s a)
  | .commit i =>
    inferInstanceAs (Decidable (∀ now ∈ writtenAt (s.calls i).phase, k.NotBefore s.rows now))
  | .begin _ _ | .closeStart _ | .closeRun _ | .insertStart _ | .insertRun _ | .fail _ =>
    .isTrue trivial

variable {k} {rows : List Row} {r : Row}

theorem mem_pathRows :
    r ∈ k.pathRows rows ↔ r ∈ rows ∧ r.at k.tenantId k.path = true := mem_filter

theorem current_iff :
    r.current k.tenantId k.path = true ↔ r.at k.tenantId k.path = true ∧ r.validTo = none := by
  simp [Row.current, Row.isOpen_iff]

theorem Timeline.asOf_unique (h : k.Timeline rows) (t : Time) : (k.asOfRows t rows).length ≤ 1 := by
  have hp : ((k.pathRows rows).map Row.period).Pairwise Period.Disjoint :=
    pairwise_map.mpr h.disjoint
  have hlen := Period.length_filter_contains_le hp t
  rw [filter_map, length_map] at hlen
  refine le_trans (le_of_eq ?_) hlen
  unfold asOfRows
  congr 1
  refine filter_congr fun r _ => ?_
  rw [Bool.eq_iff_iff, temporalClause_some_iff]
  simp

theorem Timeline.oneOpen (h : k.Timeline rows) : k.OneOpen rows := by
  have hsub : (rows.filter (Row.current k.tenantId k.path)).Sublist (k.pathRows rows) := by
    have : rows.filter (Row.current k.tenantId k.path)
        = (k.pathRows rows).filter Row.isOpen := by
      unfold pathRows
      rw [filter_filter]
      exact filter_congr fun r _ => Bool.and_comm _ _
    rw [this]
    exact filter_sublist
  have hpw := h.disjoint.sublist hsub
  have hopen : ∀ r ∈ rows.filter (Row.current k.tenantId k.path), r.period.stop = none :=
    fun r hr => (current_iff.mp (mem_filter.mp hr).2).2
  unfold OneOpen
  match hf : rows.filter (Row.current k.tenantId k.path) with
  | [] => simp
  | [_] => simp
  | x :: y :: rest =>
    rw [hf] at hpw hopen
    have hxy := (pairwise_cons.mp hpw).1 y mem_cons_self
    exact absurd hxy (Period.not_disjoint_of_open (hopen x (by simp)) (hopen y (by simp)))

/-! ## One commit -/

def closeIf (k : Contention n) (id : Nat) (now : Time) (r : Row) : Row :=
  if r.id == id && r.current k.tenantId k.path then r.close now else r

theorem closeIf_at (id : Nat) (now : Time) (r : Row) :
    (k.closeIf id now r).at k.tenantId k.path = r.at k.tenantId k.path := by
  unfold closeIf
  split <;> simp

theorem pathRows_closeRow (id : Nat) (now : Time) (rows : List Row) :
    k.pathRows (k.closeRow id now rows) = (k.pathRows rows).map (k.closeIf id now) := by
  show (rows.map (k.closeIf id now)).filter (Row.at k.tenantId k.path) = _
  rw [filter_map]
  congr 1
  exact filter_congr fun r _ => closeIf_at id now r

variable {now : Time} {row : Row} {s : Sys n}

theorem contains_of_closeIf {id : Nat} {t : Time} (h : (k.closeIf id now r).period.Contains t) :
    r.period.Contains t := by
  unfold closeIf at h
  split at h
  · next hc =>
    simp only [Bool.and_eq_true] at hc
    exact Period.contains_of_closeAt (current_iff.mp hc.2).2 h
  · exact h

theorem Timeline.disjoint_of_ne (h : k.Timeline rows) {r' : Row} (hr : r ∈ k.pathRows rows)
    (hr' : r' ∈ k.pathRows rows) (hne : r ≠ r') : r.period.Disjoint r'.period := by
  have : Std.Symm fun r r' : Row => r.period.Disjoint r'.period := ⟨fun _ _ hd => hd.symm⟩
  exact h.disjoint.forall hr hr' hne

theorem Timeline.supersede (h : k.Timeline rows) (hr : k.openRow rows = some r)
    (hle : r.validFrom ≤ now) (hrow : row.period = ⟨now, none⟩)
    (hat : row.at k.tenantId k.path = true) : k.Timeline (k.closeRow r.id now rows ++ [row]) := by
  have hone := h.oneOpen
  have hcur := k.openRow_current hr
  have hrmem : r ∈ k.pathRows rows := mem_pathRows.mpr ⟨k.openRow_mem hr, (current_iff.mp hcur).1⟩
  have hrows : k.pathRows (k.closeRow r.id now rows ++ [row])
      = (k.pathRows rows).map (k.closeIf r.id now) ++ [row] := by
    rw [← pathRows_closeRow]
    simp [pathRows, filter_append, hat]
  -- a row that is not current is not `r` and keeps its period
  have hcases : ∀ x ∈ k.pathRows rows,
      (x = r ∧ k.closeIf r.id now x = r.close now) ∨ (x ≠ r ∧ k.closeIf r.id now x = x) := by
    intro x hx
    by_cases hc : x.current k.tenantId k.path = true
    · have hxr : x = r := hone.eq k hr (mem_pathRows.mp hx).1 hc
      exact Or.inl ⟨hxr, by simp [closeIf, hxr, hcur]⟩
    · refine Or.inr ⟨fun he => hc (he ▸ hcur), by simp [closeIf, hc]⟩
  constructor
  · rw [hrows]
    refine forall_mem_concat (forall_mem_map.mpr fun y hy => ?_) (hrow ▸ nofun)
    rcases hcases y hy with ⟨_, he⟩ | ⟨_, he⟩ <;> rw [he]
    · rintro e ⟨⟩
      exact hle
    · exact h.ordered y hy
  · rw [hrows, pairwise_append]
    refine ⟨?_, pairwise_singleton _ _, ?_⟩
    · rw [pairwise_map]
      exact h.disjoint.imp fun hd t ht ht' => hd t (contains_of_closeIf ht)
        (contains_of_closeIf ht')
    · intro x hx y hy
      rw [mem_singleton.mp hy, hrow]
      obtain ⟨z, hz, rfl⟩ := mem_map.mp hx
      rcases hcases z hz with ⟨_, he⟩ | ⟨hne, he⟩
      · rw [he, Row.close_period]
        exact Period.closeAt_disjoint_opened
      · rw [he]
        exact (h.disjoint_of_ne hrmem hz hne.symm).opened_of_le (current_iff.mp hcur).2 hle

theorem Timeline.restart (h : k.Timeline rows) (hnone : k.openRow rows = none)
    (hle : ∀ r ∈ k.pathRows rows, ∀ e ∈ r.validTo, e ≤ now) (hrow : row.period = ⟨now, none⟩)
    (hat : row.at k.tenantId k.path = true) :
    k.Timeline (rows ++ [row]) := by
  have hrows : k.pathRows (rows ++ [row]) = k.pathRows rows ++ [row] := by
    simp [pathRows, filter_append, hat]
  constructor
  · rw [hrows]
    exact forall_mem_concat h.ordered (hrow ▸ nofun)
  · rw [hrows, pairwise_append]
    refine ⟨h.disjoint, pairwise_singleton _ _, ?_⟩
    intro x hx y hy
    rw [mem_singleton.mp hy, hrow]
    cases hx' : x.validTo with
    | none =>
      obtain ⟨hm, ha⟩ := mem_pathRows.mp hx
      have := k.openRow_eq_none_iff.mp hnone x hm
      rw [current_iff.mpr ⟨ha, hx'⟩] at this
      cases this
    | some e => exact Period.disjoint_opened_of_stop_le hx' (hle x hx e hx')

/-! ## Whole runs -/

theorem Timeline.commit {i : Fin n} {victim : Option (Nat × Int)} (hl : k.Locks s)
    (h : k.Timeline s.rows) (ht : k.Timely s (.commit i))
    (hp : (s.calls i).phase = .inserted now victim row) :
    k.Timeline (k.applyCommit s.rows ⟨i, now, victim.map Prod.fst, row⟩) := by
  have hshape := hl.shape i now victim row hp
  have hrow : row.period = ⟨now, none⟩ := by rw [hshape]; rfl
  have hat : row.at k.tenantId k.path = true := by
    rw [hshape]
    exact (current_iff.mp (k.toRow_current i _ _ _)).1
  obtain rfl := hl.openRow_before hp
  have hnb : k.NotBefore s.rows now := ht now (by rw [hp]; rfl)
  unfold NotBefore at hnb
  cases ho : k.openRow s.rows with
  | none =>
    rw [ho] at hnb
    exact h.restart ho hnb hrow hat
  | some r =>
    rw [ho] at hnb
    exact h.supersede ho hnb hrow hat

theorem Timeline.step {s' : Sys n} {a : Action n} (hl : k.Locks s) (h : k.Timeline s.rows)
    (ht : k.Timely s a) (hs : k.step s a = some s') : k.Timeline s'.rows := by
  cases k.fires_of_step hs with
  | commit hp => exact h.commit hl ht hp
  | begin | closeStart | closeRun | insertStart | inserted | rejected | conflict | fail => exact h

/-- **Timely commits keep the timeline.** -/
theorem timeline_of_timely {rows : List Row} {nextId : Nat} {clock : Time} {s : Sys n}
    (h0 : k.Timeline rows) (h : Steps k.step k.Timely (start rows nextId clock) s) :
    k.Timeline s.rows ∧ ∀ t, (k.asOfRows t s.rows).length ≤ 1 := by
  obtain ⟨_, ht⟩ : k.Locks s ∧ k.Timeline s.rows :=
    h.invariant (P := fun s => k.Locks s ∧ k.Timeline s.rows)
      (fun _ _ _ ⟨hl, ht⟩ hok hs => ⟨hl.step hs, ht.step hl hok hs⟩)
      ⟨locks_start h0.oneOpen nextId clock, h0⟩
  exact ⟨ht, ht.asOf_unique⟩

theorem timeline_firstInsertRace :
    ∃ s, runAll (guarded twoWriters.step twoWriters.Timely) (start [] 1 0) firstInsertRace =
      some s ∧
      twoWriters.Timeline s.rows ∧ s.rows.map Row.period = [⟨1, some 3⟩, ⟨3, none⟩] := by
  obtain ⟨s, hs, hrows⟩ : ∃ s ∈ runAll (guarded twoWriters.step twoWriters.Timely) (start [] 1 0)
      firstInsertRace, s.rows.map Row.period = [⟨1, some 3⟩, ⟨3, none⟩] := by decide
  have h0 : twoWriters.Timeline [] := ⟨by simp [pathRows], by simp [pathRows]⟩
  exact ⟨s, hs, (timeline_of_timely h0 (steps_runAll (.refl _) hs)).1, hrows⟩

/-! ## A transaction older than the row it closes -/

def initialRow : Row := (plainColumns ⟨["root", "x"]⟩ "0").toRow "t" 1 1 0

/-- The first writer runs its statements after the second's commit. -/
def lateWriter : List (Action 2) :=
  [.begin firstWriter 1, .begin secondWriter 2,
   .closeStart secondWriter, .closeRun secondWriter, .insertStart secondWriter,
   .insertRun secondWriter, .commit secondWriter,
   .closeStart firstWriter, .closeRun firstWriter, .insertStart firstWriter,
   .insertRun firstWriter, .commit firstWriter]

/-- The late writer ends the other's row before its start. -/
theorem lateWriter_breaks_timeline :
    ∃ s, Reaches twoWriters.step (start [initialRow] 2 0) s ∧ twoWriters.Timeline [initialRow] ∧
      s.rows.map Row.period = [⟨0, some 2⟩, ⟨2, some 1⟩, ⟨1, none⟩] ∧
      (twoWriters.asOfRows 1 s.rows).map (·.id) = [1, 3] ∧ ¬ twoWriters.Timeline s.rows := by
  obtain ⟨s, hs, hrows, hsel⟩ : ∃ s ∈ runAll twoWriters.step (start [initialRow] 2 0) lateWriter,
      s.rows.map Row.period = [⟨0, some 2⟩, ⟨2, some 1⟩, ⟨1, none⟩] ∧
      (twoWriters.asOfRows 1 s.rows).map (·.id) = [1, 3] := by decide
  have h0 : twoWriters.Timeline [initialRow] := by
    refine ⟨fun r hr e he => ?_, ?_⟩
    · obtain rfl := mem_singleton.mp (mem_pathRows.mp hr).1
      cases he
    · exact (pairwise_singleton _ _).sublist filter_sublist
  refine ⟨s, reaches_runAll (.refl _) hs, h0, hrows, hsel, fun ht => ?_⟩
  have hle := ht.asOf_unique 1
  rw [← length_map (·.id), hsel] at hle
  exact absurd hle (by decide)

end Pcmi.Memory.Contention
