import Pcmi.Webhook.Dispatcher

/-!
# Runs that overlap

As long as no run selects a delivery that another run still holds, a held delivery stays as it was
read (`Leased`). The code does not see to that.
-/

namespace Pcmi.Webhook

open List Pcmi.Lib

def State.held (s : State) : List PendingDelivery := s.runs.flatMap Run.held

def State.postsOf (s : State) (id : Nat) : List Nat :=
  (s.posts.filter fun p => p.1 = id).map Prod.snd

/-- A query that returns no delivery which another run still holds. -/
def Exclusive (s : State) : Action → Prop
  | .query _ now skipped =>
    ∀ row ∈ selectPending now skipped s.table.rows, ∀ pd ∈ s.held, pd.id ≠ row.id
  | _ => True

instance (s : State) : (a : Action) → Decidable (Exclusive s a)
  | .query _ now skipped =>
    inferInstanceAs (Decidable (∀ row ∈ selectPending now skipped s.table.rows, ∀ pd ∈ s.held, _))
  | .enqueue .. | .run .. => isTrue trivial

/-! ## Held deliveries -/

/-- What the pending query asks for, apart from the time. -/
def Delivery.Open (row : Delivery) : Prop := row.status = .pending ∧ row.attempts < row.maxAttempts

/-- Held deliveries are held once, and are in the table as they were read. -/
structure Leased (s : State) : Prop where
  exclusive : (s.held.map PendingDelivery.id).Nodup
  lease : ∀ pd ∈ s.held, ∃ row ∈ s.table.rows, row.toPending = pd ∧ row.Open

section

variable {castInterval : Int → Time} {s s' : State} {i : Nat} {run run' : Run}

theorem Leased.start : Leased .start := ⟨nodup_nil, nofun⟩

theorem Leased.insert (h : Leased s) (maxAttempts : Int) (now : Time) :
    Leased (s.setTable (s.table.insert maxAttempts now)) := by
  refine ⟨h.exclusive, fun pd hpd => ?_⟩
  obtain ⟨row, hrow, hread⟩ := h.lease pd hpd
  exact ⟨row, mem_append_left _ hrow, hread⟩

theorem Leased.query (h : Leased s) {maxAttempts : Int} {now : Time} {skipped : List Nat}
    (hok : Exclusive s (.query maxAttempts now skipped)) :
    Leased { s with runs := s.runs ++ [queryRun maxAttempts now skipped s.table.rows] } := by
  have hheld :
      State.held { s with runs := s.runs ++ [queryRun maxAttempts now skipped s.table.rows] }
        = s.held ++ (selectPending now skipped s.table.rows).map Delivery.toPending := by
    simp [State.held, queryRun, Run.held]
  constructor
  · rw [hheld, map_append, map_map]
    refine nodup_append'.mpr ⟨h.exclusive, nodup_selectPending s.table.unique, ?_⟩
    intro id hid hnew
    obtain ⟨pd, hpd, rfl⟩ := mem_map.mp hid
    obtain ⟨row, hrow, hrowid⟩ := mem_map.mp hnew
    exact hok row hrow pd hpd hrowid.symm
  · rw [hheld]
    refine forall_mem_append.mpr ⟨h.lease, forall_mem_map.mpr fun row hrow => ?_⟩
    obtain ⟨hmem, hpending, -, hbelow⟩ := mem_of_mem_selectPending hrow
    exact ⟨row, hmem, rfl, hpending, hbelow⟩

theorem Leased.setRun (h : Leased s) (hrun : s.runs[i]? = some run)
    (hheld : run'.held.Sublist run.held) : Leased (s.setRun i run') := by
  have hsub : (s.setRun i run').held.Sublist s.held := flatMap_set_sublist hrun hheld
  exact ⟨h.exclusive.sublist (hsub.map _), fun pd hpd => h.lease pd (hsub.subset hpd)⟩

variable {pd : PendingDelivery} {rest : List PendingDelivery} {row : Delivery} {err : Option String}
  {a : Action}

theorem held_of_posted (hposted : run.posted = some (pd, err)) :
    run.held = pd :: Run.held { run with posted := none } := by
  simp [Run.held, hposted]

theorem held_of_batch (hposted : run.posted = none) (hbatch : run.batch = pd :: rest) :
    run.held = pd :: Run.held { run with batch := rest } := by
  simp [Run.held, hposted, hbatch]

theorem held_post (hposted : run.posted = none) (hbatch : run.batch = pd :: rest)
    (err : Option String) :
    Run.held { run with batch := rest, posted := some (pd, err) } = run.held := by
  simp [Run.held, hposted, hbatch]

theorem Leased.update (h : Leased s) (hrun : s.runs[i]? = some run)
    (hposted : run.posted = some (pd, err)) (now : Time) :
    Leased ((s.setRun i { run with posted := none }).setTable
      (run.writeBack castInterval pd err now s.table)) := by
  have hheld := held_of_posted hposted
  have hsub : Leased (s.setRun i { run with posted := none }) :=
    h.setRun hrun (hheld ▸ sublist_cons_self _ _)
  refine ⟨hsub.exclusive, fun pd' hpd' => ?_⟩
  obtain ⟨row, hrow, hread, hopen⟩ := hsub.lease pd' hpd'
  have hne : pd'.id ≠ pd.id := key_ne_of_nodup hrun hheld h.exclusive hpd'
  refine ⟨row, Run.mem_writeBack.mpr (Or.inr ⟨hrow, ?_⟩), hread, hopen⟩
  rw [← hread] at hne
  exact hne

theorem Leased.post (h : Leased s) (hrun : s.runs[i]? = some run) (hposted : run.posted = none)
    (hbatch : run.batch = pd :: rest) (err : Option String) (requests : Nat) :
    Leased ((s.setRun i { run with batch := rest, posted := some (pd, err) }).logPost
      pd.id requests) := by
  have hsub : (Run.held { run with batch := rest, posted := some (pd, err) }).Sublist run.held := by
    rw [held_post hposted hbatch]
  exact ⟨(h.setRun hrun hsub).exclusive, (h.setRun hrun hsub).lease⟩

theorem Leased.runEffect (h : Leased s) (hrun : s.runs[i]? = some run) {a : RunAction}
    (he : RunEffect castInterval s i run a s') : Leased s' := by
  cases he with
  | released hdispatcher hheld _ => exact h.setRun hrun hheld
  | posted hposted hbatch => exact h.post hrun hposted hbatch _ _
  | updated hposted => exact h.update hrun hposted _
  | lost hposted _ => exact h.setRun hrun (held_of_posted hposted ▸ sublist_cons_self _ _)

theorem Leased.step (h : Leased s) (hok : Exclusive s a) (hs : s.step castInterval a = some s') :
    Leased s' := by
  cases a with
  | enqueue maxAttempts now =>
    rw [enqueue_eq_some hs]
    exact h.insert _ now
  | query maxAttempts now skipped =>
    cases hs
    exact h.query hok
  | run i a =>
    obtain ⟨run, hrun, hrstep⟩ := Option.bind_eq_some_iff.mp hs
    exact h.runEffect hrun (runEffect_of_step hrstep)

/-! ## Delivered is terminal -/

theorem postsOf_logPost (s : State) (k requests id : Nat) :
    (s.logPost k requests).postsOf id =
      if k = id then s.postsOf id ++ [requests] else s.postsOf id := by
  by_cases hid : k = id <;> simp [State.postsOf, State.logPost, hid]

theorem Leased.open_of_held (h : Leased s) (hpd : pd ∈ s.held) (hrow : row ∈ s.table.rows)
    (hid : row.id = pd.id) : row.toPending = pd ∧ row.Open := by
  obtain ⟨row', hrow', hread, hopen⟩ := h.lease pd hpd
  have heq : row = row' := s.table.eq_of_id_eq hrow hrow' (by rw [hid, ← hread]; rfl)
  exact heq ▸ ⟨hread, hopen⟩

theorem Leased.delivered_not_held (h : Leased s) (hrow : row ∈ s.table.rows)
    (hdelivered : row.status = .delivered) (hpd : pd ∈ s.held) : row.id ≠ pd.id := by
  intro hid
  have hpending := (h.open_of_held hpd hrow hid).2.1
  rw [hdelivered] at hpending
  cases hpending

/-- **No step touches a delivered row** or posts for it. -/
theorem Leased.delivered_step (h : Leased s) (hrow : row ∈ s.table.rows)
    (hdelivered : row.status = .delivered) (hs : s.step castInterval a = some s') :
    row ∈ s'.table.rows ∧ s'.postsOf row.id = s.postsOf row.id := by
  cases a with
  | enqueue maxAttempts now =>
    rw [enqueue_eq_some hs]
    exact ⟨mem_append_left _ hrow, rfl⟩
  | query maxAttempts now skipped =>
    cases hs
    exact ⟨hrow, rfl⟩
  | run i a =>
    obtain ⟨run, hrun, hrstep⟩ := Option.bind_eq_some_iff.mp hs
    have hother : ∀ pd ∈ run.held, row.id ≠ pd.id := fun pd hpd =>
      h.delivered_not_held hrow hdelivered (mem_flatMap_of_slot hrun hpd)
    cases runEffect_of_step hrstep with
    | released _ _ _ | lost _ _ => exact ⟨hrow, rfl⟩
    | posted hposted hbatch =>
      refine ⟨hrow, (postsOf_logPost _ _ _ _).trans (if_neg (hother _ ?_).symm)⟩
      exact held_of_batch hposted hbatch ▸ mem_cons_self
    | updated hposted =>
      refine ⟨Run.mem_writeBack.mpr (Or.inr ⟨hrow, hother _ ?_⟩), rfl⟩
      exact held_of_posted hposted ▸ mem_cons_self

/-- **Delivered is terminal** if no query selects what a run holds. -/
theorem delivered_is_terminal (hrun : Steps (State.step castInterval) Exclusive .start s)
    (hlater : Steps (State.step castInterval) Exclusive s s') {row : Delivery}
    (hrow : row ∈ s.table.rows) (hdelivered : row.status = .delivered) :
    row ∈ s'.table.rows ∧ s'.postsOf row.id = s.postsOf row.id := by
  have hleased : Leased s := hrun.invariant (fun _ _ _ h hok hs => h.step hok hs) .start
  have hboth : Leased s' ∧ row ∈ s'.table.rows ∧ s'.postsOf row.id = s.postsOf row.id := by
    refine hlater.invariant (P := fun u => Leased u ∧ row ∈ u.table.rows ∧
      u.postsOf row.id = s.postsOf row.id) ?_ ⟨hleased, hrow, rfl⟩
    rintro u a v ⟨hu, hmem, hposts⟩ hok hs
    obtain ⟨hmem', hposts'⟩ := hu.delivered_step hmem hdelivered hs
    exact ⟨hu.step hok hs, hmem', hposts'.trans hposts⟩
  exact hboth.2

end

/-! ## Two runs and one delivery -/

/-- What Postgres reads from a text without a sign. -/
def castNanos (ns : Int) : Time := ns / 1000

def after (acts : List Action) : State :=
  (runAll (State.step castNanos) .start acts).getD .start

def deliverOnce : List Action :=
  [.enqueue 1 0, .query 1 0 [], .run 0 (.post 1 none), .run 0 (.update second true)]

/-- The next query comes when the delivery is done. -/
theorem delivered_once_stays :
    (after deliverOnce).table.rows.map Delivery.status = [.delivered] ∧
      (after (deliverOnce ++ [.query 1 (2 * second) []])).table.rows =
        (after deliverOnce).table.rows ∧
      ∀ row ∈ (after deliverOnce).table.rows,
        (after (deliverOnce ++ [.query 1 (2 * second) []])).postsOf row.id =
          (after deliverOnce).postsOf row.id := by
  refine ⟨by decide, by decide, fun row hrow => ?_⟩
  have hdelivered : ∀ row ∈ (after deliverOnce).table.rows, row.status = .delivered := by decide
  have hfirst : Steps (State.step castNanos) Exclusive .start (after deliverOnce) :=
    steps_runAll (.refl _) (show runAll (guarded _ Exclusive) _ deliverOnce = some _ from rfl)
  have hlater : Steps (State.step castNanos) Exclusive (after deliverOnce) _ :=
    .tail (a := .query 1 (2 * second) []) (.refl _) (by decide) rfl
  exact (delivered_is_terminal hfirst hlater hrow (hdelivered row hrow)).2

/-- Two runs read the delivery before one of them has posted. -/
def deliverTwice : List Action :=
  [.enqueue 1 0, .query 1 0 [], .query 1 0 [], .run 0 (.post 1 none), .run 0 (.update second true)]

/-- **A delivered row becomes a dead letter**, after a second `POST`. -/
theorem delivered_becomes_dead_letter :
    ∃ s s', Reaches (State.step castNanos) .start s ∧ Reaches (State.step castNanos) s s' ∧
      s.table.rows.map (fun row => (row.id, row.status)) = [(1, .delivered)] ∧
      s'.table.rows.map (fun row => (row.id, row.status)) = [(1, .deadLetter)] ∧
      s.postsOf 1 = [1] ∧ s'.postsOf 1 = [1, 1] := by
  refine ⟨after deliverTwice, _, reaches_getD _ (by decide),
    reaches_runAll (.refl _) (show runAll (State.step castNanos) (after deliverTwice)
      [.run 1 (.post 1 (some "status 500")), .run 1 (.update (2 * second) true)] = some _ from rfl),
    by decide, by decide, by decide, by decide⟩

end Pcmi.Webhook
