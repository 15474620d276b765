import Pcmi.Webhook.Runs

/-!
# Counting attempts

The column `attempts` is written after the `POST`, from the value that was read with the batch, and
errors of the statement are ignored.

Whether a delivery can be selected again depends on the limits alone: the query compares with the
limit in the row, the dead letter with that of the running dispatcher.
-/

namespace Pcmi.Webhook

open List Pcmi.Lib

def Run.inFlight (run : Run) : List PendingDelivery :=
  match run.posted with
  | some (pd, _) => [pd]
  | none => []

def State.inFlight (s : State) : List PendingDelivery := s.runs.flatMap Run.inFlight

def State.Idle (s : State) : Prop := ∀ run ∈ s.runs, run.batch = [] ∧ run.posted = none

instance (s : State) : Decidable s.Idle :=
  inferInstanceAs (Decidable (∀ run ∈ s.runs, _ ∧ _))

/-- Every `Post` is one request, and its `UPDATE` comes in time. -/
def Lossless (s : State) : Action → Prop
  | .run _ (.post requests _) => requests = 1
  | .run i (.update _ ok) => ok = true ∧ ∀ run ∈ s.runs[i]?, run.expired = false
  | .run i .stop => ∀ run ∈ s.runs[i]?, run.posted = none
  | _ => True

instance (s : State) : (a : Action) → Decidable (Lossless s a)
  | .run _ (.post requests _) => inferInstanceAs (Decidable (requests = 1))
  | .run i (.update _ ok) =>
    inferInstanceAs (Decidable (ok = true ∧ ∀ run ∈ s.runs[i]?, run.expired = false))
  | .run i .stop => inferInstanceAs (Decidable (∀ run ∈ s.runs[i]?, run.posted = none))
  | .run _ .skip | .run _ .expire | .enqueue .. | .query .. => isTrue trivial

/-! ## Requests and attempts -/

/-- The requests are the attempts, and one more in flight. -/
structure Counted (s : State) : Prop where
  leased : Leased s
  bounded : ∀ row ∈ s.table.rows, row.attempts ≤ row.maxAttempts
  unsent : ∀ id, s.table.nextId ≤ id → s.postsOf id = []
  settled : ∀ row ∈ s.table.rows, (∀ pd ∈ s.inFlight, pd.id ≠ row.id) →
    ((s.postsOf row.id).sum : Int) = row.attempts
  flying : ∀ pd ∈ s.inFlight, ((s.postsOf pd.id).sum : Int) = pd.attempts + 1

section

variable {castInterval : Int → Time} {s s' : State} {i : Nat} {run run' : Run}

theorem Run.inFlight_subset (run : Run) : run.inFlight ⊆ run.held := by
  rcases hposted : run.posted with _ | ⟨pd, err⟩
  · simp [Run.inFlight, hposted]
  · simp [Run.inFlight, Run.held, hposted]

theorem State.inFlight_subset (s : State) : s.inFlight ⊆ s.held := by
  intro pd hpd
  obtain ⟨run, hrun, hmem⟩ := mem_flatMap.mp hpd
  exact mem_flatMap.mpr ⟨run, hrun, run.inFlight_subset hmem⟩

theorem Counted.start : Counted .start := ⟨.start, nofun, fun _ _ => rfl, nofun, nofun⟩

theorem newDispatcher_maxAttempts_pos (maxAttempts : Int) :
    1 ≤ (newDispatcher maxAttempts).maxAttempts := by
  unfold newDispatcher
  dsimp only
  split <;> omega

theorem Counted.insert (h : Counted s) {maxAttempts : Int} (hpos : 1 ≤ maxAttempts) (now : Time) :
    Counted (s.setTable (s.table.insert maxAttempts now)) := by
  refine ⟨h.leased.insert maxAttempts now, ?_, fun id hid => ?_, ?_, h.flying⟩
  · refine forall_mem_append.mpr ⟨h.bounded, fun row hrow => ?_⟩
    rw [mem_singleton.mp hrow]
    exact Int.le_trans Int.one_nonneg hpos
  · exact h.unsent id (Nat.le_of_succ_le hid)
  · refine forall_mem_append.mpr ⟨h.settled, fun row hrow _ => ?_⟩
    rw [mem_singleton.mp hrow]
    exact congrArg (fun posts : List Nat => (posts.sum : Int)) (h.unsent _ (Nat.le_refl _))

theorem Counted.query (h : Counted s) {maxAttempts : Int} {now : Time} {skipped : List Nat}
    (hok : Exclusive s (.query maxAttempts now skipped)) :
    Counted { s with runs := s.runs ++ [queryRun maxAttempts now skipped s.table.rows] } := by
  have hflight :
      State.inFlight { s with runs := s.runs ++ [queryRun maxAttempts now skipped s.table.rows] } =
        s.inFlight := by
    simp [State.inFlight, queryRun, Run.inFlight]
  refine ⟨h.leased.query hok, h.bounded, h.unsent, ?_, ?_⟩
  · rw [hflight]
    exact h.settled
  · rw [hflight]
    exact h.flying

theorem Counted.setRun (h : Counted s) (hrun : s.runs[i]? = some run)
    (hheld : run'.held.Sublist run.held) (hposted : run'.posted = run.posted) :
    Counted (s.setRun i run') := by
  have hflight : (s.setRun i run').inFlight = s.inFlight :=
    flatMap_set_of_eq hrun (by rw [Run.inFlight, Run.inFlight, hposted])
  refine ⟨h.leased.setRun hrun hheld, h.bounded, h.unsent, ?_, ?_⟩
  · rw [hflight]
    exact h.settled
  · rw [hflight]
    exact h.flying

/-- What a run is about to post is not in flight elsewhere. -/
theorem Leased.not_inFlight (h : Leased s) (hrun : s.runs[i]? = some run) {pd pd' : PendingDelivery}
    {rest : List PendingDelivery} (hposted : run.posted = none) (hbatch : run.batch = pd :: rest)
    (hpd' : pd' ∈ s.inFlight) : pd'.id ≠ pd.id := by
  have hflight : (s.setRun i { run with batch := rest }).inFlight = s.inFlight :=
    flatMap_set_of_eq hrun rfl
  have hheld : pd' ∈ (s.setRun i { run with batch := rest }).held :=
    State.inFlight_subset _ (hflight ▸ hpd')
  exact key_ne_of_nodup hrun (held_of_batch hposted hbatch) h.exclusive hheld

theorem Counted.post (h : Counted s) (hrun : s.runs[i]? = some run) {pd : PendingDelivery}
    {rest : List PendingDelivery} (hposted : run.posted = none) (hbatch : run.batch = pd :: rest)
    (err : Option String) :
    Counted
      ((s.setRun i { run with batch := rest, posted := some (pd, err) }).logPost pd.id 1) := by
  have hpd : pd ∈ s.held :=
    mem_flatMap_of_slot hrun (held_of_batch hposted hbatch ▸ mem_cons_self)
  obtain ⟨row₀, hrow₀, rfl, -⟩ := h.leased.lease pd hpd
  have hfree : ∀ pd' ∈ s.inFlight, pd'.id ≠ row₀.toPending.id := fun pd' hpd' =>
    h.leased.not_inFlight hrun hposted hbatch hpd'
  refine ⟨h.leased.post hrun hposted hbatch err 1, h.bounded,
    fun id hid => ?_, fun row hrow hnot => ?_, fun pd' hpd' => ?_⟩
  · have hid₀ : row₀.id < id := Nat.lt_of_lt_of_le (s.table.fresh row₀ hrow₀) hid
    exact (postsOf_logPost _ _ _ _).trans ((if_neg hid₀.ne).trans (h.unsent id hid))
  · -- not in flight now, so it was not before and it is not the one posted
    have hne : row₀.toPending.id ≠ row.id := by
      obtain ⟨hi, -⟩ := List.getElem?_eq_some_iff.mp hrun
      refine hnot row₀.toPending (mem_flatMap.mpr ⟨_, mem_set hi _, ?_⟩)
      exact mem_singleton_self _
    rw [postsOf_logPost, if_neg hne]
    refine h.settled row hrow fun pd' hpd' => ?_
    rcases mem_flatMap_of_set hrun hpd' with hown | hother
    · simp [Run.inFlight, hposted] at hown
    · exact hnot pd' hother
  · rcases mem_flatMap_set hpd' with hown | hother
    · rw [mem_singleton.mp hown, postsOf_logPost, if_pos rfl, sum_append,
        sum_singleton, Nat.cast_add]
      exact congrArg (· + 1) (h.settled row₀ hrow₀ hfree)
    · rw [postsOf_logPost, if_neg (hfree pd' hother).symm]
      exact h.flying pd' hother

theorem Counted.update (h : Counted s) (hrun : s.runs[i]? = some run) {pd : PendingDelivery}
    {err : Option String} (hposted : run.posted = some (pd, err)) (now : Time) :
    Counted ((s.setRun i { run with posted := none }).setTable
      (run.writeBack castInterval pd err now s.table)) := by
  have hflying : pd ∈ s.inFlight :=
    mem_flatMap_of_slot hrun (by simp [Run.inFlight, hposted])
  refine ⟨h.leased.update hrun hposted now, fun row' hrow' => ?_, h.unsent,
    fun row' hrow' hnot => ?_, fun pd' hpd' => ?_⟩
  · rcases Run.mem_writeBack.mp hrow' with ⟨row, hrow, hid, rfl⟩ | ⟨hrow, -⟩
    · obtain ⟨hread, -, hbelow⟩ := h.leased.open_of_held (s.inFlight_subset hflying) hrow hid
      have hattempted := attempted_attemptDelivery castInterval run.dispatcher pd err now row
      rw [hattempted.attempts, hattempted.maxAttempts, ← hread]
      exact hbelow
    · exact h.bounded row' hrow
  · rcases Run.mem_writeBack.mp hrow' with ⟨row, hrow, hid, rfl⟩ | ⟨hrow, hne⟩
    · have hattempted := attempted_attemptDelivery castInterval run.dispatcher pd err now row
      rw [hattempted.attempts, hattempted.id, hid]
      exact h.flying pd hflying
    · refine h.settled row' hrow fun pd' hpd' => ?_
      rcases mem_flatMap_of_set hrun hpd' with hown | hother
      · simp only [Run.inFlight, hposted, mem_singleton] at hown
        exact hown ▸ hne.symm
      · exact hnot pd' hother
  · rcases mem_flatMap_set hpd' with hown | hother
    · cases hown
    · exact h.flying pd' hother

theorem Counted.runEffect (h : Counted s) (hrun : s.runs[i]? = some run) {a : RunAction}
    (hok : Lossless s (.run i a)) (he : RunEffect castInterval s i run a s') : Counted s' := by
  cases he with
  | released _ hheld hposted =>
    refine h.setRun hrun hheld ?_
    rcases hposted with heq | ⟨rfl, hnone⟩
    · exact heq
    · exact hnone.trans (hok run hrun).symm
  | posted hposted hbatch =>
    obtain rfl : _ = 1 := hok
    exact h.post hrun hposted hbatch _
  | updated hposted => exact h.update hrun hposted _
  | lost hposted hfailed => exact absurd ⟨hok.1, hok.2 run hrun⟩ hfailed

theorem Counted.step (h : Counted s) {a : Action} (hok : Exclusive s a ∧ Lossless s a)
    (hs : s.step castInterval a = some s') : Counted s' := by
  cases a with
  | enqueue maxAttempts now =>
    rw [enqueue_eq_some hs]
    exact h.insert (newDispatcher_maxAttempts_pos maxAttempts) now
  | query maxAttempts now skipped =>
    cases hs
    exact h.query hok.1
  | run i a =>
    obtain ⟨run, hrun, hrstep⟩ := Option.bind_eq_some_iff.mp hs
    exact h.runEffect hrun hok.2 (runEffect_of_step hrstep)

/-- At most one request is not counted yet. -/
theorem Counted.posts_le (h : Counted s) {row : Delivery} (hrow : row ∈ s.table.rows) :
    ((s.postsOf row.id).sum : Int) ≤ row.maxAttempts := by
  by_cases hflight : ∃ pd ∈ s.inFlight, pd.id = row.id
  · obtain ⟨pd, hpd, hid⟩ := hflight
    obtain ⟨rfl, -, hbelow⟩ := h.leased.open_of_held (s.inFlight_subset hpd) hrow hid.symm
    exact (h.flying _ hpd).trans_le hbelow
  · have hnot : ∀ pd ∈ s.inFlight, pd.id ≠ row.id := fun pd hpd hid => hflight ⟨pd, hpd, hid⟩
    exact (h.settled row hrow hnot).trans_le (h.bounded row hrow)

theorem State.Idle.inFlight_eq_nil (h : s.Idle) : s.inFlight = [] := by
  refine flatMap_eq_nil_iff.mpr fun run hrun => ?_
  rw [Run.inFlight, (h run hrun).2]

/-- **Requests are bounded and counted** if no query selects what another run holds, every `Post` is
one request and every `UPDATE` gets through. -/
theorem posts_bounded_and_counted
    (hrun : Steps (State.step castInterval) (fun s a => Exclusive s a ∧ Lossless s a) .start s)
    {row : Delivery} (hrow : row ∈ s.table.rows) :
    ((s.postsOf row.id).sum : Int) ≤ row.maxAttempts ∧
      (s.Idle → ((s.postsOf row.id).sum : Int) = row.attempts) := by
  have hcounted : Counted s := hrun.invariant (fun _ _ _ h hok hs => h.step hok hs) .start
  refine ⟨hcounted.posts_le hrow, fun hidle => hcounted.settled row hrow ?_⟩
  rw [hidle.inFlight_eq_nil]
  exact nofun

end

def failThenDeliver : List Action :=
  [.enqueue 2 0, .query 2 0 [], .run 0 (.post 1 (some "status 500")), .run 0 (.update second true),
   .query 2 (10 * second) [], .run 1 (.post 1 none), .run 1 (.update (11 * second) true)]

theorem posts_counted_failThenDeliver :
    (after failThenDeliver).table.rows.map (fun row => (row.id, row.attempts, row.maxAttempts)) =
        [(1, 2, 2)] ∧
      ∀ row ∈ (after failThenDeliver).table.rows,
        (((after failThenDeliver).postsOf row.id).sum : Int) = row.attempts := by
  have hidle : (after failThenDeliver).Idle := by decide
  have hrun : Steps (State.step castNanos) (fun s a => Exclusive s a ∧ Lossless s a) .start
      (after failThenDeliver) :=
    steps_runAll (.refl _)
      (show runAll (guarded _ fun s a => Exclusive s a ∧ Lossless s a) _ failThenDeliver = some _
        from rfl)
  exact ⟨by decide, fun row hrow => (posts_bounded_and_counted hrun hrow).2 hidle⟩

/-- The context expires before the failed attempt is written back. -/
def expireThenRetry : List Action :=
  [.enqueue 1 0, .query 1 0 [], .run 0 (.post 1 (some "status 500")), .run 0 .expire,
   .run 0 (.update (30 * second) true), .run 0 .stop, .query 1 (31 * second) [],
   .run 1 (.post 1 (some "status 500")), .run 1 .expire, .run 1 (.update (61 * second) true),
   .run 1 .stop]

/-- **More requests than allowed**, none counted, without overlap. -/
theorem posts_exceed_max_attempts :
    ∃ s, Reaches (State.step castNanos) .start s ∧ s.Idle ∧
      s.table.rows.map (fun row => (row.id, row.attempts, row.maxAttempts)) = [(1, 0, 1)] ∧
      (s.postsOf 1).sum = 2 := by
  exact ⟨after expireThenRetry, reaches_getD _ (by decide), by decide, by decide, by decide⟩

/-! ## Limits -/

/-- A query for deliveries with at least the dispatcher's limit. -/
def WithinLimits (s : State) : Action → Prop
  | .query maxAttempts now skipped =>
    ∀ row ∈ selectPending now skipped s.table.rows,
      (newDispatcher maxAttempts).maxAttempts ≤ row.maxAttempts
  | _ => True

instance (s : State) : (a : Action) → Decidable (WithinLimits s a)
  | .query _ now skipped =>
    inferInstanceAs (Decidable (∀ row ∈ selectPending now skipped s.table.rows, _ ≤ _))
  | .enqueue .. | .run .. => isTrue trivial

/-- A pending delivery is below its limit, as is its holder's. -/
structure Honoured (s : State) : Prop where
  below : ∀ row ∈ s.table.rows, row.status = .pending → row.attempts < row.maxAttempts
  limits : ∀ run ∈ s.runs, ∀ pd ∈ run.held, ∃ row ∈ s.table.rows, row.id = pd.id ∧
    run.dispatcher.maxAttempts ≤ row.maxAttempts

section

variable {castInterval : Int → Time} {s s' : State} {i : Nat} {run run' : Run}

theorem Honoured.start : Honoured .start := ⟨nofun, nofun⟩

theorem Honoured.insert (h : Honoured s) {maxAttempts : Int} (hpos : 1 ≤ maxAttempts) (now : Time) :
    Honoured (s.setTable (s.table.insert maxAttempts now)) := by
  constructor
  · refine forall_mem_append.mpr ⟨h.below, fun row hrow _ => ?_⟩
    rw [mem_singleton.mp hrow]
    exact hpos
  · intro run hrun pd hpd
    obtain ⟨row, hrow, hlimit⟩ := h.limits run hrun pd hpd
    exact ⟨row, mem_append_left _ hrow, hlimit⟩

theorem Honoured.query (h : Honoured s) {maxAttempts : Int} {now : Time} {skipped : List Nat}
    (hok : WithinLimits s (.query maxAttempts now skipped)) :
    Honoured { s with runs := s.runs ++ [queryRun maxAttempts now skipped s.table.rows] } := by
  refine ⟨h.below, forall_mem_append.mpr ⟨h.limits, fun run hrun => ?_⟩⟩
  rw [mem_singleton.mp hrun]
  refine forall_mem_map.mpr fun row hrow => ?_
  exact ⟨row, (mem_of_mem_selectPending hrow).1, rfl, hok row hrow⟩

theorem Honoured.setRun (h : Honoured s) (hrun : s.runs[i]? = some run)
    (hdispatcher : run'.dispatcher = run.dispatcher) (hheld : run'.held.Sublist run.held) :
    Honoured (s.setRun i run') := by
  refine ⟨h.below, forall_mem_set h.limits fun pd hpd => ?_⟩
  rw [hdispatcher]
  exact h.limits run (mem_of_getElem? hrun) pd (hheld.subset hpd)

/-- A failure that leaves the delivery pending is below both limits. -/
theorem Honoured.update (h : Honoured s) (hrun : s.runs[i]? = some run) {pd : PendingDelivery}
    {err : Option String} (hposted : run.posted = some (pd, err)) (now : Time) :
    Honoured ((s.setRun i { run with posted := none }).setTable
      (run.writeBack castInterval pd err now s.table)) := by
  have hheld := held_of_posted hposted
  have hset : Honoured (s.setRun i { run with posted := none }) :=
    h.setRun hrun rfl (hheld ▸ sublist_cons_self _ _)
  constructor
  · intro row' hrow' hpending
    rcases Run.mem_writeBack.mp hrow' with ⟨row, hrow, hid, rfl⟩ | ⟨hrow, -⟩
    · have hattempted := attempted_attemptDelivery castInterval run.dispatcher pd err now row
      obtain ⟨row₀, hrow₀, hid₀, hlimit⟩ :=
        h.limits run (mem_of_getElem? hrun) pd (hheld ▸ mem_cons_self)
      obtain rfl : row = row₀ := s.table.eq_of_id_eq hrow hrow₀ (hid.trans hid₀.symm)
      rw [hattempted.attempts, hattempted.maxAttempts]
      exact Int.lt_of_lt_of_le (hattempted.pending hpending) hlimit
    · exact h.below row' hrow hpending
  · intro run'' hrun'' pd' hpd'
    obtain ⟨row, hrow, hid, hlimit⟩ := hset.limits run'' hrun'' pd' hpd'
    by_cases hsame : row.id = pd.id
    · have hattempted := attempted_attemptDelivery castInterval run.dispatcher pd err now row
      refine ⟨_, Run.mem_writeBack.mpr (Or.inl ⟨row, hrow, hsame, rfl⟩), ?_, ?_⟩
      · rw [hattempted.id, hid]
      · rw [hattempted.maxAttempts]
        exact hlimit
    · exact ⟨row, Run.mem_writeBack.mpr (Or.inr ⟨hrow, hsame⟩), hid, hlimit⟩

theorem Honoured.step (h : Honoured s) {a : Action} (hok : WithinLimits s a)
    (hs : s.step castInterval a = some s') : Honoured s' := by
  cases a with
  | enqueue maxAttempts now =>
    rw [enqueue_eq_some hs]
    exact h.insert (newDispatcher_maxAttempts_pos maxAttempts) now
  | query maxAttempts now skipped =>
    cases hs
    exact h.query hok
  | run i a =>
    obtain ⟨run, hrun, hrstep⟩ := Option.bind_eq_some_iff.mp hs
    cases runEffect_of_step hrstep with
    | released hdispatcher hheld _ => exact h.setRun hrun hdispatcher hheld
    | @posted pd rest _ err hposted hbatch =>
      have hset : Honoured (s.setRun i { run with batch := rest, posted := some (pd, err) }) :=
        h.setRun hrun rfl (by rw [held_post hposted hbatch])
      exact ⟨hset.below, hset.limits⟩
    | updated hposted => exact h.update hrun hposted _
    | lost hposted _ =>
      exact h.setRun hrun rfl (held_of_posted hposted ▸ sublist_cons_self _ _)

/-- **No delivery is stuck** if it has at least its dispatcher's limit. -/
theorem pending_remains_selectable
    (hrun : Steps (State.step castInterval) WithinLimits .start s) {row : Delivery}
    (hrow : row ∈ s.table.rows) (hpending : row.status = .pending) :
    row.attempts < row.maxAttempts ∧ ∀ now, row.nextRetryAt ≤ now → row.Due now := by
  have hhonoured : Honoured s := hrun.invariant (fun _ _ _ h hok hs => h.step hok hs) .start
  have hbelow := hhonoured.below row hrow hpending
  exact ⟨hbelow, fun now hnow => ⟨hpending, hnow, hbelow⟩⟩

end

/-- One failed attempt by a dispatcher with its own limit. -/
def failOnce (enqueued limit : Int) : List Action :=
  [.enqueue enqueued 0, .query limit 0 [], .run 0 (.post 1 (some "status 500")),
   .run 0 (.update second true), .run 0 .stop]

theorem failed_once_remains_selectable :
    (after (failOnce 3 2)).table.rows.map (fun row => (row.status, row.attempts)) =
      [(.pending, 1)] ∧
      ∀ row ∈ (after (failOnce 3 2)).table.rows, ∀ now, row.nextRetryAt ≤ now → row.Due now := by
  have hpending : ∀ row ∈ (after (failOnce 3 2)).table.rows, row.status = .pending := by decide
  have hrun : Steps (State.step castNanos) WithinLimits .start (after (failOnce 3 2)) :=
    steps_runAll (.refl _) (show runAll (guarded _ WithinLimits) _ (failOnce 3 2) = some _ from rfl)
  exact ⟨by decide, fun row hrow =>
    (pending_remains_selectable hrun hrow (hpending row hrow)).2⟩

/-- **A delivery with a smaller limit is never selected again.** -/
theorem pending_delivery_stuck :
    ∃ s, Reaches (State.step castNanos) .start s ∧ s.Idle ∧ s.table.rows ≠ [] ∧
      ∀ row ∈ s.table.rows, row.status = .pending ∧ row.attempts = row.maxAttempts ∧
        ∀ now, ¬ row.Due now := by
  have hstuck : ∀ row ∈ (after (failOnce 1 5)).table.rows,
      row.status = .pending ∧ row.attempts = row.maxAttempts := by decide
  refine ⟨after (failOnce 1 5), reaches_getD _ (by decide), by decide, by decide, ?_⟩
  intro row hrow
  obtain ⟨hpending, hfull⟩ := hstuck row hrow
  exact ⟨hpending, hfull, fun _ hdue => hdue.2.2.ne hfull⟩

end Pcmi.Webhook
