import Pcmi.Usage.Aggregator
import Mathlib.Algebra.Order.Group.Multiset
import Mathlib.Tactic.Abel

/-!
# Usage is conserved

Per key, the places where an amount can be are the accounts of a ledger. Every step is a booking on
them, and only `Record` brings something in from outside.
-/

namespace Pcmi.Usage

open List Pcmi.Lib Option

/-! ## The accounts of a key -/

def Flush.held (k : BucketKey) : Flush → Multiset Bucket
  | .sent batch => {amount batch k}
  | .rows rest requeue _ => {amount rest k} + {amount requeue k}
  | .done => 0

/-- The accounts of a key: table, buffer, dropped, flushes. -/
def accounts (t p r o : Bucket) (f : Multiset Bucket) : Multiset Bucket :=
  {t} + ({p} + ({r} + ({o} + f)))

section Accounts

variable (t p r o b q : Bucket) (f : Multiset Bucket)

theorem deposit_pending : Booking (accounts t p r o f) [b] (accounts t (p + b) r o f) := by
  refine (Booking.deposit p b ({t} + ({r} + ({o} + f)))).of_eq ?_ ?_ <;> unfold accounts <;> abel

theorem deposit_overflowed : Booking (accounts t p r o f) [b] (accounts t p r (o + b) f) := by
  refine (Booking.deposit o b ({t} + ({p} + ({r} + f)))).of_eq ?_ ?_ <;> unfold accounts <;> abel

theorem detach_pending : Booking (accounts t p r o f) [] (accounts t 0 r o (f + {p})) := by
  refine (Booking.opened (accounts t p r o f)).of_eq rfl ?_
  unfold accounts
  abel

theorem write_batch : Booking (accounts t p r o ({b} + f)) [] (accounts (t + b) p r o f) := by
  refine (Booking.move b t ({p} + ({r} + ({o} + f)))).of_eq ?_ ?_ <;> unfold accounts <;> abel

theorem open_rows : Booking (accounts t p r o ({b} + f)) [] (accounts t p r o ({b} + {0} + f)) := by
  have hopen := Booking.opened (accounts t p r o ({b} + f))
  refine hopen.of_eq rfl ?_
  unfold accounts
  abel

theorem write_row : Booking (accounts t p r o ({b} + {q} + f)) []
    (accounts (t + b) p r o ({0} + {q} + f)) := by
  refine (Booking.transfer b t ({p} + ({r} + ({o} + ({q} + f))))).of_eq ?_ ?_ <;>
    unfold accounts <;> abel

theorem reject_row : Booking (accounts t p r o ({b} + {q} + f)) []
    (accounts t p (r + b) o ({0} + {q} + f)) := by
  refine (Booking.transfer b r ({t} + ({p} + ({o} + ({q} + f))))).of_eq ?_ ?_ <;>
    unfold accounts <;> abel

/-- A row that is put off changes its account. -/
theorem requeue_row : accounts t p r o ({b} + {0} + f) = accounts t p r o ({0} + {b} + f) := by
  unfold accounts
  abel

theorem merge_requeue : Booking (accounts t p r o ({0} + {q} + f)) []
    (accounts t (p + q) r o f) := by
  have hrest := Booking.move 0 q ({p} + ({t} + ({r} + ({o} + f))))
  rw [add_zero] at hrest
  refine (hrest.trans (Booking.move q p ({t} + ({r} + ({o} + f))))).of_eq ?_ ?_ <;>
    unfold accounts <;> abel

end Accounts

namespace State

variable {s s' : State} {i : Nat} {k : BucketKey}

def flights (s : State) (k : BucketKey) : Multiset Bucket := (s.flushes.map (Flush.held k)).sum

def inFlight (s : State) (k : BucketKey) : Bucket := (s.flights k).sum

def places (s : State) (k : BucketKey) : Multiset Bucket :=
  accounts (s.table k) (amount s.pending k) (s.rejected k) (s.overflowed k) (s.flights k)

/-- The amounts recorded for a key, in their order. -/
def recordedFor (s : State) (k : BucketKey) : List Bucket :=
  (s.recorded.filter fun e => e.1 = k).map Prod.snd

/-- A step books what it records. -/
def Booked (s s' : State) (k : BucketKey) : Prop :=
  ∃ xs, s'.recordedFor k = s.recordedFor k ++ xs ∧ Booking (s.places k) xs (s'.places k)

theorem Booked.of_booking (hlog : s'.recorded = s.recorded)
    (h : Booking (s.places k) [] (s'.places k)) : Booked s s' k :=
  ⟨[], by rw [recordedFor, hlog, append_nil, recordedFor], h⟩

/-- The flush that a step is about stands apart from the others. -/
theorem exists_flights {f : Flush} (h : s.flushes[i]? = some f) (k : BucketKey) :
    ∃ others, s.flights k = f.held k + others ∧
      ∀ f', (s.setFlush i f').flights k = Flush.held k f' + others := by
  obtain ⟨before, behind, heq, hset⟩ := exists_slot h
  refine ⟨(before.map (Flush.held k)).sum + (behind.map (Flush.held k)).sum, ?_, fun f' => ?_⟩
  · rw [flights, heq, map_append, map_cons, sum_append, sum_cons]
    abel
  · rw [flights, setFlush, hset, map_append, map_cons, sum_append, sum_cons]
    abel

/-! ## Every step is a booking -/

theorem recordedFor_log (s : State) (k' : BucketKey) (b : Bucket) (k : BucketKey) :
    (s.log k' b).recordedFor k = s.recordedFor k ++ if k' = k then [b] else [] := by
  unfold recordedFor log
  rw [filter_append, map_append]
  by_cases h : k' = k
  · rw [filter_cons_of_pos (by simpa using h), if_pos h]
    rfl
  · rw [filter_cons_of_neg (by simpa using h), if_neg h]
    rfl

variable {k' : BucketKey} {b : Bucket} {err : Option DbError} {rest requeue : Buckets}

theorem booked_of_log (hlog : s'.recorded = (s.log k' b).recorded)
    (hkey : k' = k → Booking (s.places k) [b] (s'.places k))
    (hother : k' ≠ k → s'.places k = s.places k) : Booked s s' k := by
  refine ⟨if k' = k then [b] else [], ?_, ?_⟩
  · rw [← recordedFor_log, recordedFor, hlog, recordedFor]
  · split
    · next h => exact hkey h
    · next h =>
      rw [hother h]
      exact .refl _

theorem booked_pending {pending : Buckets}
    (hpending : ∀ k, amount pending k = if k =
      k' then amount s.pending k + b else amount s.pending k) :
    Booked s { s.log k' b with pending := pending } k := by
  refine booked_of_log rfl (fun h => ?_) fun h => ?_
  · have hk := (hpending k).trans (if_pos h.symm)
    change Booking _ _ (accounts _ (amount pending k) _ _ _)
    rw [hk]
    exact deposit_pending ..
  · have hk := (hpending k).trans (if_neg (Ne.symm h))
    change accounts _ (amount pending k) _ _ _ = _
    rw [hk]
    rfl

theorem record_booked (s : State) (ev : Event) (now : Time) (k : BucketKey) :
    Booked s (s.record ev now) k := by
  unfold record
  split
  · exact .of_booking rfl (.refl _)
  simp only
  split
  · next b hb =>
    refine booked_pending fun k' => ?_
    rw [amount_insert]
    split
    · next h => rw [h, amount_of_lookup hb]
    · rfl
  · next hnone =>
    split
    · -- the buffer is full
      refine booked_of_log rfl (fun h => ?_) fun h => ?_
      · subst h
        change Booking _ _ (accounts _ _ _ (addAt s.overflowed _ _ _) _)
        rw [addAt_self]
        exact deposit_overflowed ..
      · change accounts _ _ _ (addAt s.overflowed _ _ _) _ = _
        rw [addAt_of_ne (Ne.symm h)]
        rfl
    · refine booked_pending fun k' => ?_
      rw [amount_insert]
      split
      · next h => rw [h, amount, hnone, getD_none]
      · rfl

theorem flights_flush (s : State) (k : BucketKey) : s.flush.flights k =
    s.flights k + Flush.held k (if s.pending.entries = [] then .done else .sent s.pending) := by
  change ((s.flushes ++ [_]).map (Flush.held k)).sum = _
  rw [map_append, sum_append, map_singleton, sum_singleton, flights]

theorem flush_booked (s : State) (k : BucketKey) : Booked s s.flush k := by
  refine .of_booking rfl ?_
  change Booking (accounts _ _ _ _ _) [] (accounts _ (amount ∅ k) _ _ (s.flush.flights k))
  rw [amount_empty, flights_flush]
  by_cases hempty : s.pending.entries = []
  · have hnone : amount s.pending k = 0 := by
      rw [amount, AList.lookup, hempty]
      rfl
    rw [if_pos hempty, hnone, Flush.held, add_zero]
    exact .refl _
  · rw [if_neg hempty]
    exact detach_pending ..

theorem batch_booked {b : Buckets} (hf : s.flushes[i]? = some (.sent b))
    (h : s.batch i b err = some s') (k : BucketKey) : Booked s s' k := by
  obtain ⟨others, hflights, hset⟩ := exists_flights hf k
  cases err with
  | none =>
    rw [batch] at h
    obtain ⟨-, h⟩ := (ite_none_right_eq_some ..).mp h
    cases h
    refine .of_booking rfl ?_
    change Booking (accounts _ _ _ _ (s.flights k)) []
      (accounts (s.table k + amount b k) _ _ _ ((s.setFlush i .done).flights k))
    rw [hflights, hset, Flush.held, Flush.held, zero_add]
    exact write_batch ..
  | some err =>
    cases h
    refine .of_booking rfl ?_
    unfold places
    rw [hflights, hset, Flush.held, Flush.held, amount_empty]
    exact open_rows ..

theorem row_booked {apart : ∀ k ∈ rest, k ∉ requeue} {v : Bucket}
    (hf : s.flushes[i]? = some (.rows rest requeue apart)) (hv : rest.lookup k' = some v)
    (h : s.row i rest requeue apart k' v err = some s') (k : BucketKey) : Booked s s' k := by
  obtain ⟨others, hflights, hset⟩ := exists_flights hf k
  rw [Flush.held] at hflights
  -- what is left to be written
  have hrest : amount (rest.erase k') k = if k = k' then 0 else amount rest k :=
    amount_erase rest k' k
  cases err with
  | none =>
    rw [row] at h
    obtain ⟨-, h⟩ := (ite_none_right_eq_some ..).mp h
    cases h
    refine .of_booking rfl ?_
    change Booking (accounts _ _ _ _ (s.flights k)) []
      (accounts (addAt s.table k' v k) _ _ _ ((s.setFlush i _).flights k))
    rw [hflights, hset, Flush.held, hrest]
    by_cases hk : k = k'
    · subst hk
      rw [if_pos rfl, addAt_self, amount_of_lookup hv]
      exact write_row ..
    · rw [if_neg hk, addAt_of_ne hk]
      exact .refl _
  | some err =>
    rw [row] at h
    split at h
    · cases h
      refine .of_booking rfl ?_
      change Booking (accounts _ _ _ _ (s.flights k)) []
        (accounts _ _ (addAt s.rejected k' v k) _ ((s.setFlush i _).flights k))
      rw [hflights, hset, Flush.held, hrest]
      by_cases hk : k = k'
      · subst hk
        rw [if_pos rfl, addAt_self, amount_of_lookup hv]
        exact reject_row ..
      · rw [if_neg hk, addAt_of_ne hk]
        exact .refl _
    · cases h
      refine .of_booking rfl ?_
      change Booking (accounts _ _ _ _ (s.flights k)) []
        (accounts _ _ _ _ ((s.setFlush i _).flights k))
      rw [hflights, hset, Flush.held, hrest, amount_insert]
      by_cases hk : k = k'
      · subst hk
        -- a key that is still to be written has not been put off before
        have hnew : amount requeue k = 0 := by
          have hnot := apart k (AList.lookup_isSome.mp (by rw [hv]; rfl))
          rw [amount, AList.lookup_eq_none.mpr hnot, getD_none]
        rw [if_pos rfl, if_pos rfl, amount_of_lookup hv, hnew, requeue_row]
        exact .refl _
      · rw [if_neg hk, if_neg hk]
        exact .refl _

theorem merge_booked {apart : ∀ k ∈ rest, k ∉ requeue}
    (hf : s.flushes[i]? = some (.rows rest requeue apart)) (hrest : rest.entries = [])
    (k : BucketKey) : Booked s (s.merge i requeue) k := by
  obtain ⟨others, hflights, hset⟩ := exists_flights hf k
  have hnone : amount rest k = 0 := by
    rw [amount, AList.lookup, hrest]
    rfl
  refine .of_booking rfl ?_
  change Booking (accounts _ _ _ _ (s.flights k)) []
    (accounts _ (amount (creditAll s.pending requeue) k) _ _ ((s.setFlush i .done).flights k))
  rw [hflights, hset, Flush.held, Flush.held, amount_creditAll, zero_add, hnone]
  exact merge_requeue ..

/-- **Every step is a booking on the accounts of every key.** -/
theorem step_booked {a : Action} (h : s.step a = some s') (k : BucketKey) : Booked s s' k := by
  cases a with
  | record ev now =>
    cases h
    exact record_booked s ev now k
  | flush =>
    cases h
    exact flush_booked s k
  | batch i err =>
    rw [step] at h
    split at h
    · next hf => exact batch_booked hf h k
    · exact nomatch h
  | row i k' err =>
    rw [step] at h
    split at h
    · next hf =>
      obtain ⟨v, hv, h⟩ := bind_eq_some_iff.mp h
      exact row_booked hf hv h k
    · exact nomatch h
  | merge i =>
    rw [step] at h
    split at h
    · next hf =>
      obtain ⟨hrest, h⟩ := (ite_none_right_eq_some ..).mp h
      cases h
      exact merge_booked hf hrest k
    · exact nomatch h

/-- **A whole run is a booking** on accounts that are empty at first. -/
theorem run_booking (h : Reaches step start s) (k : BucketKey) :
    Booking (accounts 0 0 0 0 0) (s.recordedFor k) (s.places k) := by
  refine h.invariant (P := fun s => Booking (accounts 0 0 0 0 0) (s.recordedFor k) (s.places k))
    (fun u a v hu _ hstep => ?_) (.refl _)
  obtain ⟨xs, hrecorded, hbooking⟩ := step_booked hstep k
  rw [hrecorded]
  exact hu.trans hbooking

end State

/-! ## The counters as integers -/

theorem Bucket.get_zero (c : Counter) : (0 : Bucket).get c = 0 := by
  cases c <;> rfl

theorem toInt_add_of_le {a b : Int64} (h : a.toInt.natAbs + b.toInt.natAbs ≤ maxInt64.natAbs) :
    (a + b).toInt = a.toInt + b.toInt := by
  rw [Int64.toInt_add]
  unfold maxInt64 at h
  exact Int.bmod_eq_of_le (by omega) (by omega)

theorem Bucket.get_add (c : Counter) (a b : Bucket)
    (h : (a.get c).natAbs + (b.get c).natAbs ≤ maxInt64.natAbs) :
    (a + b).get c = a.get c + b.get c := by
  cases c <;> exact toInt_add_of_le h

/-- The sum of a counter over some amounts. -/
def total (c : Counter) (l : Multiset Bucket) : Int := (l.map (Bucket.get c)).sum

theorem total_accounts (c : Counter) (t p r o : Bucket) (f : Multiset Bucket) :
    total c (accounts t p r o f) = t.get c + p.get c + r.get c + o.get c + total c f := by
  unfold total accounts
  simp only [Multiset.map_add, Multiset.sum_add, Multiset.map_singleton, Multiset.sum_singleton]
  omega

namespace State

variable {s : State}

/-- **Usage is conserved**: for every key, what was persisted, is pending, is in flight and was
dropped adds up to what was recorded, in the counters' arithmetic, and in the integers as long as
the amounts fit. -/
theorem usage_conserved (h : Reaches step start s) (k : BucketKey) :
    s.table k + amount s.pending k + s.inFlight k + s.rejected k + s.overflowed k =
        (s.recordedFor k).sum ∧
      ∀ c, ((s.recordedFor k).map fun b => (b.get c).natAbs).sum ≤ maxInt64.natAbs →
        (s.table k).get c + (amount s.pending k).get c + total c (s.flights k) +
            (s.rejected k).get c + (s.overflowed k).get c =
          ((s.recordedFor k).map (Bucket.get c)).sum := by
  have hbooking := run_booking h k
  constructor
  · have hsum := hbooking.sum_eq
    simp only [places, accounts, Multiset.sum_add, Multiset.sum_singleton, add_zero,
      zero_add] at hsum
    rw [← hsum, inFlight]
    abel
  · intro c hfits
    have hempty : Exact (Bucket.get c) (accounts 0 0 0 0 0) 0 0 :=
      ⟨by simp [accounts, Bucket.get_zero], by simp [accounts, Bucket.get_zero]⟩
    have hexact := hbooking.exact (Bucket.get_zero c) (Bucket.get_add c) hempty
      (by rwa [Nat.zero_add])
    have htotal : total c (s.places k) = _ := hexact.total
    rw [places, total_accounts, zero_add] at htotal
    rw [← htotal]
    omega

def chat : Event := ⟨"t", "chat", "openai", "gpt", 7, 2, some 5⟩

/-- Two calls are flushed, a third comes in, the batch fails. -/
def retryRun : List Action :=
  [.record chat 0, .record chat 0, .flush, .record chat 0, .batch 0 (some .other),
    .row 0 (chat.key 0) (some .other)]

theorem usage_conserved_retry :
    let s := (runAll step start retryRun).getD start
    Reaches step start s ∧
      (s.table (chat.key 0)).get .inputTokens + (amount s.pending (chat.key 0)).get .inputTokens +
          total .inputTokens (s.flights (chat.key 0)) +
          (s.rejected (chat.key 0)).get .inputTokens + (s.overflowed
            (chat.key 0)).get .inputTokens =
        21 := by
  have hrun : Reaches step start ((runAll step start retryRun).getD start) :=
    reaches_getD start (by decide)
  exact ⟨hrun, (usage_conserved hrun (chat.key 0)).2 .inputTokens (by decide)⟩

end State

end Pcmi.Usage
