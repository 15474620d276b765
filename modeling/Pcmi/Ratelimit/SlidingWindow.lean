import Mathlib.Data.Real.Basic
import Mathlib.Tactic.Linarith
import Pcmi.Go.Strconv
import Pcmi.Lib.Slots
import Pcmi.Lib.Window

/-!
# The sliding window of the rate limiter (`internal/ratelimit/redis_limiter.go`)

`slidingWindow` is the Lua script on the sorted set of one key, `allow` the call around it. Times
are Unix milliseconds. Redis reads its clock once for a script; a key is gone once the clock is past
the deadline of `PEXPIRE`. Numbers of the script are exact below `2 ^ 53`.

A call reads the clock (`now`) and its script runs at `ranAt`; on a clock shared with Redis they are
the same.
-/

namespace Pcmi.Ratelimit

open List Pcmi.Go Pcmi.Lib

/-! ## Redis -/

/-- A sorted set with the deadline of its key. -/
structure SortedSet where
  entries : List (Bytes × Nat)
  expireAt : Option Int

/-- The key as a command at time `ranAt` finds it. -/
def lookup (ranAt : Nat) (db : Option SortedSet) : Option SortedSet :=
  db.filter fun z => decide (∀ d ∈ z.expireAt, (ranAt : Int) ≤ d)

/-- `ZREMRANGEBYSCORE key 0 max`. A set that is left empty is deleted. -/
def zremrangebyscore (max : Int) (db : Option SortedSet) : Option SortedSet :=
  db.bind fun z =>
    let entries := z.entries.filter fun e => decide (max < (e.2 : Int))
    if entries.isEmpty then none else some { z with entries }

def zadd (score : Nat) (member : Bytes) (db : Option SortedSet) : SortedSet :=
  let z := db.getD ⟨[], none⟩
  { z with entries := z.entries.filter (fun e => decide (e.1 ≠ member)) ++ [(member, score)] }

/-- `PEXPIRE key ms`; a deadline that is not ahead deletes the key. -/
def pexpire (ranAt : Nat) (ms : Int) (z : SortedSet) : Option SortedSet :=
  if ms ≤ 0 then none else some { z with expireAt := some (ranAt + ms) }

/-! ## The limiter -/

/-- The arguments of the script. -/
structure Args where
  now : Nat
  windowMs : Int
  limit : Int
  member : Bytes

/-- `slidingWindowLua`, run at time `ranAt`: the answer and the key. -/
def slidingWindow (ranAt : Nat) (a : Args) (db : Option SortedSet) : Int × Option SortedSet :=
  let db := zremrangebyscore (a.now - a.windowMs) (lookup ranAt db)
  let z := zadd a.now a.member db
  let count := z.entries.length
  let db := pexpire ranAt a.windowMs z
  if (count : Int) > a.limit then (0, db) else (1, db)

/-- `RedisRateLimiter`; the window is in nanoseconds. -/
structure RedisRateLimiter where
  connected : Bool
  window : Int

def newRedisRateLimiter (connected : Bool) (window : Int) : RedisRateLimiter :=
  if window ≤ 0 then ⟨connected, 60 * 10 ^ 9⟩ else ⟨connected, window⟩

def RedisRateLimiter.windowMs (l : RedisRateLimiter) : Int := l.window.tdiv (10 ^ 6)

/-- The member of a call, from its two readings of the clock. -/
def member (now nano : Nat) : Bytes :=
  formatInteger now ++ ascii ":" ++ formatInteger nano

/-- `Allow`; `run` is `script.Run`, and an error allows the request. -/
def allow {ε : Type} (l : Option RedisRateLimiter)
    (run : Args → Option SortedSet → Except ε Int × Option SortedSet) (limit : Int)
    (now nano : Nat) (db : Option SortedSet) : (Bool × Option ε) × Option SortedSet :=
  match l with
  | none => ((true, none), db)
  | some l =>
    if l.connected = false ∨ limit < 1 then ((true, none), db)
    else
      match run ⟨now, l.windowMs, limit, member now nano⟩ db with
      | (.error err, db) => ((true, some err), db)
      | (.ok res, db) => ((res == 1, none), db)

/-! ## Calls on one key -/

/-- A call: its readings of the clock and the time at which its script runs. -/
structure Call where
  now : Nat
  nano : Nat
  ranAt : Nat

/-- A call with what `Allow` returned. -/
structure Served extends Call where
  allowed : Bool

/-- The key and the calls served so far, in the order of their scripts. -/
structure State where
  db : Option SortedSet
  served : List Served

/-- The script runs to its end and its answer arrives. -/
def atomically (ranAt : Nat) (a : Args) (db : Option SortedSet) :
    Except Empty Int × Option SortedSet :=
  ((.ok (slidingWindow ranAt a db).1), (slidingWindow ranAt a db).2)

def serve (l : RedisRateLimiter) (limit : Int) (s : State) (c : Call) : State :=
  let r := allow (some l) (atomically c.ranAt) limit c.now c.nano s.db
  { db := r.2, served := s.served ++ [{ c with allowed := r.1.1 }] }

def serveAll (l : RedisRateLimiter) (limit : Int) (cs : List Call) : State :=
  cs.foldl (serve l limit) ⟨none, []⟩

/-! ## The sorted set and the calls -/

def held (db : Option SortedSet) : List (Bytes × Nat) := (db.map fun z => z.entries).getD []

/-- What a call leaves in the set. -/
def entryOf (c : Served) : Bytes × Nat := (member c.now c.nano, c.now)

/-- The set has in every window what the calls left there. -/
def Remembers (windowMs : Int) (db : Option SortedSet) (cs : List Served) : Prop :=
  ∀ t : Nat, (∀ c ∈ cs, c.now ≤ t) →
    (held (lookup t db)).filter (fun e => decide ((t : Int) - windowMs < e.2)) =
      (cs.filter fun c => decide ((t : Int) - windowMs < c.now)).map entryOf

theorem held_zremrangebyscore (max : Int) (db : Option SortedSet) :
    held (zremrangebyscore max db) = (held db).filter fun e => decide (max < (e.2 : Int)) := by
  cases db with
  | none => rfl
  | some z =>
    unfold zremrangebyscore
    simp only [Option.bind_some]
    split
    · next h => simpa [held] using h
    · rfl

theorem entries_zadd_of_fresh {score : Nat} {m : Bytes} {db : Option SortedSet}
    (h : ∀ e ∈ held db, e.1 ≠ m) : (zadd score m db).entries = held db ++ [(m, score)] := by
  have hkept : (held db).filter (fun e => decide (e.1 ≠ m)) = held db :=
    filter_eq_self.mpr fun e he => decide_eq_true (h e he)
  cases db with
  | none => rfl
  | some z => exact congrArg (· ++ [(m, score)]) hkept

section

variable {windowMs limit : Int} {db : Option SortedSet} {cs : List Served} {c : Served}

theorem Remembers.entries_zadd (h : Remembers windowMs db cs) (hnow : ∀ b ∈ cs, b.now ≤ c.now)
    (hfresh : ∀ b ∈ cs, member b.now b.nano ≠ member c.now c.nano) :
    (zadd c.now (member c.now c.nano)
        (zremrangebyscore (c.now - windowMs) (lookup c.now db))).entries =
      (cs.filter fun b => decide ((c.now : Int) - windowMs < b.now)).map entryOf ++
        [entryOf c] := by
  have hheld : held (zremrangebyscore (c.now - windowMs) (lookup c.now db)) =
      (cs.filter fun b => decide ((c.now : Int) - windowMs < b.now)).map entryOf := by
    rw [held_zremrangebyscore]
    exact h c.now hnow
  rw [entries_zadd_of_fresh, hheld]
  · rfl
  · rw [hheld]
    intro e he
    obtain ⟨b, hb, rfl⟩ := mem_map.mp he
    exact hfresh b (mem_filter.mp hb).1

theorem slidingWindow_snd (ranAt : Nat) (a : Args) (db : Option SortedSet) :
    (slidingWindow ranAt a db).2 = pexpire ranAt a.windowMs (zadd a.now a.member
      (zremrangebyscore (a.now - a.windowMs) (lookup ranAt db))) := by
  unfold slidingWindow
  dsimp only
  split <;> rfl

theorem filter_window_eq_nil {t : Nat} (h : ∀ b ∈ cs, (b.now : Int) ≤ t - windowMs) :
    (cs.filter fun b => decide ((t : Int) - windowMs < b.now)) = [] := by
  refine filter_eq_nil_iff.mpr fun b hb => ?_
  have := h b hb
  rw [decide_eq_true_iff]
  omega

theorem Remembers.snoc (h : Remembers windowMs db cs) (hwindow : 0 ≤ windowMs)
    (hnow : ∀ b ∈ cs, b.now ≤ c.now)
    (hfresh : ∀ b ∈ cs, member b.now b.nano ≠ member c.now c.nano) :
    Remembers windowMs (slidingWindow c.now ⟨c.now, windowMs, limit, member c.now c.nano⟩ db).2
      (cs ++ [c]) := by
  intro t ht
  have hlast : c.now ≤ t := ht c (mem_append_right _ mem_cons_self)
  have hall : ∀ b ∈ cs ++ [c], b.now ≤ c.now := forall_mem_concat hnow (le_refl _)
  rw [slidingWindow_snd]
  unfold pexpire
  split
  · next hzero =>
    -- A window of less than a millisecond: the key is deleted, and no call is in the window.
    rw [filter_window_eq_nil fun b hb => by have := ht b hb; dsimp only at hzero; omega]
    rfl
  · by_cases hexpired : (t : Int) ≤ c.now + windowMs
    · rw [lookup, Option.filter_some_pos (by simpa using hexpired)]
      refine (congrArg (List.filter _) (h.entries_zadd hnow hfresh)).trans ?_
      rw [filter_append, filter_append, map_append, filter_map,
        filter_filter]
      congr 1
      · refine congrArg (List.map entryOf) (filter_congr fun b hb => ?_)
        rw [Bool.eq_iff_iff, Bool.and_eq_true]
        refine and_iff_left_of_imp fun hlate => decide_eq_true ?_
        have : (t : Int) - windowMs < b.now := of_decide_eq_true hlate
        omega
      · simp [filter_cons, entryOf, apply_ite]
    · rw [lookup, Option.filter_some_neg (by simpa using hexpired), filter_window_eq_nil]
      · rfl
      · intro b hb
        have := hall b hb
        omega

theorem Remembers.allowed_iff (h : Remembers windowMs db cs) (hwindow : 0 ≤ windowMs)
    (hlimit : 1 ≤ limit) (hnow : ∀ b ∈ cs, b.now ≤ c.now)
    (hfresh : ∀ b ∈ cs, member b.now b.nano ≠ member c.now c.nano) :
    (slidingWindow c.now ⟨c.now, windowMs, limit, member c.now c.nano⟩ db).1 = 1 ↔
      (windowCount (fun b : Served => (b.now : Int)) windowMs c.now (cs ++ [c]) : Int) ≤ limit := by
  have hcount : (windowCount (fun b : Served => (b.now : Int)) windowMs c.now cs) =
      (cs.filter fun b => decide ((c.now : Int) - windowMs < b.now)).length := by
    rw [windowCount, countP_eq_length_filter]
    refine congrArg List.length (filter_congr fun b hb => ?_)
    have := hnow b hb
    rw [decide_eq_decide]
    omega
  have hlength : (zadd c.now (member c.now c.nano) (zremrangebyscore (c.now - windowMs)
      (lookup c.now db))).entries.length =
      windowCount (fun b : Served => (b.now : Int)) windowMs c.now cs + 1 := by
    rw [h.entries_zadd hnow hfresh, length_append, length_map, hcount]
    rfl
  have hself : windowCount (fun b : Served => (b.now : Int)) windowMs c.now (cs ++ [c]) =
      windowCount (fun b : Served => (b.now : Int)) windowMs c.now cs +
        if 0 < windowMs then 1 else 0 := by
    simp [windowCount, countP_append, countP_singleton]
  have hanswer : (slidingWindow c.now ⟨c.now, windowMs, limit, member c.now c.nano⟩ db).1 = 1 ↔
      ((windowCount (fun b : Served => (b.now : Int)) windowMs c.now cs + 1 : Nat) : Int) ≤
        limit := by
    unfold Ratelimit.slidingWindow
    dsimp only
    rw [hlength]
    split
    · next hfull => exact iff_of_false zero_ne_one (not_le.mpr hfull)
    · next hfree => exact iff_of_true rfl (not_lt.mp hfree)
  rw [hanswer, hself]
  split
  · rfl
  -- A window of less than a millisecond has no call in it.
  have hempty : windowCount (fun b : Served => (b.now : Int)) windowMs c.now cs = 0 := by
    rw [hcount, filter_window_eq_nil fun b hb => by have := hnow b hb; omega]
    rfl
  rw [hempty]
  omega

end

/-! ## Runs -/

/-- Calls on a clock shared with Redis: readings do not decrease, a script runs at the time read,
and members differ. -/
structure SharedClock (cs : List Call) : Prop where
  nondecreasing : cs.Pairwise fun a b => a.now ≤ b.now
  ranAt : ∀ c ∈ cs, c.ranAt = c.now
  members : cs.Pairwise fun a b => member a.now a.nano ≠ member b.now b.nano

section

variable {l : RedisRateLimiter} {limit : Int} {s : State} {cs : List Call} {c : Call}

theorem SharedClock.of_snoc (h : SharedClock (cs ++ [c])) : SharedClock cs where
  nondecreasing := (pairwise_append.mp h.nondecreasing).1
  ranAt b hb := h.ranAt b (mem_append_left _ hb)
  members := (pairwise_append.mp h.members).1

theorem serveAll_snoc : serveAll l limit (cs ++ [c]) = serve l limit (serveAll l limit cs) c := by
  rw [serveAll, foldl_append]
  rfl

theorem serve_eq (hl : l.connected = true) (hlimit : 1 ≤ limit) :
    serve l limit s c =
      { db := (slidingWindow c.ranAt ⟨c.now, l.windowMs, limit, member c.now c.nano⟩ s.db).2
        served := s.served ++ [{ c with
          allowed := (slidingWindow c.ranAt
            ⟨c.now, l.windowMs, limit, member c.now c.nano⟩ s.db).1 == 1 }] } := by
  have hpasses : ¬ (l.connected = false ∨ limit < 1) := by
    rw [hl]
    simpa using hlimit
  unfold serve allow
  dsimp only
  rw [if_neg hpasses]
  rfl

/-- Each call was answered by the calls in its window. -/
def AnswersByWindow (windowMs limit : Int) (served : List Served) : Prop :=
  ∀ pre x post, served = pre ++ x :: post →
    (x.allowed = true ↔
      (windowCount (fun b : Served => (b.now : Int)) windowMs x.now (pre ++ [x]) : Int) ≤ limit)

/-- **Every run.** Each call was answered by its window. -/
theorem serveAll_answers (hl : l.connected = true) (hlimit : 1 ≤ limit) (hwindow : 0 ≤ l.windowMs)
    (h : SharedClock cs) :
    (serveAll l limit cs).served.map Served.toCall = cs ∧
      Remembers l.windowMs (serveAll l limit cs).db (serveAll l limit cs).served ∧
      AnswersByWindow l.windowMs limit (serveAll l limit cs).served := by
  induction cs using List.reverseRecOn with
  | nil => exact ⟨rfl, fun _ _ => rfl, fun pre x post hsplit => by simp [serveAll] at hsplit⟩
  | append_singleton cs c ih =>
    obtain ⟨hcalls, hdb, hanswers⟩ := ih h.of_snoc
    have hran : c.ranAt = c.now := h.ranAt c (mem_append_right _ mem_cons_self)
    have hmem : ∀ b ∈ (serveAll l limit cs).served, b.toCall ∈ cs := by
      intro b hb
      rw [← hcalls]
      exact mem_map_of_mem hb
    have hnow : ∀ b ∈ (serveAll l limit cs).served, b.now ≤ c.now := fun b hb =>
      (pairwise_append.mp h.nondecreasing).2.2 b.toCall (hmem b hb) c mem_cons_self
    have hfresh : ∀ b ∈ (serveAll l limit cs).served,
        member b.now b.nano ≠ member c.now c.nano := fun b hb =>
      (pairwise_append.mp h.members).2.2 b.toCall (hmem b hb) c mem_cons_self
    rw [serveAll_snoc, serve_eq hl hlimit, hran]
    generalize hb : ((slidingWindow c.now ⟨c.now, l.windowMs, limit, member c.now c.nano⟩
      (serveAll l limit cs).db).1 == 1) = b
    refine ⟨?_, hdb.snoc (c := { c with allowed := b }) hwindow hnow hfresh, ?_⟩
    · rw [map_append, hcalls]
      simp
    · refine forall_before_snoc.mpr ⟨hanswers, ?_⟩
      refine Iff.trans ?_
        (hdb.allowed_iff (c := { c with allowed := b }) hwindow hlimit hnow hfresh)
      rw [← hb]
      exact beq_iff_eq

end

theorem windowMs_nonneg (connected : Bool) (window : Int) :
    0 ≤ (newRedisRateLimiter connected window).windowMs := by
  unfold newRedisRateLimiter
  split
  · exact (by decide : (0 : Int) ≤ (60 * 10 ^ 9 : Int).tdiv (10 ^ 6))
  · next h => exact Int.tdiv_nonneg (not_le.mp h).le (by decide)

/-- **The sliding window.** On a clock shared with Redis a call is allowed exactly if at most
`limit` calls were recorded in its window, and at most `limit` are allowed in any half-open interval
of its length. -/
theorem sliding_window_exact (window limit : Int) (hlimit : 1 ≤ limit) (cs : List Call)
    (hclock : SharedClock cs) :
    let l := newRedisRateLimiter true window
    let served := (serveAll l limit cs).served
    served.map Served.toCall = cs ∧ AnswersByWindow l.windowMs limit served ∧
      ∀ t : ℝ,
        (served.countP fun x => x.allowed && decide (t ≤ x.now ∧ (x.now : ℝ) < t + l.windowMs)) ≤
            limit ∧
          (served.countP fun x => x.allowed && decide (t < x.now ∧ (x.now : ℝ) ≤ t + l.windowMs)) ≤
            limit := by
  intro l served
  have hl : l.connected = true := by
    unfold l newRedisRateLimiter
    split <;> rfl
  obtain ⟨hcalls, -, hanswers⟩ :=
    serveAll_answers hl hlimit (windowMs_nonneg true window) hclock
  refine ⟨hcalls, hanswers, fun t => ?_⟩
  have hsorted : served.Pairwise fun a b : Served => (a.now : Int) ≤ b.now := by
    have := hclock.nondecreasing
    rw [← hcalls, pairwise_map] at this
    exact this.imp Int.ofNat_le.mpr
  have hwithin : ∀ pre x post, served = pre ++ x :: post → x.allowed = true →
      windowCount (fun b : Served => (b.now : Int)) l.windowMs x.now (pre ++ [x]) ≤
        limit.toNat := fun pre x post hsplit hx => by
    have := (hanswers pre x post hsplit).mp hx
    omega
  have hbound : ∀ (I : Int → Prop) [DecidablePred I], (∀ s u, I s → I u → u - l.windowMs < s) →
      ((served.countP fun x => x.allowed && decide (I x.now) : Nat) : Int) ≤ limit := by
    intro I _ hI
    have := countP_admitted_le hsorted hwithin hI
    omega
  constructor
  · have := hbound (fun i => t ≤ (i : ℝ) ∧ (i : ℝ) < t + l.windowMs) fun s u hs hu => by
      have : (u : ℝ) - l.windowMs < s := by linarith [hs.1, hu.2]
      exact_mod_cast this
    simpa only [Int.cast_natCast] using this
  · have := hbound (fun i => t < (i : ℝ) ∧ (i : ℝ) ≤ t + l.windowMs) fun s u hs hu => by
      have : (u : ℝ) - l.windowMs < s := by linarith [hs.1, hu.2]
      exact_mod_cast this
    simpa only [Int.cast_natCast] using this

/-- The call at `999` is refused, at the edge of the window of `1999`. -/
theorem sliding_window_exact_three :
    (serveAll (newRedisRateLimiter true (10 ^ 9)) 1 [⟨0, 0, 0⟩, ⟨999, 1, 999⟩, ⟨1999, 2, 1999⟩]
        ).served.map (fun x => x.allowed) = [true, false, true] ∧
      AnswersByWindow 1000 1 (serveAll (newRedisRateLimiter true (10 ^ 9)) 1
        [⟨0, 0, 0⟩, ⟨999, 1, 999⟩, ⟨1999, 2, 1999⟩]).served := by
  have hclock : SharedClock [⟨0, 0, 0⟩, ⟨999, 1, 999⟩, ⟨1999, 2, 1999⟩] :=
    ⟨by decide, by decide, by decide +kernel⟩
  exact ⟨by decide +kernel, (sliding_window_exact (10 ^ 9) 1 le_rfl _ hclock).2.1⟩

-- Redis's time counts for the deadline: a script that is late by two milliseconds finds the key
-- gone, and the call of `0`, which is in its window, is not counted.
example : (serveAll (newRedisRateLimiter true (10 ^ 9)) 1 [⟨0, 0, 0⟩, ⟨999, 1, 1001⟩]
    ).served.map (fun x => x.allowed) = [true, true] := by decide +kernel

end Pcmi.Ratelimit
