import Mathlib.Data.List.Chain
import Pcmi.Lib.Slots
import Pcmi.Memory.Locks

/-!
# The history of concurrent stores

However the statements interleave, the table is what the successful calls make of it in the order of
their commits: each closes the row that its predecessor opened. Failed calls leave nothing behind.
-/

namespace Pcmi.Memory.Contention

open List Pcmi.Lib Option

variable {n : Nat} (k : Contention n)

/-- The committed rows after the commits of `log`. -/
def replay (rows : List Row) (log : List (Commit n)) : List Row := log.foldl k.applyCommit rows

theorem replay_append (rows : List Row) (log : List (Commit n)) (c : Commit n) :
    k.replay rows (log ++ [c]) = k.applyCommit (k.replay rows log) c := by
  simp [replay]

/-! ## Ids come from the sequence -/

structure Ids (s : Sys n) : Prop where
  drawn_lt : ∀ i id, (s.calls i).phase.drawn = some id → id < s.nextId
  drawn_inj : ∀ i j id, (s.calls i).phase.drawn = some id → (s.calls j).phase.drawn = some id → i =
      j
  log_lt : ∀ c ∈ s.log, c.row.id < s.nextId
  log_ne : ∀ i id, (s.calls i).phase.drawn = some id → ∀ c ∈ s.log, c.row.id ≠ id
  log_nodup : (s.log.map (·.row.id)).Nodup

theorem ids_start (rows : List Row) (nextId : Nat) (clock : Time) :
    Ids (start rows nextId clock : Sys n) where
  drawn_lt := by simp [start, Phase.drawn]
  drawn_inj := by simp [start, Phase.drawn]
  log_lt := by simp [start]
  log_ne := by simp [start]
  log_nodup := by simp [start]

variable {s s' : Sys n} {i : Fin n} {now : Time} {victim : Option (Nat × Int)} {row : Row}
  {rows : List Row} {a : Action n}

theorem Ids.move (h : Ids s) (hlog : s'.log = s.log) (hnext : s'.nextId = s.nextId)
    (hdrawn : ∀ j id, (s'.calls j).phase.drawn = some id → (s.calls j).phase.drawn = some id) :
    Ids s' where
  drawn_lt := fun j id hj => by rw [hnext]; exact h.drawn_lt j id (hdrawn j id hj)
  drawn_inj := fun i j id hi hj => h.drawn_inj i j id (hdrawn i id hi) (hdrawn j id hj)
  log_lt := by rw [hlog, hnext]; exact h.log_lt
  log_ne := by rw [hlog]; exact fun j id hj => h.log_ne j id (hdrawn j id hj)
  log_nodup := by rw [hlog]; exact h.log_nodup

theorem Ids.draw (h : Ids s) :
    Ids { setPhase s i (.inserting now victim s.nextId) with nextId := s.nextId + 1 } := by
  have hd : ∀ j id, ((setPhase s i (.inserting now victim s.nextId)).calls j).phase.drawn =
      some id →
      (j = i ∧ id = s.nextId) ∨ (j ≠ i ∧ (s.calls j).phase.drawn = some id) := by
    intro j id hj
    rw [setPhase_phase] at hj
    split at hj
    · next hji =>
      cases hj
      exact .inl ⟨hji, rfl⟩
    · next hji => exact .inr ⟨hji, hj⟩
  constructor
  · intro j id hj
    show id < s.nextId + 1
    rcases hd j id hj with ⟨_, rfl⟩ | ⟨_, hj'⟩
    · omega
    · have := h.drawn_lt j id hj'
      omega
  · intro a b id ha hb
    rcases hd a id ha with ⟨hai, hida⟩ | ⟨_, ha'⟩ <;> rcases hd b id hb with ⟨hbi, hidb⟩ | ⟨_, hb'⟩
    · rw [hai, hbi]
    · exact absurd (h.drawn_lt b id hb') (by omega)
    · exact absurd (h.drawn_lt a id ha') (by omega)
    · exact h.drawn_inj a b id ha' hb'
  · intro c hc
    have := h.log_lt c hc
    show c.row.id < s.nextId + 1
    omega
  · intro j id hj c hc
    rcases hd j id hj with ⟨_, rfl⟩ | ⟨_, hj'⟩
    · exact (h.log_lt c hc).ne
    · exact h.log_ne j id hj' c hc
  · exact h.log_nodup

theorem Ids.commit (h : Ids s) (hp : (s.calls i).phase = .inserted now victim row)
    {res : Option StoreOutcome} {c : Commit n} (hc : c.row = row) :
    Ids { setPhase s i (.returned res) with rows := rows, log := s.log ++ [c] } := by
  have hi : (s.calls i).phase.drawn = some row.id := by rw [hp]; rfl
  have hd : ∀ j id, ((setPhase s i (.returned res)).calls j).phase.drawn = some id →
      j ≠ i ∧ (s.calls j).phase.drawn = some id := by
    intro j id hj
    rw [setPhase_phase] at hj
    split at hj
    · cases hj
    · next hji => exact ⟨hji, hj⟩
  constructor
  · exact fun j id hj => h.drawn_lt j id (hd j id hj).2
  · exact fun a b id ha hb => h.drawn_inj a b id (hd a id ha).2 (hd b id hb).2
  · refine forall_mem_concat h.log_lt ?_
    rw [hc]
    exact h.drawn_lt i _ hi
  · intro j id hj x hx
    obtain ⟨hji, hj'⟩ := hd j id hj
    rcases mem_append.mp hx with hx | hx
    · exact h.log_ne j id hj' x hx
    rw [mem_singleton.mp hx, hc]
    intro he
    exact hji (h.drawn_inj j i id hj' (he ▸ hi))
  · show ((s.log ++ [c]).map (·.row.id)).Nodup
    rw [map_append, nodup_append]
    refine ⟨h.log_nodup, by simp, ?_⟩
    intro x hx y hy hxy
    obtain ⟨d, hd', rfl⟩ := mem_map.mp hx
    simp only [map_cons, map_nil, mem_singleton] at hy
    exact h.log_ne i _ hi d hd' (by rw [hxy, hy, hc])

theorem Ids.step (h : Ids s) (hs : k.step s a = some s') : Ids s' := by
  -- a call whose new phase has drawn nothing, or what it had drawn before
  have hkeep : ∀ (i : Fin n) (c : Call), (∀ id, c.phase.drawn = some id →
      (s.calls i).phase.drawn = some id) → ∀ j id,
      ((setCall s i c).calls j).phase.drawn = some id → (s.calls j).phase.drawn = some id := by
    intro i c hc j id hj
    rw [setCall_phase] at hj
    split at hj
    · next hji => exact hji ▸ hc id hj
    · exact hj
  cases k.fires_of_step hs with
  | begin | closeStart | closeRun | rejected | conflict | fail =>
    exact h.move rfl rfl (hkeep _ _ fun id hid => by cases hid)
  | insertStart hp => exact h.draw
  | inserted hp hfree hidx =>
    refine h.move rfl rfl (hkeep _ _ fun id hid => ?_)
    rw [hp]
    exact hid
  | commit hp => exact h.commit hp rfl

/-! ## The log -/

/-- What the log says about the table and about what the calls returned. -/
structure Logged (rows : List Row) (s : Sys n) : Prop where
  replayed : s.rows = k.replay rows s.log
  results : ∀ i o, (s.calls i).phase.result = some o ↔ ∃ c ∈ s.log, c.call = i ∧ c.outcome = o
  /-- The last committed row is the open one. -/
  latest : ∀ c ∈ s.log.getLast?, k.openRow s.rows = some c.row
  /-- Each commit closed the row open before it and took the next version. -/
  linked : ∀ pre c post, s.log = pre ++ c :: post →
    c.closed = (k.openRow (k.replay rows pre)).map (·.id) ∧
      c.row.version = nextVersion (k.openRow (k.replay rows pre))
  chained : s.log.IsChain fun c d => d.closed = some c.row.id

variable {k}

theorem logged_start (rows : List Row) (nextId : Nat) (clock : Time) :
    k.Logged rows (start rows nextId clock) where
  replayed := rfl
  results := by simp [start, Phase.result]
  latest := by simp [start]
  linked := by simp [start]
  chained := by simp [start]

/-- A step without commit or return changes nothing in the log. -/
theorem Logged.move (h : k.Logged rows s) (hrows : s'.rows = s.rows) (hlog : s'.log = s.log)
    (hres : ∀ j, (s'.calls j).phase.result = (s.calls j).phase.result) : k.Logged rows s' where
  replayed := by rw [hrows, hlog]; exact h.replayed
  results := by
    intro j o
    rw [hres, hlog]
    exact h.results j o
  latest := by rw [hrows, hlog]; exact h.latest
  linked := by rw [hlog]; exact h.linked
  chained := by rw [hlog]; exact h.chained

theorem append_singleton_split {α : Type} {l pre post : List α} {x c : α}
    (h : l ++ [x] = pre ++ c :: post) :
    (pre = l ∧ c = x ∧ post = []) ∨ ∃ post', post = post' ++ [x] ∧ l = pre ++ c :: post' := by
  rcases eq_nil_or_concat post with rfl | ⟨post', y, rfl⟩
  · have := append_inj_right' h (by simp)
    have hl := append_inj_left' h (by simp)
    simp only [cons.injEq, and_true] at this
    exact Or.inl ⟨hl.symm, this.symm, rfl⟩
  · rw [concat_eq_append, ← cons_append, ← append_assoc] at h
    have := append_inj_right' h (by simp)
    simp only [cons.injEq, and_true] at this
    exact Or.inr ⟨post', by rw [this, concat_eq_append], append_inj_left' h (by simp)⟩

theorem Logged.commit (hl : k.Locks s) (h : k.Logged rows s)
    (hp : (s.calls i).phase = .inserted now victim row) :
    k.Logged rows
      { setPhase s i (.returned (some ⟨row.id, row.version, victim.map Prod.fst⟩)) with
        rows := k.applyCommit s.rows ⟨i, now, victim.map Prod.fst, row⟩
        log := s.log ++ [⟨i, now, victim.map Prod.fst, row⟩] } := by
  have hclosed : victim.map Prod.fst = (k.openRow s.rows).map (·.id) := by
    rw [hl.openRow_before hp, Option.map_map]
    rfl
  have hversion : row.version = nextVersion (k.openRow s.rows) := by
    rw [hl.shape i now victim row hp, hl.openRow_before hp]
    cases k.openRow s.rows <;> rfl
  constructor
  · show k.applyCommit s.rows _ = k.replay rows (s.log ++ [_])
    rw [replay_append, ← h.replayed]
  · intro j o
    show ((setPhase s i _).calls j).phase.result = some o ↔ _
    rw [setPhase_phase]
    simp only [mem_append, mem_singleton, or_and_right, exists_or, exists_eq_left, ← h.results j o]
    split
    · -- the call had not returned, so the log held no commit of it
      next hji =>
      subst hji
      simp [hp, Phase.result, Commit.outcome]
    · next hji => simp [Ne.symm hji]
  · intro c hc
    simp only [getLast?_append, getLast?_singleton, some_or, mem_def,
      Option.some.injEq] at hc
    rw [← hc]
    exact (hl.openRow_after hp).1
  · intro pre c post hsplit
    rcases append_singleton_split hsplit with ⟨rfl, rfl, _⟩ | ⟨post', _, hs⟩
    · rw [← h.replayed]
      exact ⟨hclosed, hversion⟩
    · exact h.linked pre c post' hs
  · refine isChain_append.mpr ⟨h.chained, isChain_singleton _, ?_⟩
    intro c hc d hd
    simp only [head?_cons, mem_def, Option.some.injEq] at hd
    rw [← hd]
    show victim.map Prod.fst = some c.row.id
    rw [hclosed, h.latest c hc]
    rfl

theorem Logged.step (hl : k.Locks s) (h : k.Logged rows s) (hs : k.step s a = some s') :
    k.Logged rows s' := by
  have hmove : ∀ (i : Fin n) (c : Call), (s.calls i).phase.result = none → c.phase.result = none →
      ∀ j, ((setCall s i c).calls j).phase.result = (s.calls j).phase.result := by
    intro i c hi hc j
    rw [setCall_phase]
    split
    · next hji => rw [hji, hi, hc]
    · rfl
  cases k.fires_of_step hs with
  | begin hp _ | closeStart hp | closeRun hp _ | insertStart hp | inserted hp _ _ | rejected hp
  | conflict hp => exact h.move rfl rfl (hmove _ _ (by rw [hp]; rfl) rfl)
  | commit hp => exact h.commit hl hp
  | @fail i hp =>
    refine h.move rfl rfl (hmove _ _ ?_ rfl)
    cases hph : (s.calls i).phase <;> first | rfl | (rw [hph] at hp; cases hp)

variable (k)

/-! ## The whole history -/

/-- What a run of concurrent stores leaves behind. -/
structure StoreHistory (rows : List Row) (s : Sys n) : Prop where
  oneOpen : k.OneOpen s.rows
  distinctIds : ∀ i j o p, i ≠ j → (s.calls i).phase.result = some o →
    (s.calls j).phase.result = some p → o.id ≠ p.id
  /-- The commits of the log are the successful calls with what they returned. -/
  successful : ∀ i o, (s.calls i).phase.result = some o ↔ ∃ c ∈ s.log, c.call = i ∧ c.outcome = o
  /-- The table holds the effect of these commits and nothing else. -/
  onlySuccessful : s.rows = k.replay rows s.log
  failed : ∀ i, (s.calls i).phase = .returned none → ∀ c ∈ s.log, c.call ≠ i
  /-- Version and superseded id come from the row open before the commit. -/
  version : ∀ pre c post, s.log = pre ++ c :: post →
    match k.openRow (k.replay rows pre) with
    | some r => c.outcome.version = r.version + 1 ∧ c.outcome.supersededId = some r.id
    | none => c.outcome.version = 1 ∧ c.outcome.supersededId = none
  /-- In commit order, each call supersedes the one before it. -/
  chain : s.log.IsChain fun c d => d.outcome.supersededId = some c.outcome.id

/-- **Concurrent stores on one path form one chain of versions.** -/
theorem storeHistory_of_reaches {rows : List Row} {nextId : Nat} {clock : Time} {s : Sys n}
    (hopen : k.OneOpen rows) (h : Reaches k.step (start rows nextId clock) s) :
    k.StoreHistory rows s := by
  obtain ⟨hl, hi, hg⟩ : k.Locks s ∧ Ids s ∧ k.Logged rows s :=
    h.invariant (P := fun s => k.Locks s ∧ Ids s ∧ k.Logged rows s)
      (fun _ _ _ ⟨hl, hi, hg⟩ _ hs => ⟨hl.step hs, hi.step k hs, hg.step hl hs⟩)
      ⟨locks_start hopen nextId clock, ids_start rows nextId clock, logged_start rows nextId clock⟩
  constructor
  · exact hl.oneOpen
  · intro i j o p hij ho hp he
    obtain ⟨c, hc, hci, hco⟩ := (hg.results i o).mp ho
    obtain ⟨d, hd, hdj, hdp⟩ := (hg.results j p).mp hp
    have hid : c.row.id = d.row.id := by
      rw [← hco, ← hdp] at he
      exact he
    exact hij (by rw [← hci, ← hdj, inj_on_of_nodup_map hi.log_nodup hc hd hid])
  · exact hg.results
  · exact hg.replayed
  · intro i hf c hc hci
    have := (hg.results i c.outcome).mpr ⟨c, hc, hci, rfl⟩
    rw [hf] at this
    cases this
  · intro pre c post hsplit
    obtain ⟨hclosed, hver⟩ := hg.linked pre c post hsplit
    cases ho : k.openRow (k.replay rows pre) <;> rw [ho] at hclosed hver <;> exact ⟨hver, hclosed⟩
  · exact hg.chained

def twoWriters : Contention 2 where
  tenantId := "t"
  path := ⟨["root", "x"]⟩
  columns := fun i => plainColumns ⟨["root", "x"]⟩ (if i = 0 then "a" else "b")
  samePath := fun _ => rfl

def firstWriter : Fin 2 := 0

def secondWriter : Fin 2 := 1

/-- The second writer waits, meets the index, and retries. -/
def firstInsertRace : List (Action 2) :=
  [.begin firstWriter 1, .begin secondWriter 2,
   .closeStart firstWriter, .closeRun firstWriter, .closeStart secondWriter, .closeRun secondWriter,
   .insertStart firstWriter, .insertRun firstWriter, .insertStart secondWriter,
   .commit firstWriter, .insertRun secondWriter,
   .begin secondWriter 3, .closeStart secondWriter, .closeRun secondWriter,
   .insertStart secondWriter, .insertRun secondWriter, .commit secondWriter]

theorem storeHistory_firstInsertRace :
    ∃ s, runAll twoWriters.step (start [] 1 0) firstInsertRace = some s ∧
      twoWriters.StoreHistory [] s ∧
      s.log.map Commit.outcome = [⟨1, 1, none⟩, ⟨3, 2, some 1⟩] := by
  obtain ⟨s, hs, hlog⟩ : ∃ s ∈ runAll twoWriters.step (start [] 1 0) firstInsertRace,
      s.log.map Commit.outcome = [⟨1, 1, none⟩, ⟨3, 2, some 1⟩] := by decide
  exact ⟨s, hs, storeHistory_of_reaches twoWriters (by decide) (reaches_runAll (.refl _) hs), hlog⟩

end Pcmi.Memory.Contention
