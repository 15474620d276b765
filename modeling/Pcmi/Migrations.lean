import Mathlib.Data.Fintype.Basic
import Mathlib.Data.List.Sort
import Mathlib.Data.String.Basic
import Pcmi.Lib.Separated
import Pcmi.Lib.Slots
import Pcmi.Lib.Steps

/-!
# Migrations (`cmd/migrate/main.go`)

`n` runs of `runMigrations` over one directory, interleaved step by step. There is no lock: a run
goes by the list of applied files that it has read first. A file's SQL and its row in
`schema_migrations` are one transaction. The insert of the row waits while another transaction has
inserted the same name, and fails on a committed one.
-/

namespace Pcmi.Migrations

open List Pcmi.Lib

structure DirEntry where
  name : String
  isDir : Bool

/-- The names of a directory are unique. -/
structure Directory where
  entries : List DirEntry
  unique : (entries.map (·.name)).Nodup

/-- The files of a run, after `sort.Strings`. -/
def Directory.sqlFiles (dir : Directory) : List String :=
  ((dir.entries.filter fun e => !e.isDir && ".sql".toList.isSuffixOf e.name.toList).map
    (·.name)).insertionSort (· ≤ ·)

/-- What the transaction of the next file has done. -/
inductive Stage where
  /-- It is not begun. -/
  | next
  | begun
  /-- The SQL of the file. -/
  | executed
  /-- The row, too. -/
  | recorded
  deriving DecidableEq

inductive Run where
  | unstarted
  | working (alreadyApplied files : List String) (stage : Stage)
  /-- `nil`. -/
  | returned
  /-- With an error, or crashed. -/
  | failed
  deriving DecidableEq

structure State (n : Nat) where
  /-- The committed SQL. -/
  log : List String
  schemaMigrations : List String
  runs : Fin n → Run

inductive Action where
  /-- The query at the start. It may end early, and a name that cannot be scanned is empty. -/
  | start (alreadyApplied : List String)
  | skip
  | begin
  | exec
  | record
  /-- `reported` is false if the run gets an error for a commit that is done. -/
  | commit (reported : Bool)
  /-- An error of any statement, or a crash: the transaction is rolled back. -/
  | fail
  | finish

/-- The name that a run has inserted and not committed. -/
def Run.held : Run → Option String
  | .working _ todo .recorded => todo.head?
  | _ => none

namespace State

variable {n : Nat}

def start : State n := ⟨[], [], fun _ => .unstarted⟩

def put (s : State n) (i : Fin n) (r : Run) : State n :=
    { s with runs := Function.update s.runs i r }

def step (files : List String) (s : State n) : Fin n × Action → Option (State n)
  | (i, a) =>
    match a, s.runs i with
    | .start applied, .unstarted =>
      if ∀ f ∈ applied, f = "" ∨ f ∈ s.schemaMigrations then
        some (s.put i (.working applied files .next))
      else none
    | .skip, .working applied (f :: todo) .next =>
      if f ∈ applied then some (s.put i (.working applied todo .next)) else none
    | .begin, .working applied (f :: todo) .next =>
      if f ∈ applied then none else some (s.put i (.working applied (f :: todo) .begun))
    | .exec, .working applied todo .begun => some (s.put i (.working applied todo .executed))
    | .record, .working applied (f :: todo) .executed =>
      if ∃ j, (s.runs j).held = some f then none
      else if f ∈ s.schemaMigrations then some (s.put i .failed)
      else some (s.put i (.working applied (f :: todo) .recorded))
    | .commit reported, .working applied (f :: todo) .recorded =>
      some { s.put i (if reported then .working applied todo .next else .failed) with
        log := s.log ++ [f], schemaMigrations := s.schemaMigrations ++ [f] }
    | .fail, .working .. => some (s.put i .failed)
    | .finish, .working _ [] .next => some (s.put i .returned)
    | _, _ => none

end State

/-! ## The invariant -/

section

variable (files log : List String)

/-- The files behind a run are committed. -/
def Run.Passed : Run → Prop
  | .working applied todo _ => (∀ f ∈ applied, f = "" ∨ f ∈ log) ∧
      ∃ passed, files = passed ++ todo ∧ passed ⊆ log
  | .returned => files ⊆ log
  | _ => True

structure Inv {n : Nat} (s : State n) : Prop where
  recorded : s.schemaMigrations = s.log
  order : s.log <+: files
  runs : ∀ i, (s.runs i).Passed files s.log
  held : ∀ i f, (s.runs i).held = some f → f ∉ s.log
  alone : ∀ i j f, (s.runs i).held = some f → (s.runs j).held = some f → j = i

end

variable {n : Nat} {files : List String} {s s' : State n} {i : Fin n} {f : String}

theorem Run.Passed.mono {log log' : List String} {r : Run} (h : r.Passed files log)
    (hlog : log ⊆ log') : r.Passed files log' := by
  cases r with
  | working applied todo stage =>
    obtain ⟨happlied, passed, heq, hpassed⟩ := h
    exact ⟨fun f hf => (happlied f hf).imp_right (@hlog f), passed, heq, Subset.trans hpassed hlog⟩
  | returned => exact Subset.trans h hlog
  | _ => trivial

theorem Inv.of_update (h : Inv files s) {r : Run} (hruns : s'.runs = Function.update s.runs i r)
    (hrecorded : s'.schemaMigrations = s'.log) (hlog : s.log ⊆ s'.log) (horder : s'.log <+: files)
    (hr : r.Passed files s'.log) (hheld : ∀ f, r.held = some f → f ∉ s'.log)
    (hothers : ∀ j ≠ i, ∀ f, (s.runs j).held = some f → f ∉ s'.log ∧ r.held ≠ some f) :
    Inv files s' := by
  refine ⟨hrecorded, horder, ?_, ?_, fun j k f hj hk => ?_⟩
  · rw [hruns]
    exact (Function.forall_update_iff _ _).mpr ⟨hr, fun j _ => (h.runs j).mono hlog⟩
  · rw [hruns]
    exact (Function.forall_update_iff _ fun _ (r : Run) => ∀ f, r.held = some f → f ∉ s'.log).mpr
      ⟨hheld, fun j hj f hf => (hothers j hj f hf).1⟩
  · rw [hruns, Function.update_apply] at hj hk
    split at hj <;> split at hk
    · next hji hki => rw [hji, hki]
    · next hne => exact absurd hj (hothers k hne f hk).2
    · next hne _ => exact absurd hk (hothers j hne f hj).2
    · exact h.alone j k f hj hk

/-- A step that commits nothing and leaves no row behind. -/
theorem Inv.put (h : Inv files s) {r : Run} (hr : r.Passed files s.log) (hheld : r.held = none) :
    Inv files (s.put i r) :=
  h.of_update rfl h.recorded (Subset.refl _) h.order hr (fun f hf => by rw [hheld] at hf; cases hf)
    fun j _ f hf => ⟨h.held j f hf, by rw [hheld]; exact nofun⟩

/-- What is committed when a run is about to commit a file. -/
theorem Inv.log_eq (h : Inv files s) (hfiles : files.Nodup) {passed todo : List String}
    (heq : files = passed ++ f :: todo) (hpassed : passed ⊆ s.log) (hf : f ∉ s.log) :
    s.log = passed := by
  have hpre := h.order
  rw [heq] at hpre hfiles
  have hpre := (isPrefix_append_cons_iff hf).mp hpre
  have hnodup := (nodup_append.mp hfiles).1
  exact hpre.eq_of_length_le (subperm_of_subset hnodup hpassed).length_le

theorem Inv.step (hfiles : files.Nodup) (hempty : "" ∉ files) {a : Fin n × Action} (h : Inv files s)
    (hstep : s.step files a = some s') : Inv files s' := by
  obtain ⟨i, a⟩ := a
  have hi := h.runs i
  unfold State.step at hstep
  dsimp only at hstep
  split at hstep
  · next applied hrun =>
    split at hstep <;> cases hstep
    next happlied => exact h.put ⟨h.recorded ▸ happlied, [], rfl, nil_subset _⟩ rfl
  · next applied f todo hrun =>
    rw [hrun] at hi
    split at hstep <;> cases hstep
    next hmem =>
    obtain ⟨happlied, passed, heq, hpassed⟩ := hi
    have hf : f ∈ s.log := by
      rcases happlied f hmem with rfl | hf
      · exact absurd (heq ▸ mem_append_right _ mem_cons_self) hempty
      · exact hf
    refine h.put ⟨happlied, passed ++ [f], ?_, forall_mem_concat hpassed hf⟩ rfl
    rw [heq, append_assoc, singleton_append]
  · next applied f todo hrun =>
    rw [hrun] at hi
    split at hstep <;> cases hstep
    exact h.put hi rfl
  · next applied todo hrun =>
    rw [hrun] at hi
    cases hstep
    exact h.put hi rfl
  · next applied f todo hrun =>
    rw [hrun] at hi
    split at hstep
    · cases hstep
    next hfree =>
    split at hstep <;> cases hstep
    · exact h.put trivial rfl
    next hnew =>
    rw [h.recorded] at hnew
    refine h.of_update rfl h.recorded (Subset.refl _) h.order hi ?_ fun j _ g hg => ?_
    · intro g hg
      cases hg
      exact hnew
    · refine ⟨h.held j g hg, fun heq => hfree ⟨j, ?_⟩⟩
      rw [hg]
      exact heq.symm
  · next reported applied f todo hrun =>
    have hheld : (s.runs i).held = some f := by
      rw [hrun]
      rfl
    rw [hrun] at hi
    cases hstep
    obtain ⟨happlied, passed, heq, hpassed⟩ := hi
    obtain rfl := h.log_eq hfiles heq hpassed (h.held i f hheld)
    have hsub : s.log ⊆ s.log ++ [f] := subset_append_left _ _
    have hfiles : files = s.log ++ [f] ++ todo := by rw [heq, append_assoc, singleton_append]
    have hnone : (if reported then Run.working applied todo .next else .failed).held = none := by
      cases reported <;> rfl
    refine h.of_update rfl (congrArg (· ++ [f]) h.recorded) hsub ⟨todo, hfiles.symm⟩ ?_ ?_ ?_
    · cases reported with
      | false => trivial
      | true =>
        exact ⟨fun g hg => (happlied g hg).imp_right (@hsub g), s.log ++ [f], hfiles, Subset.refl _⟩
    · rw [hnone]
      exact nofun
    · intro j hj g hg
      refine ⟨fun hmem => ?_, by rw [hnone]; exact nofun⟩
      rcases mem_append.mp hmem with hmem | hmem
      · exact h.held j g hg hmem
      · rw [mem_singleton.mp hmem] at hg
        exact hj (h.alone i j f hheld hg)
  · cases hstep
    exact h.put trivial rfl
  · next applied hrun =>
    rw [hrun] at hi
    cases hstep
    obtain ⟨-, passed, heq, hpassed⟩ := hi
    rw [append_nil] at heq
    exact h.put (heq ▸ hpassed) rfl
  · cases hstep

/-! ## The files -/

theorem Directory.nodup_sqlFiles (dir : Directory) : dir.sqlFiles.Nodup :=
  (perm_insertionSort _ _).nodup_iff.mpr (dir.unique.sublist (filter_sublist.map _))

theorem Directory.sqlFiles_ascending (dir : Directory) : dir.sqlFiles.Pairwise (· < ·) :=
  ((pairwise_insertionSort (· ≤ ·) _).and dir.nodup_sqlFiles).imp fun h => lt_of_le_of_ne h.1 h.2

theorem Directory.empty_notMem_sqlFiles (dir : Directory) : "" ∉ dir.sqlFiles := by
  intro h
  obtain ⟨e, he, hname⟩ := mem_map.mp ((mem_insertionSort _).mp h)
  have hsuffix := (Bool.and_eq_true_iff.mp (mem_filter.mp he).2).2
  rw [hname] at hsuffix
  revert hsuffix
  decide

/-- **Migrations are applied once, in order, and completely**: every file's SQL is committed at most
once and exactly if it is recorded, in ascending order, and a run that returns `nil` leaves all of
them recorded. -/
theorem migrations_once (dir : Directory) {s : State n}
    (h : Reaches (State.step dir.sqlFiles) State.start s) :
    s.log.Nodup ∧ (∀ f, f ∈ s.schemaMigrations ↔ f ∈ s.log) ∧ s.log.Pairwise (· < ·) ∧
      ∀ i, s.runs i = .returned → ∀ f ∈ dir.sqlFiles, f ∈ s.schemaMigrations := by
  have hinv : Inv dir.sqlFiles s :=
    h.invariant (P := Inv dir.sqlFiles)
      (fun _ _ _ hu _ => hu.step dir.nodup_sqlFiles dir.empty_notMem_sqlFiles)
      ⟨rfl, nil_prefix, fun _ => trivial, nofun, nofun⟩
  have hsub := hinv.order.sublist
  refine ⟨dir.nodup_sqlFiles.sublist hsub, fun f => by rw [hinv.recorded],
    dir.sqlFiles_ascending.sublist hsub, fun i hi f hf => ?_⟩
  have hpassed := hinv.runs i
  rw [hi] at hpassed
  rw [hinv.recorded]
  exact hpassed hf

def twoMigrations : Directory :=
  ⟨[⟨"002_b.sql", false⟩, ⟨"001_a.sql", false⟩, ⟨"README.md", false⟩], by decide⟩

/-- Both runs find nothing applied; the second fails on the row of the first. -/
def overlapping : List (Fin 2 × Action) :=
  let first : Action → Fin 2 × Action := (⟨0, Nat.zero_lt_two⟩, ·)
  let second : Action → Fin 2 × Action := (⟨1, Nat.one_lt_two⟩, ·)
  [first (.start []), second (.start []), first .begin, second .begin, first .exec, second .exec,
    first .record, first (.commit true), second .record, first .begin, first .exec, first .record,
    first (.commit true), first .finish]

theorem migrations_once_overlapping :
    ∃ s : State 2, (∃ i, s.runs i = .returned) ∧ (∃ i, s.runs i = .failed) ∧
      s.log = ["001_a.sql", "002_b.sql"] ∧ s.log.Nodup := by
  obtain ⟨s, hs, hreturned, hfailed, hlog⟩ : ∃ s : State 2,
      Reaches (State.step twoMigrations.sqlFiles) State.start s ∧
        (∃ i, s.runs i = .returned) ∧ (∃ i, s.runs i = .failed) ∧
        s.log = ["001_a.sql", "002_b.sql"] := exists_reaches overlapping (by decide +kernel)
  exact ⟨s, hreturned, hfailed, hlog, (migrations_once twoMigrations hs).1⟩

end Pcmi.Migrations
