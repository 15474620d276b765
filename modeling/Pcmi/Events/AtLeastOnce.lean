import Pcmi.Events.NoLoss

/-!
# The work behind a message

The handler starts a goroutine for every call of `handleMemoryEvent` and returns `nil` at once, so a
message is acknowledged while its work is to be done, and a crash loses the work.
-/

namespace Pcmi.Events

open Pcmi.Lib Option

/-! ## Goroutines -/

/-- The checks at the head of a call. (`parentPrefix` is never empty.) -/
def WorkerCall.starts : WorkerCall → Bool
  | .policyEngine tenantId _ => tenantId ≠ ""
  | .consolidation tenantId path | .contradiction tenantId path => tenantId ≠ "" ∧ path ≠ ""
  | .extraction tenantId path memoryId _ => tenantId ≠ "" ∧ path ≠ "" ∧ 0 < memoryId
  | .distillation _ _ => true

/-- The tenant of a policy evaluation. -/
def WorkerCall.evaluates : WorkerCall → Option String
  | .policyEngine tenantId _ => some tenantId
  | .consolidation .. | .contradiction .. | .extraction .. | .distillation .. => none

structure Attempt where
  id : String
  process : Nat
  running : List WorkerCall
  /-- A goroutine of it was gone before it had finished. -/
  lost : Bool := false

def Attempt.Finished (a : Attempt) : Prop := a.running.isEmpty = true ∧ a.lost = false

instance (a : Attempt) : Decidable a.Finished := inferInstanceAs (Decidable (_ ∧ _))

def Attempt.crash (process : Nat) (a : Attempt) : Attempt :=
  if a.process = process ∧ a.running.isEmpty = false then { a with running := [], lost := true }
  else a

structure Worker where
  stream : Stream
  attempts : List Attempt

def Worker.start (n : Nat) : Worker := ⟨.start n, []⟩

/-- Some call of the handler for the message has got all its work done. -/
def Worker.Finished (w : Worker) (id : String) : Prop := ∃ a ∈ w.attempts, a.id = id ∧ a.Finished

instance (w : Worker) (id : String) : Decidable (w.Finished id) :=
  inferInstanceAs (Decidable (∃ a ∈ w.attempts, _ ∧ _))

inductive WorkerAction where
  | stream (a : StreamAction)
  | finish (attempt call : Nat)
  /-- A policy evaluation triggers a distillation, in a goroutine of its own. -/
  | trigger (attempt : Nat) (pathPrefix : String)

/-- What `streamHandler` starts for the next message of a loop. -/
def Loop.attempts (cfg : WorkerConfig) (l : Loop) : List Attempt :=
  match l.phase with
  | .processing (⟨msg, false⟩ :: _) =>
    match decodeStreamMessage msg with
    | .ok evt => [⟨msg.id, l.process, (handleMemoryEvent cfg evt).filter WorkerCall.starts, false⟩]
    | .error _ => []
  | _ => []

def Worker.attemptsAfter (cfg : WorkerConfig) (w : Worker) : StreamAction → List Attempt
  | .loop i (.handle _) => w.attempts ++ (w.stream.loops[i]?).toList.flatMap (Loop.attempts cfg)
  | .crash process => w.attempts.map (Attempt.crash process)
  | _ => w.attempts

/-- `streamHandler` returns `nil` whatever happens. -/
def StreamAction.ReturnsNil : StreamAction → Prop
  | .loop _ (.handle ok) => ok = true
  | _ => True

instance : (a : StreamAction) → Decidable a.ReturnsNil
  | .loop _ (.handle ok) => inferInstanceAs (Decidable (ok = true))
  | .loop _ (.xreadgroup ..) | .loop _ .xpending | .loop _ (.xclaim ..) | .loop _ .abort
  | .loop _ (.moveToDLQ ..) | .loop _ (.xack _) | .publish _ | .crash _ => isTrue trivial

def Worker.step (cfg : WorkerConfig) (w : Worker) : WorkerAction → Option Worker
  | .stream a =>
    if a.ReturnsNil then (w.stream.step a).map fun s => ⟨s, w.attemptsAfter cfg a⟩ else none
  | .finish k call =>
    (w.attempts[k]?).bind fun a =>
      if call < a.running.length then
        some { w with attempts := w.attempts.set k { a with running := a.running.eraseIdx call } }
      else none
  | .trigger k pathPrefix =>
    (w.attempts[k]?).bind fun a =>
      (a.running.findSome? WorkerCall.evaluates).map fun tenantId =>
        let running := a.running ++ [.distillation tenantId pathPrefix]
        { w with attempts := w.attempts.set k { a with running } }

/-! ## At least once -/

def Stream.acking (s : Stream) (i : Nat) : Option (String × Cause) :=
  (s.loops[i]?).bind fun l => l.phase.ack

/-- The `XACK` behind a handler waits for the work of its message. -/
def AcksFinished (w : Worker) : WorkerAction → Prop
  | .stream (.loop i (.xack _)) => ∀ p ∈ w.stream.acking i, p.2 = .handled → w.Finished p.1
  | _ => True

instance (w : Worker) : (a : WorkerAction) → Decidable (AcksFinished w a)
  | .stream (.loop i (.xack _)) =>
    inferInstanceAs (Decidable (∀ p ∈ w.stream.acking i, p.2 = .handled → w.Finished p.1))
  | .stream (.loop _ (.handle _)) | .stream (.loop _ (.xreadgroup ..)) | .stream (.loop _ .xpending)
  | .stream (.loop _ (.xclaim ..)) | .stream (.loop _ .abort) | .stream (.loop _ (.moveToDLQ ..))
  | .stream (.publish _) | .stream (.crash _) | .finish .. | .trigger .. => isTrue trivial

/-- What is not pending any more is finished, dead or could not be decoded. -/
structure Done (w : Worker) : Prop where
  accounted : Accounted w.stream
  kept : ∀ msg ∈ w.stream.group.read, w.stream.group.Pending msg.id ∨ w.Finished msg.id ∨
    w.stream.Justified msg.id .deadLetter ∨ w.stream.Justified msg.id .undecodable

section

variable {cfg : WorkerConfig} {w w' : Worker}

theorem Attempt.Finished.crash {a : Attempt} (h : a.Finished) (process : Nat) :
    a.crash process = a := by
  unfold Attempt.crash
  refine if_neg fun hcrash => ?_
  rw [h.1] at hcrash
  cases hcrash.2

theorem Worker.Finished.set {id : String} {k : Nat} {a a' : Attempt}
    (h : w.Finished id) (hk : w.attempts[k]? = some a) (hrunning : a.running ≠ []) :
    Worker.Finished { w with attempts := w.attempts.set k a' } id := by
  obtain ⟨b, hb, hid, hfinished⟩ := h
  rcases mem_set_of_mem hk hb a' with rfl | hmem
  · exact absurd (List.isEmpty_iff.mp hfinished.1) hrunning
  · exact ⟨b, hmem, hid, hfinished⟩

theorem Worker.Finished.attemptsAfter {id : String} (h : w.Finished id) (s : Stream)
    (a : StreamAction) : Worker.Finished ⟨s, w.attemptsAfter cfg a⟩ id := by
  obtain ⟨b, hb, hid, hfinished⟩ := h
  unfold Worker.attemptsAfter
  split
  · exact ⟨b, List.mem_append_left _ hb, hid, hfinished⟩
  · next process =>
    exact ⟨b, List.mem_map.mpr ⟨b, hb, hfinished.crash process⟩, hid, hfinished⟩
  · exact ⟨b, hb, hid, hfinished⟩

theorem Done.start (n : Nat) : Done (.start n) := ⟨.start n, nofun⟩

theorem Done.leaves (h : Done w) {a : StreamAction} (hok : AcksFinished w (.stream a)) {s : Stream}
    (hs : w.stream.step a = some s) {id : String} (hp : w.stream.group.Pending id)
    (hnot : ¬ s.group.Pending id) :
    w.Finished id ∨ w.stream.Justified id .deadLetter ∨ w.stream.Justified id .undecodable := by
  obtain ⟨i, l, cause, rfl, hl, hack⟩ := Stream.pending_step hs hp hnot
  have hjust := h.accounted.ack l (List.mem_of_getElem? hl) id cause hack
  cases cause with
  | handled =>
    refine Or.inl (hok (id, .handled) ?_ rfl)
    exact bind_eq_some_iff.mpr ⟨l, hl, hack⟩
  | deadLetter => exact Or.inr (Or.inl hjust)
  | undecodable => exact Or.inr (Or.inr hjust)

theorem Done.stream (h : Done w) {a : StreamAction} (hok : AcksFinished w (.stream a)) {s : Stream}
    (hs : w.stream.step a = some s) : Done ⟨s, w.attemptsAfter cfg a⟩ := by
  refine ⟨h.accounted.step hs, fun msg hread => ?_⟩
  by_cases hp' : s.group.Pending msg.id
  · exact Or.inl hp'
  have hbefore := (Stream.read_step hs hread).resolve_right hp'
  have hreason : w.Finished msg.id ∨ w.stream.Justified msg.id .deadLetter ∨
      w.stream.Justified msg.id .undecodable := by
    rcases h.kept msg hbefore with hp | hreason
    · exact h.leaves hok hs hp hp'
    · exact hreason
  have hgrows := Stream.grows_step hs
  rcases hreason with hfinished | hdead | hundecodable
  · exact Or.inr (Or.inl (hfinished.attemptsAfter s a))
  · exact Or.inr (Or.inr (Or.inl (hdead.mono hgrows)))
  · exact Or.inr (Or.inr (Or.inr (hundecodable.mono hgrows)))

theorem Done.set (h : Done w) {k : Nat} {a a' : Attempt} (hk : w.attempts[k]? = some a)
    (hrunning : a.running ≠ []) : Done { w with attempts := w.attempts.set k a' } := by
  refine ⟨h.accounted, fun msg hread => ?_⟩
  rcases h.kept msg hread with hp | hfinished | hreason
  · exact Or.inl hp
  · exact Or.inr (Or.inl (hfinished.set hk hrunning))
  · exact Or.inr (Or.inr hreason)

theorem Done.step (h : Done w) {a : WorkerAction} (hok : AcksFinished w a)
    (hs : w.step cfg a = some w') : Done w' := by
  cases a with
  | stream a =>
    unfold Worker.step at hs
    dsimp only at hs
    split at hs
    · obtain ⟨s, hstream, rfl⟩ := map_eq_some_iff.mp hs
      exact h.stream hok hstream
    · cases hs
  | finish k call =>
    obtain ⟨a, hk, hset⟩ := bind_eq_some_iff.mp hs
    split at hset <;> cases hset
    next hcall => exact h.set hk (List.ne_nil_of_length_pos (Nat.zero_lt_of_lt hcall))
  | trigger k pathPrefix =>
    obtain ⟨a, hk, hset⟩ := bind_eq_some_iff.mp hs
    obtain ⟨tenantId, hpolicy, rfl⟩ := map_eq_some_iff.mp hset
    refine h.set hk fun hnil => ?_
    rw [hnil] at hpolicy
    cases hpolicy

/-- **The work is done at least once** if the acknowledgement waits for it: it is finished, or the
message is pending or a dead letter. -/
theorem worker_at_least_once {n : Nat} (hrun : Steps (Worker.step cfg) AcksFinished (.start n) w)
    {msg : StreamMessage} {evt : Event} (hread : msg ∈ w.stream.group.read)
    (hdecode : decodeStreamMessage msg = .ok evt) :
    w.Finished msg.id ∨ w.stream.group.Pending msg.id ∨ msg.id ∈ w.stream.group.dlq := by
  have hdone : Done w := hrun.invariant (fun _ _ _ h hok hs => h.step hok hs) (.start n)
  rcases hdone.kept msg hread with hp | hfinished | hdead | hundecodable
  · exact Or.inr (Or.inl hp)
  · exact Or.inl hfinished
  · exact Or.inr (Or.inr hdead)
  · exact absurd hundecodable (not_justified_undecodable (List.mem_of_mem_take hread) hdecode)

end

def extracting : WorkerConfig := ⟨false, false, true⟩

def workerAfter (acts : List WorkerAction) : Worker :=
  (runAll (Worker.step extracting) (.start 1) acts).getD (.start 1)

def handleStored : List WorkerAction :=
  [.stream (.publish storedMessage), .stream (.loop 0 (.xreadgroup 0 true)),
   .stream (.loop 0 (.handle true))]

def finishThenAck : List WorkerAction :=
  handleStored ++ [.finish 0 0, .finish 0 0, .stream (.loop 0 (.xack true)), .stream (.crash 0)]

theorem finished_work_survives :
    ¬ (workerAfter finishThenAck).stream.group.Pending "1-0" ∧
      ((workerAfter finishThenAck).Finished "1-0" ∨
        (workerAfter finishThenAck).stream.group.Pending "1-0" ∨
        "1-0" ∈ (workerAfter finishThenAck).stream.group.dlq) := by
  have hrun : Steps (Worker.step extracting) AcksFinished (.start 1) (workerAfter finishThenAck) :=
    steps_runAll (.refl _)
      (show runAll (guarded _ AcksFinished) _ finishThenAck = some _ from rfl)
  have hread : storedMessage ∈ (workerAfter finishThenAck).stream.group.read :=
    List.mem_singleton_self storedMessage
  exact ⟨by decide, worker_at_least_once hrun hread rfl⟩

def ackThenCrash : List WorkerAction :=
  handleStored ++ [.stream (.loop 0 (.xack true)), .stream (.crash 0)]

/-- **The work of a stored memory is lost.** -/
theorem acknowledged_work_lost :
    ∃ w, Reaches (Worker.step extracting) (.start 1) w ∧ storedMessage ∈ w.stream.group.read ∧
      (∃ evt, decodeStreamMessage storedMessage = .ok evt ∧ evt.type = "memory.stored") ∧
      w.attempts.map (fun a => (a.id, a.lost)) = [("1-0", true)] ∧
      ¬ w.Finished "1-0" ∧ ¬ w.stream.group.Pending "1-0" ∧ "1-0" ∉ w.stream.group.dlq := by
  refine ⟨workerAfter ackThenCrash, reaches_getD _ (by decide), ?_, ⟨_, rfl, by decide⟩, by decide,
    by decide, by decide, by decide⟩
  exact List.mem_singleton_self storedMessage

end Pcmi.Events
