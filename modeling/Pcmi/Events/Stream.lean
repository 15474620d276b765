import Pcmi.Events.Delivery
import Pcmi.Lib.Slots
import Pcmi.Lib.Steps

/-!
# Consuming the event stream

The workers read one Redis stream as a consumer group. Each process has two loops: `Consume` reads
new entries, `recoverPending` claims pending ones that have been idle for a minute, maybe still in
the hands of another loop. Every Redis command is a step, and a process may crash between two.

Which consumer a pending entry belongs to is left out: no command depends on it.
-/

namespace Pcmi.Events

open List Pcmi.Lib

/-- `defaultBatch` and `pendingClaimBatch`. -/
def defaultBatch : Nat := 10

def maxDeliveries : Nat := 5

def pendingMinIdle : Time := 60 * second

/-! ## The consumer group -/

structure PendingEntry where
  id : String
  retryCount : Nat
  deliveredAt : Time

def PendingEntry.Idle (now : Time) (p : PendingEntry) : Prop := pendingMinIdle ≤ now - p.deliveredAt

instance (now : Time) (p : PendingEntry) : Decidable (p.Idle now) :=
  inferInstanceAs (Decidable (_ ≤ _))

/-- The stream, how far it is read, the pending list and dead letters. -/
structure Group where
  entries : List StreamMessage
  unique : (entries.map StreamMessage.id).Nodup
  delivered : Nat
  bounded : delivered ≤ entries.length
  pending : List PendingEntry
  dlq : List String

namespace Group

def read (g : Group) : List StreamMessage := g.entries.take g.delivered

def unread (g : Group) : List StreamMessage := (g.entries.drop g.delivered).take defaultBatch

def Pending (g : Group) (id : String) : Prop := ∃ p ∈ g.pending, p.id = id

instance (g : Group) (id : String) : Decidable (g.Pending id) :=
  inferInstanceAs (Decidable (∃ p ∈ g.pending, _))

def publish (g : Group) (msg : StreamMessage) (h : msg.id ∉ g.entries.map StreamMessage.id) :
    Group :=
  { g with
    entries := g.entries ++ [msg]
    unique := by
      rw [map_append]
      refine nodup_append'.mpr ⟨g.unique, nodup_singleton _, ?_⟩
      exact disjoint_singleton.mpr h
    bounded := g.bounded.trans (by simp) }

/-- `XREADGROUP` of new entries. -/
def xreadgroup (g : Group) (now : Time) : Group :=
  { g with
    delivered := g.delivered + g.unread.length
    bounded := by
      have hbounded := g.bounded
      have hlength : g.unread.length ≤ g.entries.length - g.delivered := by simp [unread]
      omega
    pending := g.pending ++ g.unread.map fun msg => ⟨msg.id, 1, now⟩ }

/-- `XPENDING - + 10`: ids with their delivery counts. -/
def xpending (g : Group) : List (String × Nat) :=
  (g.pending.take defaultBatch).map fun p => (p.id, p.retryCount)

/-- An entry that `XCLAIM` takes: still pending and idle. -/
def Claims (ids : List String) (now : Time) (p : PendingEntry) : Prop := p.id ∈ ids ∧ p.Idle now

instance (ids : List String) (now : Time) (p : PendingEntry) : Decidable (Claims ids now p) :=
  inferInstanceAs (Decidable (_ ∧ _))

/-- `XCLAIM`, on the pending list. -/
def xclaim (g : Group) (ids : List String) (now : Time) : Group :=
  { g with
    pending := g.pending.map fun p =>
      if Claims ids now p then { p with retryCount := p.retryCount + 1, deliveredAt := now }
      else p }

/-- `XCLAIM`, its reply. -/
def claimed (g : Group) (ids : List String) (now : Time) : List StreamMessage :=
  g.entries.filter fun msg => ∃ p ∈ g.pending, p.id = msg.id ∧ Claims ids now p

def xack (g : Group) (id : String) : Group :=
  { g with pending := g.pending.filter fun p => p.id ≠ id }

def addToDLQ (g : Group) (id : String) : Group := { g with dlq := g.dlq ++ [id] }

theorem read_publish (g : Group) (msg : StreamMessage)
    (h : msg.id ∉ g.entries.map StreamMessage.id) :
    (g.publish msg h).read = g.read :=
  take_append_of_le_length g.bounded

theorem read_xreadgroup (g : Group) (now : Time) :
    (g.xreadgroup now).read = g.read ++ g.unread := by
  have htake : ∀ (l : List StreamMessage) (n : Nat), l.take (l.take n).length = l.take n := by
    intro l n
    simp [take_eq_take_iff]
  refine take_add.trans ?_
  exact congrArg (g.read ++ ·) (htake _ defaultBatch)

variable {id : String}

theorem pending_xreadgroup (g : Group) (now : Time) :
    (g.xreadgroup now).Pending id ↔ g.Pending id ∨ ∃ msg ∈ g.unread, msg.id = id := by
  simp [Pending, xreadgroup, or_and_right, exists_or]

theorem pending_xclaim (g : Group) (ids : List String) (now : Time) :
    (g.xclaim ids now).Pending id ↔ g.Pending id := by
  have hid : ∀ p : PendingEntry,
      (if Claims ids now p then { p with retryCount := p.retryCount + 1, deliveredAt := now }
        else p).id = p.id := by
    intro p
    split <;> rfl
  simp [Pending, xclaim, hid]

theorem pending_xack (g : Group) {id' : String} :
    (g.xack id).Pending id' ↔ g.Pending id' ∧ id' ≠ id := by
  simp only [Pending, xack, mem_filter, decide_eq_true_eq]
  constructor
  · rintro ⟨p, ⟨hp, hne⟩, rfl⟩
    exact ⟨⟨p, hp, rfl⟩, hne⟩
  · rintro ⟨⟨p, hp, rfl⟩, hne⟩
    exact ⟨p, ⟨hp, hne⟩, rfl⟩

end Group

/-! ## The loops -/

/-- A message to process; `exhausted` when delivered too often. -/
structure Task where
  msg : StreamMessage
  exhausted : Bool := false

inductive Cause where
  | handled
  | undecodable
  | deadLetter
  deriving DecidableEq

/-- Where a loop is. Without tasks it waits for the next round. -/
inductive Phase where
  | processing (todo : List Task)
  | acking (id : String) (cause : Cause) (todo : List Task)
  /-- Between `XPENDING` and `XCLAIM`. -/
  | polled (counts : List (String × Nat))

def Phase.todo : Phase → List Task
  | .processing todo | .acking _ _ todo => todo
  | .polled _ => []

/-- A loop of a process: that of `Consume` or that of `recoverPending`. -/
structure Loop where
  process : Nat
  recovery : Bool
  phase : Phase := .processing []

inductive LoopAction where
  /-- With `reply = false` Redis executes the command and the reply is lost. -/
  | xreadgroup (now : Time) (reply : Bool)
  | xpending
  | xclaim (now : Time) (reply : Bool)
  /-- The command behind `XPENDING` fails. -/
  | abort
  /-- The handler returns, with `nil` or an error. -/
  | handle (ok : Bool)
  /-- Whether the entry is added, and whether the loop learns of it. -/
  | moveToDLQ (added replied : Bool)
  | xack (applied : Bool)
  deriving DecidableEq

/-- The next phase, the group, and the message handled without error. -/
structure Outcome where
  phase : Phase
  group : Group
  handled : Option String := none

def tasks (msgs : List StreamMessage) (exhausted : StreamMessage → Bool) : List Task :=
  msgs.map fun msg => ⟨msg, exhausted msg⟩

def Loop.next (g : Group) (l : Loop) : LoopAction → Option Outcome
  | .xreadgroup now reply =>
    match l.recovery, l.phase with
    | false, .processing [] =>
      some ⟨.processing (if reply then tasks g.unread fun _ => false else []),
        g.xreadgroup now, none⟩
    | _, _ => none
  | .xpending =>
    match l.recovery, l.phase with
    | true, .processing [] =>
      match g.xpending with
      | [] => some ⟨.processing [], g, none⟩
      | counts => some ⟨.polled counts, g, none⟩
    | _, _ => none
  | .xclaim now reply =>
    match l.phase with
    | .polled counts =>
      let ids := counts.map Prod.fst
      let deliveryByID := fun id => (counts.lookup id).getD 0
      let exhausted := fun msg : StreamMessage => decide (maxDeliveries ≤ deliveryByID msg.id)
      some ⟨.processing (if reply then tasks (g.claimed ids now) exhausted else []),
        g.xclaim ids now, none⟩
    | _ => none
  | .abort =>
    match l.phase with
    | .polled _ => some ⟨.processing [], g, none⟩
    | _ => none
  | .handle ok =>
    match l.phase with
    | .processing (⟨msg, false⟩ :: rest) =>
      match decodeStreamMessage msg with
      | .error _ => some ⟨.acking msg.id .undecodable rest, g, none⟩
      | .ok _ =>
        if ok then some ⟨.acking msg.id .handled rest, g, some msg.id⟩
        else some ⟨.processing rest, g, none⟩
    | _ => none
  | .moveToDLQ added replied =>
    match l.phase with
    | .processing (⟨msg, true⟩ :: rest) =>
      match added, replied with
      | true, true => some ⟨.acking msg.id .deadLetter rest, g.addToDLQ msg.id, none⟩
      | true, false => some ⟨.processing rest, g.addToDLQ msg.id, none⟩
      | false, false => some ⟨.processing rest, g, none⟩
      | false, true => none
    | _ => none
  | .xack applied =>
    match l.phase with
    | .acking id _ rest => some ⟨.processing rest, if applied then g.xack id else g, none⟩
    | _ => none

/-! ## What an action of a loop can do -/

def Phase.ack : Phase → Option (String × Cause)
  | .acking id cause _ => some (id, cause)
  | .processing _ | .polled _ => none

/-- What stands behind an acknowledgement when the loop decides on it. -/
def Outcome.Justifies (todo : List Task) (o : Outcome) (id : String) : Cause → Prop
  | .handled => o.handled = some id
  | .deadLetter => id ∈ o.group.dlq
  | .undecodable => ∃ t ∈ todo, t.msg.id = id ∧ ∃ e, decodeStreamMessage t.msg = .error e

structure Outcome.Sound (g : Group) (l : Loop) (a : LoopAction) (o : Outcome) : Prop where
  entries : o.group.entries = g.entries
  dlq : g.dlq ⊆ o.group.dlq
  todo : ∀ t ∈ o.phase.todo, t ∈ l.phase.todo ∨ t.msg ∈ g.entries
  ack : ∀ id cause, o.phase.ack = some (id, cause) → o.Justifies l.phase.todo id cause
  /-- A message that is newly read is pending. -/
  read : ∀ msg ∈ o.group.read, msg ∈ g.read ∨ o.group.Pending msg.id
  /-- A message stops being pending only by an `XACK`. -/
  pending : ∀ id, g.Pending id → ¬ o.group.Pending id →
    a = .xack true ∧ ∃ cause, l.phase.ack = some (id, cause)

variable {g : Group} {l : Loop} {a : LoopAction}

theorem Outcome.Sound.of_dlq {phase : Phase} {dlq : List String} {handled : Option String}
    (hdlq : g.dlq ⊆ dlq) (htodo : ∀ t ∈ phase.todo, t ∈ l.phase.todo)
    (hack : ∀ id cause, phase.ack = some (id, cause) → Outcome.Justifies l.phase.todo ⟨phase,
      { g with dlq }, handled⟩ id cause) :
    Outcome.Sound g l a ⟨phase, { g with dlq }, handled⟩ where
  entries := rfl
  dlq := hdlq
  todo t ht := Or.inl (htodo t ht)
  ack := hack
  read _ hmsg := Or.inl hmsg
  pending _ hp hnot := absurd hp hnot

theorem mem_tasks {msgs : List StreamMessage} {exhausted : StreamMessage → Bool} {reply : Bool}
    {t : Task} (ht : t ∈ (Phase.processing (if reply then tasks msgs exhausted else [])).todo) :
    t.msg ∈ msgs := by
  cases reply with
  | false => cases ht
  | true =>
    obtain ⟨msg, hmsg, rfl⟩ := mem_map.mp ht
    exact hmsg

theorem Loop.sound_next {o : Outcome} (h : l.next g a = some o) : o.Sound g l a := by
  unfold Loop.next at h
  cases a with
  | xreadgroup now reply =>
    dsimp only at h
    split at h <;> cases h
    refine ⟨rfl, Subset.refl _, fun t ht => Or.inr ?_, nofun, fun msg hmsg => ?_,
      fun id hp hnot => ?_⟩
    · exact mem_of_mem_drop (mem_of_mem_take (mem_tasks ht))
    · rcases mem_append.mp (g.read_xreadgroup now ▸ hmsg) with hread | hnew
      · exact Or.inl hread
      · exact Or.inr ((g.pending_xreadgroup now).mpr (Or.inr ⟨msg, hnew, rfl⟩))
    · exact absurd ((g.pending_xreadgroup now).mpr (Or.inl hp)) hnot
  | xpending =>
    dsimp only at h
    split at h
    · split at h <;> cases h <;> exact .of_dlq (Subset.refl _) nofun nofun
    · cases h
  | xclaim now reply =>
    dsimp only at h
    split at h <;> cases h
    refine ⟨rfl, Subset.refl _, fun t ht => Or.inr ?_, nofun, fun _ hmsg => Or.inl hmsg,
      fun id hp hnot => ?_⟩
    · exact mem_of_mem_filter (mem_tasks ht)
    · exact absurd ((g.pending_xclaim _ now).mpr hp) hnot
  | abort =>
    dsimp only at h
    split at h <;> cases h
    exact .of_dlq (Subset.refl _) nofun nofun
  | handle ok =>
    dsimp only at h
    split at h
    · next msg rest hphase =>
      have hrest : ∀ t ∈ rest, t ∈ l.phase.todo := fun t ht =>
        hphase ▸ mem_cons_of_mem _ ht
      split at h
      · next e hdecode =>
        cases h
        refine .of_dlq (Subset.refl _) hrest ?_
        rintro _ _ ⟨⟩
        exact ⟨⟨msg, false⟩, by rw [hphase]; exact mem_cons_self, rfl, e, hdecode⟩
      · split at h <;> cases h
        · refine .of_dlq (Subset.refl _) hrest ?_
          rintro _ _ ⟨⟩
          rfl
        · exact .of_dlq (Subset.refl _) hrest nofun
    · cases h
  | moveToDLQ added replied =>
    dsimp only at h
    split at h
    · next msg rest hphase =>
      have hrest : ∀ t ∈ rest, t ∈ l.phase.todo := fun t ht =>
        hphase ▸ mem_cons_of_mem _ ht
      split at h <;> cases h
      · refine .of_dlq (subset_append_left _ _) hrest ?_
        rintro _ _ ⟨⟩
        exact mem_append_right _ (mem_singleton_self _)
      · exact .of_dlq (subset_append_left _ _) hrest nofun
      · exact .of_dlq (Subset.refl _) hrest nofun
    · cases h
  | xack applied =>
    dsimp only at h
    split at h <;> cases h
    next id cause rest hphase =>
    have hrest : ∀ t ∈ rest, t ∈ l.phase.todo := fun t ht => hphase ▸ ht
    cases applied with
    | false => exact .of_dlq (Subset.refl _) hrest nofun
    | true =>
      refine ⟨rfl, Subset.refl _, fun t ht => .inl (hrest t ht), nofun, fun _ hmsg => .inl hmsg,
        fun id' hp hnot => ⟨rfl, cause, ?_⟩⟩
      -- it was pending, so it is the one that is acknowledged
      have hid : id' = id := by
        by_contra hne
        exact hnot (g.pending_xack.mpr ⟨hp, hne⟩)
      rw [hphase, hid]
      rfl

/-! ## The system -/

/-- The group, the loops, and a log of the handled messages. -/
structure Stream where
  group : Group
  loops : List Loop
  handled : List String

def Stream.start (n : Nat) : Stream where
  group := ⟨[], nodup_nil, 0, Nat.le_refl 0, [], []⟩
  loops := (List.range n).flatMap fun p => [⟨p, false, .processing []⟩, ⟨p, true, .processing []⟩]
  handled := []

inductive StreamAction where
  | publish (msg : StreamMessage)
  | loop (i : Nat) (a : LoopAction)
  /-- A process is gone and starts again. -/
  | crash (process : Nat)

def Loop.restart (process : Nat) (l : Loop) : Loop :=
  if l.process = process then { l with phase := .processing [] } else l

def Stream.advance (s : Stream) (i : Nat) (l : Loop) (o : Outcome) : Stream where
  group := o.group
  loops := s.loops.set i { l with phase := o.phase }
  handled := s.handled ++ o.handled.toList

def Stream.step (s : Stream) : StreamAction → Option Stream
  | .publish msg =>
    if h : msg.id ∉ s.group.entries.map StreamMessage.id then
      some { s with group := s.group.publish msg h }
    else none
  | .loop i a => (s.loops[i]?).bind fun l => (l.next s.group a).map (s.advance i l)
  | .crash process => some { s with loops := s.loops.map (Loop.restart process) }

end Pcmi.Events
