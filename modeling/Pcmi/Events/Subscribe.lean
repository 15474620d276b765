import Mathlib.Data.List.Nodup
import Pcmi.Events.Stream

/-!
# Subscribing to the event stream (`streamSubscribe`, `internal/event/stream.go`)

One subscriber tails the stream without a group. It asks for the entries behind `lastID`, which is
`"$"`, the end of the stream at the time of the read, until an entry has come. A read that waits is
answered as soon as there is an entry; one that ends empty or fails leaves `lastID` as it was.

`step` is the loop, the consumer of its channel and the publishers, in any interleaving, without a
cancellation.
-/

namespace Pcmi.Events.Subscribe

open List Pcmi.Lib Option

/-! ## The loop -/

inductive LastId where
  | newest
  | after (id : String)
  deriving DecidableEq

/-- Before a read, in one, or handing over its reply. -/
inductive Phase where
  | top
  | reading (start : Nat)
  | handing (next : Nat) (msgs : List StreamMessage)

def Phase.isTop : Phase → Bool
  | .top => true
  | _ => false

def channelSize : Nat := 16

/-- The stream and one subscriber; `began` is when the first read began. -/
structure Subscription where
  stream : List StreamMessage
  lastId : LastId
  phase : Phase
  ch : List Event
  handed : List Event
  began : Option Nat

def subscribe (stream : List StreamMessage) : Subscription := ⟨stream, .newest, .top, [], [], none⟩

/-- The position of the first entry behind `lastID`. -/
def LastId.position (stream : List StreamMessage) : LastId → Nat
  | .newest => stream.length
  | .after id => stream.findIdx (fun msg => msg.id == id) + 1

inductive Action where
  | publish (msg : StreamMessage)
  | xread
  | reply
  | timeout
  | fail
  | hand
  | receive

namespace Subscription

/-- One message of a reply: `lastID`, then the channel. A full channel waits. -/
def hand (s : Subscription) (next : Nat) (msg : StreamMessage) (msgs : List StreamMessage) :
    Option Subscription :=
  let s := { s with
    lastId := .after msg.id
    phase := if msgs.isEmpty then .top else .handing (next + 1) msgs }
  match decodeStreamMessage msg with
  | .error _ => some s
  | .ok evt => if s.ch.length < channelSize then some { s with ch := s.ch ++ [evt] } else none

def step (s : Subscription) : Action → Option Subscription
  | .publish msg =>
    if msg.id ∈ s.stream.map StreamMessage.id then none
    else some { s with stream := s.stream ++ [msg] }
  | .xread =>
    match s.phase with
    | .top =>
      some { s with
        phase := .reading (s.lastId.position s.stream)
        began := s.began.or (some s.stream.length) }
    | _ => none
  | .reply =>
    match s.phase with
    | .reading start =>
      if start < s.stream.length then
        some { s with phase := .handing start ((s.stream.drop start).take defaultBatch) }
      else none
    | _ => none
  -- `redis.Nil`: the read had nothing to return for the time it may block.
  | .timeout =>
    match s.phase with
    | .reading start => if start < s.stream.length then none else some { s with phase := .top }
    | _ => none
  -- Another error, which the loop logs; a reply may be lost with it.
  | .fail =>
    match s.phase with
    | .reading _ => some { s with phase := .top }
    | _ => none
  | .hand =>
    match s.phase with
    | .handing next (msg :: msgs) => s.hand next msg msgs
    | _ => none
  | .receive =>
    match s.ch with
    | evt :: ch => some { s with ch, handed := s.handed ++ [evt] }
    | [] => none

def next (s : Subscription) : Nat :=
  match s.phase with
  | .top => s.lastId.position s.stream
  | .reading start => start
  | .handing next _ => next

end Subscription

def eventsOf (msgs : List StreamMessage) : List Event :=
  msgs.filterMap fun msg => (decodeStreamMessage msg).toOption

def Subscription.expected (s : Subscription) : List Event :=
  match s.began with
  | none => []
  | some b => eventsOf (s.stream.drop b)

/-- Before the first entry none comes between two reads; no reply is lost. -/
def NoGap (s : Subscription) : Action → Prop
  | .publish _ => s.lastId = .newest → s.began.isSome → s.phase.isTop = false
  | .fail => s.lastId = .newest → s.stream.length ≤ s.next
  | _ => True

instance (s : Subscription) (a : Action) : Decidable (NoGap s a) := by
  cases a <;> unfold NoGap <;> infer_instance

/-- The steps of the loop and the consumer on the entries there are. -/
def Action.isWork : Action → Bool
  | .xread | .reply | .hand | .receive => true
  | .publish _ | .timeout | .fail => false

/-- How many steps of that kind are left, at most. -/
def Subscription.remaining (s : Subscription) : Nat :=
  4 * (s.stream.length - s.next) + s.ch.length +
    match s.phase with
    | .top => 2
    | .reading _ => 1
    | .handing _ _ => 0

/-! ## What has been read -/

/-- `lastID` is that of the entry before `n`, or none came since `b`. -/
def LastId.At (stream : List StreamMessage) (b n : Nat) : LastId → Prop
  | .newest => n = b
  | .after id => ∃ k, n = k + 1 ∧ ∃ msg ∈ stream[k]?, msg.id = id

theorem LastId.At.publish {stream : List StreamMessage} {b n : Nat} {lastId : LastId}
    (h : lastId.At stream b n) (msg : StreamMessage) : lastId.At (stream ++ [msg]) b n := by
  cases lastId with
  | newest => exact h
  | after id =>
    obtain ⟨k, hk, m, hm, hid⟩ := h
    obtain ⟨hlt, -⟩ := List.getElem?_eq_some_iff.mp hm
    exact ⟨k, hk, m, (getElem?_append_left hlt).trans hm, hid⟩

theorem LastId.At.position {stream : List StreamMessage} {b n : Nat} {id : String}
    (hids : (stream.map StreamMessage.id).Nodup) (h : (LastId.after id).At stream b n) :
    (LastId.after id).position stream = n := by
  obtain ⟨k, rfl, msg, hmsg, rfl⟩ := h
  obtain ⟨hk, rfl⟩ := List.getElem?_eq_some_iff.mp hmsg
  refine congrArg (· + 1) ((findIdx_eq hk).mpr ⟨beq_self_eq_true _, fun j hj => ?_⟩)
  refine beq_eq_false_iff_ne.mpr fun heq => ?_
  have hlength : (stream.map StreamMessage.id).length = stream.length := length_map _
  have hsame : (stream.map StreamMessage.id)[j] = (stream.map StreamMessage.id)[k] := by
    rw [getElem_map, getElem_map, heq]
  exact hj.ne (hids.getElem_inj_iff.mp hsame)

/-- Since the stream had `b` entries, those before `n` have been read. -/
structure Tailing (s : Subscription) (b n : Nat) : Prop where
  start_le : b ≤ n
  next_le : n ≤ s.stream.length
  lastId : s.lastId.At s.stream b n
  read : s.handed ++ s.ch = eventsOf ((s.stream.take n).drop b)
  phase : match s.phase with
    | .top => s.lastId = .newest → n = s.stream.length
    | .reading start => start = n
    | .handing next msgs => next = n ∧ msgs ≠ [] ∧ msgs <+: s.stream.drop n

/-- What holds in every state. -/
structure Invariant (s : Subscription) : Prop where
  ids : (s.stream.map StreamMessage.id).Nodup
  before : s.began = none → s.lastId = .newest ∧ s.phase = .top ∧ s.ch = [] ∧ s.handed = []
  since : ∀ b, s.began = some b → ∃ n, Tailing s b n

section

variable {s s' : Subscription} {b n : Nat}

theorem Tailing.publish (h : Tailing s b n) (msg : StreamMessage)
    (hgap : s.lastId = .newest → s.phase.isTop = false) :
    Tailing { s with stream := s.stream ++ [msg] } b n where
  start_le := h.start_le
  next_le := h.next_le.trans (by simp)
  lastId := h.lastId.publish msg
  read := by
    rw [take_append_of_le_length h.next_le]
    exact h.read
  phase := by
    have hphase := h.phase
    revert hphase hgap
    dsimp only
    cases s.phase with
    | top => exact fun hgap _ hnewest => absurd (hgap hnewest) (by decide)
    | reading start => exact fun _ hstart => hstart
    | handing next msgs =>
      rintro - ⟨hnext, hne, hprefix⟩
      refine ⟨hnext, hne, ?_⟩
      rw [drop_append_of_le_length h.next_le]
      exact hprefix.trans (prefix_append _ _)

theorem Tailing.start_eq {start : Nat} (h : Tailing s b n) (hphase : s.phase = .reading start) :
    start = n := by
  have hstart := h.phase
  rwa [hphase] at hstart

variable {msgs stream : List StreamMessage} {msg : StreamMessage}

theorem Tailing.msgs_begin {next : Nat} (h : Tailing s b n) (hphase : s.phase =
    .handing next msgs) :
    next = n ∧ msgs ≠ [] ∧ msgs <+: s.stream.drop n := by
  have hmsgs := h.phase
  rwa [hphase] at hmsgs

theorem Tailing.position_eq (h : Tailing s b n) (hids : (s.stream.map StreamMessage.id).Nodup)
    (htop : s.phase = .top) : s.lastId.position s.stream = n := by
  have hphase := h.phase
  have hlast := h.lastId
  rw [htop] at hphase
  cases hid : s.lastId with
  | newest => exact (hphase hid).symm
  | after id =>
    rw [hid] at hlast
    exact hlast.position hids

theorem Tailing.xread (h : Tailing s b n) (hids : (s.stream.map StreamMessage.id).Nodup)
    (htop : s.phase = .top) (began : Option Nat) :
    Tailing { s with phase := .reading (s.lastId.position s.stream), began } b n :=
  { h with phase := h.position_eq hids htop }

theorem Tailing.readEnds (h : Tailing s b n) (hend : s.lastId = .newest → s.stream.length ≤ n) :
    Tailing { s with phase := .top } b n :=
  { h with phase := fun hnewest => h.next_le.antisymm (hend hnewest) }

theorem Tailing.reply (h : Tailing s b n) (hmore : n < s.stream.length) :
    Tailing { s with phase := .handing n ((s.stream.drop n).take defaultBatch) } b n := by
  refine { h with phase := ⟨rfl, ne_nil_of_length_pos ?_, take_prefix _ _⟩ }
  rw [length_take, length_drop]
  unfold defaultBatch
  omega

theorem Tailing.receive {evt : Event} {ch : List Event} (h : Tailing s b n)
    (hch : s.ch = evt :: ch) : Tailing { s with ch, handed := s.handed ++ [evt] } b n := by
  have hread := h.read
  rw [hch] at hread
  exact { h with read := by simpa using hread }

/-- The entry at position `n` is the one that is handed over next. -/
theorem eventsOf_take_succ (hle : b ≤ n) (hmsg : stream[n]? = some msg) :
    eventsOf ((stream.take (n + 1)).drop b) =
      eventsOf ((stream.take n).drop b) ++ (decodeStreamMessage msg).toOption.toList := by
  have hlt := (List.getElem?_eq_some_iff.mp hmsg).1
  have hlength : b ≤ (stream.take n).length := by
    rw [length_take]
    omega
  rw [take_add_one, hmsg, drop_append_of_le_length hlength]
  unfold eventsOf
  rw [filterMap_append]
  cases h : decodeStreamMessage msg <;> simp [h, Except.toOption]

theorem hand_eq_some (h : s.hand n msg msgs = some s') :
    s' = { s with
      lastId := .after msg.id
      phase := if msgs.isEmpty then .top else .handing (n + 1) msgs
      ch := s.ch ++ (decodeStreamMessage msg).toOption.toList } := by
  unfold Subscription.hand at h
  dsimp only at h
  split at h
  · next hdecode =>
    rw [hdecode]
    simpa [Except.toOption] using (Option.some.inj h).symm
  · next hdecode =>
    rw [hdecode]
    split at h
    · exact (Option.some.inj h).symm
    · cases h

theorem Tailing.hand (h : Tailing s b n) (hphase : s.phase = .handing n (msg :: msgs))
    (hstep : s.hand n msg msgs = some s') : Tailing s' b (n + 1) := by
  obtain ⟨-, -, rest, hrest⟩ := h.msgs_begin hphase
  have hmsg : s.stream[n]? = some msg := by
    rw [← head?_drop, ← hrest]
    rfl
  have hlt := (List.getElem?_eq_some_iff.mp hmsg).1
  have hdrop : msgs ++ rest = s.stream.drop (n + 1) := by
    rw [← tail_drop, ← hrest]
    rfl
  rw [hand_eq_some hstep]
  refine ⟨h.start_le.trans (Nat.le_succ n), hlt, ⟨n, rfl, msg, hmsg, rfl⟩, ?_, ?_⟩
  · rw [eventsOf_take_succ h.start_le hmsg, ← h.read, append_assoc]
  · cases msgs with
    | nil => exact fun hnewest => absurd hnewest nofun
    | cons m msgs => exact ⟨rfl, cons_ne_nil _ _, rest, hdrop⟩

/-! ### The steps taken apart -/

theorem step_xread (h : s.step .xread = some s') :
    s.phase = .top ∧ s' = { s with
      phase := .reading (s.lastId.position s.stream)
      began := s.began.or (some s.stream.length) } := by
  simp only [Subscription.step] at h
  split at h
  · next htop => exact ⟨htop, (Option.some.inj h).symm⟩
  · cases h

theorem step_reply (h : s.step .reply = some s') :
    ∃ start, s.phase = .reading start ∧ start < s.stream.length ∧ s' = { s with
      phase := .handing start ((s.stream.drop start).take defaultBatch) } := by
  simp only [Subscription.step] at h
  split at h
  · next start hphase =>
    simp only [ite_none_right_eq_some, Option.some.injEq] at h
    exact ⟨start, hphase, h.1, h.2.symm⟩
  · cases h

theorem step_hand (h : s.step .hand = some s') :
    ∃ n msg msgs, s.phase = .handing n (msg :: msgs) ∧ s.hand n msg msgs = some s' := by
  simp only [Subscription.step] at h
  split at h
  · next n msg msgs hphase => exact ⟨n, msg, msgs, hphase, h⟩
  · cases h

theorem step_receive (h : s.step .receive = some s') :
    ∃ evt ch, s.ch = evt :: ch ∧ s' = { s with ch, handed := s.handed ++ [evt] } := by
  simp only [Subscription.step] at h
  split at h
  · next evt ch hch => exact ⟨evt, ch, hch, (Option.some.inj h).symm⟩
  · cases h

/-! ### The invariant -/

theorem invariant_subscribe (hids : (stream.map StreamMessage.id).Nodup) :
    Invariant (subscribe stream) :=
  ⟨hids, fun _ => ⟨rfl, rfl, rfl, rfl⟩, nofun⟩

theorem Invariant.of_tailing (h : Invariant s) (hstream : s'.stream = s.stream)
    (hbegan : s'.began = s.began)
    (hbusy : ¬ (s.lastId = .newest ∧ s.phase = .top ∧ s.ch = [] ∧ s.handed = []))
    (htailing : ∀ b n, Tailing s b n → ∃ n', Tailing s' b n') : Invariant s' where
  ids := by
    rw [hstream]
    exact h.ids
  before hnone := absurd (h.before (hbegan.symm.trans hnone)) hbusy
  since b hb := by
    obtain ⟨n, hn⟩ := h.since b (hbegan.symm.trans hb)
    exact htailing b n hn

/-- **One step.** -/
theorem Invariant.step {a : Action} (h : Invariant s) (hok : NoGap s a)
    (hstep : s.step a = some s') : Invariant s' := by
  cases a with
  | publish msg =>
    simp only [Subscription.step, ite_none_left_eq_some, Option.some.injEq] at hstep
    obtain ⟨hfresh, rfl⟩ := hstep
    refine ⟨?_, h.before, fun b hb => ?_⟩
    · rw [map_append]
      exact nodup_append'.mpr
        ⟨h.ids, nodup_singleton _, disjoint_singleton.mpr hfresh⟩
    · obtain ⟨n, hn⟩ := h.since b hb
      exact ⟨n, hn.publish msg fun hnewest => hok hnewest (isSome_of_mem hb)⟩
  | xread =>
    obtain ⟨htop, rfl⟩ := step_xread hstep
    refine ⟨h.ids, ?_, ?_⟩
    · intro hb
      simp at hb
    · cases hbegan : s.began with
      | none =>
        rintro b ⟨⟩
        obtain ⟨hnewest, -, hch, hhanded⟩ := h.before hbegan
        refine ⟨s.stream.length, le_rfl, le_rfl, ?_, ?_, ?_⟩
        · simp [hnewest, LastId.At]
        · simp [hch, hhanded, eventsOf]
        · simp [hnewest, LastId.position]
      | some b =>
        rintro b' ⟨⟩
        obtain ⟨n, hn⟩ := h.since b hbegan
        exact ⟨n, hn.xread h.ids htop _⟩
  | reply =>
    obtain ⟨start, hphase, hmore, rfl⟩ := step_reply hstep
    refine h.of_tailing rfl rfl (by simp [hphase]) fun b n hn => ⟨n, ?_⟩
    exact hn.start_eq hphase ▸ hn.reply (hn.start_eq hphase ▸ hmore)
  | timeout =>
    simp only [Subscription.step] at hstep
    split at hstep
    case h_2 => cases hstep
    next start hphase =>
    simp only [ite_none_left_eq_some, Option.some.injEq, not_lt] at hstep
    obtain ⟨hempty, rfl⟩ := hstep
    refine h.of_tailing rfl rfl (by simp [hphase]) fun b n hn => ⟨n, hn.readEnds fun _ => ?_⟩
    exact hn.start_eq hphase ▸ hempty
  | fail =>
    simp only [Subscription.step] at hstep
    split at hstep
    case h_2 => cases hstep
    next start hphase =>
    obtain rfl := Option.some.inj hstep
    refine h.of_tailing rfl rfl (by simp [hphase]) fun b n hn => ⟨n, hn.readEnds fun hnewest => ?_⟩
    have hend := hok hnewest
    rw [Subscription.next, hphase] at hend
    exact hn.start_eq hphase ▸ hend
  | hand =>
    obtain ⟨next, msg, msgs, hphase, hstep⟩ := step_hand hstep
    have hs' := hand_eq_some hstep
    refine h.of_tailing (by rw [hs']) (by rw [hs']) (by simp [hphase]) fun b n hn => ⟨n + 1, ?_⟩
    obtain ⟨rfl, -⟩ := hn.msgs_begin hphase
    exact hn.hand hphase hstep
  | receive =>
    obtain ⟨evt, ch, hch, rfl⟩ := step_receive hstep
    exact h.of_tailing rfl rfl (by simp [hch]) fun b n hn => ⟨n, hn.receive hch⟩

/-! ## What is handed over -/

theorem Tailing.next_eq (h : Tailing s b n) (hids : (s.stream.map StreamMessage.id).Nodup) :
    s.next = n := by
  unfold Subscription.next
  split
  · next htop => exact h.position_eq hids htop
  · next hphase => exact h.start_eq hphase
  · next hphase => exact (h.msgs_begin hphase).1

/-- The events that were read are the first of those to be handed over. -/
theorem Tailing.handed_begins (h : Tailing s b n) (hb : s.began = some b) :
    s.handed ++ s.ch <+: s.expected := by
  rw [h.read, Subscription.expected, hb, drop_take]
  refine IsPrefix.filterMap _ ?_
  exact take_prefix _ _

theorem Invariant.handed_begins (h : Invariant s) : s.handed <+: s.expected := by
  cases hb : s.began with
  | none =>
    obtain ⟨-, -, -, hhanded⟩ := h.before hb
    rw [hhanded]
    exact nil_prefix
  | some b =>
    obtain ⟨n, hn⟩ := h.since b hb
    exact (prefix_append _ _).trans (hn.handed_begins hb)

theorem Invariant.exists_tailing (h : Invariant s)
    (hbusy : ¬ (s.lastId = .newest ∧ s.phase = .top ∧ s.ch = [] ∧ s.handed = [])) :
    ∃ b n, s.began = some b ∧ Tailing s b n := by
  cases hb : s.began with
  | none => exact absurd (h.before hb) hbusy
  | some b =>
    obtain ⟨n, hn⟩ := h.since b hb
    exact ⟨b, n, rfl, hn⟩

/-- Every step of work leaves less of it. -/
theorem Invariant.remaining_lt {a : Action} (h : Invariant s) (ha : a.isWork = true)
    (hstep : s.step a = some s') : s'.remaining < s.remaining := by
  cases a with
  | publish _ | timeout | fail => cases ha
  | xread =>
    obtain ⟨htop, rfl⟩ := step_xread hstep
    simp [Subscription.remaining, Subscription.next, htop]
  | reply =>
    obtain ⟨start, hphase, -, rfl⟩ := step_reply hstep
    simp [Subscription.remaining, Subscription.next, hphase]
  | receive =>
    obtain ⟨evt, ch, hch, rfl⟩ := step_receive hstep
    simp [Subscription.remaining, Subscription.next, hch]
  | hand =>
    have h' : Invariant s' := h.step (a := .hand) trivial hstep
    obtain ⟨next, msg, msgs, hphase, hstep⟩ := step_hand hstep
    obtain ⟨b, n, -, hn⟩ := h.exists_tailing (by simp [hphase])
    obtain ⟨rfl, -⟩ := hn.msgs_begin hphase
    have hn' := hn.hand hphase hstep
    have hnext := hn.next_eq h.ids
    have hnext' := hn'.next_eq h'.ids
    have hle := hn'.next_le
    have hs' := hand_eq_some hstep
    have hch : s'.ch.length ≤ s.ch.length + 1 := by
      rw [hs']
      cases decodeStreamMessage msg <;> simp [Except.toOption]
    have hstream : s'.stream = s.stream := by rw [hs']
    unfold Subscription.remaining
    rw [hnext, hnext', hphase, hstream]
    rw [hstream] at hle
    split <;> omega

theorem Invariant.handed_eq (h : Invariant s)
    (hdone : ∀ a : Action, a.isWork = true → s.step a = none) : s.handed = s.expected := by
  have hch : s.ch = [] := by
    have hreceive := hdone .receive rfl
    simp only [Subscription.step] at hreceive
    split at hreceive
    · cases hreceive
    · assumption
  cases hphase : s.phase with
  | top => simpa [Subscription.step, hphase] using hdone .xread rfl
  | reading start =>
    obtain ⟨b, n, hb, hn⟩ := h.exists_tailing (by simp [hphase])
    have hend : s.stream.length ≤ start := by
      simpa [Subscription.step, hphase] using hdone .reply rfl
    have hread := hn.read
    rw [hch, append_nil, ← hn.start_eq hphase, take_of_length_le hend] at hread
    rw [hread, Subscription.expected, hb]
  | handing next msgs =>
    obtain ⟨b, n, -, hn⟩ := h.exists_tailing (by simp [hphase])
    obtain ⟨-, hne, -⟩ := hn.msgs_begin hphase
    obtain ⟨msg, msgs, rfl⟩ := exists_cons_of_ne_nil hne
    have hhand := hdone .hand rfl
    simp only [Subscription.step, hphase, Subscription.hand, hch] at hhand
    split at hhand
    · cases hhand
    · rw [if_pos (by decide)] at hhand
      cases hhand

end

/-- **No gaps.** As long as no entry comes between two reads that ask for the newest, what is handed
over is the first part of the events since the first read; it becomes all of them in a bounded
number of steps. -/
theorem subscription_no_gaps {stream : List StreamMessage}
    (hids : (stream.map StreamMessage.id).Nodup) {s : Subscription}
    (hrun : Steps Subscription.step NoGap (subscribe stream) s) :
    s.handed <+: s.expected ∧
      (∀ (a : Action) (s' : Subscription), a.isWork = true → s.step a = some s' →
        s'.remaining < s.remaining) ∧
      ((∀ a : Action, a.isWork = true → s.step a = none) → s.handed = s.expected) := by
  have h : Invariant s :=
    hrun.invariant (fun _ _ _ hu hok hstep => hu.step hok hstep) (invariant_subscribe hids)
  exact ⟨h.handed_begins, fun _ _ ha hstep => h.remaining_lt ha hstep, h.handed_eq⟩

def entryOf (id type : String) : StreamMessage := streamMessage id ⟨type, ∅⟩

theorem subscription_no_gaps_two :
    ∃ s, Steps Subscription.step NoGap (subscribe [entryOf "1-0" "a"]) s ∧
      s.handed.map (fun evt => evt.type) = ["b", "c"] ∧ s.handed <+: s.expected :=
  exists_steps [.xread, .timeout, .xread, .publish (entryOf "2-0" "b"), .reply, .hand,
    .publish (entryOf "3-0" "c"), .xread, .fail, .receive, .xread, .reply, .hand, .receive]
    (by decide +kernel) fun _ hrun => (subscription_no_gaps (by decide) hrun).1

/-- An entry comes between two reads that ask for the newest. -/
theorem subscription_skips_entry :
    ∃ s, Reaches Subscription.step (subscribe []) s ∧ ¬ s.handed <+: s.expected := by
  obtain ⟨s, hs, htypes⟩ : ∃ s, Reaches Subscription.step (subscribe []) s ∧
      ¬ s.handed.map (fun evt => evt.type) <+: s.expected.map fun evt => evt.type :=
    exists_reaches [.xread, .timeout, .publish (entryOf "1-0" "a"), .xread,
      .publish (entryOf "2-0" "b"), .reply, .hand, .receive] (by decide +kernel)
  exact ⟨s, hs, fun h => htypes (h.map _)⟩

end Pcmi.Events.Subscribe
