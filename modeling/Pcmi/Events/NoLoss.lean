import Pcmi.Events.Stream

/-!
# No message is lost

Whatever the handlers return and wherever a process crashes, a decodable message stays pending until
a handler has returned `nil` for it or it is in the dead-letter stream.
-/

namespace Pcmi.Events

open List Pcmi.Lib

/-- What stands behind an acknowledgement. -/
def Stream.Justified (s : Stream) (id : String) : Cause → Prop
  | .handled => id ∈ s.handled
  | .deadLetter => id ∈ s.group.dlq
  | .undecodable =>
    ∃ msg ∈ s.group.entries, msg.id = id ∧ ∃ e, decodeStreamMessage msg = .error e

/-- Nothing that was recorded is forgotten. -/
structure Stream.Grows (s s' : Stream) : Prop where
  entries : s.group.entries ⊆ s'.group.entries
  handled : s.handled ⊆ s'.handled
  dlq : s.group.dlq ⊆ s'.group.dlq

/-- Messages are of the stream and acknowledged for a reason. -/
structure Accounted (s : Stream) : Prop where
  todo : ∀ l ∈ s.loops, ∀ t ∈ l.phase.todo, t.msg ∈ s.group.entries
  ack : ∀ l ∈ s.loops, ∀ id cause, l.phase.ack = some (id, cause) → s.Justified id cause

section

variable {s s' : Stream} {id : String} {cause : Cause} {a : StreamAction} {msg : StreamMessage}

theorem Stream.Justified.mono (hgrows : s.Grows s') (h : s.Justified id cause) :
    s'.Justified id cause := by
  cases cause with
  | handled => exact hgrows.handled h
  | deadLetter => exact hgrows.dlq h
  | undecodable =>
    obtain ⟨msg, hmsg, herror⟩ := h
    exact ⟨msg, hgrows.entries hmsg, herror⟩

variable {i process : Nat} {l : Loop} {evt : Event}

theorem loop_eq_some {a : LoopAction} (h : s.step (.loop i a) = some s') :
    ∃ l o, s.loops[i]? = some l ∧ o.Sound s.group l a ∧ s' = s.advance i l o := by
  obtain ⟨l, hl, hnext⟩ := Option.bind_eq_some_iff.mp h
  obtain ⟨o, ho, rfl⟩ := Option.map_eq_some_iff.mp hnext
  exact ⟨l, o, hl, Loop.sound_next ho, rfl⟩

theorem publish_eq_some (h : s.step (.publish msg) = some s') :
    ∃ hnew, s' = { s with group := s.group.publish msg hnew } := by
  unfold Stream.step at h
  dsimp only at h
  split at h
  · next hnew => exact ⟨hnew, (Option.some.inj h).symm⟩
  · cases h

theorem Stream.grows_step (h : s.step a = some s') : s.Grows s' := by
  cases a with
  | publish msg =>
    obtain ⟨hnew, rfl⟩ := publish_eq_some h
    exact ⟨subset_append_left _ _, Subset.refl _, Subset.refl _⟩
  | loop i a =>
    obtain ⟨l, o, -, hsound, rfl⟩ := loop_eq_some h
    exact ⟨hsound.entries ▸ Subset.refl _, subset_append_left _ _, hsound.dlq⟩
  | crash process =>
    cases h
    exact ⟨Subset.refl _, Subset.refl _, Subset.refl _⟩

theorem mem_todo_restart {t : Task} (h : t ∈ (l.restart process).phase.todo) :
    t ∈ l.phase.todo := by
  unfold Loop.restart at h
  split at h
  · cases h
  · exact h

theorem ack_restart {p : String × Cause} (h : (l.restart process).phase.ack = some p) :
    l.phase.ack = some p := by
  unfold Loop.restart at h
  split at h
  · cases h
  · exact h

theorem Accounted.start (n : Nat) : Accounted (.start n) := by
  have hloop : ∀ l ∈ (Stream.start n).loops, l.phase = .processing [] := by
    intro l hl
    obtain ⟨p, -, hp⟩ := mem_flatMap.mp hl
    simp only [mem_cons, not_mem_nil, or_false] at hp
    rcases hp with rfl | rfl <;> rfl
  constructor
  · intro l hl t ht
    rw [hloop l hl] at ht
    cases ht
  · intro l hl id cause hack
    rw [hloop l hl] at hack
    cases hack

theorem Accounted.justified (h : Accounted s) (hl : s.loops[i]? = some l) {o : Outcome}
    (hentries : o.group.entries = s.group.entries) (hjust : o.Justifies l.phase.todo id cause) :
    (s.advance i l o).Justified id cause := by
  cases cause with
  | handled =>
    have hhandled : o.handled = some id := hjust
    refine mem_append_right _ ?_
    rw [hhandled]
    exact mem_singleton_self id
  | deadLetter => exact hjust
  | undecodable =>
    obtain ⟨t, ht, hid, herror⟩ := hjust
    refine ⟨t.msg, ?_, hid, herror⟩
    exact hentries ▸ h.todo l (mem_of_getElem? hl) t ht

theorem Accounted.step (h : Accounted s) {a : StreamAction} (hs : s.step a = some s') :
    Accounted s' := by
  have hgrows := Stream.grows_step hs
  cases a with
  | publish msg =>
    obtain ⟨hnew, rfl⟩ := publish_eq_some hs
    exact ⟨fun l hl t ht => hgrows.entries (h.todo l hl t ht),
      fun l hl id cause hack => (h.ack l hl id cause hack).mono hgrows⟩
  | loop i a =>
    obtain ⟨l, o, hl, hsound, rfl⟩ := loop_eq_some hs
    constructor
    · refine forall_mem_set (fun l hl t ht => hgrows.entries (h.todo l hl t ht)) fun t ht => ?_
      rcases hsound.todo t ht with htodo | hentry
      · exact hgrows.entries (h.todo l (mem_of_getElem? hl) t htodo)
      · exact hgrows.entries hentry
    · exact forall_mem_set (fun l hl id cause hack => (h.ack l hl id cause hack).mono hgrows)
        fun id cause hack => h.justified hl hsound.entries (hsound.ack id cause hack)
  | crash process =>
    cases hs
    constructor
    · refine forall_mem_map.mpr fun l hl t ht => ?_
      exact h.todo l hl t (mem_todo_restart ht)
    · refine forall_mem_map.mpr fun l hl id cause hack => ?_
      exact h.ack l hl id cause (ack_restart hack)

theorem Stream.read_step (hs : s.step a = some s') (hread : msg ∈ s'.group.read) :
    msg ∈ s.group.read ∨ s'.group.Pending msg.id := by
  cases a with
  | publish msg' =>
    obtain ⟨hnew, rfl⟩ := publish_eq_some hs
    exact Or.inl (s.group.read_publish msg' hnew ▸ hread)
  | loop i a =>
    obtain ⟨l, o, -, hsound, rfl⟩ := loop_eq_some hs
    exact hsound.read msg hread
  | crash process =>
    cases hs
    exact Or.inl hread

/-- **A message stops being pending only by an `XACK`.** -/
theorem Stream.pending_step (hs : s.step a = some s') (hp : s.group.Pending id)
    (hnot : ¬ s'.group.Pending id) :
    ∃ i l cause, a = .loop i (.xack true) ∧ s.loops[i]? = some l ∧
      l.phase.ack = some (id, cause) := by
  cases a with
  | publish msg' =>
    obtain ⟨hnew, rfl⟩ := publish_eq_some hs
    exact absurd hp hnot
  | loop i a =>
    obtain ⟨l, o, hl, hsound, rfl⟩ := loop_eq_some hs
    obtain ⟨rfl, cause, hack⟩ := hsound.pending id hp hnot
    exact ⟨i, l, cause, rfl, hl, hack⟩
  | crash process =>
    cases hs
    exact absurd hp hnot

theorem Accounted.justified_of_leaves (h : Accounted s) (hs : s.step a = some s')
    (hp : s.group.Pending id) (hnot : ¬ s'.group.Pending id) : ∃ cause, s.Justified id cause := by
  obtain ⟨i, l, cause, -, hl, hack⟩ := Stream.pending_step hs hp hnot
  exact ⟨cause, h.ack l (mem_of_getElem? hl) id cause hack⟩

/-- What has been delivered is pending, or has left the list for a reason. -/
structure Kept (s : Stream) : Prop where
  accounted : Accounted s
  kept : ∀ msg ∈ s.group.read, s.group.Pending msg.id ∨ ∃ cause, s.Justified msg.id cause

theorem Kept.step (h : Kept s) {a : StreamAction} (hs : s.step a = some s') : Kept s' := by
  refine ⟨h.accounted.step hs, fun msg hread => ?_⟩
  by_cases hp' : s'.group.Pending msg.id
  · exact Or.inl hp'
  have hbefore := (Stream.read_step hs hread).resolve_right hp'
  have hjust : ∃ cause, s.Justified msg.id cause := by
    rcases h.kept msg hbefore with hp | hjust
    · exact h.accounted.justified_of_leaves hs hp hp'
    · exact hjust
  obtain ⟨cause, hjust⟩ := hjust
  exact Or.inr ⟨cause, hjust.mono (Stream.grows_step hs)⟩

/-- A decodable message is not acknowledged as undecodable. -/
theorem not_justified_undecodable (hmsg : msg ∈ s.group.entries)
    (hdecode : decodeStreamMessage msg = .ok evt) : ¬ s.Justified msg.id .undecodable := by
  rintro ⟨msg', hmsg', hid, e, herror⟩
  rw [inj_on_of_nodup_map s.group.unique hmsg' hmsg hid, hdecode] at herror
  cases herror

theorem Stream.Justified.of_decodable (hmsg : msg ∈ s.group.entries)
    (hdecode : decodeStreamMessage msg = .ok evt) (h : s.Justified msg.id cause) :
    msg.id ∈ s.handled ∨ msg.id ∈ s.group.dlq := by
  cases cause with
  | handled => exact Or.inl h
  | deadLetter => exact Or.inr h
  | undecodable => exact absurd h (not_justified_undecodable hmsg hdecode)

/-- **No message is lost.** A delivered, decodable message stays pending until it is handled or a
dead letter. -/
theorem stream_no_loss {n : Nat} (hrun : Reaches Stream.step (.start n) s) {msg : StreamMessage}
    {evt : Event} (hread : msg ∈ s.group.read) (hdecode : decodeStreamMessage msg = .ok evt) :
    (s.group.Pending msg.id ∨ msg.id ∈ s.handled ∨ msg.id ∈ s.group.dlq) ∧
      ∀ a s', s.step a = some s' → s.group.Pending msg.id → ¬ s'.group.Pending msg.id →
        msg.id ∈ s.handled ∨ msg.id ∈ s.group.dlq := by
  have hkept : Kept s :=
    hrun.invariant (fun _ _ _ h _ hs => h.step hs) ⟨.start n, nofun⟩
  have hmsg : msg ∈ s.group.entries := mem_of_mem_take hread
  constructor
  · rcases hkept.kept msg hread with hp | ⟨cause, hjust⟩
    · exact Or.inl hp
    · exact Or.inr (hjust.of_decodable hmsg hdecode)
  · intro a s' hs hp hnot
    obtain ⟨cause, hjust⟩ := hkept.accounted.justified_of_leaves hs hp hnot
    exact hjust.of_decodable hmsg hdecode

end

def storedMessage : StreamMessage :=
  streamMessage "1-0"
    { type := "memory.stored"
      payload := ((AList.singleton "tenant_id" (.str "t")).insert "path" (.str "a.b")).insert "id"
        (.num 7 0) }

def recoverActions : List StreamAction :=
  [.publish storedMessage, .loop 0 (.xreadgroup 0 true), .loop 0 (.handle false),
   .loop 1 .xpending, .loop 1 (.xclaim (61 * second) true), .loop 1 (.handle true)]

def streamAfter (acts : List StreamAction) : Stream :=
  (runAll Stream.step (.start 1) acts).getD (.start 1)

theorem recovered_message_not_lost :
    (streamAfter recoverActions).group.Pending "1-0" ∧
      ¬ (streamAfter (recoverActions ++ [.loop 1 (.xack true)])).group.Pending "1-0" ∧
      ("1-0" ∈ (streamAfter recoverActions).handled ∨
        "1-0" ∈ (streamAfter recoverActions).group.dlq) := by
  have hreach : Reaches Stream.step (.start 1) (streamAfter recoverActions) :=
    reaches_getD _ (by decide)
  have hread : storedMessage ∈ (streamAfter recoverActions).group.read :=
    mem_singleton_self storedMessage
  have hstep : (streamAfter recoverActions).step (.loop 1 (.xack true)) =
      some (streamAfter (recoverActions ++ [.loop 1 (.xack true)])) := rfl
  refine ⟨by decide, by decide, ?_⟩
  exact (stream_no_loss hreach hread rfl).2 _ _ hstep (by decide) (by decide)

end Pcmi.Events
