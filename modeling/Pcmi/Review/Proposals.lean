import Pcmi.Lib.Slots
import Pcmi.Memory.Dedup

/-!
# The review of a link proposal

An accept creates the memory link and afterwards sets the status, a reject sets the status, each in
a transaction of its own. The `UPDATE` of the status only hits a pending proposal. Any number of
calls interleave.
-/

namespace Pcmi.Review

open Pcmi.Go Pcmi.Lib Pcmi.Memory

/-! ## Memory links -/

def publicLinkTypes : List String := ["causal", "temporal", "contradicts", "supports", "related"]

def defaultLinkType : String := "related"

def normalizeLinkType (env : Env) (s : String) : Except String String :=
  let t := String.ofList ((trimSpaceText s).toList.map lowerAscii)
  if t = "" then .ok defaultLinkType
  else if t ∈ publicLinkTypes then .ok t
  else .error ("invalid link_type " ++ env.quote s ++ " (want one of: " ++
    ", ".intercalate publicLinkTypes ++ ")")

structure CreateLinkRequest where
  fromPath : String
  toPath : String
  linkType : String
  metadata : Option JsonMap

/-- `LinksRepository.Create`: the row that the upsert writes. -/
def createLink (env : Env) (tenantId : String) (req : CreateLinkRequest) : Except String Link :=
  let source := trimSpaceText req.fromPath
  let target := trimSpaceText req.toPath
  if source = "" ∨ target = "" then .error "from_path and to_path are required"
  else
    match normalizeLinkType env req.linkType with
    | .error e => .error e
    | .ok linkType =>
      match env.castLtree source, env.castLtree target with
      | some fromPath, some toPath =>
        .ok ⟨tenantId, fromPath, toPath, linkType, req.metadata.getD ∅⟩
      | _, _ => .error "create link: invalid input for type ltree"

variable {env : Env} {l : Link}

theorem createLink_metadata {tenantId : String} {req : CreateLinkRequest}
    (h : createLink env tenantId req = .ok l) : l.metadata = req.metadata.getD ∅ := by
  unfold createLink at h
  dsimp only at h
  split at h
  · cases h
  split at h
  · cases h
  split at h <;> cases h
  rfl

/-! ## The proposal -/

inductive Status where
  | pending | accepted | rejected
  deriving DecidableEq, Repr

/-- What the `UPDATE … WHERE status = 'pending'` leaves. -/
def Status.update (s new : Status) : Status :=
  if s = .pending then new else s

/-- `graph_link_proposals` without its status. -/
structure Proposal where
  id : Int
  tenantId : String
  fromPath : Ltree
  toPath : Ltree
  linkType : String
  /-- A number. -/
  confidence : Json
  reason : String

def Proposal.linkMetadata (prop : Proposal) : JsonMap :=
  ((((AList.singleton "proposed_by" (.str "llm")).insert "proposal_id" (.num prop.id 0)).insert
    "confidence" prop.confidence).insert "reason" (.str prop.reason)).insert "accepted" (.bool true)

/-- The request that `AcceptProposal` passes to `LinksRepository.Create`. -/
def Proposal.linkRequest (prop : Proposal) : CreateLinkRequest where
  fromPath := prop.fromPath.text
  toPath := prop.toPath.text
  linkType := prop.linkType
  metadata := some prop.linkMetadata

/-- The proposal that a link's metadata names. -/
def proposalId (l : Link) : Option Int :=
  match l.metadata.lookup "proposal_id" with
  | some (.num id 0) => some id
  | _ => none

def Materialized (prop : Proposal) (links : List Link) : Prop :=
  ∃ l ∈ links, proposalId l = some prop.id

instance (prop : Proposal) (links : List Link) : Decidable (Materialized prop links) :=
  inferInstanceAs (Decidable (∃ l ∈ links, proposalId l = some prop.id))

theorem lookup_linkMetadata (prop : Proposal) :
    prop.linkMetadata.lookup "proposal_id" = some (.num prop.id 0) := by
  unfold Proposal.linkMetadata
  rw [AList.lookup_insert_ne (by decide), AList.lookup_insert_ne (by decide),
    AList.lookup_insert_ne (by decide), AList.lookup_insert]

/-- **A successful `Create` makes the link**, also over another. -/
theorem materialized_upsertLink {prop : Proposal}
    (h : createLink env prop.tenantId prop.linkRequest = .ok l) (links : List Link) :
    Materialized prop (upsertLink l links) := by
  obtain ⟨l', hl', -, hmeta⟩ := exists_mem_upsertLink l links
  refine ⟨l', hl', ?_⟩
  have hmeta : l'.metadata = prop.linkMetadata := hmeta.trans (createLink_metadata h)
  rw [proposalId, hmeta, lookup_linkMetadata]
  rfl

/-! ## Calls -/

/-- A call of `AcceptProposal` or `RejectProposal`, by what it has done. -/
inductive Call where
  | acceptStarted
  /-- `GetByID` has shown the proposal as pending. -/
  | acceptChecked
  /-- `Create` has committed, `UpdateStatus` is next. -/
  | acceptLinked
  | rejectStarted
  | rejectChecked
  | returned
  deriving DecidableEq, Repr

structure State where
  status : Status
  links : List Link
  calls : List Call

def State.put (s : State) (i : Nat) (c : Call) : State := { s with calls := s.calls.set i c }

inductive Action where
  | accept
  | reject
  /-- `GetByID`; a read pool that lags still shows the proposal as pending. -/
  | getById (i : Nat) (lagging : Bool)
  | create (i : Nat)
  | updateStatus (i : Nat)
  /-- A statement fails or the process stops: the call is over. -/
  | fail (i : Nat)

section

variable (env : Env) (prop : Proposal)

/-- The check behind `GetByID` goes on only if it sees `pending`. -/
def afterCheck (s : State) (lagging : Bool) (next : Call) : Call :=
  if lagging = true ∨ s.status = .pending then next else .returned

def step (s : State) : Action → Option State
  | .accept => some { s with calls := s.calls ++ [.acceptStarted] }
  | .reject => some { s with calls := s.calls ++ [.rejectStarted] }
  | .getById i lagging =>
    match s.calls[i]? with
    | some .acceptStarted => some (s.put i (afterCheck s lagging .acceptChecked))
    | some .rejectStarted => some (s.put i (afterCheck s lagging .rejectChecked))
    | _ => none
  | .create i =>
    match s.calls[i]? with
    | some .acceptChecked =>
      match createLink env prop.tenantId prop.linkRequest with
      | .error _ => some (s.put i .returned)
      | .ok l => some { s.put i .acceptLinked with links := upsertLink l s.links }
    | _ => none
  | .updateStatus i =>
    match s.calls[i]? with
    | some .acceptLinked => some { s.put i .returned with status := s.status.update .accepted }
    | some .rejectChecked => some { s.put i .returned with status := s.status.update .rejected }
    | _ => none
  | .fail i =>
    match s.calls[i]? with
    | none => none
    | some .returned => none
    | some _ => some (s.put i .returned)

/-! ## What a step does -/

/-- What a step leaves, by what it means for the link and the status. -/
inductive Effect (s : State) : Action → State → Prop where
  /-- Neither table is written, nor a call's `Create` passed. -/
  | quiet (a : Action) (calls : List Call)
      (hlinked : Call.acceptLinked ∈ calls ↔ Call.acceptLinked ∈ s.calls) :
      Effect s a { s with calls }
  | linked (i : Nat) (l : Link) (h : s.calls[i]? = some .acceptChecked)
      (hl : createLink env prop.tenantId prop.linkRequest = .ok l) :
      Effect s (.create i) { s.put i .acceptLinked with links := upsertLink l s.links }
  | accepted (i : Nat) (h : s.calls[i]? = some .acceptLinked) :
      Effect s (.updateStatus i) { s.put i .returned with status := s.status.update .accepted }
  | rejected (i : Nat) (h : s.calls[i]? = some .rejectChecked) :
      Effect s (.updateStatus i) { s.put i .returned with status := s.status.update .rejected }
  /-- An accept stops between its `Create` and its `UpdateStatus`. -/
  | stopped (i : Nat) (h : s.calls[i]? = some .acceptLinked) :
      Effect s (.fail i) (s.put i .returned)

variable {env prop} {s s' : State} {a : Action} {calls : List Call} {c : Call}

/-- The calls behind their `Create`, when another moves on. -/
theorem acceptLinked_mem_set {i : Nat} {c' : Call} (h : calls[i]? = some c) (hc : c ≠ .acceptLinked)
    (hc' : c' ≠ .acceptLinked) :
    Call.acceptLinked ∈ calls.set i c' ↔ Call.acceptLinked ∈ calls := by
  constructor
  · intro hmem
    rcases List.mem_or_eq_of_mem_set hmem with hmem | he
    · exact hmem
    · exact absurd he.symm hc'
  · intro hmem
    rcases mem_set_of_mem h hmem c' with he | hmem
    · exact absurd he.symm hc
    · exact hmem

theorem acceptLinked_mem_concat (hc : c ≠ .acceptLinked) :
    Call.acceptLinked ∈ calls ++ [c] ↔ Call.acceptLinked ∈ calls := by
  rw [List.mem_append, List.mem_singleton]
  exact or_iff_left hc.symm

theorem afterCheck_ne {lagging : Bool} {next : Call} (h : next ≠ .acceptLinked) :
    afterCheck s lagging next ≠ .acceptLinked := by
  unfold afterCheck
  split
  · exact h
  · decide

theorem step_effect (h : step env prop s a = some s') : Effect env prop s a s' := by
  cases a with
  | accept | reject =>
    cases h
    exact .quiet _ _ (acceptLinked_mem_concat (by decide))
  | getById i lagging =>
    dsimp only [step] at h
    split at h <;> cases h
    · next hc => exact .quiet _ _ (acceptLinked_mem_set hc (by decide) (afterCheck_ne (by decide)))
    · next hc => exact .quiet _ _ (acceptLinked_mem_set hc (by decide) (afterCheck_ne (by decide)))
  | create i =>
    dsimp only [step] at h
    split at h
    · next hc =>
      split at h <;> cases h
      · exact .quiet _ _ (acceptLinked_mem_set hc (by decide) (by decide))
      next l hl => exact .linked i l hc hl
    · cases h
  | updateStatus i =>
    dsimp only [step] at h
    split at h <;> cases h
    · next hc => exact .accepted i hc
    · next hc => exact .rejected i hc
  | fail i =>
    dsimp only [step] at h
    split at h <;> cases h
    next c _ hc =>
    by_cases hlinked : c = .acceptLinked
    · exact .stopped i (hlinked ▸ hc)
    · exact .quiet _ _ (acceptLinked_mem_set hc hlinked (by decide))

end

/-! ## The review as a whole -/

/-- No link for a rejected proposal, no reject between the two writes of an accept, and no accept
that stops there while pending. -/
def Orderly (s : State) : Action → Prop
  | .create _ => s.status ≠ .rejected
  | .updateStatus i => s.calls[i]? = some .rejectChecked → s.status = .pending →
      Call.acceptLinked ∉ s.calls
  | .fail i => s.calls[i]? = some .acceptLinked → s.status ≠ .pending
  | _ => True

instance (s : State) : (a : Action) → Decidable (Orderly s a)
  | .create _ => inferInstanceAs (Decidable (_ ≠ _))
  | .updateStatus _ => inferInstanceAs (Decidable (_ → _ → _))
  | .fail _ => inferInstanceAs (Decidable (_ → _))
  | .accept | .reject | .getById _ _ => inferInstanceAs (Decidable True)

/-- The link and the status during the review. -/
structure Consistent (prop : Proposal) (s : State) : Prop where
  of_accepted : s.status = .accepted → Materialized prop s.links
  of_linked : Call.acceptLinked ∈ s.calls → Materialized prop s.links
  of_materialized : Materialized prop s.links →
    s.status = .accepted ∨ s.status = .pending ∧ Call.acceptLinked ∈ s.calls

section

variable {env : Env} {prop : Proposal} {s s' : State} {a : Action}

theorem Consistent.step (hs : Consistent prop s) (hok : Orderly s a)
    (h : step env prop s a = some s') : Consistent prop s' := by
  cases step_effect h with
  | quiet _ calls hlinked =>
    refine ⟨hs.of_accepted, fun hmem => hs.of_linked (hlinked.mp hmem), fun hm => ?_⟩
    exact (hs.of_materialized hm).imp_right fun ⟨hp, hmem⟩ => ⟨hp, hlinked.mpr hmem⟩
  | linked i l hc hl =>
    have hm := materialized_upsertLink hl s.links
    have hmem : Call.acceptLinked ∈ s.calls.set i .acceptLinked :=
      List.mem_set (List.getElem?_eq_some_iff.mp hc).1 _
    refine ⟨fun _ => hm, fun _ => hm, fun _ => ?_⟩
    have hok : s.status ≠ .rejected := hok
    show s.status = .accepted ∨ s.status = .pending ∧ _
    cases hstatus : s.status with
    | pending => exact Or.inr ⟨rfl, hmem⟩
    | accepted => exact Or.inl rfl
    | rejected => exact absurd hstatus hok
  | accepted i hc =>
    have hm := hs.of_linked (List.mem_of_getElem? hc)
    refine ⟨fun _ => hm, fun _ => hm, fun _ => Or.inl ?_⟩
    show s.status.update .accepted = .accepted
    rcases hs.of_materialized hm with hstatus | ⟨hstatus, -⟩
    · rw [hstatus]
      rfl
    · exact if_pos hstatus
  | rejected i hc =>
    have hcalls : Call.acceptLinked ∈ s.calls.set i .returned ↔ Call.acceptLinked ∈ s.calls :=
      acceptLinked_mem_set hc (by decide) (by decide)
    by_cases hstatus : s.status = .pending
    · -- Nothing is linked yet, and with this update the review is over.
      have hnone : Call.acceptLinked ∉ s.calls := hok hc hstatus
      have hm : ¬ Materialized prop s.links := by
        intro hm
        rcases hs.of_materialized hm with hacc | ⟨-, hmem⟩
        · rw [hstatus] at hacc
          cases hacc
        · exact hnone hmem
      refine ⟨fun hacc => ?_, fun hmem => absurd (hcalls.mp hmem) hnone, fun h => absurd h hm⟩
      rw [show s.status.update .rejected = .rejected from if_pos hstatus] at hacc
      cases hacc
    · have hupdate : s.status.update .rejected = s.status := if_neg hstatus
      refine ⟨fun hacc => hs.of_accepted (hupdate.symm.trans hacc),
        fun hmem => hs.of_linked (hcalls.mp hmem), fun hm => Or.inl ?_⟩
      rcases hs.of_materialized hm with hacc | ⟨hp, -⟩
      · exact hupdate.trans hacc
      · exact absurd hp hstatus
  | stopped i hc =>
    have hm := hs.of_linked (List.mem_of_getElem? hc)
    refine ⟨fun _ => hm, fun _ => hm, fun _ => Or.inl ?_⟩
    rcases hs.of_materialized hm with hacc | ⟨hp, -⟩
    · exact hacc
    · exact absurd hp (hok hc)

/-- **A finished review leaves the link exactly when the proposal is accepted**, if the writes come
in order. -/
theorem review_atomic {s₀ : State} (hpending : s₀.status = .pending) (hcalls : s₀.calls = [])
    (hnew : ¬ Materialized prop s₀.links) (h : Steps (step env prop) Orderly s₀ s)
    (hfinal : ∀ c ∈ s.calls, c = .returned) :
    Materialized prop s.links ↔ s.status = .accepted := by
  have hstart : Consistent prop s₀ := by
    refine ⟨fun hacc => ?_, fun hmem => ?_, fun hm => absurd hm hnew⟩
    · rw [hpending] at hacc
      cases hacc
    · rw [hcalls] at hmem
      cases hmem
  have hs : Consistent prop s :=
    h.invariant (P := Consistent prop) (fun _ _ _ hu hok hstep => hu.step hok hstep) hstart
  refine ⟨fun hm => ?_, hs.of_accepted⟩
  rcases hs.of_materialized hm with hacc | ⟨-, hmem⟩
  · exact hacc
  · cases hfinal _ hmem

end

/-! ## An accept and a reject -/

def sampleProposal : Proposal where
  id := 7
  tenantId := "t"
  fromPath := ⟨["a"]⟩
  toPath := ⟨["b"]⟩
  linkType := "supports"
  confidence := .num 9 1
  reason := ""

def sampleStart : State := ⟨.pending, [], []⟩

def inOrder : List Action :=
  [.accept, .accept, .reject, .getById 0 false, .getById 1 false, .getById 2 false, .create 0,
    .create 1, .updateStatus 0, .updateStatus 1, .updateStatus 2]

/-- A reject between an accept's read and its `Create`. -/
def rejectFirst : List Action :=
  [.accept, .reject, .getById 0 false, .getById 1 false, .updateStatus 1, .create 0,
    .updateStatus 0]

def afterReview (acts : List Action) : State :=
  (runAll (guarded (step dedupEnv sampleProposal) Orderly) sampleStart acts).getD sampleStart

theorem steps_inOrder :
    Steps (step dedupEnv sampleProposal) Orderly sampleStart (afterReview inOrder) :=
  steps_getD sampleStart (by decide +kernel)

theorem review_atomic_inOrder : (afterReview inOrder).status = .accepted ∧
    (Materialized sampleProposal (afterReview inOrder).links ↔
      (afterReview inOrder).status = .accepted) :=
  ⟨by decide +kernel, review_atomic rfl rfl (by decide) steps_inOrder (by decide +kernel)⟩

/-- **The reject has won, the accept sees no error, and the link is there.** -/
theorem review_rejectFirst : ∃ s, Reaches (step dedupEnv sampleProposal) sampleStart s ∧
    (∀ c ∈ s.calls, c = .returned) ∧ s.status = .rejected ∧
      Materialized sampleProposal s.links :=
  exists_reaches rejectFirst (by decide +kernel)

end Pcmi.Review
