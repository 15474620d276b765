import Pcmi.Retention.Workers

/-!
# Distillation policies

The timer takes each enabled policy with the memories under the policy's own prefix. An event takes
the policies above the memory's path cut down to two labels, or replaced by `root.test`
(`distillPathPrefix`), and counts the memories under this prefix.
-/

namespace Pcmi.Distillation

open List Pcmi.Go Pcmi.Lib Pcmi.Memory Pcmi.Retention

/-! ## Decisions -/

structure DistillationPolicy where
  id : Nat
  tenantId : String
  pathPrefix : Ltree
  enabled : Bool
  countThreshold : Nat
  minIntervalSecs : Nat
  maxAgeSecs : Option Nat
  lastTriggeredAt : Option Time
  deriving DecidableEq

/-- `time.Duration`, in nanoseconds. -/
abbrev Duration := Int

structure PolicyEvalState where
  memoryCount : Nat
  oldestEntryAge : Duration
  deriving DecidableEq

/-- The reason codes of `ShouldTriggerPolicy`. -/
inductive Reason where
  | disabled | minInterval | countThreshold | maxAge | underThreshold
  deriving DecidableEq

/-- The last trigger is not long enough ago. -/
def DistillationPolicy.rests (p : DistillationPolicy) (now : Time) : Bool :=
  match p.lastTriggeredAt with
  | some last => decide (0 < p.minIntervalSecs) && decide (now - last < p.minIntervalSecs * second)
  | none => false

def shouldTriggerPolicy (p : DistillationPolicy) (st : PolicyEvalState) (now : Time) :
    Bool × Reason :=
  if !p.enabled then (false, .disabled)
  else if p.rests now then (false, .minInterval)
  else
    let countOk := decide (p.countThreshold ≤ st.memoryCount)
    let ageOk :=
      match p.maxAgeSecs with
      | some maxAge => decide (0 < maxAge) && decide (0 < st.oldestEntryAge) &&
          decide ((maxAge : Int) * 1000000000 ≤ st.oldestEntryAge)
      | none => false
    if countOk then (true, .countThreshold)
    else if ageOk then (true, .maxAge)
    else (false, .underThreshold)

/-- `maybeTrigger` up to the `source_count` of the run. -/
def maybeTrigger (p : DistillationPolicy) (st : PolicyEvalState) (now : Time) : Option Nat :=
  if (shouldTriggerPolicy p st now).1 then some st.memoryCount else none

/-! ## Evaluations -/

def distillPathPrefix (path : String) : String :=
  let path := trimSpaceText path
  if path = "" then "root.test"
  else if "root.test".toList.isPrefixOf path.toList then "root.test"
  else
    match path.toList.splitOn '.' with
    | first :: next :: _ => String.ofList first ++ "." ++ String.ofList next
    | _ => path

inductive Evaluation where
  /-- Without a tenant nothing happens. -/
  | ignored
  /-- `TriggerForPrefix` without a policy. -/
  | default (tenantId pathPrefix : String)
  /-- `maybeTrigger` for each policy, in this order. -/
  | policies (evaluated : List (DistillationPolicy × PolicyEvalState))
  deriving DecidableEq

def Evaluation.evaluated : Evaluation → List DistillationPolicy
  | .policies evaluated => evaluated.map (·.1)
  | _ => []

def Evaluation.startsDefault : Evaluation → Bool
  | .default _ _ => true
  | _ => false

section

variable (env : Env) (toDuration : Time → Duration) (now : Time)

/-- The query in `loadEvalState`; an age passes through `float8`. -/
def evalState (entries : List Row) : Except String PolicyEvalState :=
  if maxInt4 < entries.length then .error "integer out of range"
  else .ok {
    memoryCount := entries.length
    oldestEntryAge :=
      match (entries.map (·.createdAt)).min? with
      | none => 0
      | some oldest => toDuration (now - oldest) }

def loadEvalState (tenantId pathPrefix : String) (rows : List Row) :
    Except String PolicyEvalState :=
  match env.castLtree pathPrefix with
  | none => .error "invalid ltree"
  | some path => evalState toDuration now (rows.filter (currentUnder tenantId path))

def listPoliciesForPrefix (tenantId pathPrefix : String) (policies : List DistillationPolicy) :
    Except String (List DistillationPolicy) :=
  match env.castLtree pathPrefix with
  | none => .error "invalid ltree"
  | some path => .ok ((policies.filter fun p =>
      p.tenantId == tenantId && p.enabled && path.under p.pathPrefix).insertionSort
        fun p q => q.pathPrefix.nlevel ≤ p.pathPrefix.nlevel)

def evaluatePrefix (tenantId pathPrefix : String) (policies : List DistillationPolicy)
    (rows : List Row) : Except String Evaluation :=
  match env.castUuid tenantId with
  | none => .error "invalid uuid"
  | some tenant =>
    match listPoliciesForPrefix env tenant pathPrefix policies with
    | .error e => .error e
    | .ok [] => .ok (.default tenantId pathPrefix)
    | .ok matching =>
      match loadEvalState env toDuration now tenant pathPrefix rows with
      | .error e => .error e
      | .ok st => .ok (.policies (matching.map fun p => (p, st)))

/-- `OnMemoryEvent`. An error is logged. -/
def onMemoryEvent (tenantId memoryPath : String) (policies : List DistillationPolicy)
    (rows : List Row) : Except String Evaluation :=
  if tenantId = "" then .ok .ignored
  else evaluatePrefix env toDuration now tenantId (distillPathPrefix memoryPath) policies rows

def timerPolicies (policies : List DistillationPolicy) : List DistillationPolicy :=
  ((policies.filter (·.enabled)).insertionSort fun p q => p.id ≤ q.id).take 200

/-- `evaluateAll`: the policies with what was loaded for each. -/
def evaluateAll (policies : List DistillationPolicy) (rows : List Row) :
    List (DistillationPolicy × PolicyEvalState) :=
  (timerPolicies policies).filterMap fun p =>
    match loadEvalState env toDuration now p.tenantId p.pathPrefix.text rows with
    | .ok st => some (p, st)
    | .error _ => none

end

/-! ## The shortened prefix -/

/-- `distillPathPrefix` on labels. -/
def shortened (path : Ltree) : Ltree :=
  match path.labels with
  | [] => ⟨["root", "test"]⟩
  | [l] => ⟨[l]⟩
  | l :: m :: _ =>
    if l = "root" ∧ "test".toList.isPrefixOf m.toList then ⟨["root", "test"]⟩ else ⟨[l, m]⟩

section

variable {db : LabelRules} {path : Ltree}

theorem text_pair (l m : String) (rest : List String) :
    (Ltree.text ⟨l :: m :: rest⟩).toList =
      l.toList ++ '.' :: ['.'].intercalate ((m :: rest).map String.toList) := by
  rw [Ltree.toList_text, map_cons, map_cons, intercalate_cons_cons,
    append_assoc]
  rfl

/-- `root.test` begins a path whose second label begins with `test`. -/
theorem isPrefixOf_text {l m : String} {rest : List String}
    (h : db.stores ⟨l :: m :: rest⟩ = true) :
    "root.test".toList.isPrefixOf (Ltree.text ⟨l :: m :: rest⟩).toList = true ↔
      l = "root" ∧ "test".toList.isPrefixOf m.toList = true := by
  have hroot : "root.test".toList = "root".toList ++ '.' :: "test".toList := rfl
  have hdot : '.' ∉ l.toList := LabelRules.dot_not_mem ((LabelRules.stores_iff.mp h).1 l (by simp))
  rw [ isPrefixOf_iff_prefix, isPrefixOf_iff_prefix, hroot, text_pair,
    append_cons_isPrefix_iff (by decide) hdot, String.toList_inj, eq_comm]
  refine and_congr_right fun _ => ?_
  cases rest with
  | nil => rw [map_singleton, intercalate_singleton]
  | cons n rest =>
    rw [map_cons, map_cons, intercalate_cons_cons, append_assoc]
    exact isPrefix_append_cons_iff (by decide)

/-- **The prefix of an event, in labels.** -/
theorem distillPathPrefix_text (h : db.stores path = true) :
    distillPathPrefix path.text = (shortened path).text := by
  unfold distillPathPrefix
  rw [LabelRules.trimSpaceText_text h]
  dsimp only
  obtain ⟨labels⟩ := path
  match labels, h with
  | [], h => rfl
  | [l], h =>
    have hne : Ltree.text ⟨[l]⟩ ≠ "" :=
      mt (LabelRules.text_eq_empty_iff h).mp (cons_ne_nil l [])
    have htext : Ltree.text ⟨[l]⟩ = l := by simp [Ltree.text]
    have hdot := LabelRules.dot_not_mem ((LabelRules.stores_iff.mp h).1 l mem_cons_self)
    have hroot : ¬ "root.test".toList.isPrefixOf l.toList = true := by
      intro hpre
      obtain ⟨rest, hrest⟩ := isPrefixOf_iff_prefix.mp hpre
      exact hdot (hrest ▸ mem_append_left rest (by decide))
    rw [if_neg hne, LabelRules.splitOn_text h (cons_ne_nil l []), htext, if_neg hroot]
    exact htext.symm
  | l :: m :: rest, h =>
    have hne : Ltree.text ⟨l :: m :: rest⟩ ≠ "" :=
      mt (LabelRules.text_eq_empty_iff h).mp (cons_ne_nil l _)
    rw [if_neg hne, LabelRules.splitOn_text h (cons_ne_nil l _)]
    simp only [isPrefixOf_text h, shortened]
    split
    · rfl
    refine String.toList_injective ?_
    rw [text_pair]
    simp

theorem stores_shortened (h : db.stores path = true) : db.stores (shortened path) = true := by
  have htest : db.stores ⟨["root", "test"]⟩ = true := by
    refine LabelRules.stores_iff.mpr ⟨?_, by decide⟩
    have hroot : db.label "root" = true :=
      LabelRules.label_of_word (by decide) (by decide) (by decide)
    have htest : db.label "test" = true :=
      LabelRules.label_of_word (by decide) (by decide) (by decide)
    simp [hroot, htest]
  have htake := LabelRules.stores_take h 2
  unfold shortened
  obtain ⟨labels⟩ := path
  match labels, h, htake with
  | [], _, _ => exact htest
  | [l], h, _ => exact h
  | l :: m :: rest, _, htake =>
    dsimp only
    split
    · exact htest
    · exact htake

end

/-! ## Which policies an event finds -/

/-- The prefixes above only one of the path and its shortened prefix. -/
def Misjudged (path pre : Ltree) : Prop :=
  match path.labels with
  | [] => pre.labels = ["root"] ∨ pre.labels = ["root", "test"]
  | [_] => False
  | l :: m :: _ =>
    if l = "root" ∧ "test".toList.isPrefixOf m.toList ∧ m ≠ "test" then
      pre.labels = ["root", "test"] ∨ path.under pre ∧ 2 ≤ pre.nlevel
    else path.under pre ∧ 3 ≤ pre.nlevel

variable {pre path : Ltree}

theorem under_iff : path.under pre = true ↔ pre.labels <+: path.labels :=
  isPrefixOf_iff_prefix

/-- Above a path cut short are the prefixes that are short enough. -/
theorem prefix_shortened_iff (h : (shortened path).labels = path.labels.take 2) :
    ((shortened path).under pre = true ↔ path.under pre = true) ↔
      ¬ (path.under pre = true ∧ 3 ≤ pre.nlevel) := by
  rw [under_iff, under_iff, h, prefix_take_iff, Ltree.nlevel]
  constructor
  · rintro hiff ⟨hpre, hlevel⟩
    have := (hiff.mpr hpre).2
    omega
  · intro hnot
    exact ⟨fun h => h.1, fun hpre => ⟨hpre, by_contra fun hlevel => hnot ⟨hpre, by omega⟩⟩⟩

theorem rootTest_nil_iff (pre : Ltree) :
    ((⟨["root", "test"]⟩ : Ltree).under pre = true ↔ (⟨[]⟩ : Ltree).under pre = true) ↔
      ¬ (pre.labels = ["root"] ∨ pre.labels = ["root", "test"]) := by
  have hrootTest : pre.labels <+: ["root"] ++ ["test"] ↔
      pre.labels = ["root"] ++ ["test"] ∨ pre.labels <+: ["root"] := prefix_concat_iff
  have hroot : pre.labels <+: [] ++ ["root"] ↔ pre.labels = [] ++ ["root"] ∨ pre.labels <+: [] :=
    prefix_concat_iff
  simp only [cons_append, nil_append, prefix_nil] at hrootTest hroot
  rw [under_iff, under_iff, hrootTest, hroot, prefix_nil]
  constructor
  · rintro hiff (h | h)
    · have hnil := hiff.mp (Or.inr (Or.inl h))
      rw [h] at hnil
      cases hnil
    · have hnil := hiff.mp (Or.inl h)
      rw [h] at hnil
      cases hnil
  · intro hnot
    refine ⟨?_, fun h => Or.inr (Or.inr h)⟩
    rintro (h | h | h)
    · exact absurd (Or.inr h) hnot
    · exact absurd (Or.inl h) hnot
    · exact h

theorem rootTest_cons_iff (pre : Ltree) {m : String} (rest : List String) (hne : m ≠ "test") :
    ((⟨["root", "test"]⟩ : Ltree).under pre = true ↔
        (⟨"root" :: m :: rest⟩ : Ltree).under pre = true) ↔
      ¬ (pre.labels = ["root", "test"] ∨
        (⟨"root" :: m :: rest⟩ : Ltree).under pre = true ∧ 2 ≤ pre.nlevel) := by
  have hrootTest : pre.labels <+: ["root"] ++ ["test"] ↔
      pre.labels = ["root"] ++ ["test"] ∨ pre.labels <+: ["root"] := prefix_concat_iff
  have hroot : pre.labels <+: ("root" :: m :: rest).take 1 ↔
      pre.labels <+: "root" :: m :: rest ∧ pre.labels.length ≤ 1 := prefix_take_iff
  simp only [cons_append, nil_append] at hrootTest
  rw [take_succ_cons, take_zero] at hroot
  have hother : pre.labels = ["root", "test"] → ¬ pre.labels <+: "root" :: m :: rest := by
    intro h hpre
    rw [h] at hpre
    obtain ⟨-, hpre⟩ := cons_prefix_cons.mp hpre
    exact hne (cons_prefix_cons.mp hpre).1.symm
  rw [under_iff, under_iff, hrootTest, hroot, Ltree.nlevel]
  constructor
  · rintro hiff (h | ⟨hpre, hlevel⟩)
    · exact hother h (hiff.mp (Or.inl h))
    · rcases hiff.mpr hpre with h | h
      · exact hother h hpre
      · omega
  · intro hnot
    constructor
    · rintro (h | h)
      · exact absurd (Or.inl h) hnot
      · exact h.1
    · intro hpre
      exact Or.inr ⟨hpre, by_contra fun hlevel => hnot (Or.inr ⟨hpre, by omega⟩)⟩

/-- **Where the shortened prefix stands for the path.** -/
theorem under_shortened_iff (path pre : Ltree) :
    ((shortened path).under pre = true ↔ path.under pre = true) ↔ ¬ Misjudged path pre := by
  obtain ⟨labels⟩ := path
  match labels with
  | [] => exact rootTest_nil_iff pre
  | [l] => simp [Misjudged, shortened]
  | l :: m :: rest =>
    by_cases htest : l = "root" ∧ "test".toList.isPrefixOf m.toList = true ∧ m ≠ "test"
    · have hshort : shortened ⟨l :: m :: rest⟩ = ⟨["root", "test"]⟩ :=
        if_pos ⟨htest.1, htest.2.1⟩
      dsimp only [Misjudged]
      rw [hshort, if_pos htest]
      obtain ⟨rfl, -, hne⟩ := htest
      exact rootTest_cons_iff pre rest hne
    · have hshort : (shortened ⟨l :: m :: rest⟩).labels = [l, m] := by
        unfold shortened
        dsimp only
        split
        · next h =>
          have hm : m = "test" := by_contra fun hm => htest ⟨h.1, h.2, hm⟩
          rw [h.1, hm]
        · rfl
      dsimp only [Misjudged]
      rw [prefix_shortened_iff hshort, if_neg htest]

def matching (tenantId : String) (path : Ltree) (p : DistillationPolicy) : Bool :=
  p.tenantId == tenantId && p.enabled && path.under p.pathPrefix

/-- The policies above the path are evaluated once each, or the default runs. -/
structure Matched (tenantId : String) (path : Ltree) (policies : List DistillationPolicy)
    (out : Evaluation) : Prop where
  evaluated : out.evaluated.Perm (policies.filter (matching tenantId path))
  default : out.startsDefault = true → policies.filter (matching tenantId path) = []

section

variable {env : Env} {db : LabelRules} {toDuration : Time → Duration} {now : Time}
  {tenantId tenant : String} {path : Ltree} {policies : List DistillationPolicy} {rows : List Row}
  {out : Evaluation}

/-- **What an event evaluates**: the policies above the shortened prefix. -/
theorem onMemoryEvent_ok (henv : env.castLtree = db.castLtree) (hpath : db.stores path = true)
    (htenant : tenantId ≠ "") (huuid : env.castUuid tenantId = some tenant)
    (h : onMemoryEvent env toDuration now tenantId path.text policies rows = .ok out) :
    (policies.filter (matching tenant (shortened path)) = [] ∧
        out = .default tenantId (shortened path).text) ∨
      policies.filter (matching tenant (shortened path)) ≠ [] ∧
        ∃ st, loadEvalState env toDuration now tenant (shortened path).text rows = .ok st ∧
          out = .policies (((policies.filter (matching tenant (shortened path))).insertionSort
            fun p q => q.pathPrefix.nlevel ≤ p.pathPrefix.nlevel).map fun p => (p, st)) := by
  rw [onMemoryEvent, if_neg htenant, distillPathPrefix_text hpath, evaluatePrefix, huuid] at h
  dsimp only at h
  have hlist : listPoliciesForPrefix env tenant (shortened path).text policies =
      .ok ((policies.filter (matching tenant (shortened path))).insertionSort
        fun p q => q.pathPrefix.nlevel ≤ p.pathPrefix.nlevel) := by
    rw [listPoliciesForPrefix, henv, LabelRules.castLtree_text (stores_shortened hpath)]
    rfl
  have hperm := perm_insertionSort
    (fun p q : DistillationPolicy => q.pathPrefix.nlevel ≤ p.pathPrefix.nlevel)
    (policies.filter (matching tenant (shortened path)))
  rw [hlist] at h
  split at h
  · next heq => cases heq
  · next heq =>
    cases h
    rw [Except.ok.inj heq] at hperm
    exact Or.inl ⟨hperm.symm.eq_nil, rfl⟩
  · next found hne heq =>
    obtain rfl := Except.ok.inj heq
    split at h <;> cases h
    next st hst =>
    refine Or.inr ⟨fun hnil => ?_, st, hst, rfl⟩
    rw [hnil] at hne
    exact hne rfl

/-- **An event evaluates the policies above its path** exactly if none is above only one of the path
and its shortened prefix. -/
theorem policies_matched_iff (henv : env.castLtree = db.castLtree) (hpath : db.stores path = true)
    (htenant : tenantId ≠ "") (huuid : env.castUuid tenantId = some tenant)
    (h : onMemoryEvent env toDuration now tenantId path.text policies rows = .ok out) :
    Matched tenant path policies out ↔
      ∀ p ∈ policies, p.tenantId = tenant → p.enabled = true → ¬ Misjudged path p.pathPrefix := by
  have hsame : (∀ p ∈ policies, p.tenantId = tenant → p.enabled = true →
      ¬ Misjudged path p.pathPrefix) ↔
      ∀ p ∈ policies, matching tenant (shortened path) p = matching tenant path p := by
    refine forall₂_congr fun p _ => ?_
    have hmatching : matching tenant (shortened path) p = matching tenant path p ↔
        (matching tenant (shortened path) p = true ↔ matching tenant path p = true) :=
      Bool.eq_iff_iff
    rw [← under_shortened_iff, hmatching]
    simp only [matching, Bool.and_eq_true, beq_iff_eq, and_congr_right_iff, and_imp]
  have hperm : out.evaluated.Perm (policies.filter (matching tenant (shortened path))) := by
    rcases onMemoryEvent_ok henv hpath htenant huuid h with ⟨hnil, rfl⟩ | ⟨-, st, -, rfl⟩
    · rw [hnil]
      exact .nil
    · rw [Evaluation.evaluated, map_map]
      simpa [Function.comp_def] using perm_insertionSort _ _
  rw [hsame]
  constructor
  · intro hmatched p hp
    have hmem := (hperm.symm.trans hmatched.evaluated).mem_iff (a := p)
    rw [mem_filter, mem_filter, and_iff_right hp, and_iff_right hp] at hmem
    exact Bool.eq_iff_iff.mpr hmem
  · intro hall
    have hfilter := filter_congr hall
    refine ⟨hfilter ▸ hperm, fun hdefault => ?_⟩
    rcases onMemoryEvent_ok henv hpath htenant huuid h with ⟨hnil, -⟩ | ⟨-, st, -, rfl⟩
    · rw [← hfilter, hnil]
    · cases hdefault

end

/-! ### A policy with a longer prefix -/

def samplePolicy (id : Nat) (labels : List String) : DistillationPolicy where
  id := id
  tenantId := "t"
  pathPrefix := ⟨labels⟩
  enabled := true
  countThreshold := 2
  minIntervalSecs := 300
  maxAgeSecs := none
  lastTriggeredAt := none

def memoryAt (id : Nat) (labels : List String) : Row :=
  { dedupRow id "" "a" with path := ⟨labels⟩ }

theorem policies_matched_above : Matched "t" ⟨["root", "a", "b"]⟩
    [samplePolicy 1 ["root"], samplePolicy 2 ["root", "a"]]
    (.policies [(samplePolicy 2 ["root", "a"], ⟨1, 0⟩), (samplePolicy 1 ["root"], ⟨1, 0⟩)]) := by
  have hrun : onMemoryEvent wordEnv id 0 "t" (Ltree.text ⟨["root", "a", "b"]⟩)
      [samplePolicy 1 ["root"], samplePolicy 2 ["root", "a"]] [memoryAt 1 ["root", "a", "b"]] =
      .ok (.policies [(samplePolicy 2 ["root", "a"], ⟨1, 0⟩), (samplePolicy 1 ["root"], ⟨1, 0⟩)]) :=
    by decide +kernel
  refine (policies_matched_iff rfl (by decide +kernel) (by decide) rfl hrun).mpr ?_
  intro p hp _ _ hmisjudged
  rcases mem_cons.mp hp with rfl | hp
  · exact absurd hmisjudged.2 (by decide)
  · obtain rfl := mem_singleton.mp hp
    exact absurd hmisjudged.2 (by decide)

/-- **A policy for `root.a.b` is not evaluated for a memory below it.** -/
theorem policy_below_missed : ∃ out, onMemoryEvent wordEnv id 0 "t" "root.a.b.c"
    [samplePolicy 1 ["root", "a", "b"]] [] = .ok out ∧ out.evaluated = [] ∧
      out.startsDefault = true ∧
      ¬ Matched "t" ⟨["root", "a", "b", "c"]⟩ [samplePolicy 1 ["root", "a", "b"]] out := by
  refine ⟨.default "t" "root.a", by decide +kernel, rfl, rfl, fun h => ?_⟩
  exact absurd (h.default rfl) (by decide)

/-! ## Events and the timer -/

/-- The timer gives `ShouldTriggerPolicy` the same as the event. -/
def Agrees (env : Env) (toDuration : Time → Duration) (dbNow now : Time)
    (policies : List DistillationPolicy) (rows : List Row) (p : DistillationPolicy)
    (st : PolicyEvalState) : Prop :=
  ∃ st', (p, st') ∈ evaluateAll env toDuration dbNow policies rows ∧
    st'.memoryCount = st.memoryCount ∧ st'.oldestEntryAge = st.oldestEntryAge ∧
    shouldTriggerPolicy p st' now = shouldTriggerPolicy p st now ∧
    maybeTrigger p st' now = maybeTrigger p st now

section

variable {env : Env} {db : LabelRules} {toDuration : Time → Duration} {now dbNow : Time}
  {tenantId tenant : String} {path : Ltree} {policies : List DistillationPolicy} {rows : List Row}
  {p : DistillationPolicy} {st : PolicyEvalState}

theorem loadEvalState_text (henv : env.castLtree = db.castLtree) (hpath : db.stores path = true) :
    loadEvalState env toDuration now tenant path.text rows =
      evalState toDuration now (rows.filter (currentUnder tenant path)) := by
  rw [loadEvalState, henv, LabelRules.castLtree_text hpath]

theorem memoryCount_of_evalState {entries : List Row}
    (h : evalState toDuration now entries = .ok st) : st.memoryCount = entries.length := by
  unfold evalState at h
  split at h <;> cases h
  rfl

theorem mem_evaluateAll (henv : env.castLtree = db.castLtree)
    (hstored : db.stores p.pathPrefix = true) :
    (p, st) ∈ evaluateAll env toDuration now policies rows ↔ p ∈ timerPolicies policies ∧
      evalState toDuration now (rows.filter (currentUnder p.tenantId p.pathPrefix)) = .ok st := by
  rw [evaluateAll, mem_filterMap]
  constructor
  · rintro ⟨q, hq, h⟩
    split at h <;> cases h
    next st' hst =>
    rw [loadEvalState_text henv hstored] at hst
    exact ⟨hq, hst⟩
  · rintro ⟨hp, hst⟩
    refine ⟨p, hp, ?_⟩
    rw [loadEvalState_text henv hstored, hst]

variable {r : Row} {anc : Ltree}

theorem currentUnder_mono (hanc : path.under anc = true) (h : currentUnder tenant path r = true) :
    currentUnder tenant anc r = true := by
  rw [currentUnder, Bool.and_eq_true, Bool.and_eq_true] at h ⊢
  exact ⟨⟨h.1.1, under_iff.mpr ((under_iff.mp hanc).trans (under_iff.mp h.1.2))⟩, h.2⟩

theorem currentUnder_of_under (hanc : currentUnder tenant anc r = true)
    (h : r.path.under path = true) : currentUnder tenant path r = true := by
  rw [currentUnder, Bool.and_eq_true, Bool.and_eq_true] at hanc ⊢
  exact ⟨⟨hanc.1.1, h⟩, hanc.2⟩

theorem filter_currentUnder_eq (hanc : path.under anc = true)
    (hall : ∀ r ∈ rows, currentUnder tenant anc r = true → r.path.under path = true) :
    rows.filter (currentUnder tenant anc) = rows.filter (currentUnder tenant path) :=
  filter_congr fun r hr => Bool.eq_iff_iff.mpr
    ⟨fun h => currentUnder_of_under h (hall r hr h), currentUnder_mono hanc⟩

theorem length_filter_currentUnder_iff (hanc : path.under anc = true) :
    (rows.filter (currentUnder tenant anc)).length =
        (rows.filter (currentUnder tenant path)).length ↔
      ∀ r ∈ rows, currentUnder tenant anc r = true → r.path.under path = true := by
  have hsub : List.Sublist (rows.filter (currentUnder tenant path))
      (rows.filter (currentUnder tenant anc)) :=
    monotone_filter_right rows fun r => currentUnder_mono hanc
  constructor
  · intro hlength r hr hunder
    have hmem : r ∈ rows.filter (currentUnder tenant path) := by
      rw [hsub.eq_of_length hlength.symm]
      exact mem_filter.mpr ⟨hr, hunder⟩
    have hpath := (mem_filter.mp hmem).2
    rw [currentUnder, Bool.and_eq_true, Bool.and_eq_true] at hpath
    exact hpath.1.2
  · intro hall
    rw [filter_currentUnder_eq hanc hall]

/-- **Event and timer agree on a policy** exactly if the timer looks at it and all its memories are
under the event's shortened prefix. -/
theorem timer_agrees_iff (henv : env.castLtree = db.castLtree) (hpath : db.stores path = true)
    (htenant : tenantId ≠ "") (huuid : env.castUuid tenantId = some tenant)
    (hstored : ∀ p ∈ policies, db.stores p.pathPrefix = true)
    {evaluated : List (DistillationPolicy × PolicyEvalState)}
    (h : onMemoryEvent env toDuration dbNow tenantId path.text policies rows =
      .ok (.policies evaluated)) (hp : (p, st) ∈ evaluated) :
    Agrees env toDuration dbNow now policies rows p st ↔
      p ∈ timerPolicies policies ∧ ∀ r ∈ rows,
        currentUnder p.tenantId p.pathPrefix r = true → r.path.under (shortened path) = true := by
  rcases onMemoryEvent_ok henv hpath htenant huuid h with ⟨-, hout⟩ | ⟨-, st₀, hst, hout⟩
  · cases hout
  cases hout
  obtain ⟨q, hq, heq⟩ := mem_map.mp hp
  cases heq
  obtain ⟨hmem, hmatching⟩ := mem_filter.mp ((mem_insertionSort _).mp hq)
  rw [matching, Bool.and_eq_true, Bool.and_eq_true, beq_iff_eq] at hmatching
  obtain ⟨⟨rfl, -⟩, hunder⟩ := hmatching
  rw [loadEvalState_text henv (stores_shortened hpath)] at hst
  constructor
  · rintro ⟨st', htimer, hcount, -⟩
    obtain ⟨hlisted, hst'⟩ := (mem_evaluateAll henv (hstored p hmem)).mp htimer
    refine ⟨hlisted, (length_filter_currentUnder_iff hunder).mp ?_⟩
    rw [← memoryCount_of_evalState hst', hcount, memoryCount_of_evalState hst]
  · rintro ⟨hlisted, hall⟩
    rw [← filter_currentUnder_eq hunder hall] at hst
    have htimer := (mem_evaluateAll henv (hstored p hmem)).mpr ⟨hlisted, hst⟩
    exact ⟨st, htimer, rfl, rfl, rfl, rfl⟩

end

theorem timer_agrees_sameSubtree : Agrees wordEnv id 0 0 [samplePolicy 1 ["root", "a"]]
    [memoryAt 1 ["root", "a", "b"], memoryAt 2 ["root", "a", "c"], memoryAt 3 ["root", "b"]]
    (samplePolicy 1 ["root", "a"]) ⟨2, 0⟩ := by
  have hrun : onMemoryEvent wordEnv id 0 "t" (Ltree.text ⟨["root", "a", "b"]⟩)
      [samplePolicy 1 ["root", "a"]]
      [memoryAt 1 ["root", "a", "b"], memoryAt 2 ["root", "a", "c"], memoryAt 3 ["root", "b"]] =
      .ok (.policies [(samplePolicy 1 ["root", "a"], ⟨2, 0⟩)]) := by decide +kernel
  refine (timer_agrees_iff rfl (by decide +kernel) (by decide) rfl (by decide +kernel) hrun
    mem_cons_self).mpr ⟨by decide +kernel, by decide +kernel⟩

/-- **For a policy on `root` the event counts one memory, the timer three.** -/
theorem timer_disagrees : ∃ st, onMemoryEvent wordEnv id 0 "t" "root.a.b" [samplePolicy 1 ["root"]]
      [memoryAt 1 ["root", "a", "b"], memoryAt 2 ["root", "b"], memoryAt 3 ["root", "c"]] =
      .ok (.policies [(samplePolicy 1 ["root"], st)]) ∧
    maybeTrigger (samplePolicy 1 ["root"]) st 0 = none ∧
    (evaluateAll wordEnv id 0 [samplePolicy 1 ["root"]]
      [memoryAt 1 ["root", "a", "b"], memoryAt 2 ["root", "b"], memoryAt 3 ["root", "c"]]).map
        (fun e => maybeTrigger e.1 e.2 0) = [some 3] ∧
    ¬ Agrees wordEnv id 0 0 [samplePolicy 1 ["root"]]
      [memoryAt 1 ["root", "a", "b"], memoryAt 2 ["root", "b"], memoryAt 3 ["root", "c"]]
      (samplePolicy 1 ["root"]) st := by
  refine ⟨⟨1, 0⟩, by decide +kernel, by decide +kernel, by decide +kernel, ?_⟩
  rintro ⟨st', hst', hcount, -⟩
  have htimer : ∀ e ∈ evaluateAll wordEnv id 0 [samplePolicy 1 ["root"]]
      [memoryAt 1 ["root", "a", "b"], memoryAt 2 ["root", "b"], memoryAt 3 ["root", "c"]],
      e.2.memoryCount = 3 := by decide +kernel
  rw [htimer _ hst'] at hcount
  cases hcount

/-! ## The subtree of a job -/

/-- The job that an event triggers works above the memory's path. -/
def InJobSubtree (env : Env) (path : Ltree) : Prop :=
  ∃ pre, env.castLtree (distillPathPrefix path.text) = some pre ∧ path.under pre = true ∧
    ∀ r : Row, r.path = path → temporalClause none r = true →
      currentUnder r.tenantId pre r = true

theorem under_shortened_self_iff (path : Ltree) : path.under (shortened path) = true ↔
    path.labels ≠ [] ∧ ∀ m rest, path.labels = "root" :: m :: rest →
      "test".toList.isPrefixOf m.toList = true → m = "test" := by
  rw [under_iff]
  obtain ⟨labels⟩ := path
  match labels with
  | [] => simp [shortened]
  | [l] => simp [shortened]
  | l :: m :: rest =>
    by_cases htest : l = "root" ∧ "test".toList.isPrefixOf m.toList = true
    · rw [show shortened ⟨l :: m :: rest⟩ = ⟨["root", "test"]⟩ from if_pos htest]
      obtain ⟨rfl, hm⟩ := htest
      constructor
      · intro hpre
        refine ⟨cons_ne_nil _ _, fun m' rest' heq _ => ?_⟩
        cases heq
        exact (cons_prefix_cons.mp (cons_prefix_cons.mp hpre).2).1.symm
      · rintro ⟨-, hall⟩
        rw [hall m rest rfl hm]
        exact ⟨rest, rfl⟩
    · rw [show shortened ⟨l :: m :: rest⟩ = ⟨[l, m]⟩ from if_neg htest]
      refine iff_of_true ⟨rest, rfl⟩ ⟨cons_ne_nil l _, ?_⟩
      intro m' rest' heq hm
      cases heq
      exact absurd ⟨rfl, hm⟩ htest

/-- **The job's subtree contains the memory** exactly if the path has labels and is not under a
label that only begins with `test`. -/
theorem inJobSubtree_iff {env : Env} {db : LabelRules} (henv : env.castLtree = db.castLtree)
    (path : Ltree) (hpath : db.stores path = true) :
    InJobSubtree env path ↔ path.labels ≠ [] ∧ ∀ m rest, path.labels = "root" :: m :: rest →
      "test".toList.isPrefixOf m.toList = true → m = "test" := by
  rw [← under_shortened_self_iff, InJobSubtree, distillPathPrefix_text hpath, henv,
    LabelRules.castLtree_text (stores_shortened hpath)]
  constructor
  · rintro ⟨pre, heq, hunder, -⟩
    exact Option.some.inj heq ▸ hunder
  · intro hunder
    refine ⟨_, rfl, hunder, fun r hr hcurrent => ?_⟩
    simp [currentUnder, hr, hunder, hcurrent]

theorem inJobSubtree_rootTest : InJobSubtree wordEnv ⟨["root", "test", "a"]⟩ := by
  refine (inJobSubtree_iff rfl _ (by decide +kernel)).mpr ⟨cons_ne_nil _ _, ?_⟩
  intro m rest heq _
  cases heq
  rfl

/-- **`root.testing.a` triggers the distillation of `root.test`.** -/
theorem rootTesting_outside_job : distillPathPrefix "root.testing.a" = "root.test" ∧
    ¬ InJobSubtree wordEnv ⟨["root", "testing", "a"]⟩ := by
  refine ⟨by decide +kernel, ?_⟩
  rintro ⟨pre, hcast, hunder, -⟩
  have hpre : wordEnv.castLtree (distillPathPrefix (Ltree.text ⟨["root", "testing", "a"]⟩)) =
      some ⟨["root", "test"]⟩ := by decide +kernel
  obtain rfl := Option.some.inj (hcast.symm.trans hpre)
  exact absurd hunder (by decide)

end Pcmi.Distillation
