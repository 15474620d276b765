import Pcmi.Memory.SamePath

/-!
# Merging while others store

In mode `merge` one statement looks the row with the hash up, through the read pool, and
`MergeCurrentMetadata` then updates whatever row is current at the path. Here the lookups and writes
of any number of stores interleave. A merge that waits for the lock of a store finds the row closed
and updates nothing, so only the order of the commits matters.
-/

namespace Pcmi.Memory

open List Pcmi.Go Pcmi.Lib Option

structure Pending where
  hash : String
  found : Option Row
  plan : Plan

structure Stores where
  table : Table
  /-- The committed states, the newest first. -/
  past : List (List Row)
  pending : List Pending
  /-- The rows that merges have updated, with the hash of the request. -/
  merges : List (String × Row)

inductive StoreAction where
  /-- A store reads a committed state and decides what to write. -/
  | lookup (settings : DedupSettings) (req : StoreRequest) (tenantId : String) (snapshot : Nat)
  /-- A pending store writes. -/
  | write (call : Nat) (now : Time)

def Stores.start (t : Table) : Stores := ⟨t, [t.rows], [], []⟩

def foundBy (env : Env) (req : StoreRequest) (tenantId : String) (seen : List Row) : Option Row :=
  match findCurrentByContentHash env tenantId (env.contentHash req.content) seen with
  | .ok found => found
  | .error _ => none

def Plan.isMerged : Plan → Bool
  | .merged .. => true
  | _ => false

/-- The rows that the write of a pending store merges into. -/
def Pending.merged (rows : List Row) (p : Pending) : List (String × Row) :=
  match p.plan with
  | .merged tenantId path _ _ => (rows.filter (Row.current tenantId path)).map fun r => (p.hash, r)
  | _ => []

def Stores.step (env : Env) (s : Stores) : StoreAction → Option Stores
  | .lookup settings req tenantId snapshot =>
    match s.past[snapshot]? with
    | none => none
    | some seen =>
      match serviceStore env settings req tenantId seen with
      | .error _ => some s
      | .ok plan =>
        let call := ⟨env.contentHash req.content, foundBy env req tenantId seen, plan⟩
        some { s with pending := s.pending ++ [call] }
  | .write call now =>
    match s.pending[call]? with
    | none => none
    | some p =>
      let pending := s.pending.eraseIdx call
      match p.plan.run now s.table with
      | .error _ => some { s with pending }
      | .ok t => some {
          table := t
          past := t.rows :: s.past
          pending := pending
          merges := s.merges ++ p.merged s.table.rows }

/-- A merge writes the row that its lookup returned, still current. -/
def stillCurrent (s : Stores) : StoreAction → Bool
  | .lookup .. => true
  | .write call _ =>
    match s.pending[call]? with
    | none => true
    | some p => (p.merged s.table.rows).all fun m => p.found.any fun e => e.id == m.2.id

def HasHash (env : Env) (hash : String) (r : Row) : Prop :=
  r.contentHash = some (trimSpaceText hash) ∧ HasContent env hash r

instance (env : Env) (hash : String) (r : Row) : Decidable (HasHash env hash r) :=
  inferInstanceAs (Decidable (_ ∧ _))

/-! ## Rows keep their content -/

/-- The columns that no statement changes. -/
structure SameContent (r r' : Row) : Prop where
  id : r'.id = r.id
  content : r'.content = r.content
  contentEncrypted : r'.contentEncrypted = r.contentEncrypted
  contentHash : r'.contentHash = r.contentHash

theorem SameContent.refl (r : Row) : SameContent r r := ⟨rfl, rfl, rfl, rfl⟩

theorem SameContent.symm {r r' : Row} (h : SameContent r r') : SameContent r' r :=
  ⟨h.id.symm, h.content.symm, h.contentEncrypted.symm, h.contentHash.symm⟩

theorem SameContent.trans {a b c : Row} (h : SameContent a b) (h' : SameContent b c) :
    SameContent a c :=
  ⟨h'.id.trans h.id, h'.content.trans h.content, h'.contentEncrypted.trans h.contentEncrypted,
    h'.contentHash.trans h.contentHash⟩

variable {env : Env} {hash : String} {r r' : Row}

/-- Whether a row has a content with a hash is a matter of two columns. -/
theorem hasContent_iff :
    HasContent env hash r ↔
      ∃ plain, (if r.contentEncrypted then env.decryptContent r.content else .ok r.content) =
        .ok plain ∧ env.contentHash plain = hash := by
  unfold HasContent scanMemoryEntry
  split
  · cases env.decryptContent r.content <;> simp
  · simp

theorem SameContent.hasContent (h : SameContent r r') (hhash : HasContent env hash r) :
    HasContent env hash r' := by
  rw [hasContent_iff] at hhash ⊢
  rw [h.contentEncrypted, h.content]
  exact hhash

theorem SameContent.hasHash (h : SameContent r r') (hhash : HasHash env hash r) :
    HasHash env hash r' :=
  ⟨h.contentHash.trans hhash.1, h.hasContent hhash.2⟩

/-- A plan leaves the rows there were, and at most one fresh row. -/
theorem run_sameContent {plan : Plan} {now : Time} {t t' : Table} (h : plan.run now t = .ok t') :
    t.nextId ≤ t'.nextId ∧ ∃ new : Option Row,
      (∀ r ∈ new, r.id = t.nextId ∧ t'.nextId = t.nextId + 1) ∧
        ∀ r' ∈ t'.rows, r' ∈ new ∨ ∃ r ∈ t.rows, SameContent r r' := by
  have hsame : ∀ r ∈ t.rows, r ∈ none ∨ ∃ r₀ ∈ t.rows, SameContent r₀ r :=
    fun r hr => Or.inr ⟨r, hr, .refl r⟩
  cases plan with
  | skipped e | linked e linkedFrom =>
    cases h
    exact ⟨le_rfl, none, by simp, hsame⟩
  | merged tenantId path metadata tags =>
    refine ⟨(sameRows_merged h).1.ge, none, by simp, fun r' hr' => Or.inr ?_⟩
    rw [run_merged_ok h] at hr'
    obtain ⟨r, hr, rfl⟩ := mem_map.mp hr'
    refine ⟨r, hr, ?_⟩
    split <;> exact ⟨rfl, rfl, rfl, rfl⟩
  | insert tenantId c =>
    obtain ⟨hnext, now', r₀, hrows, hid, -⟩ := storedAt_insert h
    refine ⟨by omega, some r₀, ?_, fun r' hr' => ?_⟩
    · rintro r ⟨⟩
      exact ⟨hid, hnext⟩
    · rw [hrows] at hr'
      rcases mem_append.mp hr' with hr' | hr'
      · obtain ⟨r, hr, rfl⟩ := mem_map.mp hr'
        refine Or.inr ⟨r, hr, ?_⟩
        split <;> exact ⟨rfl, rfl, rfl, rfl⟩
      · rw [mem_singleton.mp hr']
        exact Or.inl rfl

/-! ## Every committed row -/

/-- What holds of all committed states together. -/
structure Consistent (env : Env) (s : Stores) : Prop where
  newest : s.table.rows ∈ s.past
  given : ∀ seen ∈ s.past, ∀ r ∈ seen, r.id < s.table.nextId
  same : ∀ seen ∈ s.past, ∀ r ∈ seen, ∀ seen' ∈ s.past, ∀ r' ∈ seen', r'.id = r.id →
    SameContent r r'
  /-- The row of a pending merge was committed with the hash. -/
  found : ∀ p ∈ s.pending, p.plan.isMerged = true → ∀ e ∈ p.found,
    ∃ seen ∈ s.past, ∃ r ∈ seen, r.id = e.id ∧ HasHash env p.hash r
  merges : ∀ m ∈ s.merges, HasHash env m.1 m.2

section

variable {env : Env} {s s' : Stores}

theorem Consistent.start {t : Table} (h : Serial t) : Consistent env (.start t) where
  newest := mem_singleton_self _
  given := by
    intro seen hseen r hr
    rw [mem_singleton.mp hseen] at hr
    exact h.given r hr
  same := by
    intro seen hseen r hr seen' hseen' r' hr' hid
    rw [mem_singleton.mp hseen] at hr
    rw [mem_singleton.mp hseen'] at hr'
    rw [inj_on_of_nodup_map h.unique hr' hr hid]
    exact .refl r
  found := by simp [Stores.start]
  merges := by simp [Stores.start]

variable {settings : DedupSettings} {req : StoreRequest} {tenantId : String} {plan : Plan}
  {now : Time}

theorem exists_hasHash_of_merged {seen : List Row}
    (hplan : serviceStore env settings req tenantId seen = .ok plan)
    (hmerged : plan.isMerged = true) {e : Row} (he : e ∈ foundBy env req tenantId seen) :
    ∃ r ∈ seen, r.id = e.id ∧ HasHash env (env.contentHash req.content) r := by
  cases serviceStore_ok hplan with
  | stored c hno hcolumns | skipped mode e' hmode hskip hdup hpath
  | linked e' p hmode hdup hpath hcast => cases hmerged
  | merged e' p hmode hdup hpath hcast =>
    rw [foundBy, hdup.1] at he
    cases he
    obtain ⟨r, hr, hscan, -, hcolumn, -⟩ := exists_of_found hdup.1
    obtain ⟨content, rfl⟩ := scanMemoryEntry_ok hscan
    exact ⟨r, hr, rfl, hcolumn, _, hscan, hdup.2⟩

theorem Consistent.lookup {snapshot : Nat} (h : Consistent env s)
    (hstep : s.step env (.lookup settings req tenantId snapshot) = some s') :
    Consistent env s' := by
  unfold Stores.step at hstep
  dsimp only at hstep
  split at hstep
  · cases hstep
  next seen hseen =>
  split at hstep <;> cases hstep
  · exact h
  next plan hplan =>
  refine ⟨h.newest, h.given, h.same, ?_, h.merges⟩
  intro p hp hmerged e he
  rcases mem_append.mp hp with hp | hp
  · exact h.found p hp hmerged e he
  obtain rfl := mem_singleton.mp hp
  dsimp only at hmerged he ⊢
  exact ⟨seen, mem_of_getElem? hseen, exists_hasHash_of_merged hplan hmerged he⟩

/-- The rows of a merge that still finds the row it looked up have the hash. -/
theorem Consistent.hasHash_merged {p : Pending} (h : Consistent env s) (hp : p ∈ s.pending)
    (hok : ((p.merged s.table.rows).all fun m => p.found.any fun e => e.id == m.2.id) = true)
    {m : String × Row} (hm : m ∈ p.merged s.table.rows) : HasHash env m.1 m.2 := by
  obtain ⟨e, he, hid⟩ : ∃ e ∈ p.found, e.id = m.2.id := by
    simpa [Option.any_eq_true] using all_eq_true.mp hok m hm
  unfold Pending.merged at hm
  split at hm
  · next tenantId path metadata tags hplan =>
    obtain ⟨r, hr, rfl⟩ := mem_map.mp hm
    obtain ⟨seen, hseen, r₀, hr₀, hid₀, hhash⟩ := h.found p hp (by rw [hplan]; rfl) e he
    have hsame := h.same seen hseen r₀ hr₀ s.table.rows h.newest r (mem_of_mem_filter hr)
      (hid.symm.trans hid₀.symm)
    exact hsame.hasHash hhash
  · cases hm

/-- A write commits rows that were known, and at most one that is new. -/
theorem Consistent.commit {t : Table} (h : Consistent env s) (hrun : plan.run now s.table = .ok t) :
    (∀ seen ∈ t.rows :: s.past, ∀ r ∈ seen, r.id < t.nextId) ∧
      ∀ seen ∈ t.rows :: s.past, ∀ r ∈ seen, ∀ seen' ∈ t.rows :: s.past, ∀ r' ∈ seen',
        r'.id = r.id → SameContent r r' := by
  obtain ⟨hle, new, hnew, hrows⟩ := run_sameContent hrun
  -- every row that is committed now is the new one or has a counterpart in an earlier state
  have hknown : ∀ seen ∈ t.rows :: s.past, ∀ r ∈ seen,
      r ∈ new ∨ ∃ seen₀ ∈ s.past, ∃ r₀ ∈ seen₀, SameContent r₀ r := by
    intro seen hseen r hr
    rcases mem_cons.mp hseen with rfl | hseen
    · rcases hrows r hr with hr | ⟨r₀, hr₀, hsame⟩
      · exact Or.inl hr
      · exact Or.inr ⟨s.table.rows, h.newest, r₀, hr₀, hsame⟩
    · exact Or.inr ⟨seen, hseen, r, hr, .refl r⟩
  have hold : ∀ {seen₀ : List Row} {r₀ r : Row}, seen₀ ∈ s.past → r₀ ∈ seen₀ → SameContent r₀ r →
      r.id < s.table.nextId := by
    intro seen₀ r₀ r hseen₀ hr₀ hsame
    rw [hsame.id]
    exact h.given seen₀ hseen₀ r₀ hr₀
  constructor
  · intro seen hseen r hr
    rcases hknown seen hseen r hr with hr | ⟨seen₀, hseen₀, r₀, hr₀, hsame⟩
    · obtain ⟨hid, hnext⟩ := hnew r hr
      omega
    · exact (hold hseen₀ hr₀ hsame).trans_le hle
  · intro seen hseen r hr seen' hseen' r' hr' hid
    rcases hknown seen hseen r hr with hr | ⟨seen₀, hseen₀, r₀, hr₀, hsame⟩ <;>
      rcases hknown seen' hseen' r' hr' with hr' | ⟨seen₁, hseen₁, r₁, hr₁, hsame'⟩
    · rw [mem_unique hr' hr]
      exact .refl r
    · have hlt := hold hseen₁ hr₁ hsame'
      have hfresh := (hnew r hr).1
      omega
    · have hlt := hold hseen₀ hr₀ hsame
      have hfresh := (hnew r' hr').1
      omega
    · have hids : r₁.id = r₀.id := hsame'.id.symm.trans (hid.trans hsame.id)
      exact hsame.symm.trans ((h.same seen₀ hseen₀ r₀ hr₀ seen₁ hseen₁ r₁ hr₁ hids).trans hsame')

theorem Consistent.write {call : Nat} (h : Consistent env s)
    (hok : stillCurrent s (.write call now) = true) (hstep : s.step env (.write call now) =
      some s') :
    Consistent env s' := by
  unfold Stores.step at hstep
  unfold stillCurrent at hok
  dsimp only at hstep hok
  split at hstep
  · cases hstep
  next p hp =>
  rw [hp] at hok
  have hkept : ∀ q ∈ s.pending.eraseIdx call, q ∈ s.pending := fun q hq =>
    (eraseIdx_sublist ..).mem hq
  split at hstep <;> cases hstep
  · exact ⟨h.newest, h.given, h.same, fun q hq => h.found q (hkept q hq), h.merges⟩
  next t hrun =>
  obtain ⟨hgiven, hsame⟩ := h.commit hrun
  refine ⟨mem_cons_self, hgiven, hsame, ?_, ?_⟩
  · intro q hq hmerged e he
    obtain ⟨seen, hseen, hrow⟩ := h.found q (hkept q hq) hmerged e he
    exact ⟨seen, mem_cons_of_mem _ hseen, hrow⟩
  · intro m hm
    rcases mem_append.mp hm with hm | hm
    · exact h.merges m hm
    · exact h.hasHash_merged (mem_of_getElem? hp) hok hm

end

/-- **A merge changes only rows with the content of its request, as long as no other row becomes
current in between.** -/
theorem merges_match {env : Env} {t : Table} (ht : Serial t) {s : Stores}
    (hrun : Steps (Stores.step env) (fun s a => stillCurrent s a = true) (.start t) s) :
    ∀ m ∈ s.merges, HasHash env m.1 m.2 := by
  refine (Steps.invariant (P := Consistent env) ?_ hrun (.start ht)).merges
  intro s a s' h hok hstep
  cases a with
  | lookup settings req tenantId snapshot => exact h.lookup hstep
  | write call now => exact h.write hok hstep

/-! ## A store in between -/

def mergeRequest : StoreRequest :=
  { path := "x", content := "a", metadata := some (AList.singleton "seen" (.bool true)),
    dedupMode := "merge" }

def mergeAlone : List StoreAction := [.lookup {} mergeRequest "t" 0, .write 0 1]

def storeInBetween : List StoreAction :=
  [.lookup {} mergeRequest "t" 0, .lookup {} { path := "x", content := "b" } "t" 0, .write 1 1,
   .write 0 2]

def oneMemory : Table := ⟨[dedupRow 1 "x" "a"], 2⟩

theorem merges_match_alone :
    ∃ s, runAll (guarded (Stores.step dedupEnv) (fun s a => stillCurrent s a = true))
        (.start oneMemory) mergeAlone = some s ∧
      s.merges.map (fun m => (m.1, m.2.id)) = [("a", 1)] ∧
      ∀ m ∈ s.merges, HasHash dedupEnv m.1 m.2 := by
  have hserial : Serial oneMemory := ⟨nodup_singleton _, by decide⟩
  exact exists_some (by decide +kernel) fun s hs => merges_match hserial (steps_runAll (.refl _) hs)

/-- **The metadata meant for `a` go to a row with content `b`.** -/
theorem merge_changes_other_content :
    ∃ s, Reaches (Stores.step dedupEnv) (.start oneMemory) s ∧
      s.merges.map (fun m => (m.1, m.2.content)) = [("a", "b")] ∧
      s.table.rows.map (fun r => (r.content, (r.metadata.lookup "seen").isSome)) =
        [("a", false), ("b", true)] ∧
      ¬∀ m ∈ s.merges, HasHash dedupEnv m.1 m.2 :=
  exists_reaches storeInBetween (by decide +kernel)

end Pcmi.Memory
