import Mathlib.Data.List.Sort
import Pcmi.Lib.Steps
import Pcmi.Memory.Service

/-!
# Operations on `memory_entries`, one after another

Stores and rollbacks, the two expiry statements of `ExpiryWorker.runOnce`, `CompactPathHistory` and
the pruning functions. What an operation reads besides the table (clock, policies, dedup settings)
is in its context. One that returns an error leaves the table as it was.
-/

namespace Pcmi.Memory

open Pcmi.Go Pcmi.Lib

/-! ## Retention policies -/

/-- A number of days that the `CHECK` of `retention_policies` admits. -/
def PolicyDays := { d : Nat // 1 ≤ d ∧ d ≤ 36500 }

structure RetentionPolicy where
  tenantId : String
  pathPrefix : Ltree
  supersededRetentionDays : Option PolicyDays
  maxAgeDays : Option PolicyDays
  hasRule : supersededRetentionDays.isSome ∨ maxAgeDays.isSome

/-- `ORDER BY nlevel(path_prefix) DESC LIMIT 1`. -/
def mostSpecific : List RetentionPolicy → Option RetentionPolicy
  | [] => none
  | p :: rest =>
    match mostSpecific rest with
    | none => some p
    | some p' => if p.pathPrefix.nlevel < p'.pathPrefix.nlevel then some p' else some p

/-- The days of the most specific policy that sets the rule. -/
def ruleDays (rule : RetentionPolicy → Option PolicyDays) (policies : List RetentionPolicy)
    (r : Row) : Option Nat :=
  match mostSpecific (policies.filter fun p =>
      p.tenantId == r.tenantId && (rule p).isSome && r.path.under p.pathPrefix) with
  | none => none
  | some p => (rule p).map (·.val)

/-! ## Expiry -/

/-- `metadata.ttl_seconds` when its text matches `^[0-9]{1,9}$`. -/
def ttlSeconds (metadata : JsonMap) : Option Nat :=
  match metadata.lookup "ttl_seconds" with
  | some (.num m 0) => if 0 ≤ m ∧ m < 1000000000 then some m.toNat else none
  | some (.str s) =>
    if 1 ≤ s.length ∧ s.length ≤ 9 ∧ s.toList.all Char.isDigit then s.toNat? else none
  | _ => none

/-- The `WHERE` clause of the TTL statement. -/
def ttlExpired (now : Time) (r : Row) : Bool :=
  r.isOpen &&
    ((match r.expiresAt with
      | some e => decide (e ≤ now)
      | none => false) ||
     match ttlSeconds r.metadata with
      | some s => decide (r.createdAt + s * second < now)
      | none => false)

/-- The `WHERE` clause of `expire_memories_by_retention_policy`. -/
def retentionExpired (policies : List RetentionPolicy) (now : Time) (r : Row) : Bool :=
  r.isOpen && policies.any (fun p => p.tenantId == r.tenantId && p.maxAgeDays.isSome) &&
    match ruleDays (·.maxAgeDays) policies r with
    | some d => decide (r.validFrom < now - d * day)
    | none => false

/-- `UPDATE memory_entries SET valid_to = NOW() WHERE p`. -/
def closeWhere (p : Row → Bool) (now : Time) (rows : List Row) : List Row :=
  rows.map fun r => if p r then r.close now else r

/-! ## Deletion of closed versions -/

/-- The closed rows of the path beyond the `keep` newest versions. -/
def doomed (tenantId : String) (path : Ltree) (keep : Nat) (rows : List Row) : List Row :=
  ((rows.filter fun r => r.at tenantId path && !r.isOpen).mergeSort
    fun a b => decide (b.version ≤ a.version)).drop keep

def compactMemoryPathHistory (tenantId : String) (path : Ltree) (keep : Int) (rows : List Row) :
    Except String (List Row) :=
  if keep < 1 then .error "p_keep_superseded must be >= 1"
  else if 500 < keep then .error "p_keep_superseded must be <= 500"
  else
    let ids := (doomed tenantId path keep.toNat rows).map (·.id)
    .ok (rows.filter fun r => !ids.contains r.id)

def compactPathHistory (env : Env) (tenantId path : String) (keepSuperseded : Int)
    (rows : List Row) : Except String (List Row) :=
  let path := trimSpaceText path
  if path = "" then .error "path is required"
  else
    let keep := if keepSuperseded < 1 then 20 else keepSuperseded
    let keep := if 500 < keep then 500 else keep
    match env.castLtree path with
    | none => .error "compact path history: invalid ltree"
    | some ltree =>
      match compactMemoryPathHistory tenantId ltree keep rows with
      | .error e => .error ("compact path history: " ++ e)
      | .ok rows => .ok rows

/-- `LEAST(p_default_days, COALESCE(MIN(…), p_default_days))`. -/
def minRetentionDays (policies : List RetentionPolicy) (defaultDays : Int) : Int :=
  (policies.filterMap (·.supersededRetentionDays)).foldl (fun m d => min m d.val) defaultDays

/-- The first `timestamptz`, on the day with the Julian number 0. -/
def minTimestamp : Time := -2440588 * day

/-- `NOW() - make_interval(days => …)`. -/
def daysBefore (now : Time) (days : Int) : Except String Time :=
  if now - days * day < minTimestamp then .error "timestamp out of range"
  else .ok (now - days * day)

/-- The days for which a closed row is kept. -/
def supersededDays (policies : List RetentionPolicy) (defaultDays : Int) (r : Row) : Int :=
  match ruleDays (·.supersededRetentionDays) policies r with
  | some d => d
  | none => defaultDays

/-- The `WHERE` clause of `prune_superseded_memories_with_policies`. -/
def supersededExpired (policies : List RetentionPolicy) (now : Time) (defaultDays : Int)
    (r : Row) : Except String Bool :=
  match r.validTo with
  | none => .ok false
  | some e =>
    (daysBefore now (minRetentionDays policies defaultDays)).bind fun shortest =>
      -- the row's own days are only looked up behind the pre-filter
      if e < shortest then
        (daysBefore now (supersededDays policies defaultDays r)).map fun own => decide (e < own)
      else .ok false

/-- `DELETE FROM memory_entries WHERE p`; an error of `p` leaves every row. -/
def deleteWhere (p : Row → Except String Bool) : List Row → Except String (List Row)
  | [] => .ok []
  | r :: rest =>
    (p r).bind fun gone =>
      (deleteWhere p rest).map fun kept => if gone then kept else r :: kept

def pruneSupersededMemoriesWithPolicies (policies : List RetentionPolicy) (now : Time)
    (defaultDays : Int) (rows : List Row) : Except String (List Row) :=
  if defaultDays < 1 then
    .error ("p_default_days must be >= 1 (got " ++ toString defaultDays ++ ")")
  else deleteWhere (supersededExpired policies now defaultDays) rows

/-- `prune_superseded_memories` before migration 028. -/
def pruneSupersededMemories (now : Time) (retentionDays : Int) (rows : List Row) : List Row :=
  rows.filter fun r =>
    match r.validTo with
    | none => true
    | some e => !decide (e < now - retentionDays * day)

/-! ## One operation -/

inductive Op where
  | store (req : StoreRequest) (tenantId : String)
  | serviceStore (req : StoreRequest) (tenantId : String)
  | rollback (req : RollbackRequest) (tenantId : String)
  /-- The first statement of `ExpiryWorker.runOnce`. -/
  | expireTtl
  /-- The second statement of `ExpiryWorker.runOnce`. -/
  | expireRetention
  | compact (tenantId path : String) (keepSuperseded : Int)
  | prune (retentionDays : Int)
  | pruneBefore028 (retentionDays : Int)

/-- What an operation reads besides the table. -/
structure Ctx where
  now : Time
  policies : List RetentionPolicy := []
  settings : DedupSettings := {}

/-- The operations that delete rows; the others only close them. -/
def Op.deletes : Op → Bool
  | .compact .. | .prune _ | .pruneBefore028 _ => true
  | _ => false

/-- What a store or a rollback writes; `none` for the other operations. -/
def Op.plan (env : Env) (ctx : Ctx) (rows : List Row) : Op → Option (Except String Plan)
  | .store req tenantId => some (repositoryStore env req tenantId)
  | .serviceStore req tenantId => some (Memory.serviceStore env ctx.settings req tenantId rows)
  | .rollback req tenantId => some (Memory.rollback env ctx.settings req tenantId rows)
  | _ => none

/-- What the other operations leave of the rows. -/
def Op.sweep (env : Env) (ctx : Ctx) (rows : List Row) : Op → Except String (List Row)
  | .expireTtl => .ok (closeWhere (ttlExpired ctx.now) ctx.now rows)
  | .expireRetention => .ok (closeWhere (retentionExpired ctx.policies ctx.now) ctx.now rows)
  | .compact tenantId path keep => compactPathHistory env tenantId path keep rows
  | .prune days => pruneSupersededMemoriesWithPolicies ctx.policies ctx.now days rows
  | .pruneBefore028 days => .ok (pruneSupersededMemories ctx.now days rows)
  | _ => .ok rows

/-- The operation, with its error. -/
def Op.exec (env : Env) (ctx : Ctx) (t : Table) (op : Op) : Except String Table :=
  match op.plan env ctx t.rows with
  | some plan => plan.bind (Plan.run ctx.now t)
  | none => (op.sweep env ctx t.rows).map fun rows => { t with rows := rows }

def Op.apply (env : Env) (ctx : Ctx) (t : Table) (op : Op) : Table :=
  match op.exec env ctx t with
  | .ok t' => t'
  | .error _ => t

/-! ## What an operation writes -/

/-- `r'` is `r` after an update: perhaps closed, perhaps other metadata. -/
structure Row.Updated (now : Time) (r r' : Row) : Prop where
  id : r'.id = r.id
  tenantId : r'.tenantId = r.tenantId
  path : r'.path = r.path
  content : r'.content = r.content
  contentEncrypted : r'.contentEncrypted = r.contentEncrypted
  version : r'.version = r.version
  validFrom : r'.validFrom = r.validFrom
  validTo : r'.validTo = r.validTo ∨ r.validTo = none ∧ r'.validTo = some now

namespace Row.Updated

theorem refl (now : Time) (r : Row) : Row.Updated now r r :=
  ⟨rfl, rfl, rfl, rfl, rfl, rfl, rfl, .inl rfl⟩

variable {now : Time} {r r' : Row}

theorem close (h : r.isOpen = true) : Row.Updated now r (r.close now) :=
  ⟨rfl, rfl, rfl, rfl, rfl, rfl, rfl, .inr ⟨Row.isOpen_iff.mp h, rfl⟩⟩

theorem mergeMetadata (now : Time) (metadata : JsonMap) (tags : List String) (r : Row) :
    Row.Updated now r (r.mergeMetadata metadata tags) :=
  ⟨rfl, rfl, rfl, rfl, rfl, rfl, rfl, .inl rfl⟩

theorem at_eq (h : Row.Updated now r r') (tenantId : String) (path : Ltree) :
    r'.at tenantId path = r.at tenantId path := by
  simp [Row.at, h.tenantId, h.path]

theorem isOpen (h : Row.Updated now r r') (ho : r'.isOpen = true) :
    r.isOpen = true := by
  rw [Row.isOpen_iff] at ho ⊢
  rcases h.validTo with he | ⟨hn, -⟩
  · rw [← he, ho]
  · exact hn

end Row.Updated

theorem closeWhere_updated {p : Row → Bool} (now : Time) (hp : ∀ r, p r = true → r.isOpen = true)
    (r : Row) : Row.Updated now r (if p r then r.close now else r) := by
  split
  · next h => exact .close (hp r h)
  · exact .refl now r

theorem closeCurrent_updated (tenantId : String) (path : Ltree) (now : Time) (r : Row) :
    Row.Updated now r (if r.current tenantId path then r.close now else r) :=
  closeWhere_updated now (fun _ h => (Bool.and_eq_true_iff.mp h).2) r

theorem mergeCurrent_updated (tenantId : String) (path : Ltree) (metadata : JsonMap)
    (tags : List String) (now : Time) (r : Row) :
    Row.Updated now r (if r.current tenantId path then r.mergeMetadata metadata tags else r) := by
  split
  · exact .mergeMetadata now metadata tags r
  · exact .refl now r

/-- The three ways an operation changes the table. -/
inductive Effect (env : Env) (ctx : Ctx) (op : Op) (t : Table) : Table → Prop
  | updated (f : Row → Row) (hf : ∀ r, Row.Updated ctx.now r (f r)) :
      Effect env ctx op t { t with rows := t.rows.map f }
  | deleted (p : Row → Bool) (hop : op.deletes = true) :
      Effect env ctx op t { t with rows := t.rows.filter p }
  | inserted (tenantId : String) (c : Columns)
      (hplan : op.plan env ctx t.rows = some (.ok (.insert tenantId c))) :
      Effect env ctx op t
        { rows := closeCurrent tenantId c.path ctx.now t.rows ++
            [c.toRow tenantId t.nextId (nextVersion (t.rows.find? (Row.current tenantId c.path)))
              ctx.now]
          nextId := t.nextId + 1 }

theorem Effect.unchanged (env : Env) (ctx : Ctx) (op : Op) (t : Table) : Effect env ctx op t t := by
  have h : Effect env ctx op t { t with rows := t.rows.map id } :=
    .updated id (Row.Updated.refl ctx.now)
  rwa [List.map_id] at h

variable {env : Env} {ctx : Ctx} {op : Op} {t : Table} {tenantId : String} {keep : Int}
  {rows rows' : List Row}

theorem effect_of_plan {t' : Table} {plan : Plan} (hplan : op.plan env ctx t.rows = some (.ok plan))
    (h : plan.run ctx.now t = .ok t') :
    Effect env ctx op t t' := by
  cases plan with
  | skipped existing | linked existing linkedFrom =>
    cases h
    exact .unchanged env ctx op t
  | merged tenantId path metadata tags =>
    simp only [Plan.run] at h
    split at h <;> cases h
    exact .updated _ (mergeCurrent_updated tenantId path metadata tags ctx.now)
  | insert tenantId c =>
    simp only [Plan.run, storeVersion] at h
    split at h <;> cases h
    exact .inserted tenantId c hplan

theorem compactMemoryPathHistory_filter {path : Ltree}
    (h : compactMemoryPathHistory tenantId path keep rows = .ok rows') :
    ∃ p, rows' = rows.filter p := by
  unfold compactMemoryPathHistory at h
  split at h
  · cases h
  · split at h <;> cases h
    exact ⟨_, rfl⟩

theorem compactPathHistory_filter {path : String}
    (h : compactPathHistory env tenantId path keep rows = .ok rows') :
    ∃ p, rows' = rows.filter p := by
  simp only [compactPathHistory] at h
  split at h
  · cases h
  split at h
  · cases h
  · split at h <;> cases h
    next hc => exact compactMemoryPathHistory_filter hc

theorem deleteWhere_eq_ok_iff {p : Row → Except String Bool} :
    ∀ {rows rows' : List Row}, deleteWhere p rows = .ok rows' ↔
      (∀ r ∈ rows, ∃ gone, p r = .ok gone) ∧
        rows' = rows.filter fun r => !(p r).toOption.getD false
  | [], rows' => by
    simp [deleteWhere, eq_comm]
  | r :: rest, rows' => by
    rw [deleteWhere]
    cases hr : p r with
    | error e => simp [hr, Except.bind]
    | ok gone =>
      have ih := @deleteWhere_eq_ok_iff p rest
      cases hrest : deleteWhere p rest with
      | error e =>
        refine ⟨nofun, ?_⟩
        rintro ⟨hall, -⟩
        have hok := ih.mpr ⟨fun r hr => hall r (List.mem_cons_of_mem _ hr), rfl⟩
        rw [hrest] at hok
        cases hok
      | ok kept =>
        obtain ⟨hall, hkept⟩ := ih.mp hrest
        have hall : ∀ r' ∈ r :: rest, ∃ gone, p r' = .ok gone :=
          List.forall_mem_cons.mpr ⟨⟨gone, hr⟩, hall⟩
        rw [and_iff_right hall, List.filter_cons, hr, ← hkept]
        cases gone <;> simp [Except.bind, Except.map, Except.toOption, eq_comm]

theorem effect_of_sweep (h : op.sweep env ctx t.rows = .ok rows) :
    Effect env ctx op t { t with rows := rows } := by
  cases op with
  | store req tenantId | serviceStore req tenantId | rollback req tenantId =>
    cases h; exact .unchanged env ctx _ t
  | expireTtl =>
    cases h
    exact .updated _ (closeWhere_updated ctx.now fun r hr => (Bool.and_eq_true_iff.mp hr).1)
  | expireRetention =>
    cases h
    refine .updated _ (closeWhere_updated ctx.now fun r hr => ?_)
    unfold retentionExpired at hr
    rw [Bool.and_eq_true_iff, Bool.and_eq_true_iff] at hr
    exact hr.1.1
  | compact tenantId path keep =>
    obtain ⟨p, rfl⟩ := compactPathHistory_filter h
    exact .deleted p rfl
  | prune days =>
    simp only [Op.sweep, pruneSupersededMemoriesWithPolicies] at h
    split at h
    · cases h
    · rw [(deleteWhere_eq_ok_iff.mp h).2]
      exact .deleted _ rfl
  | pruneBefore028 days =>
    cases h
    exact .deleted _ rfl

/-- **Every operation writes the table in one of three ways.** -/
theorem effect_of_apply (env : Env) (ctx : Ctx) (t : Table) (op : Op) :
    Effect env ctx op t (op.apply env ctx t) := by
  unfold Op.apply
  cases hexec : op.exec env ctx t with
  | error e => exact .unchanged env ctx op t
  | ok t' =>
    unfold Op.exec at hexec
    split at hexec
    · next plan hplan =>
      cases plan with
      | error e => cases hexec
      | ok plan => exact effect_of_plan hplan hexec
    · cases hsweep : op.sweep env ctx t.rows with
      | error e => simp [hsweep, Except.map] at hexec
      | ok rows =>
        simp only [hsweep, Except.map, Except.ok.injEq] at hexec
        subst hexec
        exact effect_of_sweep hsweep

/-! ## Runs -/

/-- The table and the time of the last operation. -/
structure Life where
  table : Table
  clock : Time

def Life.step (env : Env) (s : Life) (a : Ctx × Op) : Option Life :=
  some ⟨a.2.apply env a.1 s.table, a.1.now⟩

def Life.start (nextId : Nat) (clock : Time) : Life := ⟨⟨[], nextId⟩, clock⟩

/-- **The invariant rule for serial runs**, effect by effect. -/
theorem Life.invariant {env : Env} {ok : Life → Ctx × Op → Prop} {P : Table → Time → Prop}
    {nextId : Nat} {clock : Time} {s : Life}
    (heffect : ∀ t c ctx op t', P t c → ok ⟨t, c⟩ (ctx, op) → Effect env ctx op t t' →
      P t' ctx.now)
    (hrun : Steps (Life.step env) ok (Life.start nextId clock) s)
    (h0 : P ⟨[], nextId⟩ clock) : P s.table s.clock := by
  refine Steps.invariant (P := fun s => P s.table s.clock) ?_ hrun h0
  rintro ⟨t, c⟩ ⟨ctx, op⟩ v hP hok hstep
  cases hstep
  exact heffect t c ctx op _ hP hok (effect_of_apply env ctx t op)

end Pcmi.Memory
