import Pcmi.Memory.Lifecycle

/-!
# Which retention policy applies

Of the policies of the tenant that set a rule, the one with the longest prefix at or above the path
decides (`RuleFor`). Pruning looks it up behind a pre-filter with the shortest window of all
tenants.

Windows of policies reach back a hundred years at most; the default is only bounded from below.
`NOW() - make_interval(days => …)` is an error before the first timestamp, and an error for one row
is one for the whole `DELETE`.
-/

namespace Pcmi.Memory

open List

/-! ## The rule for a row -/

/-- A policy of the row's tenant at or above its path that sets the rule. -/
structure Applies (rule : RetentionPolicy → Option PolicyDays) (r : Row) (p : RetentionPolicy) :
    Prop where
  tenant : p.tenantId = r.tenantId
  sets : (rule p).isSome = true
  above : r.path.under p.pathPrefix = true

/-- The days of the most specific policy that sets the rule. -/
def RuleFor (rule : RetentionPolicy → Option PolicyDays) (policies : List RetentionPolicy)
    (r : Row) (days : PolicyDays) : Prop :=
  ∃ p ∈ policies, Applies rule r p ∧ rule p = some days ∧
    ∀ q ∈ policies, Applies rule r q → q.pathPrefix.nlevel ≤ p.pathPrefix.nlevel

/-- `UNIQUE (tenant_id, path_prefix)`. -/
def UniquePrefixes (policies : List RetentionPolicy) : Prop :=
  policies.Pairwise fun p q => ¬ (p.tenantId = q.tenantId ∧ p.pathPrefix = q.pathPrefix)

instance (policies : List RetentionPolicy) : Decidable (UniquePrefixes policies) :=
  inferInstanceAs (Decidable (List.Pairwise _ _))

section

variable {rule : RetentionPolicy → Option PolicyDays} {policies : List RetentionPolicy} {r : Row}
  {p q : RetentionPolicy}

theorem mostSpecific_eq_none_iff : mostSpecific policies = none ↔ policies = [] := by
  cases policies with
  | nil => exact iff_of_true rfl rfl
  | cons p rest =>
    refine iff_of_false ?_ (cons_ne_nil p rest)
    unfold mostSpecific
    split
    · exact Option.some_ne_none p
    · split <;> exact Option.some_ne_none _

theorem mostSpecific_spec (h : mostSpecific policies = some p) :
    p ∈ policies ∧ ∀ q ∈ policies, q.pathPrefix.nlevel ≤ p.pathPrefix.nlevel := by
  induction policies generalizing p with
  | nil => cases h
  | cons q rest ih =>
    unfold mostSpecific at h
    split at h
    · next hnone =>
      cases h
      rw [mostSpecific_eq_none_iff.mp hnone]
      exact ⟨mem_cons_self, forall_mem_singleton.mpr (le_refl _)⟩
    · next p' hp' =>
      obtain ⟨hmem, hmax⟩ := ih hp'
      split at h <;> cases h
      · next hlt => exact ⟨mem_cons_of_mem q hmem, forall_mem_cons.mpr ⟨hlt.le, hmax⟩⟩
      · next hle =>
        refine ⟨mem_cons_self, forall_mem_cons.mpr ⟨le_refl _, fun q' hq' => ?_⟩⟩
        exact (hmax q' hq').trans (not_lt.mp hle)

theorem mem_applying : p ∈ (policies.filter fun p =>
      p.tenantId == r.tenantId && (rule p).isSome && r.path.under p.pathPrefix) ↔
    p ∈ policies ∧ Applies rule r p := by
  rw [mem_filter, Bool.and_eq_true, Bool.and_eq_true, beq_iff_eq]
  exact and_congr_right fun _ => ⟨fun h => ⟨h.1.1, h.1.2, h.2⟩, fun h => ⟨⟨h.tenant, h.sets⟩,
    h.above⟩⟩

/-- Of the prefixes above a path there is one for each level. -/
theorem Ltree.eq_of_under {path anc anc' : Ltree} (h : path.under anc = true)
    (h' : path.under anc' = true) (hlevel : anc.nlevel = anc'.nlevel) : anc = anc' := by
  have hpre := isPrefixOf_iff_prefix.mp h
  have hpre' := isPrefixOf_iff_prefix.mp h'
  have hlabels : anc.labels = anc'.labels :=
    (prefix_of_prefix_length_le hpre hpre' hlevel.le).eq_of_length hlevel
  cases anc
  cases anc'
  exact congrArg Ltree.mk hlabels

theorem UniquePrefixes.eq (h : UniquePrefixes policies) (hp : p ∈ policies) (hq : q ∈ policies)
    (htenant : p.tenantId = q.tenantId) (hpath : p.pathPrefix = q.pathPrefix) : p = q := by
  by_contra hne
  have : Std.Symm fun p q : RetentionPolicy =>
      ¬ (p.tenantId = q.tenantId ∧ p.pathPrefix = q.pathPrefix) :=
    ⟨fun a b hab hba => hab ⟨hba.1.symm, hba.2.symm⟩⟩
  exact Pairwise.forall h hp hq hne ⟨htenant, hpath⟩

theorem ruleDays_eq_none_iff :
    ruleDays rule policies r = none ↔ ∀ p ∈ policies, ¬ Applies rule r p := by
  unfold ruleDays
  split
  · next hnone =>
    refine iff_of_true rfl fun p hp happlies => ?_
    exact not_mem_nil (mostSpecific_eq_none_iff.mp hnone ▸ mem_applying.mpr ⟨hp, happlies⟩)
  · next p hp =>
    obtain ⟨hmem, happlies⟩ := mem_applying.mp (mostSpecific_spec hp).1
    obtain ⟨days, hdays⟩ := Option.isSome_iff_exists.mp happlies.sets
    refine iff_of_false ?_ fun h => h p hmem happlies
    rw [hdays]
    exact Option.some_ne_none _

/-- **`ruleDays` finds the most specific policy.** -/
theorem ruleDays_eq_some_iff (hunique : UniquePrefixes policies) {d : Nat} :
    ruleDays rule policies r = some d ↔ ∃ days, RuleFor rule policies r days ∧ days.val = d := by
  unfold ruleDays
  split
  · next hnone =>
    refine iff_of_false nofun ?_
    rintro ⟨days, ⟨p, hp, happlies, -, -⟩, -⟩
    exact not_mem_nil (mostSpecific_eq_none_iff.mp hnone ▸ mem_applying.mpr ⟨hp, happlies⟩)
  · next p hp =>
    obtain ⟨hmem, hmax⟩ := mostSpecific_spec hp
    obtain ⟨hmem, happlies⟩ := mem_applying.mp hmem
    constructor
    · intro h
      obtain ⟨days, hdays, rfl⟩ := Option.map_eq_some_iff.mp h
      exact ⟨days, ⟨p, hmem, happlies, hdays, fun q hq hq' => hmax q (mem_applying.mpr ⟨hq, hq'⟩)⟩,
        rfl⟩
    · rintro ⟨days, ⟨q, hq, hq', hdays, hmax'⟩, rfl⟩
      have hlevel : p.pathPrefix.nlevel = q.pathPrefix.nlevel :=
        le_antisymm (hmax' p hmem happlies) (hmax q (mem_applying.mpr ⟨hq, hq'⟩))
      have hpq : p = q := hunique.eq hmem hq (happlies.tenant.trans hq'.tenant.symm)
        (Ltree.eq_of_under happlies.above hq'.above hlevel)
      rw [hpq, hdays]
      rfl

theorem ruleDays_filter :
    ruleDays rule (policies.filter fun p => (rule p).isSome) r = ruleDays rule policies r := by
  have hsame : ((policies.filter fun p => (rule p).isSome).filter fun p =>
        p.tenantId == r.tenantId && (rule p).isSome && r.path.under p.pathPrefix) =
      policies.filter fun p =>
        p.tenantId == r.tenantId && (rule p).isSome && r.path.under p.pathPrefix := by
    rw [filter_filter]
    refine filter_congr fun p _ => ?_
    cases (rule p).isSome <;> simp
  unfold ruleDays
  rw [hsame]

end

/-! ## The shortest window -/

section

variable {policies : List RetentionPolicy} (defaultDays : Int)

theorem foldl_min_le (days : List PolicyDays) (m : Int) :
    days.foldl (fun m d => min m d.val) m ≤ m ∧
      ∀ d ∈ days, days.foldl (fun m d => min m d.val) m ≤ d.val := by
  induction days generalizing m with
  | nil => exact ⟨le_refl m, nofun⟩
  | cons d rest ih =>
    obtain ⟨hm, hrest⟩ := ih (min m d.val)
    exact ⟨hm.trans (min_le_left _ _), forall_mem_cons.mpr ⟨hm.trans (min_le_right _ _), hrest⟩⟩

/-- **The pre-filter keeps back no row longer than the row's own window.** -/
theorem minRetentionDays_le (hunique : UniquePrefixes policies) (r : Row) :
    minRetentionDays policies defaultDays ≤ supersededDays policies defaultDays r := by
  unfold supersededDays
  split
  · next d hd =>
    obtain ⟨days, ⟨p, hp, -, hdays, -⟩, rfl⟩ := (ruleDays_eq_some_iff hunique).mp hd
    exact (foldl_min_le _ _).2 days (mem_filterMap.mpr ⟨p, hp, hdays⟩)
  · exact (foldl_min_le _ _).1

theorem minRetentionDays_filter :
    minRetentionDays (policies.filter fun p => p.supersededRetentionDays.isSome) defaultDays =
      minRetentionDays policies defaultDays := by
  unfold minRetentionDays
  congr 1
  induction policies with
  | nil => rfl
  | cons p rest ih => cases hp : p.supersededRetentionDays <;> simp [hp, ih]

end

/-! ## What has to go -/

section

variable (policies : List RetentionPolicy) (now : Time) (defaultDays : Int)

/-- A closed row past the window of its policy, or the default. -/
def Overdue (r : Row) : Prop :=
  ∃ e, r.validTo = some e ∧
    ((∃ days, RuleFor (·.supersededRetentionDays) policies r days ∧ e < now - days.val * day) ∨
      (∀ p ∈ policies, ¬ Applies (·.supersededRetentionDays) r p) ∧ e < now - defaultDays * day)

/-- An open row that is older than its policy allows. -/
def TooOld (r : Row) : Prop :=
  r.validTo = none ∧
    ∃ days, RuleFor (·.maxAgeDays) policies r days ∧ r.validFrom < now - days.val * day

/-- A closed row with a window from before the first timestamp. -/
def OutOfRange (r : Row) : Prop :=
  ∃ e, r.validTo = some e ∧
    (now - minRetentionDays policies defaultDays * day < minTimestamp ∨
      e < now - minRetentionDays policies defaultDays * day ∧
        now - supersededDays policies defaultDays r * day < minTimestamp)

def afterPrune (rows : List Row) : List Row :=
  (pruneSupersededMemoriesWithPolicies policies now defaultDays rows).toOption.getD rows

def afterExpire (rows : List Row) : List Row :=
  closeWhere (retentionExpired policies now) now rows

/-- The two functions do what the rules say. -/
structure Resolved (rows : List Row) : Prop where
  prunes : ∃ gone : Row → Bool, (∀ r ∈ rows, gone r = true ↔ Overdue policies now defaultDays r) ∧
    afterPrune policies now defaultDays rows = rows.filter fun r => !gone r
  expires : ∃ closes : Row → Bool, (∀ r ∈ rows, closes r = true ↔ TooOld policies now r) ∧
    afterExpire policies now rows = rows.map fun r => if closes r then r.close now else r
  prunesAlone : afterPrune (policies.filter fun p => p.supersededRetentionDays.isSome) now
    defaultDays rows = afterPrune policies now defaultDays rows
  expiresAlone : afterExpire (policies.filter fun p => p.maxAgeDays.isSome) now rows =
    afterExpire policies now rows

end

section

variable {policies : List RetentionPolicy} {now : Time} {defaultDays : Int} {rows : List Row}
  {r : Row} {days : Int}

theorem daysBefore_eq_ok_iff {t : Time} :
    daysBefore now days = .ok t ↔ minTimestamp ≤ now - days * day ∧ t = now - days * day := by
  unfold daysBefore
  split
  · next h => exact iff_of_false nofun fun h' => not_lt.mpr h'.1 h
  · next h => simp [not_lt.mp h, eq_comm]

theorem daysBefore_of_le (h : minTimestamp ≤ now - days * day) :
    daysBefore now days = .ok (now - days * day) := daysBefore_eq_ok_iff.mpr ⟨h, rfl⟩

theorem daysBefore_of_lt (h : now - days * day < minTimestamp) :
    daysBefore now days = .error "timestamp out of range" := if_pos h

theorem overdue_iff (hunique : UniquePrefixes policies) : Overdue policies now defaultDays r ↔
    ∃ e, r.validTo = some e ∧ e < now - supersededDays policies defaultDays r * day := by
  refine exists_congr fun e => and_congr_right fun _ => ?_
  unfold supersededDays
  cases hd : ruleDays (·.supersededRetentionDays) policies r with
  | none =>
    have hnone := ruleDays_eq_none_iff.mp hd
    constructor
    · rintro (⟨days, ⟨p, hp, happlies, -⟩, -⟩ | ⟨-, h⟩)
      · exact absurd happlies (hnone p hp)
      · exact h
    · exact fun h => Or.inr ⟨hnone, h⟩
  | some d =>
    obtain ⟨days, hdays, rfl⟩ := (ruleDays_eq_some_iff hunique).mp hd
    constructor
    · rintro (⟨days', hdays', h⟩ | ⟨hnone, -⟩)
      · have hsame := (ruleDays_eq_some_iff hunique).mpr ⟨days', hdays', rfl⟩
        rw [hd] at hsame
        rw [Option.some.inj hsame]
        exact h
      · rw [ruleDays_eq_none_iff.mpr hnone] at hd
        cases hd
    · exact fun h => Or.inl ⟨days, hdays, h⟩

variable (now defaultDays) in
/-- **The condition of the `DELETE`** fails out of range, else says what is overdue. -/
theorem supersededExpired_spec (hunique : UniquePrefixes policies) (r : Row) :
    (OutOfRange policies now defaultDays r ∧
        supersededExpired policies now defaultDays r = .error "timestamp out of range") ∨
      ¬ OutOfRange policies now defaultDays r ∧
        ∃ gone, supersededExpired policies now defaultDays r = .ok gone ∧
          (gone = true ↔ Overdue policies now defaultDays r) := by
  rw [overdue_iff hunique]
  unfold supersededExpired OutOfRange
  cases hto : r.validTo with
  | none => exact Or.inr ⟨nofun, false, rfl, by simp⟩
  | some e =>
    dsimp only
    by_cases hmin : now - minRetentionDays policies defaultDays * day < minTimestamp
    · rw [daysBefore_of_lt hmin]
      exact Or.inl ⟨⟨e, rfl, Or.inl hmin⟩, rfl⟩
    rw [daysBefore_of_le (not_lt.mp hmin)]
    dsimp only [Except.bind]
    split
    · next he =>
      by_cases hown : now - supersededDays policies defaultDays r * day < minTimestamp
      · rw [daysBefore_of_lt hown]
        exact Or.inl ⟨⟨e, rfl, Or.inr ⟨he, hown⟩⟩, rfl⟩
      rw [daysBefore_of_le (not_lt.mp hown)]
      refine Or.inr ⟨?_, _, rfl, by simp⟩
      rintro ⟨e', he', h | h⟩
      · exact hmin h
      · exact hown h.2
    · next he =>
      have hlonger := mul_le_mul_of_nonneg_right
        (minRetentionDays_le defaultDays hunique r) (by decide : (0 : Int) ≤ day)
      refine Or.inr ⟨?_, false, rfl, ?_⟩
      · rintro ⟨e', he', h | h⟩
        · exact hmin h
        · cases he'
          exact he h.1
      · simp only [Bool.false_eq_true, Option.some.injEq, exists_eq_left', false_iff, not_lt]
        exact (sub_le_sub_left hlonger now).trans (not_lt.mp he)

theorem afterPrune_of_inRange (hunique : UniquePrefixes policies) (hdefault : 1 ≤ defaultDays)
    (h : ∀ r ∈ rows, ¬ OutOfRange policies now defaultDays r) :
    ∃ gone : Row → Bool, (∀ r ∈ rows, gone r = true ↔ Overdue policies now defaultDays r) ∧
      afterPrune policies now defaultDays rows = rows.filter fun r => !gone r := by
  have hrow : ∀ r ∈ rows, ∃ gone, supersededExpired policies now defaultDays r = .ok gone ∧
      (gone = true ↔ Overdue policies now defaultDays r) := by
    intro r hr
    rcases supersededExpired_spec now defaultDays hunique r with ⟨hout, -⟩ | ⟨-, hgone⟩
    · exact absurd hout (h r hr)
    · exact hgone
  have hall : ∀ r ∈ rows, ∃ gone, supersededExpired policies now defaultDays r = .ok gone :=
    fun r hr => (hrow r hr).imp fun _ h => h.1
  refine ⟨fun r => (supersededExpired policies now defaultDays r).toOption.getD false, ?_, ?_⟩
  · intro r hr
    obtain ⟨gone, hgone, hiff⟩ := hrow r hr
    dsimp only
    rw [hgone]
    exact hiff
  · rw [afterPrune, pruneSupersededMemoriesWithPolicies, if_neg (not_lt.mpr hdefault),
      deleteWhere_eq_ok_iff.mpr ⟨hall, rfl⟩]
    rfl

theorem afterPrune_of_outOfRange (hunique : UniquePrefixes policies) (hdefault : 1 ≤ defaultDays)
    (hr : r ∈ rows) (h : OutOfRange policies now defaultDays r) :
    afterPrune policies now defaultDays rows = rows := by
  rw [afterPrune, pruneSupersededMemoriesWithPolicies, if_neg (not_lt.mpr hdefault)]
  cases hdelete : deleteWhere (supersededExpired policies now defaultDays) rows with
  | error e => rfl
  | ok kept =>
    obtain ⟨gone, hgone⟩ := (deleteWhere_eq_ok_iff.mp hdelete).1 r hr
    rcases supersededExpired_spec now defaultDays hunique r with ⟨-, herror⟩ | ⟨hin, -⟩
    · rw [herror] at hgone
      cases hgone
    · exact absurd h hin

theorem retentionExpired_iff (hunique : UniquePrefixes policies) (r : Row) :
    retentionExpired policies now r = true ↔ TooOld policies now r := by
  unfold retentionExpired TooOld
  rw [Bool.and_eq_true, Bool.and_eq_true, Row.isOpen_iff, and_assoc]
  refine and_congr_right fun _ => ?_
  cases hd : ruleDays (·.maxAgeDays) policies r with
  | none =>
    refine iff_of_false (fun h => Bool.false_ne_true h.2) ?_
    rintro ⟨days, ⟨p, hp, happlies, -⟩, -⟩
    exact ruleDays_eq_none_iff.mp hd p hp happlies
  | some d =>
    obtain ⟨days, hdays, rfl⟩ := (ruleDays_eq_some_iff hunique).mp hd
    rw [decide_eq_true_iff]
    constructor
    · exact fun h => ⟨days, hdays, h.2⟩
    · rintro ⟨days', hdays', h⟩
      have hsame := (ruleDays_eq_some_iff hunique).mpr ⟨days', hdays', rfl⟩
      rw [hd] at hsame
      rw [Option.some.inj hsame]
      obtain ⟨p, hp, happlies, -⟩ := hdays
      refine ⟨any_eq_true.mpr ⟨p, hp, ?_⟩, h⟩
      rw [happlies.tenant, beq_self_eq_true, Bool.true_and]
      exact happlies.sets

theorem afterPrune_filter :
    afterPrune (policies.filter fun p => p.supersededRetentionDays.isSome) now defaultDays rows =
      afterPrune policies now defaultDays rows := by
  have hrow : supersededExpired (policies.filter fun p => p.supersededRetentionDays.isSome) now
      defaultDays = supersededExpired policies now defaultDays := by
    funext r
    unfold supersededExpired supersededDays
    rw [minRetentionDays_filter, ruleDays_filter]
  unfold afterPrune pruneSupersededMemoriesWithPolicies
  rw [hrow]

theorem afterExpire_filter :
    afterExpire (policies.filter fun p => p.maxAgeDays.isSome) now rows =
      afterExpire policies now rows := by
  have hrow : retentionExpired (policies.filter fun p => p.maxAgeDays.isSome) now =
      retentionExpired policies now := by
    funext r
    have hany : ((policies.filter fun p => p.maxAgeDays.isSome).any fun p =>
          p.tenantId == r.tenantId && p.maxAgeDays.isSome) =
        policies.any fun p => p.tenantId == r.tenantId && p.maxAgeDays.isSome := by
      rw [any_filter]
      congr 1
      funext p
      cases p.maxAgeDays.isSome <;> simp
    unfold retentionExpired
    rw [ruleDays_filter, hany]
  unfold afterExpire
  rw [hrow]

/-- Where nothing is overdue it does not matter whether the `DELETE` fails. -/
theorem prunes_unchanged (hsame : afterPrune policies now defaultDays rows = rows) :
    (∃ gone : Row → Bool, (∀ r ∈ rows, gone r = true ↔ Overdue policies now defaultDays r) ∧
      afterPrune policies now defaultDays rows = rows.filter fun r => !gone r) ↔
      ∀ r ∈ rows, ¬ Overdue policies now defaultDays r := by
  rw [hsame]
  constructor
  · rintro ⟨gone, hgone, hkept⟩ r hr hover
    have hr' := hr
    rw [hkept, mem_filter, (hgone r hr).mpr hover] at hr'
    exact Bool.false_ne_true hr'.2
  · intro h
    refine ⟨fun _ => false, fun r hr => iff_of_false Bool.false_ne_true (h r hr), ?_⟩
    exact (filter_eq_self.mpr fun _ _ => rfl).symm

/-- **Retention policies are resolved row by row** if no window begins before the first timestamp;
otherwise nothing is deleted, which is right only if nothing is overdue. -/
theorem retention_resolved_iff (hunique : UniquePrefixes policies) (hdefault : 1 ≤ defaultDays) :
    Resolved policies now defaultDays rows ↔
      (∀ r ∈ rows, ¬ OutOfRange policies now defaultDays r) ∨
        ∀ r ∈ rows, ¬ Overdue policies now defaultDays r := by
  have hexpires : ∃ closes : Row → Bool, (∀ r ∈ rows, closes r = true ↔ TooOld policies now r) ∧
      afterExpire policies now rows = rows.map fun r => if closes r then r.close now else r :=
    ⟨retentionExpired policies now, fun r _ => retentionExpired_iff hunique r, rfl⟩
  constructor
  · intro h
    by_cases hin : ∀ r ∈ rows, ¬ OutOfRange policies now defaultDays r
    · exact Or.inl hin
    push Not at hin
    obtain ⟨r, hr, hout⟩ := hin
    exact Or.inr ((prunes_unchanged
      (afterPrune_of_outOfRange hunique hdefault hr hout)).mp h.prunes)
  · intro h
    refine ⟨?_, hexpires, afterPrune_filter, afterExpire_filter⟩
    by_cases hin : ∀ r ∈ rows, ¬ OutOfRange policies now defaultDays r
    · exact afterPrune_of_inRange hunique hdefault hin
    push Not at hin
    obtain ⟨r, hr, hout⟩ := hin
    refine (prunes_unchanged (afterPrune_of_outOfRange hunique hdefault hr hout)).mpr ?_
    exact h.resolve_left fun hin => hin r hr hout

end

/-! ## A default that reaches back too far -/

def closedRow (id : Nat) (labels : List String) (validTo : Time) : Row :=
  ((plainColumns ⟨labels⟩ "").toRow "t" id 1 0).close validTo

def thirtyDays : RetentionPolicy where
  tenantId := "t"
  pathPrefix := ⟨["root", "a"]⟩
  supersededRetentionDays := some ⟨30, by decide⟩
  maxAgeDays := none
  hasRule := Or.inl rfl

def fortyDays : List Row :=
  [closedRow 1 ["root", "a", "x"] (19960 * day), closedRow 2 ["root", "b"] (19960 * day)]

theorem retention_resolved_fortyDays :
    (afterPrune [thirtyDays] (20000 * day) 90 fortyDays).map (·.id) = [2] ∧
      Resolved [thirtyDays] (20000 * day) 90 fortyDays := by
  refine ⟨by decide +kernel, (retention_resolved_iff (by decide) (by decide)).mpr (Or.inl ?_)⟩
  have hmin : ¬ 20000 * day - minRetentionDays [thirtyDays] 90 * day < minTimestamp := by
    decide +kernel
  have hown : ∀ r ∈ fortyDays,
      ¬ 20000 * day - supersededDays [thirtyDays] 90 r * day < minTimestamp := by decide +kernel
  rintro r hr ⟨e, -, hout | hout⟩
  · exact hmin hout
  · exact hown r hr hout.2

/-- **With a default of three million days the row under the policy stays.** -/
theorem retention_unresolved_threeMillion :
    (pruneSupersededMemoriesWithPolicies [thirtyDays]
      (20000 * day) 3000000 fortyDays).toOption.isNone
      = true ∧ ¬ Resolved [thirtyDays] (20000 * day) 3000000 fortyDays := by
  have hfails : (pruneSupersededMemoriesWithPolicies [thirtyDays] (20000 * day) 3000000
      fortyDays).toOption.isNone = true := by decide +kernel
  refine ⟨hfails, fun h => ?_⟩
  have hsame : afterPrune [thirtyDays] (20000 * day) 3000000 fortyDays = fortyDays := by
    rw [afterPrune, Option.isNone_iff_eq_none.mp hfails]
    rfl
  refine (prunes_unchanged hsame).mp h.prunes _ mem_cons_self ?_
  rw [overdue_iff (by decide)]
  exact ⟨19960 * day, rfl, by decide +kernel⟩

end Pcmi.Memory
