import Pcmi.Lib.Slots
import Pcmi.Memory.Versions

/-!
# As-of reads in serial runs

At a clock that does not run back, rows start and end at or before the clock. An operation at `now`
writes nothing before `now`: a period it closes keeps its earlier instants, one it opens starts at
`now`.
-/

namespace Pcmi.Memory

open List Pcmi.Lib Pcmi.Go

def Forward (s : Life) (a : Ctx × Op) : Prop := s.clock ≤ a.1.now

instance (s : Life) (a : Ctx × Op) : Decidable (Forward s a) :=
  inferInstanceAs (Decidable (s.clock ≤ a.1.now))

/-! ## The invariant -/

def Row.PeriodApart (a b : Row) : Prop :=
  a.tenantId = b.tenantId → a.path = b.path → a.period.Disjoint b.period

/-- What is written lies by the clock, and periods are disjoint. -/
structure SettledBy (clock : Time) (rows : List Row) : Prop where
  started : ∀ r ∈ rows, r.validFrom ≤ clock
  ended : ∀ r ∈ rows, ∀ e, r.validTo = some e → e ≤ clock
  apart : rows.Pairwise Row.PeriodApart

variable {now t clock : Time} {rows : List Row} {tenantId : String} {env : Env} {r r' : Row}
  {f : Row → Row}

theorem Row.Updated.contains (h : Row.Updated now r r') (hc : r'.period.Contains t) :
    r.period.Contains t := by
  refine ⟨le_trans (le_of_eq h.validFrom.symm) hc.1, fun e he => ?_⟩
  rcases h.validTo with heq | ⟨hnone, -⟩
  · exact hc.2 e (heq.trans he)
  · exact absurd (hnone.symm.trans he) (by simp)

theorem Row.Updated.contains_iff (h : Row.Updated now r r') (ht : t < now) :
    r'.period.Contains t ↔ r.period.Contains t := by
  refine ⟨h.contains, fun hc => ⟨le_trans (le_of_eq h.validFrom) hc.1, fun e he => ?_⟩⟩
  rcases h.validTo with heq | ⟨-, hnow⟩
  · exact hc.2 e (heq.symm.trans he)
  · cases hnow.symm.trans he
    exact ht

theorem SettledBy.updated (hf : ∀ r, Row.Updated now r (f r)) (hle : clock ≤ now)
    (h : SettledBy clock rows) :
    SettledBy now (rows.map f) where
  started := by
    intro r' hr'
    obtain ⟨r, hr, rfl⟩ := mem_map.mp hr'
    rw [(hf r).validFrom]
    exact le_trans (h.started r hr) hle
  ended := by
    intro r' hr' e he
    obtain ⟨r, hr, rfl⟩ := mem_map.mp hr'
    rcases (hf r).validTo with heq | ⟨-, hnow⟩
    · exact le_trans (h.ended r hr e (heq ▸ he)) hle
    · exact le_of_eq (Option.some.inj (he.symm.trans hnow))
  apart := by
    refine h.apart.map f fun a b hab ht hp t ha hb => ?_
    rw [(hf a).tenantId, (hf b).tenantId] at ht
    rw [(hf a).path, (hf b).path] at hp
    exact hab ht hp t ((hf a).contains ha) ((hf b).contains hb)

theorem SettledBy.filter {clock now : Time} {rows : List Row} (p : Row → Bool)
    (hle : clock ≤ now) (h : SettledBy clock rows) : SettledBy now (rows.filter p) where
  started := fun r hr => le_trans (h.started r (mem_of_mem_filter hr)) hle
  ended := fun r hr e he => le_trans (h.ended r (mem_of_mem_filter hr) e he) hle
  apart := h.apart.filter p

theorem closeCurrent_closed {path : Ltree} (hr : r ∈ closeCurrent tenantId path now rows)
    (hat : r.at tenantId path = true) : ∃ e, r.validTo = some e := by
  obtain ⟨r₀, -, rfl⟩ := mem_map.mp hr
  rw [(closeCurrent_updated tenantId path now r₀).at_eq] at hat
  split
  · exact ⟨now, rfl⟩
  next hcur =>
  refine Option.ne_none_iff_exists'.mp fun hnone => hcur ?_
  simp [Row.current, hat, Row.isOpen_iff.mpr hnone]

theorem SettledBy.insert {c : Columns} {id : Nat} {version : Int} (hle : clock ≤ now)
    (h : SettledBy clock rows) :
    SettledBy now (closeCurrent tenantId c.path now rows ++ [c.toRow tenantId id version now]) := by
  have hclosed : SettledBy now (closeCurrent tenantId c.path now rows) :=
    h.updated (closeCurrent_updated tenantId c.path now) hle
  refine ⟨?_, ?_, pairwise_append.mpr ⟨hclosed.apart, by simp, ?_⟩⟩
  · refine forall_mem_concat hclosed.started ?_
    rw [Columns.toRow_validFrom]
  · exact forall_mem_concat hclosed.ended nofun
  · intro a ha b hb ht hp
    rw [mem_singleton.mp hb] at ht hp ⊢
    have hat : a.at tenantId c.path = true := by
      rw [Row.at, ht, hp]
      simp [Columns.toRow]
    obtain ⟨e, he⟩ := closeCurrent_closed ha hat
    exact Period.disjoint_opened_of_stop_le he (hclosed.ended a ha e he)

/-- **Serial runs are settled by their clock.** -/
theorem settledBy_of_forward {nextId : Nat} {s : Life}
    (hrun : Steps (Life.step env) Forward (Life.start nextId clock) s) :
    SettledBy s.clock s.table.rows := by
  refine Life.invariant (P := fun t c => SettledBy c t.rows) ?_ hrun
    ⟨by simp, by simp, .nil⟩
  rintro t c ctx op t' h hok (⟨f, hf⟩ | ⟨p, -⟩ | ⟨tenantId, cols, -⟩)
  · exact h.updated hf hok
  · exact h.filter p hok
  · exact h.insert hok

/-! ## Reads as of an instant -/

theorem SettledBy.length_temporalRows_le (h : SettledBy clock rows) (tenantId : String)
    (path : Ltree) (t : Time) : (temporalRows tenantId path (some t) rows).length ≤ 1 := by
  have hdisjoint : ((rows.filter (Row.at tenantId path)).map Row.period).Pairwise
      Period.Disjoint := by
    refine pairwise_map.mpr ((h.apart.filter _).imp_of_mem fun {a b} ha hb hab => ?_)
    have hata := (mem_filter.mp ha).2
    have hatb := (mem_filter.mp hb).2
    simp only [Row.at, Bool.and_eq_true, beq_iff_eq] at hata hatb
    exact hab (hata.1.trans hatb.1.symm) (hata.2.trans hatb.2.symm)
  have hlen := Period.length_filter_contains_le hdisjoint t
  rw [filter_map, length_map, filter_filter] at hlen
  unfold temporalRows
  convert hlen using 4 with r
  rw [Bool.eq_iff_iff]
  simp [temporalClause_some_iff, and_comm]

theorem temporalRows_map (hf : ∀ r, Row.Updated now r (f r)) (ht : t < now) (tenantId : String)
    (path : Ltree) (rows : List Row) :
    temporalRows tenantId path (some t) (rows.map f) =
      (temporalRows tenantId path (some t) rows).map f := by
  unfold temporalRows
  rw [filter_map]
  congr 1
  refine filter_congr fun r _ => ?_
  rw [Bool.eq_iff_iff]
  simp [(hf r).at_eq, temporalClause_some_iff, (hf r).contains_iff ht]

theorem temporalClause_eq_false (h : t < r.validFrom) :
    temporalClause (some t) r = false := by
  simp [temporalClause, not_le.mpr h]

/-- **A write at `now` is invisible before `now`.** -/
theorem temporalRows_effect {ctx : Ctx} {op : Op} {t t' : Table} (h : Effect env ctx op t t')
    (hop : op.deletes = false) {u : Time} (hu : u < ctx.now) (tenantId : String) (path : Ltree) :
    ∃ f : Row → Row, (∀ r, Row.Updated ctx.now r (f r)) ∧
      temporalRows tenantId path (some u) t'.rows =
        (temporalRows tenantId path (some u) t.rows).map f := by
  rcases h with ⟨f, hf⟩ | ⟨p, hdel⟩ | ⟨tn, c, -⟩
  · exact ⟨f, hf, temporalRows_map hf hu tenantId path t.rows⟩
  · rw [hop] at hdel
    cases hdel
  refine ⟨_, closeCurrent_updated tn c.path ctx.now, ?_⟩
  have hnew (id : Nat) (version : Int) :
      temporalClause (some u) (c.toRow tn id version ctx.now) = false :=
    temporalClause_eq_false hu
  rw [← temporalRows_map (closeCurrent_updated tn c.path ctx.now) hu]
  simp [temporalRows, closeCurrent, hnew]

theorem scanMemoryEntry_updated (env : Env) (h : Row.Updated now r r') :
    (scanMemoryEntry env r').map (fun r => (r.id, r.content)) =
      (scanMemoryEntry env r).map (fun r => (r.id, r.content)) := by
  unfold scanMemoryEntry
  rw [h.contentEncrypted, h.content, h.id]
  split
  · cases env.decryptContent r.content with
    | ok plain => simp [Except.map]
    | error e => rfl
  · simp [Except.map, h.id, h.content]

theorem latestVersion_map {f : Row → Row} (hf : ∀ r, (f r).version = r.version) :
    ∀ l : List Row, latestVersion (l.map f) = (latestVersion l).map f
  | [] => rfl
  | r :: rest => by
    rw [map_cons, latestVersion, latestVersion, latestVersion_map hf rest]
    cases latestVersion rest with
    | none => rfl
    | some r' =>
      simp only [Option.map_some, hf]
      split <;> rfl

theorem map_mapError {α β ε ε' : Type} (f : α → β) (g : ε → ε') (x : Except ε α) :
    (x.mapError g).map f = (x.map f).mapError g := by
  cases x <;> rfl

theorem getHistoricalVersion_updated {rows' : List Row}
    (h : ∀ path, ∃ f : Row → Row, (∀ r, Row.Updated now r (f r)) ∧
      temporalRows tenantId path (some t) rows' =
        (temporalRows tenantId path (some t) rows).map f) (text : String) :
    (getHistoricalVersion env tenantId text none (some t) rows').map (fun r => (r.id, r.content)) =
      (getHistoricalVersion env tenantId text none (some t) rows).map
        (fun r => (r.id, r.content)) := by
  simp only [getHistoricalVersion]
  split
  · rfl
  cases env.castLtree (trimSpaceText text) with
  | none => rfl
  | some path =>
    simp only [Option.isNone_none, Option.isNone_some, Option.isSome_none, Option.isSome_some,
      Bool.and_false, Bool.false_and, Bool.false_eq_true, if_false]
    obtain ⟨f, hf, hrows⟩ := h path
    have hrow : historicalRow tenantId path none (some t) rows' =
        (historicalRow tenantId path none (some t) rows).map f := by
      simp only [historicalRow, hrows]
      exact latestVersion_map (fun r => (hf r).version) _
    rw [hrow]
    cases historicalRow tenantId path none (some t) rows with
    | none => rfl
    | some r =>
      simp only [Option.map_some]
      rw [map_mapError, map_mapError, scanMemoryEntry_updated env (hf r)]

/-- **As-of reads are stable**: an operation that deletes nothing changes no read as of an instant
before it, of at most one row. -/
theorem asOf_stable {env : Env} {nextId : Nat} {clock : Time} {s s' : Life} {ctx : Ctx} {op : Op}
    (hrun : Steps (Life.step env) Forward (Life.start nextId clock) s)
    (hop : op.deletes = false) (hstep : Life.step env s (ctx, op) = some s')
    (tenantId : String) (path : Ltree) (t : Time) (ht : t < ctx.now) :
    (temporalRows tenantId path (some t) s.table.rows).length ≤ 1 ∧
    (temporalRows tenantId path (some t) s'.table.rows).map (fun r => (r.id, r.content)) =
      (temporalRows tenantId path (some t) s.table.rows).map (fun r => (r.id, r.content)) ∧
    ∀ text, (getHistoricalVersion env tenantId text none (some t) s'.table.rows).map
        (fun r => (r.id, r.content)) =
      (getHistoricalVersion env tenantId text none (some t) s.table.rows).map
        (fun r => (r.id, r.content)) := by
  cases hstep
  have heffect := effect_of_apply env ctx s.table op
  refine ⟨(settledBy_of_forward hrun).length_temporalRows_le tenantId path t, ?_, ?_⟩
  · obtain ⟨f, hf, hrows⟩ := temporalRows_effect heffect hop ht tenantId path
    rw [hrows, map_map]
    refine map_congr_left fun r _ => ?_
    simp [(hf r).id, (hf r).content]
  · exact getHistoricalVersion_updated (temporalRows_effect heffect hop ht tenantId)

theorem asOf_stable_expireTtl :
    ∃ s s', runAll (guarded (Life.step plainEnv) Forward) (Life.start 1 0)
        (storeExpireStore.take 1) = some s ∧
      Life.step plainEnv s ({ now := 10 }, .expireTtl) = some s' ∧
      s'.table.rows.map (·.validTo) = [some 10] ∧
      (temporalRows "t" ⟨["notes"]⟩ (some 3) s'.table.rows).map (fun r => (r.id, r.content)) =
        [(1, "a")] := by
  obtain ⟨s, hs, hread, hclosed⟩ : ∃ s ∈ runAll (guarded (Life.step plainEnv) Forward)
      (Life.start 1 0) (storeExpireStore.take 1),
      (temporalRows "t" ⟨["notes"]⟩ (some 3) s.table.rows).map (fun r => (r.id, r.content)) =
        [(1, "a")] ∧
      (Op.expireTtl.apply plainEnv { now := 10 } s.table).rows.map (·.validTo) = [some 10] := by
    decide
  have hstep : Life.step plainEnv s ({ now := 10 }, .expireTtl) =
      some ⟨Op.expireTtl.apply plainEnv { now := 10 } s.table, 10⟩ := rfl
  have hstable := asOf_stable (steps_runAll (.refl _) hs) rfl hstep "t" ⟨["notes"]⟩ 3 (by decide)
  exact ⟨s, _, hs, hstep, hclosed, hstable.2.1.trans hread⟩

end Pcmi.Memory
