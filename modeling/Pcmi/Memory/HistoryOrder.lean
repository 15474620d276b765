import Pcmi.Memory.Compaction

/-!
# Histories in order

Where no store comes behind an expiry, the versions of a path follow one another in number and time,
and compaction keeps the latest of them.
-/

namespace Pcmi.Memory

open List Pcmi.Go Pcmi.Lib

/-- At one path: the lower version ended before the other began, and before it ended. -/
def Row.Precedes (a b : Row) : Prop :=
  a.tenantId = b.tenantId → a.path = b.path →
    a.version < b.version ∧ ∃ e ∈ a.validTo, e ≤ b.validFrom ∧ ∀ e' ∈ b.validTo, e ≤ e'

variable {rows : List Row} {clock now : Time} {tenantId : String}

theorem Row.Precedes.versionApart {a b : Row} (h : a.Precedes b) : a.VersionApart b := by
  intro htenant hpath
  obtain ⟨hversion, e, he, -⟩ := h htenant hpath
  refine ⟨hversion.ne, fun hopen => ?_, fun _ => hversion⟩
  rw [Row.isOpen_iff.mp hopen] at he
  cases he

theorem precedes_updated {f : Row → Row} (hf : ∀ r, Row.Updated now r (f r)) (hle : clock ≤ now)
    (hsettled : SettledBy clock rows) (h : rows.Pairwise Row.Precedes) :
    (rows.map f).Pairwise Row.Precedes := by
  refine pairwise_map.mpr (h.imp_of_mem fun {a b} ha _ hab htenant hpath => ?_)
  rw [(hf a).tenantId, (hf b).tenantId] at htenant
  rw [(hf a).path, (hf b).path] at hpath
  obtain ⟨hversion, e, he, hstarts, hends⟩ := hab htenant hpath
  rw [(hf a).version, (hf b).version, (hf b).validFrom]
  refine ⟨hversion, e, ?_, hstarts, fun e' he' => ?_⟩
  · rcases (hf a).validTo with heq | ⟨hnone, -⟩
    · exact heq ▸ he
    · rw [hnone] at he
      cases he
  · rcases (hf b).validTo with heq | ⟨-, hnow⟩
    · exact hends e' (heq ▸ he')
    · rw [hnow] at he'
      cases he'
      exact (hsettled.ended a ha e he).trans hle

theorem precedes_insert {c : Columns} {id : Nat} (hle : clock ≤ now)
    (hsettled : SettledBy clock rows) (h : rows.Pairwise Row.Precedes)
    (hcond : rows.any (Row.current tenantId c.path) = true ∨ rows.any (Row.at tenantId c.path) =
      false) :
    (closeCurrent tenantId c.path now rows ++ [c.toRow tenantId id
      (nextVersion (rows.find? (Row.current tenantId c.path))) now]).Pairwise Row.Precedes := by
  have hupdated := closeCurrent_updated tenantId c.path now
  refine pairwise_append.mpr
    ⟨precedes_updated hupdated hle hsettled h, pairwise_singleton _ _, ?_⟩
  intro a ha b hb htenant hpath
  rw [mem_singleton.mp hb] at htenant hpath ⊢
  have hat : a.at tenantId c.path = true := by
    rw [Row.at, htenant, hpath]
    simp [Columns.toRow]
  obtain ⟨e, he⟩ := closeCurrent_closed ha hat
  refine ⟨?_, e, he, (hsettled.updated hupdated hle).ended a ha e he, fun _ hend => by cases hend⟩
  obtain ⟨r, hr, rfl⟩ := mem_map.mp ha
  rw [(hupdated r).version]
  exact version_lt_nextVersion (h.imp Row.Precedes.versionApart) hcond hr
    ((hupdated r).at_eq tenantId c.path ▸ hat)

/-- The order of versions is the order of ends. -/
theorem not_endedBefore (h : rows.Pairwise Row.Precedes) {k d : Row} (hk : k ∈ rows) (hd : d ∈ rows)
    (htenant : k.tenantId = d.tenantId) (hpath : k.path = d.path) (hle : d.version ≤ k.version) :
    ¬k.EndedBefore d := by
  rintro ⟨e, he, e', he', hlt⟩
  have hne : k ≠ d := by
    rintro rfl
    exact hlt.ne (Option.mem_unique he he')
  have hsymm : Std.Symm fun a b : Row => a.Precedes b ∨ b.Precedes a := ⟨fun _ _ h => h.symm⟩
  have heither : rows.Pairwise fun a b => a.Precedes b ∨ b.Precedes a := h.imp .inl
  rcases heither.forall hk hd hne with hbefore | hbehind
  · exact (hbefore htenant hpath).1.not_ge hle
  · obtain ⟨-, e'', hend, -, hlater⟩ := hbehind htenant.symm hpath.symm
    obtain rfl := Option.mem_unique he' hend
    exact (hlater e he).not_gt hlt

/-- **The history of every path is in order**, and compaction leaves the rows that ended last. -/
theorem history_in_order {env : Env} {nextId : Nat} {clock : Time} {s : Life}
    (hrun : Steps (Life.step env) (fun s a => Forward s a ∧ opensOrFirst env s a = true)
      (Life.start nextId clock) s) :
    s.table.rows.Pairwise Row.Precedes ∧
      ∀ tenantId pathText path, ∀ keep : Nat, 1 ≤ keep → keep ≤ 500 → trimSpaceText pathText ≠ "" →
        env.castLtree (trimSpaceText pathText) = some path →
        ∀ rank : List Row → List Row, (∀ l, Arranges byVersion l (rank l)) →
          ∃ rows', compactPathHistoryBy rank env tenantId pathText keep s.table.rows = .ok rows' ∧
            KeepsLatest tenantId path keep s.table.rows rows' := by
  obtain ⟨-, hserial, horder⟩ : SettledBy s.clock s.table.rows ∧ Serial s.table ∧
      s.table.rows.Pairwise Row.Precedes := by
    refine Life.invariant (P := fun t c => SettledBy c t.rows ∧ Serial t ∧
      t.rows.Pairwise Row.Precedes) ?_ hrun ⟨⟨by simp, by simp, .nil⟩, ⟨nodup_nil, by simp⟩, .nil⟩
    rintro t c ctx op t' ⟨hs, hserial, h⟩ ⟨hle, hopens⟩
      (⟨f, hf⟩ | ⟨p, -⟩ | ⟨tenantId, cols, hplan⟩)
    · exact ⟨hs.updated hf hle, hserial.updated hf, precedes_updated hf hle hs h⟩
    · exact ⟨hs.filter p hle, hserial.filter p, h.filter p⟩
    · refine ⟨hs.insert hle, (hserial.updated (closeCurrent_updated _ _ ctx.now)).insert rfl,
        precedes_insert hle hs h ?_⟩
      simpa [opensOrFirst, hplan] using hopens
  refine ⟨horder, fun tenantId pathText path keep hpos hmax hne hpath rank hrank => ?_⟩
  refine ⟨_, compactPathHistoryBy_eq rank hne hpath hpos hmax, ?_⟩
  have hranked := hrank (closedRows tenantId path s.table.rows)
  refine (keepsLatest_cutRows_iff hserial.unique hranked.1).mpr fun k hk d hd => ?_
  obtain ⟨hkrow, hkpath, -⟩ := mem_closedRows_iff.mp (hranked.1.mem_iff.mp (mem_of_mem_take hk))
  obtain ⟨hdrow, hdpath, -⟩ := mem_closedRows_iff.mp (hranked.1.mem_iff.mp (mem_of_mem_drop hd))
  have hsorted := hranked.2
  rw [← take_append_drop keep (rank _)] at hsorted
  exact not_endedBefore horder hkrow hdrow (hkpath.1.trans hdpath.1.symm)
    (hkpath.2.trans hdpath.2.symm) ((pairwise_append.mp hsorted).2.2 k hk d hd)

theorem history_in_order_storeThrice :
    ∃ s : Life, s.table.rows.map (fun r => (r.version, r.validTo)) =
        [(1, some 1), (2, some 2), (3, none)] ∧ s.table.rows.Pairwise Row.Precedes := by
  obtain ⟨s, hs, hrows⟩ : ∃ s ∈ runAll (guarded (Life.step plainEnv) fun s a => Forward s a ∧
        opensOrFirst plainEnv s a = true) (Life.start 1 0) storeThrice,
      s.table.rows.map (fun r => (r.version, r.validTo)) =
        [(1, some 1), (2, some 2), (3, none)] := by decide
  exact ⟨s, hrows, (history_in_order (steps_runAll (.refl _) hs)).1⟩

/-! ## The past -/

def Row.stored (r : Row) : Nat × Int × String := (r.id, r.version, r.content)

/-- A read as of `u` finds the row that it found before, or none. -/
def PastKept (u : Time) (rows rows' : List Row) : Prop :=
  ∀ tenantId path, temporalRows tenantId path (some u) rows' = [] ∨
    (temporalRows tenantId path (some u) rows').map Row.stored =
      (temporalRows tenantId path (some u) rows).map Row.stored

theorem SettledBy.pastKept {ctx : Ctx} {op : Op} {env : Env} {t t' : Table} {u : Time}
    (hs : SettledBy clock t.rows) (h : Effect env ctx op t t') (hu : u < ctx.now) :
    PastKept u t.rows t'.rows := by
  intro tenantId path
  have hmap : ∀ {f : Row → Row} (l : List Row), (∀ r, Row.Updated ctx.now r (f r)) →
      (l.map f).map Row.stored = l.map Row.stored := by
    intro f l hf
    rw [map_map]
    exact map_congr_left fun r _ => by simp [Row.stored, (hf r).id, (hf r).version, (hf r).content]
  cases h with
  | updated f hf =>
    exact .inr (temporalRows_map hf hu tenantId path t.rows ▸ hmap _ hf)
  | deleted p hop =>
    -- at most one row was valid at `u`, and it is left or not
    have hsub : (temporalRows tenantId path (some u) (t.rows.filter p)).Sublist
        (temporalRows tenantId path (some u) t.rows) := filter_sublist.filter _
    refine or_iff_not_imp_left.mpr fun hne => ?_
    rw [hsub.eq_of_length_le
      ((hs.length_temporalRows_le tenantId path u).trans (length_pos_iff.mpr hne))]
  | inserted tn c hplan =>
    have hop : op.deletes = false := by cases op <;> first | rfl | cases hplan
    obtain ⟨f, hf, hrows⟩ := temporalRows_effect (.inserted tn c hplan) hop hu tenantId path
    exact .inr (hrows ▸ hmap _ hf)

/-- **The past does not change**, whatever follows: a version is found or deleted. -/
theorem past_only_fades {env : Env} {nextId : Nat} {clock u : Time} {s s' : Life}
    (hrun : Steps (Life.step env) Forward (Life.start nextId clock) s)
    (hmore : Steps (Life.step env) Forward s s') (hu : u < s.clock) :
    PastKept u s.table.rows s'.table.rows := by
  have hkept := hmore.invariant (P := fun v => (Steps (Life.step env) Forward
    (Life.start nextId clock) v ∧ s.clock ≤ v.clock) ∧ PastKept u s.table.rows v.table.rows) ?_
      ⟨⟨hrun, le_rfl⟩, fun _ _ => .inr rfl⟩
  · exact hkept.2
  rintro v ⟨ctx, op⟩ w ⟨⟨hv, hle⟩, hpast⟩ hforward hstep
  have hlater : s.clock ≤ ctx.now := hle.trans hforward
  refine ⟨⟨hv.tail hforward hstep, ?_⟩, fun tenantId path => ?_⟩ <;> cases hstep
  · exact hlater
  rcases (settledBy_of_forward hv).pastKept (effect_of_apply env ctx v.table op)
    (hu.trans_le hlater) tenantId path with hnil | hsame
  · exact .inl hnil
  · exact (hpast tenantId path).imp (fun hnil => by simpa [hnil] using hsame) hsame.trans

theorem past_only_fades_storeThrice :
    ∃ s s' : Life, s'.table.rows.map (·.content) = ["c"] ∧
      PastKept 0 s.table.rows s'.table.rows := by
  obtain ⟨s, hs, s', hs', hclock, hrows⟩ :
      ∃ s ∈ runAll (guarded (Life.step plainEnv) Forward) (Life.start 1 0) storeThrice,
        ∃ s' ∈ runAll (guarded (Life.step plainEnv) Forward) s
          [({ now := 3 * day }, .pruneBefore028 1)],
            0 < s.clock ∧ s'.table.rows.map (·.content) = ["c"] := by decide
  exact ⟨s, s', hrows, past_only_fades (steps_runAll (.refl _) hs) (steps_runAll (.refl s) hs')
    hclock⟩

end Pcmi.Memory
