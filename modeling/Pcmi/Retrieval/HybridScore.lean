import Mathlib.Analysis.SpecialFunctions.Log.Basic

/-!
# The score of a memory, in Go and in SQL

`HybridScore` mirrors the expression that `hybridScoreSQL` puts into the queries, here a tree with
its value over the reals (`SqlExpr.eval`); a weight is the literal of `formatWeight`.
-/

namespace Pcmi.Retrieval

structure ScoringWeights where
  semantic : ℝ
  lexical : ℝ
  importance : ℝ
  recency : ℝ
  halflifeDays : ℝ
  decayEnabled : Bool

structure ScoringWeights.Admitted (w : ScoringWeights) : Prop where
  semantic : 0 ≤ w.semantic
  lexical : 0 ≤ w.lexical
  importance : 0 ≤ w.importance
  recency : 0 ≤ w.recency
  halflifeDays : 0 < w.halflifeDays

/-! ## In Go -/

noncomputable def recencyFactor (ageDays halflifeDays : ℝ) : ℝ :=
  if halflifeDays ≤ 0 then 1
  else Real.exp (-Real.log 2 / halflifeDays * if ageDays < 0 then 0 else ageDays)

noncomputable def hybridScore (w : ScoringWeights) (cosine bm25 importance ageDays : ℝ) : ℝ :=
  let decayed := if w.decayEnabled ∧ 0 < w.recency then
    w.recency * recencyFactor ageDays w.halflifeDays else 0
  w.semantic * cosine + w.lexical * bm25 + w.importance * importance + decayed

/-! ## In SQL -/

/-- What the expression reads of a row. Times are in seconds. -/
structure Signals where
  importance : Option ℝ
  now : ℝ
  lastAccessedAt : Option ℝ
  createdAt : ℝ

inductive SqlExpr where
  | literal (x : ℝ)
  | column (read : Signals → Option ℝ)
  | neg (a : SqlExpr)
  | add (a b : SqlExpr)
  | sub (a b : SqlExpr)
  | mul (a b : SqlExpr)
  | div (a b : SqlExpr)
  | exp (a : SqlExpr)
  | ln (a : SqlExpr)
  | greatest (a b : SqlExpr)
  | coalesce (a b : SqlExpr)

/-- The value of an expression; `GREATEST` and `COALESCE` skip `NULL`. -/
noncomputable def SqlExpr.eval (row : Signals) : SqlExpr → Option ℝ
  | literal x => some x
  | column read => read row
  | neg a => (a.eval row).map (-·)
  | add a b => (a.eval row).bind fun x => (b.eval row).map (x + ·)
  | sub a b => (a.eval row).bind fun x => (b.eval row).map (x - ·)
  | mul a b => (a.eval row).bind fun x => (b.eval row).map (x * ·)
  | div a b => (a.eval row).bind fun x => (b.eval row).map (x / ·)
  | exp a => (a.eval row).map Real.exp
  | ln a => (a.eval row).map Real.log
  | greatest a b => (a.eval row).merge max (b.eval row)
  | coalesce a b => (a.eval row).or (b.eval row)

open SqlExpr

noncomputable def ageDaysSQL : SqlExpr :=
  greatest (div (sub (column (some ·.now))
    (coalesce (column (·.lastAccessedAt)) (column (some ·.createdAt)))) (literal 86400)) (literal 0)

noncomputable def hybridScoreSQL (w : ScoringWeights) (cosineExpr bm25Expr : SqlExpr) : SqlExpr :=
  let recExpr := if w.decayEnabled ∧ 0 < w.recency ∧ 0 < w.halflifeDays then
    mul (literal w.recency)
      (exp (mul (div (neg (ln (literal 2))) (literal w.halflifeDays)) ageDaysSQL))
  else literal 0
  add (add (add (mul (literal w.semantic) cosineExpr) (mul (literal w.lexical) bm25Expr))
    (mul (literal w.importance) (coalesce (column (·.importance)) (literal 0.5)))) recExpr

/-! ## The two agree -/

theorem eval_ageDaysSQL (row : Signals) :
    ∃ ageDays, ageDaysSQL.eval row = some ageDays ∧ 0 ≤ ageDays := by
  obtain ⟨importance, now, lastAccessedAt, createdAt⟩ := row
  cases lastAccessedAt with
  | none | some accessedAt => exact ⟨_, rfl, le_max_right _ _⟩

variable {w : ScoringWeights}

/-- An age is not negative and a half-life positive, so the guards of `RecencyFactor` are idle. -/
theorem eval_hybridScoreSQL (hw : w.Admitted) {row : Signals} {cosineExpr bm25Expr : SqlExpr}
    {cosine bm25 ageDays : ℝ} (hcosine : cosineExpr.eval row = some cosine)
    (hbm25 : bm25Expr.eval row = some bm25) (hage : ageDaysSQL.eval row = some ageDays)
    (hpos : 0 ≤ ageDays) : (hybridScoreSQL w cosineExpr bm25Expr).eval row =
      some (hybridScore w cosine bm25 (row.importance.getD 0.5) ageDays) := by
  have himportance : row.importance.or (some 0.5) = some (row.importance.getD 0.5) := by
    cases row.importance <;> rfl
  by_cases hdecay : w.decayEnabled ∧ 0 < w.recency
  · simp [hybridScoreSQL, hybridScore, eval, hcosine, hbm25, himportance, hage, hdecay,
      hw.halflifeDays, recencyFactor, not_le.mpr hw.halflifeDays, not_lt.mpr hpos]
  have hsql : ¬ (w.decayEnabled ∧ 0 < w.recency ∧ 0 < w.halflifeDays) :=
    fun h => hdecay ⟨h.1, h.2.1⟩
  simp [hybridScoreSQL, hybridScore, eval, hcosine, hbm25, himportance, if_neg hdecay,
    if_neg hsql]

theorem recencyFactor_antitone (hw : w.Admitted) :
    Antitone fun ageDays => recencyFactor ageDays w.halflifeDays := by
  intro a b hab
  have hclamp : (if a < 0 then 0 else a) ≤ if b < 0 then 0 else b := by
    split <;> split <;> linarith
  have hrate : -Real.log 2 / w.halflifeDays ≤ 0 :=
    div_nonpos_of_nonpos_of_nonneg (neg_nonpos.mpr (Real.log_nonneg one_le_two)) hw.halflifeDays.le
  simp only [recencyFactor, if_neg (not_le.mpr hw.halflifeDays)]
  exact Real.exp_le_exp.mpr (mul_le_mul_of_nonpos_left hclamp hrate)

theorem hybridScore_mono (hw : w.Admitted) {c c' b b' i i' a a' : ℝ} (hc : c ≤ c') (hb : b ≤ b')
    (hi : i ≤ i') (ha : a' ≤ a) : hybridScore w c b i a ≤ hybridScore w c' b' i' a' := by
  have hcosine := mul_le_mul_of_nonneg_left hc hw.semantic
  have hbm25 := mul_le_mul_of_nonneg_left hb hw.lexical
  have himportance := mul_le_mul_of_nonneg_left hi hw.importance
  have hdecayed := mul_le_mul_of_nonneg_left (recencyFactor_antitone hw ha) hw.recency
  simp only [hybridScore]
  split <;> linarith

/-- **One score** in Go and in SQL, which age lowers and other signals raise. -/
theorem hybridScore_spec (w : ScoringWeights) (hw : w.Admitted) :
    (∀ (row : Signals) (cosineExpr bm25Expr : SqlExpr) (cosine bm25 : ℝ),
      cosineExpr.eval row = some cosine → bm25Expr.eval row = some bm25 →
      ∃ ageDays, ageDaysSQL.eval row = some ageDays ∧
        (hybridScoreSQL w cosineExpr bm25Expr).eval row =
          some (hybridScore w cosine bm25 (row.importance.getD 0.5) ageDays)) ∧
    (∀ c b i, Antitone fun a => hybridScore w c b i a) ∧
    (∀ b i a, Monotone fun c => hybridScore w c b i a) ∧
    (∀ c i a, Monotone fun b => hybridScore w c b i a) ∧
    ∀ c b a, Monotone fun i => hybridScore w c b i a := by
  refine ⟨fun row cosineExpr bm25Expr cosine bm25 hcosine hbm25 => ?_,
    fun _ _ _ _ _ h => hybridScore_mono hw le_rfl le_rfl le_rfl h,
    fun _ _ _ _ _ h => hybridScore_mono hw h le_rfl le_rfl le_rfl,
    fun _ _ _ _ _ h => hybridScore_mono hw le_rfl h le_rfl le_rfl,
    fun _ _ _ _ _ h => hybridScore_mono hw le_rfl le_rfl h le_rfl⟩
  obtain ⟨ageDays, hage, hpos⟩ := eval_ageDaysSQL row
  exact ⟨ageDays, hage, eval_hybridScoreSQL hw hcosine hbm25 hage hpos⟩

noncomputable def defaultScoringWeights (decayEnabled : Bool) : ScoringWeights :=
  ⟨0.4, 0.3, 0.15, 0.15, 30, decayEnabled⟩

theorem hybridScore_spec_default : Antitone (hybridScore (defaultScoringWeights true) 1 1 1) :=
  (hybridScore_spec (defaultScoringWeights true) (by
    constructor <;> norm_num [defaultScoringWeights])).2.1 1 1 1

end Pcmi.Retrieval
