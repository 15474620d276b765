import Mathlib.Data.List.Basic
import Pcmi.Lib.Results

/-!
# Runs of a partial transition function

`step s a = some s'` when action `a` is enabled in `s`. `Steps step ok s s'` is a run in which every
action met `ok` in the state before it; `Reaches` is a run of any actions.
-/

namespace Pcmi.Lib

open Option

variable {σ α : Type}

/-- A run whose every step met `ok` in the state before it. -/
inductive Steps (step : σ → α → Option σ) (ok : σ → α → Prop) : σ → σ → Prop where
  | refl (s : σ) : Steps step ok s s
  | tail {s s' s'' : σ} {a : α} : Steps step ok s s' → ok s' a → step s' a = some s'' →
      Steps step ok s s''

abbrev Reaches (step : σ → α → Option σ) : σ → σ → Prop := Steps step (fun _ _ => True)

namespace Steps

variable {step : σ → α → Option σ} {ok : σ → α → Prop} {s s' : σ}

/-- **The invariant rule**: what each allowed step keeps. -/
theorem invariant {P : σ → Prop}
    (hstep : ∀ u a v, P u → ok u a → step u a = some v → P v)
    (h : Steps step ok s s') (h0 : P s) : P s' := by
  induction h with
  | refl => exact h0
  | tail _ hok hs ih => exact hstep _ _ _ ih hok hs

end Steps

/-- The state after the actions; `none` if one is not enabled. -/
def runAll (step : σ → α → Option σ) : σ → List α → Option σ
  | s, [] => some s
  | s, a :: rest => (step s a).bind fun s' => runAll step s' rest

/-- What every action keeps and one of them establishes holds at the end. -/
theorem runAll_establishes {step : σ → α → Option σ} {P : σ → Prop} :
    ∀ {acts : List α} {s s' : σ},
      (∀ a ∈ acts, ∀ u v, P u → step u a = some v → P v) →
      (P s ∨ ∃ a ∈ acts, ∀ u v, step u a = some v → P v) →
      runAll step s acts = some s' → P s'
  | [], s, s', _, hset, hr => by
    cases hr
    rcases hset with hs | ⟨a, ha, -⟩
    · exact hs
    · cases ha
  | a :: rest, s, s', hkeep, hset, hr => by
    obtain ⟨w, hw, hr'⟩ := bind_eq_some_iff.mp hr
    refine runAll_establishes (fun b hb => hkeep b (List.mem_cons_of_mem a hb)) ?_ hr'
    rcases hset with hs | ⟨b, hb, hset⟩
    · exact Or.inl (hkeep a List.mem_cons_self s w hs hw)
    rcases List.mem_cons.mp hb with rfl | hb
    · exact Or.inl (hset s w hw)
    · exact Or.inr ⟨b, hb, hset⟩

theorem reaches_runAll {step : σ → α → Option σ} :
    ∀ {acts : List α} {s u v : σ}, Reaches step s u → runAll step u acts = some v →
      Reaches step s v
  | [], _, _, _, h, hr => by
    cases hr
    exact h
  | a :: rest, s, u, v, h, hr => by
    obtain ⟨w, hw, hr'⟩ := bind_eq_some_iff.mp hr
    exact reaches_runAll (.tail h trivial hw) hr'

variable {step : σ → α → Option σ} {s : σ} {P Q : σ → Prop}

/-- A run that is evaluated, with what is seen of its last state. -/
theorem exists_reaches (acts : List α) (h : ∃ s' ∈ runAll step s acts, P s') :
    ∃ s', Reaches step s s' ∧ P s' :=
  h.imp fun _ h => ⟨reaches_runAll (.refl s) h.1, h.2⟩

/-- A result that is evaluated, and what follows without. -/
theorem exists_some {o : Option σ} (h : ∃ s ∈ o, P s) (hQ : ∀ s, o = some s → Q s) :
    ∃ s, o = some s ∧ P s ∧ Q s :=
  h.imp fun s h => ⟨h.1, h.2, hQ s h.1⟩

theorem some_getD {x : Option σ} (d : σ) (h : x.isSome = true) : x = some (x.getD d) := by
  obtain ⟨s, rfl⟩ := isSome_iff_exists.mp h
  rfl

variable {acts : List α}

theorem reaches_getD (d : σ) (h : (runAll step s acts).isSome = true) :
    Reaches step s ((runAll step s acts).getD d) :=
  reaches_runAll (.refl s) (some_getD d h)

/-- The steps that meet `ok`, as a transition function. -/
def guarded (step : σ → α → Option σ) (ok : σ → α → Prop) [∀ s a, Decidable (ok s a)] :
    σ → α → Option σ :=
  fun s a => if ok s a then step s a else none

/-- A list of actions executed under the guard is a guarded run. -/
theorem steps_runAll {step : σ → α → Option σ} {ok : σ → α → Prop} [∀ s a, Decidable (ok s a)] :
    ∀ {acts : List α} {s u v : σ}, Steps step ok s u → runAll (guarded step ok) u acts = some v →
      Steps step ok s v
  | [], _, _, _, h, hr => by
    cases hr
    exact h
  | a :: rest, s, u, v, h, hr => by
    obtain ⟨w, hw, hr'⟩ := bind_eq_some_iff.mp hr
    unfold guarded at hw
    split at hw
    · next hok => exact steps_runAll (.tail h hok hw) hr'
    · cases hw

theorem exists_steps {ok : σ → α → Prop} [∀ s a, Decidable (ok s a)] (acts : List α)
    (h : ∃ s' ∈ runAll (guarded step ok) s acts, P s') (hQ : ∀ s', Steps step ok s s' → Q s') :
    ∃ s', Steps step ok s s' ∧ P s' ∧ Q s' := by
  obtain ⟨s', hs', hP⟩ := h
  have hrun := steps_runAll (.refl s) hs'
  exact ⟨s', hrun, hP, hQ s' hrun⟩

theorem steps_getD {ok : σ → α → Prop} [∀ s a, Decidable (ok s a)] (d : σ)
    (h : (runAll (guarded step ok) s acts).isSome = true) :
    Steps step ok s ((runAll (guarded step ok) s acts).getD d) :=
  steps_runAll (.refl s) (some_getD d h)

end Pcmi.Lib
