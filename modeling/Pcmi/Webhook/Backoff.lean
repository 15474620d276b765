import Mathlib.Tactic.Linarith
import Pcmi.Webhook.Dispatcher

/-!
# The retry delay

The delay is `retryBase` shifted by the number of attempts, in `int64`, and the cap of two minutes
is taken of the product as it came out.
-/

namespace Pcmi.Webhook

/-- The check of `WebhookMaxAttempts` in `Validate`: the errors it appends. -/
def validateWebhookMaxAttempts (webhookMaxAttempts : Int) : List String :=
  if webhookMaxAttempts < 1 ∨ webhookMaxAttempts > 100 then
    ["WEBHOOK_MAX_ATTEMPTS must be 1–100 (got " ++ toString webhookMaxAttempts ++ ")"]
  else []

variable {n : Int}

theorem validateWebhookMaxAttempts_eq_nil_iff :
    validateWebhookMaxAttempts n = [] ↔ 1 ≤ n ∧ n ≤ 100 := by
  unfold validateWebhookMaxAttempts
  split <;> simp <;> omega

/-- The delays are positive, at most two minutes and nondecreasing. -/
structure Dispatcher.Sane (d : Dispatcher) : Prop where
  positive : ∀ attempts, 1 ≤ attempts → attempts < d.maxAttempts → 0 < d.backoff attempts
  bounded : ∀ attempts, 1 ≤ attempts → attempts < d.maxAttempts → d.backoff attempts ≤ 120000000000
  nondecreasing : ∀ attempts attempts', 1 ≤ attempts → attempts ≤ attempts' →
    attempts' < d.maxAttempts → d.backoff attempts ≤ d.backoff attempts'

theorem wrap64_eq_self (hnonneg : 0 ≤ n) (hlt : n < 9223372036854775808) :
    wrap64 n = n :=
  Int.bmod_eq_of_le (by omega) (by omega)

theorem Dispatcher.backoff_le (d : Dispatcher) (attempts : Int) :
    d.backoff attempts ≤ 120000000000 := by
  unfold Dispatcher.backoff
  dsimp only
  split <;> omega

theorem Dispatcher.backoff_eq_min {d : Dispatcher} {k : Nat} (hbase : 0 < d.retryBase)
    (hfits : d.retryBase * 2 ^ k < 9223372036854775808) :
    d.backoff (k + 1) = min (d.retryBase * 2 ^ k) 120000000000 := by
  have hpow : (0 : Int) < 2 ^ k := by positivity
  have hlt : (2 : Int) ^ k < 2 ^ 63 := by nlinarith
  have hk : k < 63 := (pow_lt_pow_iff_right₀ (by decide)).mp hlt
  have hshift : wrap64 (2 ^ k) = 2 ^ k := wrap64_eq_self hpow.le hlt
  have hproduct : wrap64 (d.retryBase * 2 ^ k) = d.retryBase * 2 ^ k :=
    wrap64_eq_self (by positivity) hfits
  have hbits : (k : Int) + 1 ≤ 64 := by omega
  simp [Dispatcher.backoff, Nat.shiftLeft_eq, hbits, hshift, hproduct, min_def]
  split <;> split <;> omega

theorem backoff_newDispatcher {attempts : Int} (hfirst : 1 ≤ attempts) (hlast : attempts ≤ 33) :
    (newDispatcher n).backoff attempts
      = min (2000000000 * 2 ^ (attempts - 1).toNat) 120000000000 := by
  obtain ⟨k, rfl⟩ : ∃ k : Nat, attempts = k + 1 := ⟨(attempts - 1).toNat, by omega⟩
  have hk : (2 : Int) ^ k ≤ 2 ^ 32 := pow_le_pow_right₀ (by decide) (by omega)
  have hfits : (newDispatcher n).retryBase * 2 ^ k < 9223372036854775808 := by
    simp only [newDispatcher]
    omega
  simpa [newDispatcher] using Dispatcher.backoff_eq_min (by simp [newDispatcher]) hfits

theorem sane_newDispatcher (hpos : 1 ≤ n) (hle : n ≤ 34) : (newDispatcher n).Sane := by
  have hmax : (newDispatcher n).maxAttempts = n := if_neg (by omega)
  refine ⟨?_, fun attempts _ _ => Dispatcher.backoff_le _ attempts, ?_⟩
  · intro attempts hfirst hlast
    rw [backoff_newDispatcher hfirst (by omega)]
    positivity
  · intro attempts attempts' hfirst hle hlast
    rw [backoff_newDispatcher hfirst (by omega), backoff_newDispatcher (by omega) (by omega)]
    have hpow : (2 : Int) ^ (attempts - 1).toNat ≤ 2 ^ (attempts' - 1).toNat :=
      pow_le_pow_right₀ (by decide) (by omega)
    exact min_le_min_right _ (by omega)

theorem backoff_newDispatcher_neg (n : Int) : (newDispatcher n).backoff 34 < 0 := by
  simp [newDispatcher, Dispatcher.backoff, Nat.shiftLeft_eq, wrap64]

/-- Of the accepted limits, those up to 34 give sane delays. -/
theorem sane_newDispatcher_iff {webhookMaxAttempts : Int}
    (haccepted : validateWebhookMaxAttempts webhookMaxAttempts = []) :
    (newDispatcher webhookMaxAttempts).Sane ↔ webhookMaxAttempts ≤ 34 := by
  obtain ⟨hpos, -⟩ := validateWebhookMaxAttempts_eq_nil_iff.mp haccepted
  refine ⟨?_, sane_newDispatcher hpos⟩
  intro hsane
  by_contra hgt
  have hmax : (newDispatcher webhookMaxAttempts).maxAttempts = webhookMaxAttempts :=
    if_neg (by omega)
  have hdelay := hsane.positive 34 (by decide) (by omega)
  exact absurd hdelay (not_lt.mpr (backoff_newDispatcher_neg _).le)

theorem sane_newDispatcher_five :
    validateWebhookMaxAttempts 5 = [] ∧ (newDispatcher 5).Sane :=
  ⟨by decide, (sane_newDispatcher_iff (by decide)).mpr (by decide)⟩

/-- With 35 attempts the delay behind the 34th is negative. -/
theorem not_sane_newDispatcher :
    validateWebhookMaxAttempts 35 = [] ∧ (newDispatcher 35).backoff 34 = -1266874889709551616 ∧
      ¬(newDispatcher 35).Sane := by
  refine ⟨by decide, by decide, ?_⟩
  intro hsane
  exact absurd (hsane.positive 34 (by decide) (by decide)) (by decide)

end Pcmi.Webhook
