import Pcmi.Lib.Separated
import Pcmi.Retrieval.Ranking

/-!
# Signatures of deliveries

`HMACSign` signs the timestamp, a dot and the body. No timestamp that `HMACVerify` accepts has a
dot.

Times are nanoseconds without bound; `time.Unix` and `Time.Sub` agree with them where they do not
overflow.
-/

namespace Pcmi.Webhook

open List Pcmi.Go Pcmi.Lib Pcmi.Retrieval

def signaturePrefix : Bytes := ascii "sha256="

def webhookClockSkew : Int := 60 * 1000000000

def unixTime (ts : Int) : Int := ts * 1000000000

/-- `HMACSign`, with HMAC-SHA256 as `mac`. -/
def hmacSign (mac : Bytes → Bytes → Bytes) (secret timestamp body : Bytes) : Bytes :=
  signaturePrefix ++ encodeToString (mac secret (timestamp ++ 0x2E :: body))

def digest (signature : Bytes) : Option Bytes :=
  decodeString (trimPrefix signature signaturePrefix)

def hmacVerify (mac : Bytes → Bytes → Bytes) (secret signature timestamp body : Bytes)
    (now maxAge : Int) : Bool :=
  if secret = [] ∨ signature = [] ∨ timestamp = [] then false
  else if signaturePrefix.isPrefixOf signature = false then false
  else
    match digest signature, parseInt timestamp with
    | some got, (ts, true) =>
      if maxAge < now - unixTime ts ∨ webhookClockSkew < unixTime ts - now then false
      else
        match digest (hmacSign mac secret timestamp body) with
        | some want => got == want
        | none => false
    | _, _ => false

variable {mac : Bytes → Bytes → Bytes} {secret signature timestamp body : Bytes} {now maxAge : Int}

theorem digest_hmacSign (mac : Bytes → Bytes → Bytes) (secret timestamp body : Bytes) :
    digest (hmacSign mac secret timestamp body) =
      some (mac secret (timestamp ++ 0x2E :: body)) := by
  have hscheme : signaturePrefix.isPrefixOf (hmacSign mac secret timestamp body) = true :=
    isPrefixOf_iff_prefix.mpr ⟨_, rfl⟩
  rw [digest, trimPrefix, if_pos hscheme, hmacSign, drop_left, decodeString_encodeToString]

theorem hmacVerify_iff : hmacVerify mac secret signature timestamp body now maxAge = true ↔
    secret ≠ [] ∧ signaturePrefix <+: signature ∧
      digest signature = some (mac secret (timestamp ++ 0x2E :: body)) ∧
      ∃ ts, parseInt timestamp = (ts, true) ∧ now - maxAge ≤ unixTime ts ∧
        unixTime ts ≤ now + webhookClockSkew := by
  have hempty : ∀ ts, parseInt timestamp = (ts, true) → timestamp ≠ [] := by
    rintro ts h rfl
    cases h
  unfold hmacVerify
  rw [digest_hmacSign]
  constructor
  · intro h
    split at h
    · cases h
    next hne =>
    split at h
    · cases h
    next hscheme =>
    split at h
    · next got ts hgot hts =>
      split at h
      · cases h
      next hwindow =>
      have hmac : got = mac secret (timestamp ++ 0x2E :: body) := eq_of_beq h
      exact ⟨fun hsecret => hne (Or.inl hsecret), isPrefixOf_iff_prefix.mp (by simpa using hscheme),
        hmac ▸ hgot, ts, hts, by omega, by omega⟩
    · cases h
  · rintro ⟨hsecret, hscheme, hdigest, ts, hts, hold, hahead⟩
    have hsignature : signature ≠ [] := by
      rintro rfl
      exact absurd hscheme (by decide)
    rw [if_neg (by simp [hsecret, hsignature, hempty ts hts]),
      if_neg (by simp [ isPrefixOf_iff_prefix.mpr hscheme]), hdigest, hts]
    simp only
    rw [if_neg (by omega)]
    exact beq_self_eq_true _

/-- **A digest made for a decimal time and a body is accepted with them only, from `maxAge` after to
`webhookClockSkew` before that time; what `HMACSign` returns is accepted throughout.** -/
theorem signature_binds (hmac : Function.Injective (mac secret)) (hsecret : secret ≠ []) :
    (∀ signature timestamp body timestamp₀ body₀ now maxAge ts,
      hmacVerify mac secret signature timestamp body now maxAge = true →
      digest signature = digest (hmacSign mac secret timestamp₀ body₀) →
      parseInt timestamp₀ = (ts, true) →
      timestamp = timestamp₀ ∧ body = body₀ ∧ now - maxAge ≤ unixTime ts ∧
        unixTime ts ≤ now + webhookClockSkew) ∧
    ∀ timestamp body now maxAge ts, parseInt timestamp = (ts, true) →
      now - maxAge ≤ unixTime ts → unixTime ts ≤ now + webhookClockSkew →
      hmacVerify mac secret (hmacSign mac secret timestamp body) timestamp body now maxAge =
        true := by
  refine ⟨?_, ?_⟩
  · intro signature timestamp body timestamp₀ body₀ now maxAge ts hverify hdigest hts
    obtain ⟨-, -, hsigned, ts', hts', hold, hahead⟩ := hmacVerify_iff.mp hverify
    rw [hdigest, digest_hmacSign] at hsigned
    -- neither timestamp has a dot, so both end at the first one
    have hdot : 0x2E ∉ timestamp := dot_not_mem_of_parseInt (by rw [hts'])
    have hdot₀ : 0x2E ∉ timestamp₀ := dot_not_mem_of_parseInt (by rw [hts])
    have hmessage := hmac (Option.some.inj hsigned)
    obtain ⟨rfl, -⟩ := (append_cons_isPrefix_iff hdot₀ hdot).mp ⟨[], by rw [hmessage, append_nil]⟩
    have hbody := (cons.inj (append_cancel_left hmessage)).2
    rw [hts] at hts'
    cases hts'
    exact ⟨rfl, hbody.symm, hold, hahead⟩
  · intro timestamp body now maxAge ts hts hold hahead
    exact hmacVerify_iff.mpr ⟨hsecret, ⟨_, rfl⟩, digest_hmacSign .., ts, hts, hold, hahead⟩

theorem signature_binds_fresh : hmacVerify (fun _ m => m) [1]
    (hmacSign (fun _ m => m) [1] (ascii "5") [2]) (ascii "5") [2] (unixTime 60) (unixTime 60) =
      true :=
  (@signature_binds (fun _ m => m) [1] (fun _ _ h => h) (cons_ne_nil 1 [])).2 (ascii "5") [2] _ _ 5
    (by decide) (by decide) (by decide)

end Pcmi.Webhook
