import Pcmi.Admin.ApiKeys
import Pcmi.Lib.Slots

/-!
# How long a key is accepted

A rotated key is accepted until its grace period ends, which the next rotation of the same key
moves.

A key with `expires_at` is accepted until then, and rotation hands the instant on.
`AdminService.CreateAPIKey` never passes it to the database.
-/

namespace Pcmi.Admin

open List Pcmi.Lib Option

/-! ## The grace period -/

/-- The key has been rotated, and its grace period ends by `limit`. -/
def GraceBounded (keyId : Nat) (keyHash : String) (limit : Time) (t : KeyTable) : Prop :=
  ∃ k ∈ t.rows, k.id = keyId ∧ k.keyHash = keyHash ∧ k.rotatedTo.isSome = true ∧
    ∀ e ∈ k.rotationGraceEndsAt, e ≤ limit

/-- A rotation of the key is asked for only when its grace period is over. -/
def leavesGrace (keyId : Nat) (s : KeyStore) (a : Time × KeyOp) : Bool :=
  match a.2 with
  | .rotate id .. => id != keyId || (s.keys.get? keyId).any fun key => key.graceOver a.1
  | _ => true

section

variable {keyId : Nat} {keyHash : String} {limit : Time} {t t' : KeyTable} {now grace : Time}
  {other : Nat} {r : Rotated}

/-- **The hash is refused once the limit is reached.** -/
theorem GraceBounded.authQuery_eq_none (h : GraceBounded keyId keyHash limit t) (hnow :
    limit ≤ now) :
    authQuery t keyHash now = none := by
  obtain ⟨k, hk, -, hhash, hrotated, hgrace⟩ := h
  refine map_eq_none_iff.mpr (find?_eq_none.mpr fun r hr => ?_)
  by_cases hr' : r.keyHash = keyHash
  · rw [KeyTable.eq_of_keyHash hr hk (hr'.trans hhash.symm)]
    obtain ⟨succ, hsucc⟩ := isSome_iff_exists.mp hrotated
    cases he : k.rotationGraceEndsAt with
    | none => simp [hsucc]
    | some e =>
      have hle : e ≤ now := (hgrace e he).trans hnow
      simp [hsucc, hle]
  · simp [hr']

theorem GraceBounded.insert {k : ApiKey} (h : GraceBounded keyId keyHash limit t)
    (hins : t.insert k = .ok t') : GraceBounded keyId keyHash limit t' := by
  obtain ⟨r, hr, hbounded⟩ := h
  exact ⟨r, (KeyTable.mem_insert hins).mpr (.inl hr), hbounded⟩

theorem GraceBounded.setOther (h : GraceBounded keyId keyHash limit t) (hne : other ≠ keyId)
    (isActive : Bool) (rotatedTo : Option Nat) (graceEndsAt : Option Time) :
    GraceBounded keyId keyHash limit (t.setLifecycle other isActive rotatedTo graceEndsAt) := by
  obtain ⟨k, hk, hid, hbounded⟩ := h
  refine ⟨_, mem_map_of_mem hk, ?_⟩
  have hk' : k.id ≠ other := fun he => hne (he.symm.trans hid)
  rw [if_neg hk']
  exact ⟨hid, hbounded⟩

variable {key : ApiKey} {newId : Nat} {newHash : String} {name : Option String}

theorem GraceBounded.revoke (h : GraceBounded keyId keyHash limit t)
    (hget : t.get? other = some key) :
    GraceBounded keyId keyHash limit (t.setLifecycle other false key.rotatedTo none) := by
  by_cases hne : other = keyId
  · obtain ⟨k, hk, hid, hhash, hrotated, -⟩ := h
    obtain ⟨hkey, hkeyId⟩ := KeyTable.get?_mem hget
    obtain rfl : key = k := KeyTable.eq_of_id hkey hk (hkeyId.trans (hne.trans hid.symm))
    refine ⟨_, mem_map_of_mem hk, ?_⟩
    rw [if_pos hkeyId]
    exact ⟨hid, hhash, hrotated, nofun⟩
  · exact h.setOther hne _ _ _

/-- A rotation behind the grace period is refused. -/
theorem apply_rotate_of_graceOver (hget : t.get? keyId = some key)
    (hover : key.graceOver now = true) :
    (KeyOp.rotate keyId newHash name grace newId).apply now t = t := by
  simp only [KeyOp.apply, adminRotateApiKey, hget, hover, if_true]

theorem GraceBounded.step {s s' : KeyStore} {a : Time × KeyOp}
    (h : GraceBounded keyId keyHash limit s.keys) (hok : leavesGrace keyId s a = true)
    (hstep : s.step a = some s') : GraceBounded keyId keyHash limit s'.keys := by
  obtain ⟨now, op⟩ := a
  have heffect := keyEffect_of_apply now s.keys op
  rw [KeyStore.keys_of_step hstep]
  generalize happly : op.apply now s.keys = t' at heffect
  cases heffect with
  | unchanged => exact h
  | created hins => exact h.insert hins
  | revoked hget => exact h.revoke hget
  | @rotated id newId newHash name grace old t' hget hins =>
    by_cases hid : id = keyId
    · -- the key itself: the call was refused
      subst hid
      have hover : old.graceOver now = true := by simpa [leavesGrace, hget] using hok
      rw [apply_rotate_of_graceOver hget hover] at happly
      rw [← happly]
      exact h
    · exact (h.insert hins).setOther hid _ _ _

theorem adminRotateApiKey_eq_ok
    (h : adminRotateApiKey keyId newHash name grace newId now t = .ok (some r, t')) :
    ∃ old t₁, t.get? keyId = some old ∧
      t.insert (.fresh newId old.tenantId newHash (name.getD old.name) old.role old.expiresAt) =
        .ok t₁ ∧
      t' = t₁.setLifecycle keyId true (some newId) (some (now + grace)) ∧
      r.previousKeyId = keyId ∧ r.id = newId := by
  unfold adminRotateApiKey at h
  split at h
  · cases h
  next old hget =>
  split at h
  · cases h
  dsimp only at h
  split at h <;> cases h
  next t₁ hins => exact ⟨old, t₁, hget, hins, rfl, rfl, rfl⟩

theorem graceBounded_of_rotate (hget : t.get? keyId = some key)
    (hrotate : adminRotateApiKey keyId newHash name defaultGrace newId now t = .ok (some r, t')) :
    GraceBounded keyId key.keyHash (now + defaultGrace) t' := by
  obtain ⟨old, t₁, hold, hins, rfl, -, -⟩ := adminRotateApiKey_eq_ok hrotate
  obtain rfl : key = old := Option.some.inj (hget.symm.trans hold)
  obtain ⟨hkey, hid⟩ := KeyTable.get?_mem hget
  have hmem : key ∈ t₁.rows := (KeyTable.mem_insert hins).mpr (.inl hkey)
  refine ⟨_, mem_map_of_mem hmem, ?_⟩
  rw [if_pos hid]
  refine ⟨hid, rfl, rfl, ?_⟩
  rintro e ⟨⟩
  exact le_refl _

end

/-- **A rotated key is refused 24 hours later** if it is not rotated again. -/
theorem rotated_key_refused {s s₁ s₂ : KeyStore} {keyId newId : Nat} {newHash : String}
    {name : Option String} {key : ApiKey} {r : Rotated} {t' : KeyTable} {now : Time}
    (hget : s.keys.get? keyId = some key)
    (hrotate : adminRotateApiKey keyId newHash name defaultGrace newId now s.keys =
      .ok (some r, t'))
    (hstep : s.step (now, .rotate keyId newHash name defaultGrace newId) = some s₁)
    (hrun : Steps KeyStore.step (fun s a => leavesGrace keyId s a = true) s₁ s₂) (t : Time)
    (ht : now + defaultGrace ≤ t) : authQuery s₂.keys key.keyHash t = none := by
  have h₁ : GraceBounded keyId key.keyHash (now + defaultGrace) s₁.keys := by
    rw [KeyStore.keys_of_step hstep, KeyOp.apply, hrotate]
    exact graceBounded_of_rotate hget hrotate
  have h₂ : GraceBounded keyId key.keyHash (now + defaultGrace) s₂.keys :=
    hrun.invariant (P := fun s => GraceBounded keyId key.keyHash (now + defaultGrace) s.keys)
      (fun _ _ _ h hok hs => h.step hok hs) h₁
  exact h₂.authQuery_eq_none ht

def oneKeyRotated : KeyStore :=
  ⟨KeyOp.apply 0 oneKey.keys (.rotate 1 "hash2" none defaultGrace 2), 0⟩

/-- Its successor is rotated; a second rotation of key `1` is too late. -/
theorem rotated_key_refused_oneKey :
    ∃ s, runAll (guarded KeyStore.step (fun s a => leavesGrace 1 s a = true)) oneKeyRotated
        [(hour, .rotate 2 "hash3" none defaultGrace 3),
          (25 * hour, .rotate 1 "hash4" none defaultGrace 4)] = some s ∧
      authQuery s.keys "hash1" (23 * hour) = some (1, "t", .user) ∧
      authQuery s.keys "hash1" (24 * hour) = none := by
  have hget : oneKey.keys.get? 1 = some (.fresh 1 "t" "hash1" "agent" .user none) := by decide
  have hstep : oneKey.step (0, .rotate 1 "hash2" none defaultGrace 2) = some oneKeyRotated :=
    if_pos (by decide)
  exact exists_some (by decide) fun s hs =>
    rotated_key_refused hget rfl hstep (steps_runAll (.refl _) hs) (24 * hour) (by decide)

/-- **A second rotation within the grace period prolongs it.** -/
theorem rotate_again_prolongs_grace :
    ∃ s, Reaches KeyStore.step ⟨.empty, 0⟩ oneKey ∧
      oneKey.step (0, .rotate 1 "hash2" none defaultGrace 2) = some oneKeyRotated ∧
      oneKeyRotated.step (23 * hour, .rotate 1 "hash3" none defaultGrace 3) = some s ∧
      authQuery s.keys "hash1" (24 * hour) = some (1, "t", .user) := by
  refine ⟨⟨KeyOp.apply (23 * hour) oneKeyRotated.keys (.rotate 1 "hash3" none defaultGrace 3),
    23 * hour⟩, ?_, if_pos (by decide), if_pos (by decide), by decide⟩
  have hcreate : KeyStore.step ⟨.empty, 0⟩ (0, .create "t" "hash1" "agent" "user" none 1) =
      some oneKey := if_pos (by decide)
  exact .tail (.refl _) trivial hcreate

/-! ## The requested expiry -/

structure ApiKeyCreateRequest where
  tenantId : String := ""
  name : String := ""
  role : String := ""
  expiresAt : Option Time := none

def ApiKeyCreateRequest.withDefaults (req : ApiKeyCreateRequest) (callerTenant : String) :
    ApiKeyCreateRequest :=
  { req with
    tenantId := if req.tenantId = "" then callerTenant else req.tenantId
    role := if req.role = "" then "user" else req.role }

/-- `AdminService.CreateAPIKey` with the generated key's hash. -/
def createApiKey (req : ApiKeyCreateRequest) (hash : String) (newId : Nat) (t : KeyTable) :
    Except String (ApiKey × KeyTable) :=
  -- `exp` is declared and passed on, but never set
  let exp : Option Time := none
  adminCreateApiKey req.tenantId hash req.name req.role exp newId t

/-- `POST /v1/admin/api-keys`. -/
def postApiKeys (callerTenant : String) (req : ApiKeyCreateRequest) (hash : String) (newId : Nat)
    (t : KeyTable) : Except String (ApiKey × KeyTable) :=
  createApiKey (req.withDefaults callerTenant) hash newId t

/-- With the ids of a key and of those rotated from it. -/
structure Lineage extends KeyStore where
  ids : List Nat

def Lineage.of (key : ApiKey) (t : KeyTable) (clock : Time) : Lineage := ⟨⟨t, clock⟩, [key.id]⟩

/-- A call on the keys; the new key of a rotation joins its old one. -/
def Lineage.step (s : Lineage) (a : Time × KeyOp) : Option Lineage :=
  (s.toKeyStore.step a).map fun s' =>
    match a.2 with
    | .rotate keyId newHash name grace newId =>
      match adminRotateApiKey keyId newHash name grace newId a.1 s.keys with
      | .ok (some r, _) => ⟨s', if s.ids.contains r.previousKeyId then s.ids ++ [r.id] else s.ids⟩
      | _ => ⟨s', s.ids⟩
    | _ => ⟨s', s.ids⟩

/-- No key of the lineage is accepted at `e` or later. -/
def Lineage.ExpiredAt (s : Lineage) (e : Time) : Prop :=
  ∀ k ∈ s.keys.rows, k.id ∈ s.ids → ∀ now, e ≤ now → authQuery s.keys k.keyHash now = none

variable {newId : Nat} {key : ApiKey} {hash name role keyHash tenantId : String} {t t₁ : KeyTable}
  {req : ApiKeyCreateRequest}

theorem adminCreateApiKey_eq_ok {expiresAt : Option Time} {t' : KeyTable}
    (h : adminCreateApiKey tenantId keyHash name role expiresAt newId t = .ok (key, t')) :
    ∃ r, key = .fresh newId tenantId keyHash name r expiresAt ∧ t.insert key = .ok t' := by
  unfold adminCreateApiKey at h
  split at h
  · cases h
  next r _ =>
  dsimp only at h
  split at h <;> cases h
  next hins => exact ⟨r, rfl, hins⟩

/-- A new key without `expires_at` is accepted at every time. -/
theorem authQuery_created {role : Role}
    (hins : t.insert (.fresh newId tenantId hash name role none) = .ok t₁) (now : Time) :
    authQuery t₁ hash now = some (newId, tenantId, role) := by
  obtain ⟨hrows, hfresh⟩ := KeyTable.insert_rows hins
  have hold : ∀ r ∈ t.rows, (r.keyHash == hash) = false := fun r hr =>
    beq_eq_false_iff_ne.mpr (hfresh r hr).2
  unfold authQuery
  rw [hrows, List.find?_append, find?_eq_none.mpr fun r hr => by simp [hold r hr]]
  simp [ApiKey.fresh]

theorem exists_insert_iff {k : ApiKey} :
    (∃ t', t.insert k = .ok t') ↔ ∀ r ∈ t.rows, r.id ≠ k.id ∧ r.keyHash ≠ k.keyHash := by
  constructor
  · rintro ⟨t', hins⟩
    exact (KeyTable.insert_rows hins).2
  · intro hfresh
    unfold KeyTable.insert
    rw [dif_pos hfresh]
    exact ⟨_, rfl⟩

/-- The role is none of the three, or the new id or hash is taken. -/
def Refused (req : ApiKeyCreateRequest) (hash : String) (newId : Nat) (t : KeyTable) : Prop :=
  Role.ofText req.role = none ∨ ∃ r ∈ t.rows, r.id = newId ∨ r.keyHash = hash

/-- A request that is not refused creates a key without `expires_at`. -/
theorem exists_created (h : ¬ Refused req hash newId t) :
    ∃ role t₁, t.insert (.fresh newId req.tenantId hash req.name role none) = .ok t₁ ∧
      createApiKey req hash newId t =
        .ok (.fresh newId req.tenantId hash req.name role none, t₁) := by
  obtain ⟨hrole, hfresh⟩ := not_or.mp h
  obtain ⟨role, hrole⟩ := ne_none_iff_exists'.mp hrole
  simp only [not_exists, not_and, not_or] at hfresh
  obtain ⟨t₁, hins⟩ := exists_insert_iff.mpr
    (show ∀ r ∈ t.rows, r.id ≠ (ApiKey.fresh newId req.tenantId hash req.name role none).id ∧ _ from
      hfresh)
  refine ⟨role, t₁, hins, ?_⟩
  unfold createApiKey adminCreateApiKey
  rw [hrole]
  dsimp only
  rw [hins]

theorem Refused.not_created (h : Refused req hash newId t) :
    createApiKey req hash newId t ≠ .ok (key, t₁) := by
  intro hcreate
  rcases h with hrole | ⟨r, hr, htaken⟩
  · unfold createApiKey adminCreateApiKey at hcreate
    rw [hrole] at hcreate
    cases hcreate
  · obtain ⟨role, rfl, hins⟩ := adminCreateApiKey_eq_ok hcreate
    obtain ⟨hid, hhash⟩ := (KeyTable.insert_rows hins).2 r hr
    exact htaken.elim hid hhash

/-- **A requested expiry is honoured** exactly when the request is refused. -/
theorem requested_expiry_honoured_iff (callerTenant hash : String) (req : ApiKeyCreateRequest)
    (e clock : Time) (newId : Nat) (t : KeyTable) :
    (∀ key t₁, postApiKeys callerTenant { req with expiresAt := some e } hash newId t =
          .ok (key, t₁) →
        ∀ s, Reaches Lineage.step (.of key t₁ clock) s → s.ExpiredAt e) ↔
      Refused (req.withDefaults callerTenant) hash newId t := by
  -- the service reads no expiry, so the request may as well carry none
  have hpost : postApiKeys callerTenant { req with expiresAt := some e } hash newId t =
      createApiKey (req.withDefaults callerTenant) hash newId t := rfl
  rw [hpost]
  constructor
  · intro h
    by_contra hrefused
    obtain ⟨role, t₁, hins, hcreate⟩ := exists_created hrefused
    have hkey := (KeyTable.mem_insert hins).mpr (.inr rfl)
    have hexpired : authQuery t₁ hash e = none :=
      h _ _ hcreate _ (.refl _) _ hkey mem_cons_self e (le_refl e)
    exact absurd ((authQuery_created hins e).symm.trans hexpired) nofun
  · intro hrefused key t₁ hcreate
    exact absurd hcreate hrefused.not_created

/-- An agent's key that is to expire at `10`. -/
def expiringRequest : ApiKeyCreateRequest := { name := "agent", expiresAt := some 10 }

/-- **A key and its successor are accepted behind the requested expiry.** -/
theorem expiring_key_accepted :
    ∃ key t₁ s, postApiKeys "t" expiringRequest "hash1" 1 .empty = .ok (key, t₁) ∧
      (Lineage.of key t₁ 0).step (5, .rotate 1 "hash2" none defaultGrace 2) = some s ∧
      s.ids = [1, 2] ∧ authQuery t₁ "hash1" 10 = some (1, "t", .user) ∧
      authQuery s.keys "hash2" 10 = some (2, "t", .user) :=
  ⟨_, _, _, rfl, rfl, by decide, by decide, by decide⟩

end Pcmi.Admin
