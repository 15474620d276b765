import Pcmi.Lib.Steps
import Pcmi.Values

/-!
# API keys: creation, rotation, revocation, authentication

`admin_create_api_key`, `admin_rotate_api_key` and `admin_revoke_api_key` on `api_keys`, whose
constraints are fields of the table, and the query that authenticates a request.

Rotation sets `is_active = true` on the old row, so it brings a revoked key back.
-/

namespace Pcmi.Admin

open List Pcmi.Lib

inductive Role where
  | admin | user | readonly
  deriving DecidableEq, Repr

/-- `CHECK (role IN ('admin', 'user', 'readonly'))`. -/
def Role.ofText : String → Option Role
  | "admin" => some .admin
  | "user" => some .user
  | "readonly" => some .readonly
  | _ => none

structure ApiKey where
  id : Nat
  tenantId : String
  keyHash : String
  name : String
  role : Role
  expiresAt : Option Time
  isActive : Bool
  rotatedTo : Option Nat
  rotationGraceEndsAt : Option Time
  deriving DecidableEq, Repr

/-- The table `api_keys` with its two uniqueness constraints. -/
structure KeyTable where
  rows : List ApiKey
  idUnique : rows.Pairwise fun a b => a.id ≠ b.id
  hashUnique : rows.Pairwise fun a b => a.keyHash ≠ b.keyHash

namespace KeyTable

def empty : KeyTable := ⟨[], .nil, .nil⟩

def get? (t : KeyTable) (keyId : Nat) : Option ApiKey := t.rows.find? fun k => k.id == keyId

/-- `INSERT INTO api_keys`, refused when an id or a hash would occur twice. -/
def insert (t : KeyTable) (k : ApiKey) : Except String KeyTable :=
  if h : ∀ r ∈ t.rows, r.id ≠ k.id ∧ r.keyHash ≠ k.keyHash then
    .ok
      { rows := t.rows ++ [k]
        idUnique := pairwise_append.mpr
          ⟨t.idUnique, pairwise_singleton _ _, by simpa using fun r hr => (h r hr).1⟩
        hashUnique := pairwise_append.mpr
          ⟨t.hashUnique, pairwise_singleton _ _, by simpa using fun r hr => (h r hr).2⟩ }
  else .error "duplicate key value violates unique constraint"

/-- `UPDATE api_keys SET … WHERE id = keyId`. -/
def setLifecycle (t : KeyTable) (keyId : Nat) (isActive : Bool) (rotatedTo : Option Nat)
    (graceEndsAt : Option Time) : KeyTable where
  rows := t.rows.map fun k =>
    if k.id = keyId then
      { k with isActive := isActive, rotatedTo := rotatedTo, rotationGraceEndsAt := graceEndsAt }
    else k
  idUnique := t.idUnique.map _ fun a b h => by split <;> split <;> exact h
  hashUnique := t.hashUnique.map _ fun a b h => by split <;> split <;> exact h

end KeyTable

/-! ## The admin functions -/

def ApiKey.fresh (id : Nat) (tenantId keyHash name : String) (role : Role)
    (expiresAt : Option Time) : ApiKey :=
  { id := id, tenantId := tenantId, keyHash := keyHash, name := name, role := role
    expiresAt := expiresAt, isActive := true, rotatedTo := none, rotationGraceEndsAt := none }

/-- `admin_create_api_key`; the row gets the random id `newId`. -/
def adminCreateApiKey (tenantId keyHash name role : String) (expiresAt : Option Time) (newId : Nat)
    (t : KeyTable) : Except String (ApiKey × KeyTable) :=
  match Role.ofText role with
  | none => .error "new row for relation \"api_keys\" violates check constraint"
  | some role =>
    let key := ApiKey.fresh newId tenantId keyHash name role expiresAt
    match t.insert key with
    | .error e => .error e
    | .ok t' => .ok (key, t')

/-- The row that `admin_rotate_api_key` returns. -/
structure Rotated where
  id : Nat
  tenantId : String
  name : String
  role : Role
  previousKeyId : Nat
  graceEndsAt : Time
  deriving DecidableEq, Repr

/-- The key was rotated and its grace period is over. -/
def ApiKey.graceOver (k : ApiKey) (now : Time) : Bool :=
  match k.rotatedTo, k.rotationGraceEndsAt with
  | some _, some e => decide (e ≤ now)
  | _, _ => false

def defaultGrace : Time := 24 * hour

/-- `admin_rotate_api_key`; no row when the key does not exist. -/
def adminRotateApiKey (keyId : Nat) (newHash : String) (name : Option String) (grace : Time)
    (newId : Nat) (now : Time) (t : KeyTable) : Except String (Option Rotated × KeyTable) :=
  match t.get? keyId with
  | none => .ok (none, t)
  | some old =>
    if old.graceOver now then .error "api key already rotated and grace period expired"
    else
      let graceEnds := now + grace
      let name := name.getD old.name
      match t.insert (.fresh newId old.tenantId newHash name old.role old.expiresAt) with
      | .error e => .error e
      | .ok t' =>
        .ok (some ⟨newId, old.tenantId, name, old.role, keyId, graceEnds⟩,
          t'.setLifecycle keyId true (some newId) (some graceEnds))

/-- `admin_revoke_api_key`: the row it updated, if the key was active. -/
def adminRevokeApiKey (keyId : Nat) (t : KeyTable) : Option ApiKey × KeyTable :=
  match t.get? keyId with
  | none => (none, t)
  | some key =>
    if key.isActive then (some key, t.setLifecycle keyId false key.rotatedTo none)
    else (none, t)

/-- The query of `authMiddleware`, as `id, tenant_id, role`. -/
def authQuery (t : KeyTable) (keyHash : String) (now : Time) : Option (Nat × String × Role) :=
  (t.rows.find? fun k =>
    k.keyHash == keyHash && k.isActive &&
      (match k.expiresAt with
        | none => true
        | some e => decide (now < e)) &&
      (match k.rotatedTo, k.rotationGraceEndsAt with
        | none, _ => true
        | some _, some e => decide (now < e)
        | some _, none => false)).map fun k => (k.id, k.tenantId, k.role)

/-! ## Runs -/

inductive KeyOp where
  | create (tenantId keyHash name role : String) (expiresAt : Option Time) (newId : Nat)
  | rotate (keyId : Nat) (newHash : String) (name : Option String) (grace : Time) (newId : Nat)
  | revoke (keyId : Nat)

def KeyOp.apply (now : Time) (t : KeyTable) : KeyOp → KeyTable
  | .create tenantId keyHash name role expiresAt newId =>
    match adminCreateApiKey tenantId keyHash name role expiresAt newId t with
    | .ok (_, t') => t'
    | .error _ => t
  | .rotate keyId newHash name grace newId =>
    match adminRotateApiKey keyId newHash name grace newId now t with
    | .ok (_, t') => t'
    | .error _ => t
  | .revoke keyId => (adminRevokeApiKey keyId t).2

/-- What a call writes: a new row, the rotated one, a revoked one. -/
inductive KeyEffect (now : Time) (t : KeyTable) : KeyOp → KeyTable → Prop
  | unchanged (op : KeyOp) : KeyEffect now t op t
  | created {tenantId keyHash name roleText : String} {role : Role} {expiresAt : Option Time}
      {newId : Nat} {t' : KeyTable}
      (hins : t.insert (.fresh newId tenantId keyHash name role expiresAt) = .ok t') :
      KeyEffect now t (.create tenantId keyHash name roleText expiresAt newId) t'
  | rotated {keyId newId : Nat} {newHash : String} {name : Option String} {grace : Time}
      {old : ApiKey} {t' : KeyTable} (hget : t.get? keyId = some old)
      (hins : t.insert (.fresh newId old.tenantId newHash (name.getD old.name) old.role
        old.expiresAt) = .ok t') :
      KeyEffect now t (.rotate keyId newHash name grace newId)
        (t'.setLifecycle keyId true (some newId) (some (now + grace)))
  | revoked {keyId : Nat} {key : ApiKey} (hget : t.get? keyId = some key) :
      KeyEffect now t (.revoke keyId) (t.setLifecycle keyId false key.rotatedTo none)

theorem keyEffect_of_apply (now : Time) (t : KeyTable) (op : KeyOp) :
    KeyEffect now t op (op.apply now t) := by
  cases op with
  | create tenantId keyHash name role expiresAt newId =>
    simp only [KeyOp.apply, adminCreateApiKey]
    cases Role.ofText role with
    | none => exact .unchanged _
    | some role =>
      dsimp only
      cases hins : t.insert (.fresh newId tenantId keyHash name role expiresAt) with
      | error e => exact .unchanged _
      | ok t' => exact .created hins
  | rotate keyId newHash name grace newId =>
    simp only [KeyOp.apply, adminRotateApiKey]
    cases hget : t.get? keyId with
    | none => exact .unchanged _
    | some old =>
      by_cases hover : old.graceOver now = true
      · simp only [hover, if_true]
        exact .unchanged _
      simp only [hover]
      cases hins : t.insert (.fresh newId old.tenantId newHash (name.getD old.name) old.role
        old.expiresAt) with
      | error e => exact .unchanged _
      | ok t' => exact .rotated hget hins
  | revoke keyId =>
    simp only [KeyOp.apply, adminRevokeApiKey]
    cases hget : t.get? keyId with
    | none => exact .unchanged _
    | some key =>
      by_cases hactive : key.isActive = true
      · simp only [hactive, if_true]
        exact .revoked hget
      · simp only [hactive]
        exact .unchanged _

structure KeyStore where
  keys : KeyTable
  clock : Time

/-- One call at a time that is not before the last one. -/
def KeyStore.step (s : KeyStore) (a : Time × KeyOp) : Option KeyStore :=
  if s.clock ≤ a.1 then some ⟨a.2.apply a.1 s.keys, a.1⟩ else none

variable {s s' : KeyStore} {a b k : ApiKey} {t' : KeyTable}

theorem KeyStore.keys_of_step {now : Time} {op : KeyOp} (h : s.step (now, op) = some s') :
    s'.keys = op.apply now s.keys := by
  unfold KeyStore.step at h
  split at h <;> cases h
  rfl

/-- A rotation is asked for an active key, or for one that does not exist. -/
def rotatesActive (s : KeyStore) (a : Time × KeyOp) : Bool :=
  match a.2 with
  | .rotate keyId .. =>
    match s.keys.get? keyId with
    | some key => key.isActive
    | none => true
  | _ => true

/-! ## Revoked keys -/

variable {t : KeyTable} {keyId : Nat} {keyHash : String}

theorem KeyTable.eq_of_id (ha : a ∈ t.rows) (hb : b ∈ t.rows) (h : a.id = b.id) :
    a = b := by
  have hsymm : Std.Symm fun a b : ApiKey => a.id ≠ b.id := ⟨fun _ _ h => h.symm⟩
  by_contra hne
  exact t.idUnique.forall ha hb hne h

theorem KeyTable.eq_of_keyHash (ha : a ∈ t.rows) (hb : b ∈ t.rows) (h : a.keyHash = b.keyHash) :
    a = b := by
  have hsymm : Std.Symm fun a b : ApiKey => a.keyHash ≠ b.keyHash := ⟨fun _ _ h => h.symm⟩
  by_contra hne
  exact t.hashUnique.forall ha hb hne h

theorem KeyTable.get?_mem (h : t.get? keyId = some k) : k ∈ t.rows ∧ k.id = keyId :=
  ⟨mem_of_find?_eq_some h, by simpa using find?_some h⟩

theorem KeyTable.insert_rows (h : t.insert k = .ok t') :
    t'.rows = t.rows ++ [k] ∧ ∀ r ∈ t.rows, r.id ≠ k.id ∧ r.keyHash ≠ k.keyHash := by
  unfold insert at h
  split at h <;> cases h
  next hfresh => exact ⟨rfl, hfresh⟩

theorem KeyTable.mem_insert {r : ApiKey} (h : t.insert k = .ok t') :
    r ∈ t'.rows ↔ r ∈ t.rows ∨ r = k := by
  rw [(insert_rows h).1, mem_append, mem_singleton]

def Revoked (keyHash : String) (t : KeyTable) : Prop :=
  ∃ k ∈ t.rows, k.keyHash = keyHash ∧ k.isActive = false

/-- **The hash of an inactive row is refused at every time.** -/
theorem Revoked.authQuery_eq_none (h : Revoked keyHash t) (now : Time) :
    authQuery t keyHash now = none := by
  obtain ⟨k, hk, hhash, hinactive⟩ := h
  refine Option.map_eq_none_iff.mpr (find?_eq_none.mpr fun r hr => ?_)
  by_cases hr' : r.keyHash = keyHash
  · -- hashes are unique, so this is the inactive row
    rw [KeyTable.eq_of_keyHash hr hk (hr'.trans hhash.symm)]
    simp [hinactive]
  · simp [hr']

theorem Revoked.insert {keyHash : String} {t : KeyTable} (h : Revoked keyHash t)
    (hins : t.insert k = .ok t') : Revoked keyHash t' := by
  obtain ⟨r, hr, hrevoked⟩ := h
  exact ⟨r, (KeyTable.mem_insert hins).mpr (.inl hr), hrevoked⟩

theorem Revoked.setInactive (h : Revoked keyHash t) (keyId : Nat) (rotatedTo : Option Nat)
    (graceEndsAt : Option Time) :
    Revoked keyHash (t.setLifecycle keyId false rotatedTo graceEndsAt) := by
  obtain ⟨k, hk, hhash, hinactive⟩ := h
  refine ⟨_, mem_map_of_mem hk, ?_⟩
  split
  · exact ⟨hhash, rfl⟩
  · exact ⟨hhash, hinactive⟩

theorem Revoked.setActive (h : Revoked keyHash t)
    (hother : ∀ k ∈ t.rows, k.id = keyId → k.keyHash ≠ keyHash) (rotatedTo : Option Nat)
    (graceEndsAt : Option Time) :
    Revoked keyHash (t.setLifecycle keyId true rotatedTo graceEndsAt) := by
  obtain ⟨k, hk, hhash, hinactive⟩ := h
  refine ⟨_, mem_map_of_mem hk, ?_⟩
  have hid : k.id ≠ keyId := fun hid => hother k hk hid hhash
  rw [if_neg hid]
  exact ⟨hhash, hinactive⟩

/-- **A revoked key stays revoked** while no inactive key is rotated. -/
theorem Revoked.step {keyHash : String} {a : Time × KeyOp} (h : Revoked keyHash s.keys)
    (hok : rotatesActive s a = true) (hstep : s.step a = some s') : Revoked keyHash s'.keys := by
  obtain ⟨now, op⟩ := a
  have heffect := keyEffect_of_apply now s.keys op
  rw [KeyStore.keys_of_step hstep]
  generalize op.apply now s.keys = t' at heffect
  cases heffect with
  | unchanged => exact h
  | created hins => exact h.insert hins
  | revoked hget => exact h.setInactive _ _ _
  | @rotated keyId newId newHash name grace old t' hget hins =>
    refine (h.insert hins).setActive ?_ _ _
    -- the rotated row is active before the call, so it is not the revoked one
    have hactive : old.isActive = true := by simpa [rotatesActive, hget] using hok
    obtain ⟨k, hk, hhash, hinactive⟩ := h
    obtain ⟨hold, hid⟩ := KeyTable.get?_mem hget
    intro r hr hrid hrhash
    have hk' : k ∈ t'.rows := (KeyTable.mem_insert hins).mpr (.inl hk)
    have hold' : old ∈ t'.rows := (KeyTable.mem_insert hins).mpr (.inl hold)
    have hrk := KeyTable.eq_of_keyHash hr hk' (hrhash.trans hhash.symm)
    have hrold := KeyTable.eq_of_id hr hold' (hrid.trans hid.symm)
    rw [← hrold, hrk, hinactive] at hactive
    cases hactive

theorem revoked_of_revoke {key : ApiKey} (h : (adminRevokeApiKey keyId t).1 = some key) :
    Revoked key.keyHash (adminRevokeApiKey keyId t).2 := by
  unfold adminRevokeApiKey at h ⊢
  cases hget : t.get? keyId with
  | none => simp [hget] at h
  | some k =>
    obtain ⟨hk, hid⟩ := KeyTable.get?_mem hget
    by_cases hactive : k.isActive = true
    · simp only [hget, hactive, if_true, Option.some.injEq] at h ⊢
      subst h
      refine ⟨_, mem_map_of_mem hk, ?_⟩
      rw [if_pos hid]
      exact ⟨rfl, rfl⟩
    · simp [hget, hactive] at h

/-- **Revocation is absorbing** while only active keys are rotated. -/
theorem revoked_key_refused {s s₁ s₂ : KeyStore} {keyId : Nat} {key : ApiKey} {now : Time}
    (hrevoked : (adminRevokeApiKey keyId s.keys).1 = some key)
    (hstep : s.step (now, .revoke keyId) = some s₁)
    (hrun : Steps KeyStore.step (fun s a => rotatesActive s a = true) s₁ s₂) (t : Time) :
    authQuery s₂.keys key.keyHash t = none := by
  have h₁ : Revoked key.keyHash s₁.keys :=
    KeyStore.keys_of_step hstep ▸ revoked_of_revoke hrevoked
  have h₂ : Revoked key.keyHash s₂.keys :=
    hrun.invariant (P := fun s => Revoked key.keyHash s.keys) (fun u a v h hok hs =>
      h.step hok hs) h₁
  exact h₂.authQuery_eq_none t

/-! ## A key that is rotated after it was revoked -/

def oneKey : KeyStore :=
  ⟨KeyOp.apply 0 .empty (.create "t" "hash1" "agent" "user" none 1), 0⟩

def oneKeyRevoked : KeyStore := ⟨KeyOp.apply 1 oneKey.keys (.revoke 1), 1⟩

theorem revoked_key_refused_oneKey :
    (adminRevokeApiKey 1 oneKey.keys).1.isSome ∧
      ∃ s, runAll (guarded KeyStore.step (fun s a => rotatesActive s a = true)) oneKeyRevoked
          [(2, .create "t" "hash2" "agent" "user" none 2), (3,
            .rotate 2 "hash3" none defaultGrace 3)] =
            some s ∧
        authQuery oneKey.keys "hash1" 1 = some (1, "t", .user) ∧
        authQuery s.keys "hash3" 4 = some (3, "t", .user) ∧
        authQuery s.keys "hash1" 4 = none := by
  obtain ⟨s, hs, hobs⟩ : ∃ s ∈ runAll (guarded KeyStore.step (fun s a => rotatesActive s a = true))
      oneKeyRevoked [(2, .create "t" "hash2" "agent" "user" none 2),
        (3, .rotate 2 "hash3" none defaultGrace 3)],
      authQuery s.keys "hash3" 4 = some (3, "t", .user) := by decide
  refine ⟨by decide, s, hs, by decide, hobs, ?_⟩
  have hrevoked : (adminRevokeApiKey 1 oneKey.keys).1 =
      some (.fresh 1 "t" "hash1" "agent" .user none) := by
    decide
  have hstep : oneKey.step (1, .revoke 1) = some oneKeyRevoked := if_pos (by decide)
  exact revoked_key_refused hrevoked hstep (steps_runAll (.refl _) hs) 4

/-- **Rotating a revoked key activates it again**, for the grace period. -/
theorem rotate_reactivates_revoked_key :
    ∃ s, Reaches KeyStore.step ⟨.empty, 0⟩ oneKey ∧
      (adminRevokeApiKey 1 oneKey.keys).1.map (·.keyHash) = some "hash1" ∧
      oneKey.step (1, .revoke 1) = some oneKeyRevoked ∧
      authQuery oneKeyRevoked.keys "hash1" 1 = none ∧
      oneKeyRevoked.step (2, .rotate 1 "hash2" none defaultGrace 2) = some s ∧
      authQuery s.keys "hash1" 3 = some (1, "t", .user) := by
  refine ⟨⟨KeyOp.apply 2 oneKeyRevoked.keys (.rotate 1 "hash2" none defaultGrace 2), 2⟩, ?_,
    by decide, if_pos (by decide), by decide, if_pos (by decide), by decide⟩
  have hcreate : KeyStore.step ⟨.empty, 0⟩ (0, .create "t" "hash1" "agent" "user" none 1) =
      some oneKey := if_pos (by decide)
  exact .tail (.refl _) trivial hcreate

end Pcmi.Admin
