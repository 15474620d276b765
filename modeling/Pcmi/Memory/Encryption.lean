import Pcmi.Memory.Dedup
import Pcmi.Memory.Lifecycle

/-!
# Encrypted versions and rollback

`Rollback` reads a version, decrypted, and stores it again. The request it builds never asks for
encryption; a version whose metadata marks it as sensitive stays encrypted.
-/

namespace Pcmi.Memory

open Pcmi.Go Pcmi.Lib

section

variable {env : Env} {settings : DedupSettings} {tenantId : String} {rows : List Row}
  {req : StoreRequest} {c : Columns} {tn : String}

theorem storeColumns_encrypted (h : storeColumns env req = .ok c) :
    c.contentEncrypted = shouldEncrypt req.encryptContent (some (req.metadata.getD ∅)) ∧
      (c.contentEncrypted = false → c.content = req.content) := by
  unfold storeColumns at h
  dsimp only at h
  split at h
  · cases h
  split at h
  · cases h
  next content hcontent =>
  split at h
  · cases h
  split at h <;> cases h
  refine ⟨rfl, fun hplain => ?_⟩
  dsimp only at hplain ⊢
  rw [hplain] at hcontent
  exact (Except.ok.inj hcontent).symm

/-- A store inserts the columns of its request, whatever the mode. -/
theorem serviceStore_insert (h : serviceStore env settings req tenantId rows = .ok (.insert tn c)) :
    storeColumns env { req with contentHash := env.contentHash req.content } = .ok c := by
  cases serviceStore_ok h with
  | stored c hno hcolumns => exact hcolumns

/-- **A rollback inserts the restored text**, encrypted if the metadata says so. -/
theorem rollback_insert {req : RollbackRequest}
    (h : rollback env settings req tenantId rows = .ok (.insert tn c)) :
    ∃ r, getHistoricalVersion env tenantId (trimSpaceText req.path) req.version req.asOf rows =
        .ok r ∧
      c.contentEncrypted = shouldEncrypt false (some r.metadata) ∧
      (c.contentEncrypted = false → c.content = r.content) := by
  unfold rollback at h
  dsimp only at h
  split at h
  · cases h
  split at h
  · cases h
  next r hr =>
  exact ⟨r, hr, storeColumns_encrypted (serviceStore_insert h)⟩

end

/-! ## Runs of rollbacks -/

structure RollbackCall where
  ctx : Ctx
  req : RollbackRequest
  tenantId : String

def rollbackStep (env : Env) (s : Life) (a : RollbackCall) : Option Life :=
  Life.step env s (a.ctx, .rollback a.req a.tenantId)

def RollbackCall.restored (env : Env) (s : Life) (a : RollbackCall) : Except String Row :=
  getHistoricalVersion env a.tenantId (trimSpaceText a.req.path) a.req.version a.req.asOf
    s.table.rows

def Secret (env : Env) (s : Life) (text : String) : Prop :=
  ∃ v ∈ s.table.rows, v.contentEncrypted = true ∧ env.decryptContent v.content = .ok text

instance (env : Env) (s : Life) (text : String) : Decidable (Secret env s text) :=
  inferInstanceAs (Decidable (∃ v ∈ s.table.rows, _ ∧ _))

/-- An encrypted text is restored only from a version marked sensitive. -/
def RestoresSensitive (env : Env) (s : Life) (a : RollbackCall) : Prop :=
  ∀ r, a.restored env s = .ok r → Secret env s r.content →
    shouldEncrypt false (some r.metadata) = true

instance (env : Env) (s : Life) (a : RollbackCall) : Decidable (RestoresSensitive env s a) :=
  match h : a.restored env s with
  | .ok r =>
    decidable_of_iff (Secret env s r.content → shouldEncrypt false (some r.metadata) = true)
      ⟨fun hr _ h' => Except.ok.inj (h.symm.trans h') ▸ hr, fun hall => hall r h⟩
  | .error _ => isTrue fun _ h' => nomatch h.symm.trans h'

def Row.NewSince (rows : List Row) (r : Row) : Prop := ∀ r₀ ∈ rows, r₀.id ≠ r.id

/-- An encrypted version in the table, and no new row holds its text. -/
structure Guarded (rows₀ : List Row) (ciphertext text : String) (t : Table) : Prop where
  encrypted : ∃ v ∈ t.rows, v.contentEncrypted = true ∧ v.content = ciphertext
  hidden : ∀ r ∈ t.rows, r.NewSince rows₀ → ¬ (r.contentEncrypted = false ∧ r.content = text)

section

variable {env : Env} {rows₀ : List Row} {ciphertext text : String} {t : Table}

theorem Guarded.updated (h : Guarded rows₀ ciphertext text t) {now : Time} {f : Row → Row}
    (hf : ∀ r, Row.Updated now r (f r)) :
    Guarded rows₀ ciphertext text { t with rows := t.rows.map f } := by
  constructor
  · obtain ⟨v, hv, henc, hcontent⟩ := h.encrypted
    refine ⟨f v, List.mem_map_of_mem hv, ?_, ?_⟩
    · rw [(hf v).contentEncrypted, henc]
    · rw [(hf v).content, hcontent]
  · refine List.forall_mem_map.mpr fun r hr hnew => ?_
    have hnew' : r.NewSince rows₀ := fun r₀ hr₀ => (hf r).id ▸ hnew r₀ hr₀
    rw [(hf r).contentEncrypted, (hf r).content]
    exact h.hidden r hr hnew'

theorem Guarded.append (h : Guarded rows₀ ciphertext text t) {r : Row}
    (hr : ¬ (r.contentEncrypted = false ∧ r.content = text)) (nextId : Nat) :
    Guarded rows₀ ciphertext text ⟨t.rows ++ [r], nextId⟩ := by
  constructor
  · obtain ⟨v, hv, henc⟩ := h.encrypted
    exact ⟨v, List.mem_append_left _ hv, henc⟩
  · refine List.forall_mem_append.mpr ⟨h.hidden, fun r' hr' _ => ?_⟩
    rw [List.mem_singleton.mp hr']
    exact hr

theorem Guarded.step (hdecrypt : env.decryptContent ciphertext = .ok text) {s s' : Life}
    {a : RollbackCall} (h : Guarded rows₀ ciphertext text s.table)
    (hok : RestoresSensitive env s a) (hstep : rollbackStep env s a = some s') :
    Guarded rows₀ ciphertext text s'.table := by
  have heffect := effect_of_apply env a.ctx s.table (.rollback a.req a.tenantId)
  obtain rfl := Option.some.inj hstep
  dsimp only
  generalize Op.apply env a.ctx s.table (.rollback a.req a.tenantId) = t' at heffect
  cases heffect with
  | updated f hf => exact h.updated hf
  | deleted p hop => cases hop
  | inserted tn c hplan =>
    obtain ⟨r, hrestored, hencrypted, hcontent⟩ := rollback_insert (Option.some.inj hplan)
    refine (h.updated (closeCurrent_updated tn c.path a.ctx.now)).append ?_ _
    rintro ⟨hplain, htext⟩
    -- the restored text is the secret one, so the metadata has asked for encryption
    have hsecret : Secret env s r.content := by
      obtain ⟨v, hv, henc, hciphertext⟩ := h.encrypted
      refine ⟨v, hv, henc, ?_⟩
      rw [hciphertext, hdecrypt, ← hcontent hplain]
      exact congrArg Except.ok htext.symm
    have hplain' : c.contentEncrypted = false := hplain
    rw [hencrypted, hok r hrestored hsecret] at hplain'
    cases hplain'

/-- **Rollbacks keep what is encrypted out of the clear** if they restore it only from versions
marked as sensitive. -/
theorem rollback_keeps_encrypted {s₀ s : Life} {v : Row} (hv : v ∈ s₀.table.rows)
    (hencrypted : v.contentEncrypted = true) (hdecrypt : env.decryptContent v.content = .ok text)
    (hrun : Steps (rollbackStep env) (RestoresSensitive env) s₀ s) :
    ∀ r ∈ s.table.rows, r.NewSince s₀.table.rows →
      ¬ (r.contentEncrypted = false ∧ r.content = text) := by
  have hstart : Guarded s₀.table.rows v.content text s₀.table :=
    ⟨⟨v, hv, hencrypted, rfl⟩, fun r hr hnew => absurd rfl (hnew r hr)⟩
  have hguarded : Guarded s₀.table.rows v.content text s.table :=
    hrun.invariant (P := fun s => Guarded s₀.table.rows v.content text s.table)
      (fun _ _ _ h hok hs => h.step hdecrypt hok hs) hstart
  exact hguarded.hidden

end

/-! ## A secret note -/

def prefixEnv : Env where
  encryptContent s := .ok ("enc:v1:" ++ s)
  decryptContent s := .ok (String.ofList (s.toList.drop 7))
  contentHash s := s
  castLtree s := some ⟨[s]⟩
  castUuid s := some s
  quote s := s

/-- A note stored encrypted, and once more. -/
def storeSecret (encryptContent : Bool) (metadata : JsonMap) : List (Ctx × Op) :=
  [({ now := 0 }, .serviceStore
      { path := "notes", content := "pin", metadata := some metadata, encryptContent } "t"),
   ({ now := 1 }, .serviceStore { path := "notes", content := "none" } "t")]

def rollbackFirst : RollbackCall := ⟨{ now := 2 }, { path := "notes", version := some 1 }, "t"⟩

def lifeAfter (acts : List (Ctx × Op)) : Life :=
  (runAll (Life.step prefixEnv) (Life.start 1 0) acts).getD (Life.start 1 0)

def sensitive : JsonMap := AList.insert "sensitive" (.bool true) ∅

theorem rollback_keeps_sensitive :
    ∃ s, rollbackStep prefixEnv (lifeAfter (storeSecret false sensitive)) rollbackFirst = some s ∧
      s.table.rows.map (fun r => (r.id, r.contentEncrypted, r.content)) =
        [(1, true, "enc:v1:pin"), (2, false, "none"), (3, true, "enc:v1:pin")] ∧
      ∀ r ∈ s.table.rows, r.NewSince (lifeAfter (storeSecret false sensitive)).table.rows →
        ¬ (r.contentEncrypted = false ∧ r.content = "pin") := by
  have hrun : Steps (rollbackStep prefixEnv) (RestoresSensitive prefixEnv)
      (lifeAfter (storeSecret false sensitive)) _ :=
    .tail (a := rollbackFirst) (.refl _) (by decide) rfl
  exact ⟨_, rfl, by decide, rollback_keeps_encrypted (List.getElem_mem (n := 0) (by decide))
    (by decide) (by decide) hrun⟩

/-- **Without it the text comes back in the clear.** -/
theorem rollback_reveals_content :
    ∃ s₀ s, Reaches (Life.step prefixEnv) (Life.start 1 0) s₀ ∧
      s₀.table.rows.map (fun r => (r.id, r.contentEncrypted, r.content)) =
        [(1, true, "enc:v1:pin"), (2, false, "none")] ∧
      Reaches (rollbackStep prefixEnv) s₀ s ∧
      s.table.rows.map (fun r => (r.id, r.contentEncrypted, r.content)) =
        [(1, true, "enc:v1:pin"), (2, false, "none"), (3, false, "pin")] := by
  refine ⟨lifeAfter (storeSecret true ∅), _, reaches_getD _ (by decide), by decide,
    .tail (.refl _) trivial (show rollbackStep prefixEnv _ rollbackFirst = some _ from rfl), ?_⟩
  decide

end Pcmi.Memory
