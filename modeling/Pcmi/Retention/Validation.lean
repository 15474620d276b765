import Pcmi.Go.Strings
import Pcmi.Memory.Import
import Pcmi.Memory.Lifecycle
import Pcmi.Memory.Paths
import Pcmi.Webhook.Ssrf

/-!
# What is validated and what is used

`ValidateLtreePath` and `ValidateTargetURL` validate a trimmed copy of their argument.
`RetentionService.Delete` and `WebhookHandler.Register` go on with the argument itself.
-/

namespace Pcmi.Retention

open List Pcmi.Go Pcmi.Lib Pcmi.Memory

/-! ## Retention policies -/

def validateRetentionPrefix (env : Env) (pathPrefix : String) : Except String Unit :=
  if pathPrefix = "" then .ok ()
  else (validateLtreePath env pathPrefix).mapError ("invalid path_prefix: " ++ ·)

inductive DeleteError where
  /-- `ErrInvalidRetentionRequest`. -/
  | invalidRequest (message : String)
  /-- `retention delete: %w`. -/
  | database
  /-- `ErrRetentionPolicyNotFound`. -/
  | notFound

def delete (env : Env) (tenantId pathPrefix : String) (policies : List RetentionPolicy) :
    Except DeleteError (List RetentionPolicy) :=
  match validateRetentionPrefix env pathPrefix with
  | .error e => .error (.invalidRequest e)
  | .ok _ =>
    match env.castUuid tenantId, env.castLtree pathPrefix with
    | some tenant, some path =>
      let kept := policies.filter fun p => !(p.tenantId == tenant && p.pathPrefix == path)
      if kept.length = policies.length then .error .notFound else .ok kept
    | _, _ => .error .database

/-! ## Webhook endpoints -/

/-- What `ValidateTargetURL` reads of a `url.URL`. -/
structure Url where
  scheme : Bytes
  hostname : Bytes

inductive TargetError where
  /-- `invalid webhook url: %w`. -/
  | invalid (message : String)
  | scheme
  | host
  /-- `webhook url targets a blocked address (%s)`. -/
  | blocked (ip : IP)

/-- `validateTargetURL`, with `url.Parse`. -/
def validateTargetURL (parse : Bytes → Except String Url) (raw : Bytes) (allow : Bool) :
    Except TargetError Unit :=
  match parse (trimSpace raw) with
  | .error e => .error (.invalid e)
  | .ok u =>
    if u.scheme ≠ ascii "http" ∧ u.scheme ≠ ascii "https" then .error .scheme
    else if u.hostname = [] then .error .host
    else if allow then .ok ()
    else
      match parseIP u.hostname with
      | some ip => if Webhook.blockedIP (some ip) then .error (.blocked ip) else .ok ()
      | none => .ok ()

structure RegisterWebhookRequest where
  url : Bytes
  eventTypes : Option (List Bytes)
  secret : Bytes

structure Endpoint where
  tenantId : String
  url : Bytes
  eventTypes : List Bytes
  secret : Option Bytes

inductive RegisterError where
  | noTenant | urlRequired | target (e : TargetError) | database

def register (env : Env) (parse : Bytes → Except String Url) (allow : Bool) (tenantId : String)
    (req : RegisterWebhookRequest) : Except RegisterError Endpoint :=
  if tenantId = "" then .error .noTenant
  else if req.url = [] then .error .urlRequired
  else
    match validateTargetURL parse req.url allow with
    | .error e => .error (.target e)
    | .ok _ =>
      match env.castUuid tenantId with
      | none => .error .database
      | some tenant =>
        .ok ⟨tenant, req.url, req.eventTypes.getD [], if req.secret =
          [] then none else some req.secret⟩

/-! ## Accepted paths -/

theorem validateLabels_eq_ok {env : Env} : ∀ {labels : List (List Char)},
    validateLabels env labels = .ok () → ∀ l ∈ labels, l ≠ [] ∧ isWordLabel l = true
  | [], _ => forall_mem_nil _
  | label :: rest, h => by
    rw [validateLabels] at h
    split at h
    · cases h
    next hne =>
    split at h
    · cases h
    next hword =>
    exact forall_mem_cons.mpr ⟨⟨hne, Bool.eq_true_of_not_eq_false hword⟩, validateLabels_eq_ok h⟩

theorem length_splitOn_le {α : Type} [BEq α] (sep : α) (l : List α) :
    (l.splitOn sep).length ≤ l.length + 1 := by
  induction l with
  | nil => simp
  | cons x l ih =>
    rw [splitOn_cons_eq_if_modifyHead]
    split <;> simp <;> omega

theorem length_le_utf8ByteSize (l : List Char) : l.length ≤ (String.ofList l).utf8ByteSize := by
  induction l with
  | nil => simp
  | cons c l ih =>
    have hcons : String.ofList (c :: l) = String.singleton c ++ String.ofList l :=
      String.toList_injective (by simp)
    rw [hcons, String.utf8ByteSize_append, String.utf8ByteSize_singleton, length_cons]
    have := c.utf8Size_pos
    omega

variable {env : Env}

/-- The labels of an accepted path are words, not too many. -/
theorem validateLtreePath_eq_ok {path : String} (h : validateLtreePath env path = .ok ()) :
    (∀ l ∈ labelsOf (trimSpaceText path), l ≠ "" ∧ isWordLabel l.toList = true) ∧
      (labelsOf (trimSpaceText path)).length ≤ LabelRules.maxLevels := by
  unfold validateLtreePath at h
  dsimp only at h
  split at h
  · cases h
  next hne =>
  split at h
  · cases h
  next hlength =>
  split at h
  · cases h
  have hlabels := validateLabels_eq_ok h
  have hcount := length_splitOn_le '.' (trimSpaceText path).toList
  have hbytes := length_le_utf8ByteSize (trimSpaceText path).toList
  rw [String.ofList_toList] at hbytes
  rw [labelsOf, if_neg hne, length_map]
  refine ⟨forall_mem_map.mpr fun l hl => ?_, ?_⟩
  · simpa using hlabels l hl
  · simp only [LabelRules.maxLevels]
    omega

/-- The statement compares with the path that was validated. -/
def PrefixKept (env : Env) (pathPrefix : String) : Prop :=
  ∃ path, env.castLtree pathPrefix = some path ∧ path.text = trimSpaceText pathPrefix

theorem prefixKept_iff {db : LabelRules} (henv : env.castLtree = db.castLtree) {pathPrefix : String}
    (h : validateRetentionPrefix env pathPrefix = .ok ()) :
    PrefixKept env pathPrefix ↔ trimSpaceText pathPrefix = pathPrefix ∧
      ∀ l ∈ labelsOf pathPrefix, l.length ≤ db.maxLength := by
  rw [PrefixKept, henv]
  constructor
  · rintro ⟨path, hcast, htext⟩
    obtain ⟨hstores, rfl⟩ := LabelRules.castLtree_eq_some_iff.mp hcast
    refine ⟨htext.symm, fun l hl => ?_⟩
    rw [LabelRules.labelsOf_text hstores] at hl
    exact (LabelRules.label_iff.mp ((LabelRules.stores_iff.mp hstores).1 l hl)).2.1
  · rintro ⟨htrim, hlengths⟩
    refine ⟨⟨labelsOf pathPrefix⟩, ?_, by rw [Ltree.text_labelsOf, htrim]⟩
    refine LabelRules.castLtree_eq_some_iff.mpr ⟨?_, Ltree.text_labelsOf pathPrefix⟩
    unfold validateRetentionPrefix at h
    split at h
    · next hempty =>
      rw [hempty]
      rfl
    · have hvalid : validateLtreePath env pathPrefix = .ok () := by
        cases hresult : validateLtreePath env pathPrefix with
        | ok => rfl
        | error e =>
          rw [hresult] at h
          cases h
      obtain ⟨hwords, hcount⟩ := validateLtreePath_eq_ok hvalid
      rw [htrim] at hwords hcount
      refine LabelRules.stores_iff.mpr ⟨fun l hl => LabelRules.label_iff.mpr ?_, hcount⟩
      obtain ⟨hne, hword⟩ := hwords l hl
      refine ⟨hne, hlengths l hl, fun c hc => db.word c ?_⟩
      simpa using all_eq_true.mp hword c hc

/-! ## Both -/

theorem register_url {parse : Bytes → Except String Url} {allow : Bool} {tenantId : String}
    {req : RegisterWebhookRequest} {e : Endpoint}
    (h : register env parse allow tenantId req = .ok e) : e.url = req.url := by
  unfold register at h
  split at h
  · cases h
  split at h
  · cases h
  split at h
  · cases h
  split at h <;> cases h
  rfl

/-- **What was validated is used exactly if it has no white space at its ends**, and a path no label
that is too long. -/
theorem validated_is_used_iff {env : Env} {db : LabelRules} (henv : env.castLtree = db.castLtree) :
    (∀ pathPrefix, validateRetentionPrefix env pathPrefix = .ok () →
      (PrefixKept env pathPrefix ↔ trimSpaceText pathPrefix = pathPrefix ∧
        ∀ l ∈ labelsOf pathPrefix, l.length ≤ db.maxLength)) ∧
    ∀ parse allow tenantId req e, register env parse allow tenantId req = .ok e →
      (e.url = trimSpace req.url ↔ Untrimmed req.url) := by
  refine ⟨fun _ h => prefixKept_iff henv h, fun parse allow tenantId req e h => ?_⟩
  rw [register_url h]
  constructor
  · intro heq
    rw [heq]
    exact untrimmed_trimSpace req.url
  · exact fun hkept => (trimSpace_eq_self hkept).symm

def sampleParse (s : Bytes) : Except String Url :=
  if s = ascii "http://h" then .ok ⟨ascii "http", ascii "h"⟩
  else .error "first path segment in URL cannot contain colon"

theorem validated_is_used_rootA : PrefixKept wordEnv "root.a" ∧
    ∀ e, register wordEnv sampleParse false "t" ⟨ascii "http://h", none, []⟩ = .ok e →
      e.url = trimSpace (ascii "http://h") := by
  obtain ⟨hpath, hurl⟩ := @validated_is_used_iff wordEnv wordRules rfl
  exact ⟨(hpath "root.a" (by decide +kernel)).mpr (by decide +kernel),
    fun e he => (hurl _ _ _ _ e he).mpr (by decide +kernel)⟩

/-- **An accepted prefix with a space is no `ltree`; an accepted URL with one cannot be parsed.** -/
theorem accepted_then_refused :
    (∀ policies, delete wordEnv "t" "root.a " policies = .error .database) ∧
    validateRetentionPrefix wordEnv "root.a " = .ok () ∧ ¬ PrefixKept wordEnv "root.a " ∧
    ∃ e, register wordEnv sampleParse false "t" ⟨ascii " http://h", none, []⟩ = .ok e ∧
      e.url ≠ trimSpace (ascii " http://h") ∧
      sampleParse e.url = .error "first path segment in URL cannot contain colon" := by
  have hvalid : validateRetentionPrefix wordEnv "root.a " = .ok () := by decide +kernel
  have hcast : wordEnv.castLtree "root.a " = none := by decide +kernel
  refine ⟨fun policies => ?_, hvalid, ?_, ⟨"t", ascii " http://h", [], none⟩, ?_⟩
  · rw [delete, hvalid, hcast]
    rfl
  · rintro ⟨path, hpath, -⟩
    cases hcast.symm.trans hpath
  · exact ⟨by rfl, by decide +kernel, by rfl⟩

end Pcmi.Retention
