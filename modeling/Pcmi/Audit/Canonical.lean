import Pcmi.Audit.Chain
import Pcmi.Lib.Separated

/-!
# What the canonical text determines

Thirteen values are joined with U+001F and none is escaped. Two values are numbers; the four texts
between them and the five behind them can be cut anywhere.
-/

namespace Pcmi.Audit

open List Pcmi.Go Pcmi.Lib

def Fields.request (f : Fields) : List Bytes := [f.apiKeyId, f.eventType, f.path, f.method]

def Fields.outcome (f : Fields) : List Bytes :=
  [f.requestBody, f.responseBody, f.ipAddress, f.userAgent, f.createdAt]

/-- **No value can shift into its neighbour.** -/
structure Fields.Unshiftable (f : Fields) : Prop where
  texts : ∀ text ∈ f.request ++ f.outcome, fieldSep ∉ text
  tenant : ∀ piece ∈ (f.tenantId.splitOn fieldSep).tail, ∀ n : Int64, piece ≠ formatInt n

theorem canonical_eq (f : Fields) : canonical f = [fieldSep].intercalate
    (ascii "v1" :: f.tenantId :: formatInt f.chainSeq ::
      (f.request ++ formatInt f.statusCode :: f.outcome)) := rfl

theorem splitOn_formatInt (n : Int64) : (formatInt n).splitOn fieldSep = [formatInt n] :=
  splitOn_eq_singleton (not_mem_formatInt (by decide) n)

theorem splitOn_canonical (f : Fields) : (canonical f).splitOn fieldSep =
    ascii "v1" :: (f.tenantId.splitOn fieldSep ++ formatInt f.chainSeq ::
      (f.request.flatMap (List.splitOn fieldSep) ++ formatInt f.statusCode ::
        f.outcome.flatMap (List.splitOn fieldSep))) := by
  have hv1 : (ascii "v1").splitOn fieldSep = [ascii "v1"] :=
    splitOn_eq_singleton (by decide)
  rw [canonical_eq, splitOn_intercalate_eq_flatMap (cons_ne_nil _ _)]
  simp only [flatMap_cons, flatMap_append, hv1, splitOn_formatInt,
    singleton_append]

variable {f g : Fields} {n : Int64}

theorem Fields.eq_of_groups (htenant : g.tenantId = f.tenantId) (hseq : g.chainSeq = f.chainSeq)
    (hrequest : g.request = f.request) (hstatus : g.statusCode = f.statusCode)
    (houtcome : g.outcome = f.outcome) : g = f := by
  cases f
  cases g
  simp only [Fields.request, Fields.outcome, cons.injEq, and_true] at hrequest houtcome
  simp only [Fields.mk.injEq]
  exact ⟨htenant, hseq, hrequest.1, hrequest.2.1, hrequest.2.2.1, hrequest.2.2.2, hstatus,
    houtcome.1, houtcome.2.1, houtcome.2.2.1, houtcome.2.2.2.1, houtcome.2.2.2.2⟩

/-! ## Rows that are determined -/

/-- Another tenant id with the same text is not longer, for lack of pieces, nor shorter, since a
number would follow inside this one. -/
theorem Fields.Unshiftable.tenant_pieces (hf : f.Unshiftable) {front : List Bytes}
    {rest : List Bytes} (hfront : front ≠ []) (hrest : 10 ≤ rest.length)
    (h : front ++ formatInt n :: rest = f.tenantId.splitOn fieldSep ++ formatInt f.chainSeq ::
      (f.request ++ formatInt f.statusCode :: f.outcome)) :
    front.length = (f.tenantId.splitOn fieldSep).length := by
  have hlength := congrArg List.length h
  simp only [length_append, length_cons, Fields.request, Fields.outcome,
    length_nil] at hlength
  refine Nat.le_antisymm (by omega) (Nat.le_of_not_lt fun hlt => ?_)
  rcases append_eq_append_iff.mp h with ⟨mid, hmid, htail⟩ | ⟨mid, hmid, -⟩
  · cases mid with
    | nil =>
      rw [hmid, append_nil] at hlt
      exact Nat.lt_irrefl _ hlt
    | cons m mid =>
      obtain ⟨rfl, -⟩ := cons.inj htail
      refine hf.tenant (formatInt n) ?_ n rfl
      obtain ⟨p, front, rfl⟩ := exists_cons_of_ne_nil hfront
      rw [hmid, cons_append, tail_cons]
      exact mem_append_right _ mem_cons_self
  · rw [hmid, length_append] at hlt
    omega

/-- A row that cannot be shifted is read back from its text. -/
theorem Fields.Unshiftable.determined (hf : f.Unshiftable) (h : canonical g = canonical f) :
    g = f := by
  have hfree := forall_mem_append.mp hf.texts
  have hpieces := congrArg (List.splitOn fieldSep) h
  rw [splitOn_canonical, splitOn_canonical, flatMap_splitOn_of_free hfree.1,
    flatMap_splitOn_of_free hfree.2] at hpieces
  have hpieces := (cons.inj hpieces).2
  have hrequest := length_le_flatMap_splitOn fieldSep g.request
  have houtcome := length_le_flatMap_splitOn fieldSep g.outcome
  have hg : g.request.length = 4 ∧ g.outcome.length = 5 := ⟨rfl, rfl⟩
  have htenant := hf.tenant_pieces (splitOn_ne_nil fieldSep g.tenantId)
    (by rw [length_append, length_cons]; omega) hpieces
  obtain ⟨htenant, hrest⟩ := append_inj hpieces htenant
  obtain ⟨hseq, hrest⟩ := cons.inj hrest
  have hlength := congrArg List.length hrest
  have hf' : f.request.length = 4 ∧ f.outcome.length = 5 := ⟨rfl, rfl⟩
  simp only [length_append, length_cons] at hlength
  obtain ⟨hreq, hrest⟩ := append_inj hrest (by omega)
  obtain ⟨hstatus, hout⟩ := cons.inj hrest
  refine Fields.eq_of_groups ?_ (formatInt_inj hseq) ?_ (formatInt_inj hstatus) ?_
  · have hg : [fieldSep].intercalate (g.tenantId.splitOn fieldSep) = g.tenantId :=
      intercalate_splitOn fieldSep
    rw [← hg, htenant, intercalate_splitOn]
  · rw [← hreq, flatMap_splitOn_eq_self (by omega)]
  · rw [← hout, flatMap_splitOn_eq_self (by omega)]

/-! ## Rows that can be shifted -/

/-- A separator in a request text lets the texts be cut elsewhere. -/
theorem exists_shift_request (h : ∃ text ∈ f.request, fieldSep ∈ text) :
    ∃ g, canonical g = canonical f ∧ g ≠ f := by
  obtain ⟨ls, hlen, hne, htext⟩ := exists_ne_intercalate (by simp [Fields.request]) h
  obtain ⟨a, b, c, d, rfl⟩ : ∃ a b c d, ls = [a, b, c, d] := length_eq_four.mp hlen
  refine ⟨{ f with apiKeyId := a, eventType := b, path := c, method := d }, ?_, ?_⟩
  · exact intercalate_congr [ascii "v1", f.tenantId, formatInt f.chainSeq]
      (formatInt f.statusCode :: f.outcome) (cons_ne_nil _ _) (cons_ne_nil _ _) htext
  · intro hg
    exact hne (congrArg Fields.request hg)

/-- A separator in an outcome text lets the texts be cut elsewhere. -/
theorem exists_shift_outcome (h : ∃ text ∈ f.outcome, fieldSep ∈ text) :
    ∃ g, canonical g = canonical f ∧ g ≠ f := by
  obtain ⟨ls, hlen, hne, htext⟩ := exists_ne_intercalate (by simp [Fields.outcome]) h
  obtain ⟨a, b, c, d, e, rfl⟩ : ∃ a b c d e, ls = [a, b, c, d, e] := by
    obtain ⟨a, ls, rfl⟩ := exists_cons_of_length_eq_add_one hlen
    obtain ⟨b, c, d, e, rfl⟩ := length_eq_four.mp (Nat.succ.inj hlen)
    exact ⟨a, b, c, d, e, rfl⟩
  refine ⟨{ f with
    requestBody := a, responseBody := b, ipAddress := c, userAgent := d, createdAt := e }, ?_, ?_⟩
  · have hcongr := intercalate_congr (ascii "v1" :: f.tenantId :: formatInt f.chainSeq ::
      (f.request ++ [formatInt f.statusCode])) [] (cons_ne_nil _ _) (cons_ne_nil _ _) htext
    simpa [canonical_eq, Fields.request, Fields.outcome] using hcongr
  · intro hg
    exact hne (congrArg Fields.outcome hg)

/-- A number inside the tenant id can be read as `chain_seq`. -/
theorem exists_shift_tenant (h : formatInt n ∈ (f.tenantId.splitOn fieldSep).tail) :
    ∃ g, canonical g = canonical f ∧ g ≠ f := by
  obtain ⟨p, ps, hsplit⟩ := exists_cons_of_ne_nil (splitOn_ne_nil fieldSep f.tenantId)
  have htenant : [fieldSep].intercalate (f.tenantId.splitOn fieldSep) = f.tenantId :=
    intercalate_splitOn fieldSep
  rw [hsplit] at h htenant
  rw [tail_cons] at h
  obtain ⟨front, back, rfl⟩ := append_of_mem h
  let key := back ++ [formatInt f.chainSeq, f.apiKeyId]
  let rest := [f.eventType, f.path, f.method] ++ formatInt f.statusCode :: f.outcome
  refine ⟨{ f with
    tenantId := [fieldSep].intercalate (p :: front)
    chainSeq := n
    apiKeyId := [fieldSep].intercalate key }, ?_, ?_⟩
  · -- both texts join the same pieces
    have hf := intercalate_flatten fieldSep [ascii "v1"] (formatInt f.chainSeq :: f.apiKeyId ::
        rest)
      (cons_ne_nil p (front ++ formatInt n :: back))
    have hg := intercalate_flatten fieldSep [ascii "v1"]
      (formatInt n :: [fieldSep].intercalate key :: rest) (cons_ne_nil p front)
    have hkey := intercalate_flatten fieldSep (ascii "v1" :: p :: front ++ [formatInt n]) rest
      (show key ≠ [] by simp [key])
    rw [htenant] at hf
    refine hg.trans (Eq.trans ?_ hf.symm)
    simpa [key] using hkey
  · intro hg
    have hlength := congrArg (fun g : Fields => g.tenantId.length) hg
    dsimp only at hlength
    rw [← htenant, ← cons_append,
      intercalate_append fieldSep (cons_ne_nil p front) (cons_ne_nil _ _),
      length_append, length_cons] at hlength
    omega

/-- **A row is the only one with its canonical text** exactly when no value can shift. -/
theorem canonical_determines_iff (f : Fields) :
    (∀ g, canonical g = canonical f → g = f) ↔ f.Unshiftable := by
  constructor
  · intro h
    have hno : ¬ ∃ g, canonical g = canonical f ∧ g ≠ f := fun ⟨g, hg, hne⟩ => hne (h g hg)
    refine ⟨forall_mem_append.mpr ⟨fun text ht hsep => ?_, fun text ht hsep => ?_⟩,
      fun piece hpiece n hn => ?_⟩
    · exact hno (exists_shift_request ⟨text, ht, hsep⟩)
    · exact hno (exists_shift_outcome ⟨text, ht, hsep⟩)
    · exact hno (exists_shift_tenant (hn ▸ hpiece))
  · intro hf g hg
    exact hf.determined hg

def requestFields (chainSeq : Int64) (path method : Bytes) : Fields where
  tenantId := ascii "00000000-0000-0000-0000-000000000000"
  chainSeq := chainSeq
  apiKeyId := []
  eventType := ascii "api_request"
  path := path
  method := method
  statusCode := 200
  requestBody := []
  responseBody := []
  ipAddress := ascii "10.0.0.7"
  userAgent := ascii "curl/8.5.0"
  createdAt := ascii "2026-01-02T03:04:05.000006Z"

/-- The last word of a path moves into the method and the text stays. -/
theorem canonical_path_method_shift :
    canonical (requestFields 1 (ascii "/v1/memories\x1fPOST") (ascii "GET")) =
      canonical (requestFields 1 (ascii "/v1/memories") (ascii "POST\x1fGET")) ∧
    requestFields 1 (ascii "/v1/memories\x1fPOST") (ascii "GET") ≠
      requestFields 1 (ascii "/v1/memories") (ascii "POST\x1fGET") := by
  decide

end Pcmi.Audit
