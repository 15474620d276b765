import Pcmi.Audit.ExportRoundTrip

/-!
# What a valid export binds

The signature covers the fields of the trailer and, through the content digest, the entry lines. The
tenant and the anchor of the trailer are signed, but nothing compares them with the entries.
-/

namespace Pcmi.Audit

open List Pcmi.Lib Pcmi.Go Option

variable {sum : Bytes → Bytes} {hmac : Bytes → Bytes → Bytes} {d : Decoder}

/-! ## The trailer and the entries -/

/-- What a trailer says about the entries in front of it. -/
structure Trailer.Describes (t : Trailer) (es : List Record) : Prop where
  tenantId : ∀ e ∈ es, t.tenantId = e.tenantId
  anchorPrevHash : ∀ e ∈ es.head?, t.anchorPrevHash = e.prevHash
  firstSeq : ∀ e ∈ es.head?, t.firstSeq = e.chainSeq
  lastSeq : ∀ e ∈ es.getLast?, t.lastSeq = e.chainSeq
  count : t.count = es.length
  headHash : ∀ e ∈ es.getLast?, t.headHash = e.rowHash

/-- **The trailer of a valid export describes its entries** exactly when its tenant and anchor are
those of the first entry. -/
theorem trailer_describes_iff {text signingKey : Bytes} {c : ExportCheck} {t : Trailer}
    {e : Record} {es : List Record}
    (h : verifyExport sum d hmac text signingKey = (c, none)) (hvalid : c.valid = true)
    (ht : c.trailer = some t) (hes : d.entriesOf text = e :: es) :
    t.Describes (e :: es) ↔ t.tenantId = e.tenantId ∧ t.anchorPrevHash = e.prevHash ∧
      (e.tenantId = [] → ∀ r ∈ es, r.tenantId = []) := by
  obtain ⟨t', ht', -, hsealed⟩ := verifyExport_valid h hvalid
  obtain rfl : t' = t := Option.some.inj (ht'.symm.trans ht)
  rw [hes, verifierOf, addEntries_cons, getD_some] at hsealed
  have hchain := valid_addAll_iff.mp hsealed.chain
  have htracks := hchain.tracks
  constructor
  · intro hd
    have htenant := hd.tenantId e mem_cons_self
    refine ⟨htenant, hd.anchorPrevHash e rfl, fun hempty r hr => ?_⟩
    rw [← hd.tenantId r (mem_cons_of_mem _ hr), htenant, hempty]
  · rintro ⟨htenant, hanchor, hempty⟩
    refine ⟨?_, ?_, ?_, ?_, hsealed.count, ?_⟩
    · intro r hr
      rw [htenant]
      by_cases he : e.tenantId = []
      · rcases mem_cons.mp hr with rfl | hr
        · rfl
        · rw [he, hempty he r hr]
      · exact (hchain.tenant he r hr).symm
    · rintro r ⟨⟩
      exact hanchor
    · rintro r ⟨⟩
      have hfirst :=
        hsealed.firstSeq.resolve_left (cons_ne_nil e es ∘ length_eq_zero_iff.mp)
      exact hfirst.trans htracks.firstSeq
    · intro r hr
      rw [hsealed.lastSeq, Verifier.headSeq, htracks.lastSeq, mem_def.mp hr]
      rfl
    · intro r hr
      rw [hsealed.headHash, Verifier.headHash, htracks.lastHash, mem_def.mp hr]
      rfl

variable {t t₀ : Trailer}

/-- Without a key, a trailer stays sealed with another tenant and anchor. -/
theorem Sealed.replace {entries : Nat} {content signingKey : Bytes} {v : Verifier}
    (h : Sealed sum hmac entries content v t signingKey) (tenantId anchorPrevHash : Bytes) :
    Sealed sum hmac entries content v
      { t with tenantId := tenantId, anchorPrevHash := anchorPrevHash, signature := [] } [] :=
  ⟨h.chain, h.content, h.algorithm, h.count, h.lastSeq, h.headHash, h.chainValid, h.firstSeq,
    .inl rfl⟩

theorem sealed_sample (key : Bytes) (hkey : key = [] ∨ key = sampleKey) :
    Sealed exportSum exportHmac 1 (contentOf sampleRows)
      (verifierOf exportSum sampleTrailer sampleRows) sampleTrailer key :=
  sealed_close validChain_sample (forall_mem_singleton.mpr rfl) close_sample hkey

theorem sampleTrailer_describes : sampleTrailer.Describes [secondRecord] := by
  have hd := lineDecoder_roundTrips secondRecord (t := sampleTrailer) rfl
  exact (trailer_describes_iff (verifyExport_exportText hd rfl scannable_sample sampleKey)
    (checkTrailer_valid_iff.mpr (sealed_sample sampleKey (.inr rfl))) rfl
    (entriesOf_exportText hd rfl scannable_sample)).mpr ⟨rfl, rfl, fun _ => nofun⟩

/-- A trailer for the same row that names another tenant and another anchor. -/
def foreignTrailer : Trailer :=
  { sampleTrailer with
    tenantId := ascii "11111111-1111-1111-1111-111111111111"
    anchorPrevHash := genesisHash
    signature := [] }

theorem scannable_foreign : Scannable sampleRows foreignTrailer := by
  unfold Scannable foreignTrailer sampleRows sampleTrailer secondRecord firstRecord
  repeat rw [ascii_ofList]
  decide +kernel

/-- A valid export with the tenant and the anchor of another chain. -/
theorem foreignTrailer_valid :
    ∃ c, verifyExport exportSum (lineDecoder secondRecord foreignTrailer) exportHmac
        (exportText sampleRows foreignTrailer) [] = (c, none) ∧ c.valid = true ∧
      c.trailer = some foreignTrailer ∧
      (lineDecoder secondRecord foreignTrailer).entriesOf (exportText sampleRows foreignTrailer) =
        [secondRecord] ∧
      ¬ foreignTrailer.Describes [secondRecord] := by
  have hd := lineDecoder_roundTrips secondRecord (t := foreignTrailer) rfl
  refine ⟨_, verifyExport_exportText hd rfl scannable_foreign [], checkTrailer_valid_iff.mpr ?_,
    rfl,
    entriesOf_exportText hd rfl scannable_foreign, fun h => ?_⟩
  · rw [verifierOf, addEntries_cons, getD_some]
    exact (sealed_sample [] (.inl rfl)).replace _ _
  · exact absurd (h.tenantId secondRecord mem_cons_self) (by decide)

/-! ## The signature and the lines -/

/-- No signed string has a newline. -/
def Trailer.OneLine (t : Trailer) : Prop :=
  ∀ s ∈ [t.algorithm, t.tenantId, t.anchorPrevHash, t.headHash, t.contentSha256, t.exportedAt],
    (0x0A : UInt8) ∉ s

theorem Trailer.OneLine.signedTexts {t : Trailer} (h : t.OneLine) :
    ∀ s ∈ t.signedTexts, (0x0A : UInt8) ∉ s := by
  simp only [Trailer.OneLine, forall_mem_cons] at h
  obtain ⟨halg, htenant, hanchor, hhead, hcontent, hat, -⟩ := h
  have hint (x : Int64) : (0x0A : UInt8) ∉ formatInt x :=
    newline_not_mem_of_printable (printable_formatInt x)
  have hbool (v : Bool) : (0x0A : UInt8) ∉ formatBool v :=
    newline_not_mem_of_printable (printable_formatBool v)
  simp only [Trailer.signedTexts, forall_mem_cons]
  exact ⟨halg, htenant, newline_not_mem_of_printable (printable_formatInteger _), hint _, hint _,
    hanchor, hhead, hbool _, hbool _, hint _, hcontent, hat, nofun⟩

theorem signedTexts_inj (h : t.signedTexts = t₀.signedTexts) (hsig : t.signature = t₀.signature) :
    t = { t₀ with type := t.type } := by
  simp only [Trailer.signedTexts, cons.injEq, and_true] at h
  obtain ⟨halg, htenant, hcount, hfirst, hlast, hanchor, hhead, hvalid, hcomplete, hnext, hcontent,
    hat⟩ := h
  have hcount := formatInteger_inj hcount
  have hfirst := formatInt_inj hfirst
  have hlast := formatInt_inj hlast
  have hvalid := formatBool_inj hvalid
  have hcomplete := formatBool_inj hcomplete
  have hnext := formatInt_inj hnext
  cases t
  cases t₀
  simp_all

/-- A trailer with the signature of another has its signed fields. -/
theorem eq_of_signature {key : Bytes} (hkey : key ≠ []) (hhmac : Function.Injective (hmac key))
    (hfree : t₀.OneLine)
    (hsigned : t₀.signature = signaturePrefix ++ encodeToString (t₀.mac hmac key))
    (hsig : t.signature = t₀.signature) (hverify : t.verifySignature hmac key = true) :
    t = { t₀ with type := t.type } := by
  rw [Trailer.verifySignature_eq hkey (hsig.trans hsigned), beq_iff_eq] at hverify
  have hpayload : t.signingPayload = t₀.signingPayload := hhmac hverify.symm
  exact signedTexts_inj (intercalate_inj hfree.signedTexts rfl hpayload) hsig

theorem newline_not_mem_scanPieces {pieces : List Bytes}
    (h : ∀ piece ∈ pieces, (0x0A : UInt8) ∉ piece) :
    ∀ line ∈ (scanPieces pieces).1, (0x0A : UInt8) ∉ line := by
  fun_induction scanPieces pieces with
  | case1 => nofun
  | case2 => nofun
  | case3 => nofun
  | case4 piece rest _ _ ih =>
    rw [forall_mem_cons] at h ⊢
    refine ⟨?_, ih h.2⟩
    unfold dropCR
    split
    · exact fun hmem => h.1 (mem_of_mem_dropLast hmem)
    · exact h.1

theorem newline_not_mem_entryLines {text line : Bytes}
    (h : line ∈ d.entryLines (scanLines text).1) : (0x0A : UInt8) ∉ line :=
  newline_not_mem_scanPieces (fun _ => not_mem_of_mem_splitOn) line (mem_of_mem_filter h)

/-- **A signature binds an export**: trailer, but for the type, and entry lines. -/
theorem signature_binds_export (hsum : Function.Injective sum)
    {tenantId exportedAt out text key : Bytes} {rs : List Record} {complete : Bool}
    {nextFromSeq : Int64} {t₀ t : Trailer} {c : ExportCheck}
    (hkey : key ≠ []) (hhmac : Function.Injective (hmac key))
    (hclose : ((newWriter tenantId).writeAll sum rs).close sum hmac exportedAt complete nextFromSeq
      key = (t₀, out))
    (hfree : t₀.OneLine)
    (h : verifyExport sum d hmac text key = (c, none)) (hvalid : c.valid = true)
    (ht : c.trailer = some t) (hsig : t.signature = t₀.signature) :
    t = { t₀ with type := t.type } ∧
      d.entryLines (scanLines text).1 = rs.map marshalEntry := by
  obtain ⟨-, ht₀, hsigned⟩ := close_writeAll hclose
  obtain ⟨t', ht', -, hsealed⟩ := verifyExport_valid h hvalid
  obtain rfl : t' = t := Option.some.inj (ht'.symm.trans ht)
  have heq := eq_of_signature hkey hhmac hfree (hsigned hkey) hsig
    (hsealed.signature.resolve_left hkey)
  refine ⟨heq, ?_⟩
  -- the digest in the trailer is that of the lines on both sides
  have hdigest : encodeToString (sum ((d.entryLines (scanLines text).1).flatMap (· ++ [0x0A]))) =
      encodeToString (sum (contentOf rs)) := by
    rw [hsealed.content, heq, ht₀]
  refine flatMap_append_inj (fun _ => newline_not_mem_entryLines) ?_
    (hsum (encodeToString_inj hdigest))
  intro line hline
  obtain ⟨r, -, rfl⟩ := mem_map.mp hline
  exact newline_not_mem_of_printable (printable_marshalEntry r)

theorem exportSum_injective : Function.Injective exportSum := by
  refine knownSum_injective ?_ (by decide +kernel)
  simp only [forall_mem_cons, not_mem_nil, false_implies, implies_true, and_true]
  decide +kernel

theorem exportHmac_injective (key : Bytes) : Function.Injective (exportHmac key) :=
  knownSum_injective (forall_mem_singleton.mpr (by decide +kernel)) (nodup_singleton _)

theorem oneLine_sample : sampleTrailer.OneLine := by
  unfold Trailer.OneLine
  decide +kernel

/-- A stream with the signature of the export above holds its line. -/
theorem signature_binds_sample :
    (lineDecoder secondRecord sampleTrailer).entryLines
      (scanLines (exportText sampleRows sampleTrailer)).1 = sampleRows.map marshalEntry := by
  have hd := lineDecoder_roundTrips secondRecord (t := sampleTrailer) rfl
  exact (signature_binds_export exportSum_injective (by decide) (exportHmac_injective sampleKey)
    close_sample oneLine_sample (verifyExport_exportText hd rfl scannable_sample sampleKey)
    (checkTrailer_valid_iff.mpr (sealed_sample sampleKey (.inr rfl))) rfl rfl).2

end Pcmi.Audit
