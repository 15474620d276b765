import Pcmi.Audit.Export
import Pcmi.Audit.Binding

/-!
# Reading back what was written

The writer and `verifyExport` each keep a verifier, a content digest and a count, and run in step.
-/

namespace Pcmi.Audit

open List Pcmi.Lib Pcmi.Go

variable {sum : Bytes → Bytes} {hmac : Bytes → Bytes → Bytes} {d : Decoder}

/-! ## The lines of an export -/

def exportLines (rs : List Record) (t : Trailer) : List Bytes :=
  rs.map marshalEntry ++ [marshalTrailer t]

def exportText (rs : List Record) (t : Trailer) : Bytes :=
  contentOf rs ++ marshalTrailer t ++ [0x0A]

/-- No line is too long for the scanner. -/
def Scannable (rs : List Record) (t : Trailer) : Prop :=
  ∀ line ∈ exportLines rs t, line.length < maxLineBytes

/-- `json.Unmarshal` reads back what `json.Marshal` made. -/
structure Decoder.RoundTrips (d : Decoder) (rs : List Record) (t : Trailer) : Prop where
  entryHead : ∀ r ∈ rs, d.head (marshalEntry r) = .ok lineTypeEntry
  entry : ∀ r ∈ rs, d.entry (marshalEntry r) = .ok r
  trailerHead : d.head (marshalTrailer t) = .ok t.type
  trailer : d.trailer (marshalTrailer t) = .ok t

variable {rs : List Record} {t : Trailer}

theorem printable_of_mem_exportLines {line : Bytes} (h : line ∈ exportLines rs t) :
    Printable line := by
  rcases mem_append.mp h with h | h
  · obtain ⟨r, -, rfl⟩ := mem_map.mp h
    exact printable_marshalEntry r
  · rw [mem_singleton.mp h]
    exact printable_marshalTrailer t

variable {s out tenantId exportedAt signingKey : Bytes} {complete : Bool} {nextFromSeq : Int64}

theorem newline_not_mem_of_printable (h : Printable s) : (0x0A : UInt8) ∉ s :=
  fun hmem => absurd (h _ hmem) (by decide)

theorem dropCR_of_printable (h : Printable s) : dropCR s = s := by
  refine if_neg fun hlast => ?_
  exact absurd (h _ (mem_of_getLast? hlast)) (by decide)

theorem exportText_eq (rs : List Record) (t : Trailer) :
    exportText rs t = (exportLines rs t).flatMap (· ++ [0x0A]) := by
  rw [exportText, exportLines, flatMap_append, append_assoc]
  exact congrArg _ (append_nil _).symm

theorem scanPieces_snoc {lines : List Bytes} (hlen : ∀ line ∈ lines, line.length < maxLineBytes)
    (hprint : ∀ line ∈ lines, Printable line) : scanPieces (lines ++ [[]]) = (lines, false) := by
  induction lines with
  | nil => rfl
  | cons line lines ih =>
    rw [forall_mem_cons] at hlen hprint
    rw [cons_append, scanPieces, if_neg (Nat.not_le.mpr hlen.1), ih hlen.2 hprint.2,
      dropCR_of_printable hprint.1]
    · intro _ hrest
      exact append_ne_nil_of_right_ne_nil lines (cons_ne_nil _ _) hrest

theorem scanLines_exportText (h : Scannable rs t) :
    scanLines (exportText rs t) = (exportLines rs t, false) := by
  rw [scanLines, exportText_eq, splitOn_flatMap_append fun line hline =>
    newline_not_mem_of_printable (printable_of_mem_exportLines hline)]
  exact scanPieces_snoc h fun line hline => printable_of_mem_exportLines hline

/-! ## Reading the lines -/

theorem trimSpace_marshalEntry_ne_nil (r : Record) : trimSpace (marshalEntry r) ≠ [] := by
  rw [marshalEntry, trimSpace_marshalStruct]
  exact cons_ne_nil _ _

theorem trimSpace_marshalTrailer_ne_nil (t : Trailer) : trimSpace (marshalTrailer t) ≠ [] := by
  rw [marshalTrailer, trimSpace_marshalStruct]
  exact cons_ne_nil _ _

/-- **The loop over an export** ends behind the trailer. -/
theorem readLines_exportLines (hd : d.RoundTrips rs t) (htype : t.type = lineTypeTrailer)
    {s : Reading} (hs : s.trailer = none) :
    readLines sum d s (exportLines rs t) =
      ({ lineNo := s.lineNo + rs.length + 1
         entries := s.entries + rs.length
         content := s.content ++ contentOf rs
         v := addEntries sum s.v rs
         trailer := some t }, none) := by
  induction rs generalizing s with
  | nil =>
    have hline : readLine sum d s (marshalTrailer t) =
        .ok { s with lineNo := s.lineNo + 1, trailer := some t } := by
      unfold readLine
      dsimp only
      rw [if_neg (trimSpace_marshalTrailer_ne_nil t), if_neg (by simp [hs]), hd.trailerHead,
        htype, hd.trailer]
      rfl
    rw [exportLines, map_nil, nil_append, readLines, hline]
    simp [readLines, contentOf, addEntries]
  | cons r rs ih =>
    have hline : readLine sum d s (marshalEntry r) =
        .ok
          { s with
            lineNo := s.lineNo + 1
            entries := s.entries + 1
            content := s.content ++ marshalEntry r ++ [0x0A]
            v := some ((s.v.getD (newVerifier r.tenantId)).add sum r) } := by
      unfold readLine
      dsimp only
      rw [if_neg (trimSpace_marshalEntry_ne_nil r), if_neg (by simp [hs]),
        hd.entryHead r mem_cons_self, hd.entry r mem_cons_self]
      rfl
    have hrest : d.RoundTrips rs t :=
      ⟨fun r hr => hd.entryHead r (mem_cons_of_mem _ hr),
        fun r hr => hd.entry r (mem_cons_of_mem _ hr), hd.trailerHead, hd.trailer⟩
    rw [exportLines, map_cons, cons_append, readLines, hline]
    dsimp only
    rw [← exportLines, ih hrest]
    · simp only [contentOf, addEntries, map_cons, flatMap_cons, length_cons,
        append_assoc, Nat.add_assoc, Nat.add_comm 1]
    · exact hs

/-- **An export is read as its records and its trailer.** -/
theorem verifyExport_exportText (hd : d.RoundTrips rs t) (htype : t.type = lineTypeTrailer)
    (hscan : Scannable rs t) (signingKey : Bytes) :
    verifyExport sum d hmac (exportText rs t) signingKey =
      (checkTrailer sum hmac rs.length (contentOf rs) (verifierOf sum t rs) t signingKey,
        none) := by
  rw [verifyExport, scanLines_exportText hscan, readLines_exportLines hd htype rfl]
  simp [verifierOf]

theorem entriesOf_exportText (hd : d.RoundTrips rs t) (htype : t.type = lineTypeTrailer)
    (hscan : Scannable rs t) : d.entriesOf (exportText rs t) = rs := by
  rw [Decoder.entriesOf, scanLines_exportText hscan]
  obtain ⟨hentryHead, hentry, htrailerHead, -⟩ := hd
  clear hscan
  induction rs with
  | nil =>
    rw [exportLines, map_nil, nil_append, entryLines_cons_trailer (htype ▸ htrailerHead)]
    rfl
  | cons r rs ih =>
    rw [forall_mem_cons] at hentryHead hentry
    rw [exportLines, map_cons, cons_append,
      entryLines_cons_entry (trimSpace_marshalEntry_ne_nil r) hentryHead.1, Decoder.records,
      filterMap_cons_some (by rw [hentry.1]; rfl)]
    exact congrArg _ (ih hentryHead.2 hentry.2)

/-! ## Closing -/

theorem close_writeAll
    (h : ((newWriter tenantId).writeAll sum rs).close sum hmac exportedAt complete nextFromSeq signingKey = (t, out)) :
    out = exportText rs t ∧ t =
      { type := lineTypeTrailer
        algorithm := algorithm
        tenantId := tenantId
        count := rs.length
        firstSeq := (rs.head?.map fun r => r.chainSeq).getD 0
        lastSeq := ((newVerifier tenantId).addAll sum rs).headSeq
        anchorPrevHash := (rs.head?.map fun r => r.prevHash).getD []
        headHash := ((newVerifier tenantId).addAll sum rs).headHash
        chainValid := ((newVerifier tenantId).addAll sum rs).valid
        complete := complete
        nextFromSeq := if complete then 0 else nextFromSeq
        contentSha256 := encodeToString (sum (contentOf rs))
        exportedAt := exportedAt
        signature := t.signature } ∧
      (signingKey ≠ [] → t.signature =
        signaturePrefix ++ encodeToString (t.mac hmac signingKey)) := by
  rw [writeAll_eq] at h
  obtain ⟨ht, hout⟩ := Prod.mk.inj h
  subst ht
  refine ⟨hout.symm, ?_, Trailer.signature_sign⟩
  unfold Trailer.sign
  split <;> rfl

/-- The verifier that reads one tenant's entries is the one that wrote them. -/
theorem verifierOf_eq (h : ∀ r ∈ rs, r.tenantId = t.tenantId) :
    verifierOf sum t rs = (newVerifier t.tenantId).addAll sum rs := by
  cases rs with
  | nil => rfl
  | cons r rs =>
    rw [verifierOf, addEntries_cons, Option.getD_some, h r mem_cons_self]

/-- **What a writer makes of a valid chain is sealed.** -/
theorem sealed_close {key : Bytes} (hchain : ValidChain sum tenantId rs)
    (htenant : ∀ r ∈ rs, r.tenantId = tenantId)
    (hclose : ((newWriter tenantId).writeAll sum rs).close sum hmac exportedAt complete nextFromSeq signingKey = (t, out))
    (hkey : key = [] ∨ key = signingKey) :
    Sealed sum hmac rs.length (contentOf rs) (verifierOf sum t rs) t key := by
  obtain ⟨-, ht, hsig⟩ := close_writeAll hclose
  have htenantId : t.tenantId = tenantId := by rw [ht]
  rw [verifierOf_eq (htenantId.symm ▸ htenant), htenantId]
  exact
    { chain := valid_addAll_iff.mpr hchain
      content := by rw [ht]
      algorithm := by rw [ht]
      count := by rw [ht]
      lastSeq := by rw [ht]
      headHash := by rw [ht]
      chainValid := by rw [ht]
      firstSeq := by
        rw [ht]
        exact .inr hchain.tracks.firstSeq.symm
      signature := by
        refine or_iff_not_imp_left.mpr fun hne => ?_
        obtain rfl := hkey.resolve_left hne
        rw [Trailer.verifySignature_eq hne (hsig hne)]
        exact beq_self_eq_true _ }

/-- **Export round trip**: what a writer makes of a valid chain verifies. -/
theorem verifyExport_close {tenantId exportedAt out signingKey key : Bytes} {rs : List Record}
    {complete : Bool} {nextFromSeq : Int64} {t : Trailer}
    (hchain : ValidChain sum tenantId rs) (htenant : ∀ r ∈ rs, r.tenantId = tenantId)
    (hclose : ((newWriter tenantId).writeAll sum rs).close sum hmac exportedAt complete nextFromSeq
      signingKey = (t, out))
    (hd : d.RoundTrips rs t) (hscan : Scannable rs t) (hkey : key = [] ∨ key = signingKey) :
    ∃ c, verifyExport sum d hmac out key = (c, none) ∧ c.valid = true ∧
      c.entries = rs.length ∧ c.trailer = some t ∧ t.count = rs.length ∧
      t.lastSeq = (rs.getLast?.map fun r => r.chainSeq).getD 0 ∧
      t.headHash = (rs.getLast?.map fun r => r.rowHash).getD [] ∧
      (key ≠ [] → c.signatureOk = true) := by
  have hsealed := sealed_close hchain htenant hclose hkey
  obtain ⟨hout, ht, -⟩ := close_writeAll hclose
  rw [hout, verifyExport_exportText hd (by rw [ht]) hscan]
  refine ⟨_, rfl, checkTrailer_valid_iff.mpr hsealed, rfl, rfl, hsealed.count, ?_, ?_, ?_⟩
  · rw [ht]
    exact hchain.tracks.lastSeq
  · rw [ht]
    exact hchain.tracks.lastHash
  · intro hne
    simp [checkTrailer, hne, hsealed.signature.resolve_left hne]

/-! ## An export with its real digests -/

def sampleRows : List Record := [secondRecord]

def sampleTrailer : Trailer where
  type := lineTypeTrailer
  algorithm := algorithm
  tenantId := ascii "00000000-0000-0000-0000-000000000000"
  count := 1
  firstSeq := 2
  lastSeq := 2
  anchorPrevHash := firstRecord.rowHash
  headHash := secondRecord.rowHash
  chainValid := true
  complete := false
  nextFromSeq := 3
  contentSha256 := ascii "0608c2d053c4d4b4b844600a46de8f1eb40f2471c750f329727455faeb1fa76f"
  exportedAt := ascii "2026-02-03T04:05:06Z"
  signature := signaturePrefix ++
    ascii "ea689eb329aa6fec2e103c49c2fb0dff2f64c3e83e2813a5a1e54b710800fd16"

def sampleKey : Bytes := ascii "export-signing-key"

def exportSum : Bytes → Bytes :=
  knownSum [secondRecord.known,
    (contentOf sampleRows, (decodeString sampleTrailer.contentSha256).getD [])]

def exportHmac (_key : Bytes) : Bytes → Bytes :=
  knownSum [(sampleTrailer.signingPayload,
    (decodeString (sampleTrailer.signature.drop signaturePrefix.length)).getD [])]

def lineDecoder (r : Record) (t : Trailer) : Decoder where
  head raw :=
    if raw = marshalTrailer t then .ok t.type
    else if raw = marshalEntry r then .ok lineTypeEntry
    else .error (ascii "unexpected end of JSON input")
  entry raw :=
    if raw = marshalEntry r then .ok r else .error (ascii "unexpected end of JSON input")
  trailer raw :=
    if raw = marshalTrailer t then .ok t else .error (ascii "unexpected end of JSON input")

theorem marshalEntry_ne_marshalTrailer (r : Record) (h : t.type = lineTypeTrailer) :
    marshalEntry r ≠ marshalTrailer t := by
  have hentry : (marshalEntry r).take 10 = ascii "\x7b\"type\":\"e" := rfl
  have htrailer : (marshalTrailer t).take 10 = ascii "\x7b\"type\":\"t" := by
    rw [marshalTrailer, h]
    rfl
  intro heq
  rw [heq, htrailer] at hentry
  exact absurd hentry (by decide)

theorem lineDecoder_roundTrips (r : Record) (h : t.type = lineTypeTrailer) :
    (lineDecoder r t).RoundTrips [r] t where
  entryHead := forall_mem_singleton.mpr
    ((if_neg (marshalEntry_ne_marshalTrailer r h)).trans (if_pos rfl))
  entry := forall_mem_singleton.mpr (if_pos rfl)
  trailerHead := if_pos rfl
  trailer := if_pos rfl

theorem scannable_sample : Scannable sampleRows sampleTrailer := by
  unfold Scannable sampleRows sampleTrailer secondRecord firstRecord
  repeat rw [ascii_ofList]
  decide +kernel

theorem close_sample :
    ((newWriter sampleTrailer.tenantId).writeAll exportSum sampleRows).close exportSum exportHmac
      sampleTrailer.exportedAt false 3 sampleKey =
      (sampleTrailer, exportText sampleRows sampleTrailer) := by
  have ht : (((newWriter sampleTrailer.tenantId).writeAll exportSum sampleRows).close exportSum
      exportHmac sampleTrailer.exportedAt false 3 sampleKey).1 = sampleTrailer := by
    decide +kernel
  rw [← ht]
  exact Prod.ext rfl (close_writeAll rfl).1

theorem validChain_sample : ValidChain exportSum sampleTrailer.tenantId sampleRows :=
  valid_addAll_iff.mp (by decide +kernel)

theorem verifyExport_close_sample :
    ∃ c, verifyExport exportSum (lineDecoder secondRecord sampleTrailer) exportHmac
        (exportText sampleRows sampleTrailer) sampleKey = (c, none) ∧ c.valid = true ∧
      c.entries = 1 ∧ c.trailer = some sampleTrailer ∧ sampleTrailer.count = 1 ∧
      sampleTrailer.lastSeq = 2 ∧ sampleTrailer.headHash = secondRecord.rowHash ∧
      (sampleKey ≠ [] → c.signatureOk = true) :=
  verifyExport_close validChain_sample (forall_mem_singleton.mpr rfl) close_sample
    (lineDecoder_roundTrips secondRecord rfl) scannable_sample (.inr rfl)

end Pcmi.Audit
