import Pcmi.Audit.Chain
import Pcmi.Go.Json

/-!
# Audit exports (`internal/auditchain/export.go`)

An export is one JSON line for each record and a trailer line that seals them. SHA-256, HMAC-SHA-256
and what `encoding/json` reads from a line (`Decoder`) are parameters; what it writes is spelled
out.
-/

namespace Pcmi.Audit

open List Pcmi.Go

/-! ## The trailer -/

def lineTypeEntry : Bytes := ascii "entry"

def lineTypeTrailer : Bytes := ascii "trailer"

def signaturePrefix : Bytes := ascii "hmac-sha256="

structure Trailer where
  type : Bytes
  algorithm : Bytes
  tenantId : Bytes
  count : Int
  firstSeq : Int64
  lastSeq : Int64
  anchorPrevHash : Bytes
  headHash : Bytes
  chainValid : Bool
  complete : Bool
  nextFromSeq : Int64
  contentSha256 : Bytes
  exportedAt : Bytes
  signature : Bytes
  deriving DecidableEq

/-- The texts that `signingPayload` joins. -/
def Trailer.signedTexts (t : Trailer) : List Bytes :=
  [t.algorithm, t.tenantId, formatInteger t.count, formatInt t.firstSeq, formatInt t.lastSeq,
    t.anchorPrevHash, t.headHash, formatBool t.chainValid, formatBool t.complete,
    formatInt t.nextFromSeq, t.contentSha256, t.exportedAt]

def Trailer.signingPayload (t : Trailer) : Bytes := join t.signedTexts [0x0A]

section

variable (hmac : Bytes → Bytes → Bytes)

def Trailer.mac (t : Trailer) (key : Bytes) : Bytes := hmac key t.signingPayload

def Trailer.sign (t : Trailer) (key : Bytes) : Trailer :=
  if key = [] then { t with signature := [] }
  else { t with signature := signaturePrefix ++ encodeToString (t.mac hmac key) }

def Trailer.verifySignature (t : Trailer) (key : Bytes) : Bool :=
  if key = [] ∨ ¬ signaturePrefix.isPrefixOf t.signature then false
  else
    match decodeString (t.signature.drop signaturePrefix.length) with
    | none => false
    | some got => got == t.mac hmac key

end

section

variable {hmac : Bytes → Bytes → Bytes} {t : Trailer} {key : Bytes}

theorem Trailer.mac_sign : (t.sign hmac key).mac hmac key = t.mac hmac key := by
  unfold Trailer.sign
  split <;> rfl

theorem Trailer.signature_sign (hkey : key ≠ []) : (t.sign hmac key).signature =
    signaturePrefix ++ encodeToString ((t.sign hmac key).mac hmac key) := by
  rw [mac_sign, Trailer.sign, if_neg hkey]

/-- A signature with a digest is compared by that digest. -/
theorem Trailer.verifySignature_eq {digest : Bytes} (hkey : key ≠ [])
    (h : t.signature = signaturePrefix ++ encodeToString digest) :
    t.verifySignature hmac key = (digest == t.mac hmac key) := by
  have hsome : signaturePrefix.isPrefixOf t.signature = true := by
    rw [h]
    exact isPrefixOf_iff_prefix.mpr (prefix_append _ _)
  unfold Trailer.verifySignature
  rw [if_neg (by simp [hkey, hsome]), h, drop_left, decodeString_encodeToString]

end

/-! ## Lines -/

/-- `json.Marshal` of an `EntryLine`. -/
def marshalEntry (r : Record) : Bytes :=
  marshalStruct
    [(ascii "type", marshalString lineTypeEntry),
      (ascii "tenant_id", marshalString r.tenantId),
      (ascii "chain_seq", formatInt r.chainSeq),
      (ascii "api_key_id", marshalString r.apiKeyId),
      (ascii "event_type", marshalString r.eventType),
      (ascii "path", marshalString r.path),
      (ascii "method", marshalString r.method),
      (ascii "status_code", formatInt r.statusCode),
      (ascii "request_body", marshalString r.requestBody),
      (ascii "response_body", marshalString r.responseBody),
      (ascii "ip_address", marshalString r.ipAddress),
      (ascii "user_agent", marshalString r.userAgent),
      (ascii "created_at", marshalString r.createdAt),
      (ascii "id", formatInt r.id),
      (ascii "prev_hash", marshalString r.prevHash),
      (ascii "row_hash", marshalString r.rowHash)]

/-- `json.Marshal` of a `Trailer`; two fields are `omitempty`. -/
def marshalTrailer (t : Trailer) : Bytes :=
  marshalStruct
    ([(ascii "type", marshalString t.type),
      (ascii "algorithm", marshalString t.algorithm),
      (ascii "tenant_id", marshalString t.tenantId),
      (ascii "count", formatInteger t.count),
      (ascii "first_seq", formatInt t.firstSeq),
      (ascii "last_seq", formatInt t.lastSeq),
      (ascii "anchor_prev_hash", marshalString t.anchorPrevHash),
      (ascii "head_hash", marshalString t.headHash),
      (ascii "chain_valid", formatBool t.chainValid),
      (ascii "complete", formatBool t.complete)] ++
    (if t.nextFromSeq = 0 then [] else [(ascii "next_from_seq", formatInt t.nextFromSeq)]) ++
    [(ascii "content_sha256", marshalString t.contentSha256),
      (ascii "exported_at", marshalString t.exportedAt)] ++
    (if t.signature = [] then [] else [(ascii "signature", marshalString t.signature)]))

/-- What `json.Unmarshal` makes of a line, or the text of its error. -/
structure Decoder where
  head : Bytes → Except Bytes Bytes
  entry : Bytes → Except Bytes Record
  trailer : Bytes → Except Bytes Trailer

theorem printable_marshalEntry (r : Record) : Printable (marshalEntry r) := by
  refine printable_marshalStruct ?_
  simp only [forall_mem_cons, printable_marshalString, printable_formatInt, true_and]
  exact nofun

theorem printable_marshalTrailer (t : Trailer) : Printable (marshalTrailer t) := by
  refine printable_marshalStruct ?_
  simp only [forall_mem_append, forall_mem_cons, printable_marshalString,
    printable_formatInteger, printable_formatInt, printable_formatBool, true_and,
    not_mem_nil, false_implies, implies_true]
  refine ⟨?_, ?_⟩ <;> split <;> simp [printable_formatInt, printable_marshalString]

/-! ## Writing -/

/-- `Writer`: what is written, digested and verified, and the trailer. -/
structure Writer where
  out : Bytes
  content : Bytes
  v : Verifier
  t : Trailer

def newWriter (tenantId : Bytes) : Writer where
  out := []
  content := []
  v := newVerifier tenantId
  t :=
    { type := lineTypeTrailer, algorithm := algorithm, tenantId := tenantId, count := 0,
      firstSeq := 0, lastSeq := 0, anchorPrevHash := [], headHash := [], chainValid := false,
      complete := false, nextFromSeq := 0, contentSha256 := [], exportedAt := [], signature := [] }

section

variable (sum : Bytes → Bytes) (hmac : Bytes → Bytes → Bytes)

def Writer.write (x : Writer) (r : Record) : Writer :=
  let line := marshalEntry r ++ [0x0A]
  let t := if x.t.count = 0 then
    { x.t with firstSeq := r.chainSeq, anchorPrevHash := r.prevHash } else x.t
  { out := x.out ++ line
    content := x.content ++ line
    v := x.v.add sum r
    t := { t with count := t.count + 1 } }

/-- `Writer.Close`: the trailer, and all that was written. -/
def Writer.close (x : Writer) (exportedAt : Bytes) (complete : Bool) (nextFromSeq : Int64)
    (signingKey : Bytes) : Trailer × Bytes :=
  let t := { x.t with
    lastSeq := x.v.headSeq
    headHash := x.v.headHash
    chainValid := x.v.valid
    complete := complete
    nextFromSeq := if complete then x.t.nextFromSeq else nextFromSeq
    contentSha256 := encodeToString (sum x.content)
    exportedAt := exportedAt }
  let t := t.sign hmac signingKey
  (t, x.out ++ marshalTrailer t ++ [0x0A])

def Writer.writeAll (x : Writer) (rs : List Record) : Writer := rs.foldl (Writer.write sum) x

end

/-! ## Reading -/

def maxLineBytes : Nat := 16 <<< 20

/-- `bufio.ScanLines` drops one carriage return. -/
def dropCR (line : Bytes) : Bytes := if line.getLast? = some 0x0D then line.dropLast else line

/-- The lines of `bufio.Scanner`, and whether one is too long. -/
def scanPieces : List Bytes → List Bytes × Bool
  | [] => ([], false)
  | [[]] => ([], false)
  | piece :: rest =>
    if maxLineBytes ≤ piece.length then ([], true)
    else (dropCR piece :: (scanPieces rest).1, (scanPieces rest).2)

/-- The lines of a text. No line stands behind the last newline. -/
def scanLines (text : Bytes) : List Bytes × Bool := scanPieces (text.splitOn 0x0A)

/-- The errors of `VerifyExport`. -/
inductive ExportError where
  | dataAfterTrailer (lineNo : Nat)
  | json (lineNo : Nat) (err : Bytes)
  | unknownType (lineNo : Nat) (type : Bytes)
  | tooLong
  | noTrailer
  deriving DecidableEq

structure ExportCheck where
  valid : Bool
  entries : Nat
  chainValid : Bool
  firstBreak : Option Break
  contentHashOk : Bool
  trailerMatches : Bool
  signatureChecked : Bool
  signatureOk : Bool
  trailer : Option Trailer
  problems : List Bytes
  deriving DecidableEq

/-- The variables of the loop. -/
structure Reading where
  lineNo : Nat
  entries : Nat
  content : Bytes
  v : Option Verifier
  trailer : Option Trailer

section

variable (sum : Bytes → Bytes) (d : Decoder)

/-- The body of the loop for one line. -/
def readLine (s : Reading) (raw : Bytes) : Except ExportError Reading :=
  let lineNo := s.lineNo + 1
  if trimSpace raw = [] then .ok { s with lineNo }
  else if s.trailer.isSome then .error (.dataAfterTrailer lineNo)
  else
    match d.head raw with
    | .error err => .error (.json lineNo err)
    | .ok type =>
      if type = lineTypeEntry then
        match d.entry raw with
        | .error err => .error (.json lineNo err)
        | .ok e =>
          -- the first entry names the tenant that the others are held to
          .ok
            { s with
              lineNo
              entries := s.entries + 1
              content := s.content ++ raw ++ [0x0A]
              v := some ((s.v.getD (newVerifier e.tenantId)).add sum e) }
      else if type = lineTypeTrailer then
        match d.trailer raw with
        | .error err => .error (.json lineNo err)
        | .ok t => .ok { s with lineNo, trailer := some t }
      else .error (.unknownType lineNo type)

/-- The loop, with the state it stopped in. -/
def readLines (s : Reading) : List Bytes → Reading × Option ExportError
  | [] => (s, none)
  | raw :: rest =>
    match readLine sum d s raw with
    | .error err => (s, some err)
    | .ok s' => readLines s' rest

def ExportCheck.ofEntries (entries : Nat) : ExportCheck :=
  ⟨false, entries, false, none, false, false, false, false, none, []⟩

variable (hmac : Bytes → Bytes → Bytes)

/-- The checks behind the loop. -/
def checkTrailer (entries : Nat) (content : Bytes) (v : Verifier) (trailer : Trailer)
    (signingKey : Bytes) : ExportCheck :=
  let chainValid := v.valid
  let contentHashOk := encodeToString (sum content) == trailer.contentSha256
  -- neither the trailer's tenant nor its anchor is compared with the entries
  let trailerMatches := trailer.algorithm == algorithm && trailer.count == (entries : Int) &&
    trailer.lastSeq == v.headSeq && trailer.headHash == v.headHash &&
    trailer.chainValid == v.valid && (entries == 0 || trailer.firstSeq == v.firstSeq)
  let signatureChecked := signingKey != []
  let signatureOk := signatureChecked && trailer.verifySignature hmac signingKey
  { valid := chainValid && contentHashOk && trailerMatches && (!signatureChecked || signatureOk)
    entries, chainValid
    firstBreak := v.firstBreak
    contentHashOk, trailerMatches, signatureChecked, signatureOk
    trailer := some trailer
    problems :=
      (match v.firstBreak with
        | some b => [ascii "chain: " ++ b.reason.text ++ ascii " at chain_seq " ++
            formatInt b.chainSeq]
        | none => []) ++
      (if contentHashOk then [] else [ascii "content_sha256 does not match entry lines"]) ++
      (if trailerMatches then [] else [ascii "trailer summary (algorithm/count/first_seq/last_seq/"
        ++ ascii "head_hash/chain_valid) does not match entries"]) ++
      (if signatureChecked && !signatureOk then
        [ascii "trailer signature missing or invalid for the supplied key"] else []) }

def verifyExport (text signingKey : Bytes) : ExportCheck × Option ExportError :=
  match readLines sum d ⟨0, 0, [], none, none⟩ (scanLines text).1 with
  | (s, some err) => (.ofEntries s.entries, some err)
  | (s, none) =>
    -- a line that is too long ends the loop; `sc.Err()` is looked at behind it
    if (scanLines text).2 then (.ofEntries s.entries, some .tooLong)
    else
      match s.trailer with
      | none => (.ofEntries s.entries, some .noTrailer)
      | some t =>
        (checkTrailer sum hmac s.entries s.content (s.v.getD (newVerifier t.tenantId)) t signingKey,
          none)

end

/-! ## What was written -/

section

variable {sum : Bytes → Bytes} {hmac : Bytes → Bytes → Bytes}

/-- The entry lines of records, each with its newline. -/
def contentOf (rs : List Record) : Bytes := (rs.map marshalEntry).flatMap (· ++ [0x0A])

theorem contentOf_snoc (rs : List Record) (r : Record) :
    contentOf (rs ++ [r]) = contentOf rs ++ (marshalEntry r ++ [0x0A]) := by
  rw [contentOf, map_append, flatMap_append]
  exact congrArg _ (append_nil _)

/-- **The writer after its records.** -/
theorem writeAll_eq (tenantId : Bytes) (rs : List Record) :
    (newWriter tenantId).writeAll sum rs =
      { out := contentOf rs
        content := contentOf rs
        v := (newVerifier tenantId).addAll sum rs
        t := { (newWriter tenantId).t with
          count := rs.length
          firstSeq := (rs.head?.map fun r => r.chainSeq).getD 0
          anchorPrevHash := (rs.head?.map fun r => r.prevHash).getD [] } } := by
  induction rs using List.reverseRecOn with
  | nil => rfl
  | append_singleton rs r ih =>
    rw [Writer.writeAll, foldl_append]
    rw [Writer.writeAll] at ih
    rw [ih, foldl_cons, foldl_nil, contentOf_snoc, addAll_snoc]
    cases rs with
    | nil => rfl
    | cons a rs =>
      have hcount : ((a :: rs).length : Int) ≠ 0 := by
        rw [length_cons]
        omega
      unfold Writer.write
      dsimp only
      rw [if_neg hcount]
      simp

end

/-! ## What was read -/

def Decoder.entryLines (d : Decoder) (lines : List Bytes) : List Bytes :=
  lines.filter fun raw => decide (trimSpace raw ≠ []) &&
    match d.head raw with
    | .ok type => decide (type = lineTypeEntry)
    | .error _ => false

def Decoder.records (d : Decoder) (raws : List Bytes) : List Record :=
  raws.filterMap fun raw => (d.entry raw).toOption

def Decoder.entriesOf (d : Decoder) (text : Bytes) : List Record :=
  d.records (d.entryLines (scanLines text).1)

section

variable {sum : Bytes → Bytes} {hmac : Bytes → Bytes → Bytes} {d : Decoder}

/-- The verifier after more entries; the first one gives it its tenant. -/
def addEntries (sum : Bytes → Bytes) : Option Verifier → List Record → Option Verifier
  | v, [] => v
  | v, e :: es => addEntries sum (some ((v.getD (newVerifier e.tenantId)).add sum e)) es

theorem addEntries_some (v : Verifier) (es : List Record) :
    addEntries sum (some v) es = some (v.addAll sum es) := by
  induction es generalizing v with
  | nil => rfl
  | cons e es ih => exact ih (v.add sum e)

theorem addEntries_cons (e : Record) (es : List Record) :
    addEntries sum none (e :: es) = some ((newVerifier e.tenantId).addAll sum (e :: es)) :=
  addEntries_some _ es

/-- What one line does to the loop. -/
inductive ReadsLine (sum : Bytes → Bytes) (d : Decoder) (s : Reading) (raw : Bytes) :
    Reading → Prop where
  | blank (h : trimSpace raw = []) : ReadsLine sum d s raw { s with lineNo := s.lineNo + 1 }
  | entry {e : Record} (h : trimSpace raw ≠ []) (hopen : s.trailer = none)
      (hhead : d.head raw = .ok lineTypeEntry) (hentry : d.entry raw = .ok e) :
      ReadsLine sum d s raw
        { s with
          lineNo := s.lineNo + 1
          entries := s.entries + 1
          content := s.content ++ raw ++ [0x0A]
          v := some ((s.v.getD (newVerifier e.tenantId)).add sum e) }
  | trailer {t : Trailer} (h : trimSpace raw ≠ []) (hopen : s.trailer = none)
      (hhead : d.head raw = .ok lineTypeTrailer) (htrailer : d.trailer raw = .ok t) :
      ReadsLine sum d s raw { s with lineNo := s.lineNo + 1, trailer := some t }

variable {s s' : Reading} {raw signingKey : Bytes}

theorem readLine_eq_ok (h : readLine sum d s raw = .ok s') :
    ReadsLine sum d s raw s' := by
  unfold readLine at h
  dsimp only at h
  split at h
  · next hblank =>
    cases h
    exact .blank hblank
  next hblank =>
  split at h
  · cases h
  next hopen =>
  have hopen : s.trailer = none := by simpa using hopen
  split at h
  · cases h
  next type hhead =>
  split at h
  · next htype =>
    subst htype
    split at h <;> cases h
    next e hentry => exact .entry hblank hopen hhead hentry
  split at h
  · next htype =>
    subst htype
    split at h <;> cases h
    next t htrailer => exact .trailer hblank hopen hhead htrailer
  · cases h

theorem entryLines_cons_entry (hblank : trimSpace raw ≠ []) (hhead : d.head raw = .ok lineTypeEntry)
    (lines : List Bytes) :
    d.entryLines (raw :: lines) = raw :: d.entryLines lines := by
  rw [Decoder.entryLines, filter_cons_of_pos]
  · rfl
  · rw [hhead]
    simp [hblank]

theorem entryLines_cons_blank (hblank : trimSpace raw = []) (lines : List Bytes) :
    d.entryLines (raw :: lines) = d.entryLines lines := by
  rw [Decoder.entryLines, filter_cons_of_neg]
  · rfl
  · simp [hblank]

theorem entryLines_cons_trailer (hhead : d.head raw = .ok lineTypeTrailer) (lines : List Bytes) :
    d.entryLines (raw :: lines) = d.entryLines lines := by
  rw [Decoder.entryLines, filter_cons_of_neg]
  · rfl
  · rw [hhead]
    simp [show lineTypeTrailer ≠ lineTypeEntry by decide]

/-- What the loop has done once it is through the lines. -/
structure ReadsLines (sum : Bytes → Bytes) (d : Decoder) (s : Reading) (raws : List Bytes)
    (s' : Reading) : Prop where
  decoded : (d.records raws).length = raws.length
  entries : s'.entries = s.entries + raws.length
  content : s'.content = s.content ++ raws.flatMap (· ++ [0x0A])
  v : s'.v = addEntries sum s.v (d.records raws)

/-- **The loop** reads the entry lines in order. -/
theorem readLines_eq_none {lines : List Bytes} (h : readLines sum d s lines = (s', none)) :
    ReadsLines sum d s (d.entryLines lines) s' := by
  induction lines generalizing s with
  | nil =>
    cases h
    exact ⟨rfl, rfl, (append_nil _).symm, rfl⟩
  | cons raw lines ih =>
    rw [readLines] at h
    split at h
    · cases h
    next s₁ hline =>
    have hrest := ih h
    cases readLine_eq_ok hline with
    | blank hblank =>
      rw [entryLines_cons_blank hblank]
      exact ⟨hrest.decoded, hrest.entries, hrest.content, hrest.v⟩
    | trailer hblank hopen hhead htrailer =>
      rw [entryLines_cons_trailer hhead]
      exact ⟨hrest.decoded, hrest.entries, hrest.content, hrest.v⟩
    | entry hblank hopen hhead hentry =>
      rename_i e
      rw [entryLines_cons_entry hblank hhead]
      have hrecords : d.records (raw :: d.entryLines lines)
          = e :: d.records (d.entryLines lines) := by
        rw [Decoder.records, filterMap_cons_some (by rw [hentry]; rfl)]
        rfl
      refine ⟨?_, ?_, ?_, ?_⟩
      · rw [hrecords, length_cons, length_cons, hrest.decoded]
      · have hentries : s'.entries = s.entries + 1 + (d.entryLines lines).length := hrest.entries
        rw [hentries, length_cons]
        omega
      · rw [hrest.content, flatMap_cons, append_assoc, append_assoc,
          append_assoc]
      · rw [hrest.v, hrecords]
        rfl

/-- What makes an export valid. -/
structure Sealed (sum : Bytes → Bytes) (hmac : Bytes → Bytes → Bytes) (entries : Nat)
    (content : Bytes) (v : Verifier) (t : Trailer) (signingKey : Bytes) : Prop where
  chain : v.valid = true
  content : encodeToString (sum content) = t.contentSha256
  algorithm : t.algorithm = algorithm
  count : t.count = entries
  lastSeq : t.lastSeq = v.headSeq
  headHash : t.headHash = v.headHash
  chainValid : t.chainValid = v.valid
  firstSeq : entries = 0 ∨ t.firstSeq = v.firstSeq
  signature : signingKey = [] ∨ t.verifySignature hmac signingKey = true

theorem checkTrailer_valid_iff {entries : Nat} {content : Bytes} {v : Verifier} {t : Trailer} :
    (checkTrailer sum hmac entries content v t signingKey).valid = true ↔
      Sealed sum hmac entries content v t signingKey := by
  simp only [checkTrailer, Bool.and_eq_true, Bool.or_eq_true, beq_iff_eq, bne_iff_ne,
    Bool.not_eq_true', bne_eq_false_iff_eq]
  constructor
  · rintro ⟨⟨⟨hchain, hcontent⟩, ⟨⟨⟨⟨halg, hcount⟩, hlast⟩, hhead⟩, hvalid⟩, hfirst⟩, hsig⟩
    exact ⟨hchain, hcontent, halg, hcount, hlast, hhead, hvalid, hfirst, hsig.imp_right And.right⟩
  · intro h
    refine ⟨⟨⟨h.chain, h.content⟩, ⟨⟨⟨⟨h.algorithm, h.count⟩, h.lastSeq⟩, h.headHash⟩,
      h.chainValid⟩, h.firstSeq⟩, ?_⟩
    by_cases hkey : signingKey = []
    · exact .inl hkey
    · exact .inr ⟨hkey, h.signature.resolve_left hkey⟩

/-- The verifier behind entries; without any, of the trailer's tenant. -/
def verifierOf (sum : Bytes → Bytes) (t : Trailer) (es : List Record) : Verifier :=
  (addEntries sum none es).getD (newVerifier t.tenantId)

/-- **A valid export**: lines of records, and a trailer that seals them. -/
theorem verifyExport_valid {text : Bytes} {c : ExportCheck}
    (h : verifyExport sum d hmac text signingKey = (c, none)) (hvalid : c.valid = true) :
    ∃ t, c.trailer = some t ∧
      (d.entriesOf text).length = (d.entryLines (scanLines text).1).length ∧
      Sealed sum hmac (d.entriesOf text).length
        ((d.entryLines (scanLines text).1).flatMap (· ++ [0x0A]))
        (verifierOf sum t (d.entriesOf text)) t signingKey := by
  unfold verifyExport at h
  split at h
  · cases h
  next s hread =>
  split at h
  · cases h
  split at h <;> cases h
  next t _ =>
  have hs := readLines_eq_none hread
  refine ⟨t, rfl, hs.decoded, ?_⟩
  have hsealed := checkTrailer_valid_iff.mp hvalid
  rw [hs.entries, hs.content, hs.v, nil_append, Nat.zero_add, ← hs.decoded] at hsealed
  exact hsealed

end

end Pcmi.Audit
