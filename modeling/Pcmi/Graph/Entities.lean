import Pcmi.Graph.Cypher

/-!
# Entity look-ups in the graph

`FindMemoriesByEntity` places kind, key and tenant id into Cypher literals inside a dollar-quoted
SQL string. `escapeCypherString` protects the inner quotes. It leaves `$$` alone, which ends the
outer string.
-/

namespace Pcmi.Graph

open List Pcmi.Go Pcmi.Lib

/-- The format of `dataQuery` in `FindMemoriesByEntity`, line by line. -/
def entityQueryFormat : Bytes :=
  ascii "\n\t\t\tSELECT * FROM ag_catalog.cypher('pcmi_memory_graph', $$" ++
  ascii "\n\t\t\t\tMATCH (e:Entity \x7bkind: '%s', key: '%s', tenant_id: '%s'\x7d)" ++
  ascii "<-[r:mentions]-(m:Memory)" ++
  ascii "\n\t\t\t\tWHERE m.id IS NOT NULL" ++
  ascii "\n\t\t\t\tRETURN m.id, r.slot, r.confidence" ++
  ascii "\n\t\t\t$$) AS (id ag_catalog.agtype, slot ag_catalog.agtype, confidence ag_catalog.agtype)"

def entityQuery (tenantId kind lookupKey : Bytes) : Bytes :=
  sprintf entityQueryFormat
    [escapeCypherString kind, escapeCypherString lookupKey, escapeCypherString tenantId]

/-- The queries of `FindMemoriesByEntity`, each with its key. -/
def findMemoriesByEntity (expanded : Option (List Bytes)) (tenantId kind key : Bytes) :
    Except String (List (Bytes × Bytes)) :=
  let kind := trimSpace kind
  let key := trimSpace key
  if kind = [] ∨ key = [] then .error "kind and key are required"
  else
    let keys :=
      match expanded with
      | some (k :: ks) => k :: ks
      | _ => [key]
    .ok (keys.map fun lookupKey => (lookupKey, entityQuery tenantId kind lookupKey))

/-! ## The two layers of quoting -/

def dollarQuote : Bytes := ascii "$$"

/-- The body of the first dollar-quoted string: it ends at the next `$$`. -/
def dollarBody (sql : Bytes) : Option Bytes :=
  match index sql dollarQuote with
  | none => none
  | some i =>
    let rest := sql.drop (i + 2)
    (index rest dollarQuote).map rest.take

def templatePre : Bytes := ascii "\n\t\t\tSELECT * FROM ag_catalog.cypher('pcmi_memory_graph', "

def templateHead : Bytes := ascii "\n\t\t\t\tMATCH (e:Entity \x7bkind: "

def templateEnd : Bytes :=
  ascii "\x7d)<-[r:mentions]-(m:Memory)\n\t\t\t\tWHERE m.id IS NOT NULL" ++
  ascii "\n\t\t\t\tRETURN m.id, r.slot, r.confidence\n\t\t\t"

def templateTails : List Bytes := [ascii ", key: ", ascii ", tenant_id: ", templateEnd]

def templatePost : Bytes :=
  ascii ") AS (id ag_catalog.agtype, slot ag_catalog.agtype, confidence ag_catalog.agtype)"

/-- `$$` stands at its two places only, and each literal ends at the template's quote and reads
back. -/
structure QuotingKept (sql : Bytes) (args : List Bytes) (body : Bytes) : Prop where
  text : sql = templatePre ++ dollarQuote ++ body ++ dollarQuote ++ templatePost
  delimiters : ∀ i, Occurs dollarQuote sql i ↔
    i = templatePre.length ∨ i = templatePre.length + 2 + body.length
  dollarBody : dollarBody sql = some body
  literals : readFilled backslash singleQuote templateHead templateTails body = some args

def templateBody (kind key tenantId : Bytes) : Bytes :=
  fill backslash singleQuote templateHead ([kind, key, tenantId].zip templateTails)

theorem entityQueryFormat_eq :
    entityQueryFormat =
      (templatePre ++ dollarQuote ++ templateHead ++ [singleQuote]) ++ (ascii "%s" ++
        (singleQuote :: ascii ", key: " ++ [singleQuote] ++ (ascii "%s" ++
          (singleQuote :: ascii ", tenant_id: " ++ [singleQuote] ++ (ascii "%s" ++
            (singleQuote :: templateEnd ++ dollarQuote ++ templatePost ++ [])))))) := by
  unfold entityQueryFormat templatePre dollarQuote templateHead templateEnd templatePost
  repeat rw [ascii_ofList]
  decide +kernel

theorem entityQuery_eq (tenantId kind key : Bytes) :
    entityQuery tenantId kind key =
      templatePre ++ dollarQuote ++ templateBody kind key tenantId ++ dollarQuote ++ templatePost := by
  unfold entityQuery
  rw [escapeCypherString_eq_escape, escapeCypherString_eq_escape, escapeCypherString_eq_escape,
    entityQueryFormat_eq, sprintf_append (by decide +kernel), sprintf_verb,
    sprintf_append (by decide +kernel), sprintf_verb, sprintf_append (by decide +kernel),
    sprintf_verb, sprintf_append (by decide +kernel)]
  simp [templateBody, templateTails, fill, sprintf]

theorem readFilled_templateBody (kind key tenantId : Bytes) :
    readFilled backslash singleQuote templateHead templateTails (templateBody kind key tenantId) =
      some [kind, key, tenantId] :=
  readFilled_fill backslash singleQuote (by decide) templateHead
    ([kind, key, tenantId].zip templateTails)

theorem exists_occurs_templateBody_iff (kind key tenantId : Bytes) :
    (∃ i, Occurs dollarQuote (templateBody kind key tenantId) i) ↔
      ∃ arg ∈ [kind, key, tenantId], contains arg dollarQuote = true := by
  have htexts : ∀ text ∈ templateHead :: templateTails, ¬ ∃ i, Occurs dollarQuote text i := by
    intro text htext
    rw [← contains_eq_true_iff]
    revert text
    decide +kernel
  unfold templateBody
  rw [exists_occurs_fill_iff _ _ (by decide) (by decide)]
  simp only [contains_eq_true_iff, templateTails, zip_cons_cons, zip_nil_right,
    mem_cons, not_mem_nil, or_false, exists_eq_or_imp, exists_eq_left] at htexts ⊢
  simp [htexts]

theorem templateBody_ends (kind key tenantId : Bytes) :
    ∃ inner, templateBody kind key tenantId = 0x0A :: (inner ++ [0x09]) := by
  have hhead : templateHead = 0x0A :: templateHead.tail := by decide
  have hend : templateEnd = templateEnd.dropLast ++ [0x09] := by decide +kernel
  refine ⟨fill backslash singleQuote templateHead.tail
    [(kind, ascii ", key: "), (key, ascii ", tenant_id: "), (tenantId, templateEnd.dropLast)], ?_⟩
  calc templateBody kind key tenantId
      = fill backslash singleQuote (0x0A :: templateHead.tail)
          [(kind, ascii ", key: "), (key, ascii ", tenant_id: "),
            (tenantId, templateEnd.dropLast ++ [0x09])] := by rw [← hhead, ← hend]; rfl
    _ = _ := by simp [fill]

/-- Without `$$` in the body, `$$` stands at the two places of the template. -/
theorem occurs_dollarQuote_iff {body inner : Bytes} (hbody : body = 0x0A :: (inner ++ [0x09]))
    (hnone : ¬ ∃ i, Occurs dollarQuote body i) (i : Nat) :
    Occurs dollarQuote (templatePre ++ dollarQuote ++ body ++ dollarQuote ++ templatePost) i ↔
      i = templatePre.length ∨ i = templatePre.length + 2 + body.length := by
  have hpre : templatePre = templatePre.dropLast ++ [0x20] := by decide +kernel
  have hpost : templatePost = 0x29 :: templatePost.tail := by decide +kernel
  have hnopre := contains_eq_false_iff.mp
    (show contains templatePre.dropLast dollarQuote = false by decide +kernel)
  have hnopost := contains_eq_false_iff.mp
    (show contains templatePost.tail dollarQuote = false by decide +kernel)
  have hnoinner : ∀ i, ¬ Occurs dollarQuote inner i := by
    rw [hbody, exists_occurs_cons_iff, not_or] at hnone
    exact fun i hi => hnone.2 ⟨i, hi.append_right _⟩
  have htext : templatePre ++ dollarQuote ++ body ++ dollarQuote ++ templatePost =
      templatePre.dropLast ++ 0x20 :: (dollarQuote ++ 0x0A :: (inner ++ 0x09 ::
        (dollarQuote ++ 0x29 :: templatePost.tail))) := by
    conv_lhs => rw [hpre, hpost, hbody]
    simp
  have hlen : templatePre.length = templatePre.dropLast.length + 1 := by
    conv_lhs => rw [hpre]
    simp
  rw [htext, occurs_append_cons_iff (by decide)]
  simp only [hnopre, false_or, occurs_self_append_cons_iff (show (0x0A :
    UInt8) ∉ dollarQuote by decide),
    occurs_append_cons_iff (show (0x09 : UInt8) ∉ dollarQuote by decide), hnoinner,
    occurs_self_append_cons_iff (show (0x29 : UInt8) ∉ dollarQuote by decide), hnopost, and_false,
    exists_false, or_false]
  rw [hlen, hbody]
  simp only [length_cons, length_append, length_nil,
    show dollarQuote.length = 2 from rfl]
  constructor
  · rintro ⟨j, rfl, rfl | ⟨k, rfl, l, rfl, rfl⟩⟩
    · left; omega
    · right; omega
  · rintro (rfl | rfl)
    · exact ⟨0, by omega, .inl rfl⟩
    · exact ⟨2 + 1 + (inner.length + 1 + 0), by omega,
        .inr ⟨inner.length + 1 + 0, rfl, 0, rfl, rfl⟩⟩

theorem dollarBody_eq {sql body : Bytes}
    (hsql : sql = templatePre ++ dollarQuote ++ body ++ dollarQuote ++ templatePost)
    (hdel : ∀ i, Occurs dollarQuote sql i ↔
      i = templatePre.length ∨ i = templatePre.length + 2 + body.length) :
    dollarBody sql = some body := by
  have hfirst : index sql dollarQuote = some templatePre.length := by
    refine index_eq_some_iff.mpr ⟨(hdel _).mpr (.inl rfl), fun j hj hocc => ?_⟩
    rcases (hdel j).mp hocc with h | h <;> omega
  have hdrop : sql.drop (templatePre.length + 2) = body ++ (dollarQuote ++ templatePost) := by
    rw [hsql, append_assoc, append_assoc, append_assoc,
      drop_length_add_append]
    rfl
  have hoffset (j : Nat) : Occurs dollarQuote (body ++ (dollarQuote ++ templatePost)) j ↔
      j = body.length := by
    have hshift : Occurs dollarQuote sql ((templatePre ++ dollarQuote).length + j) ↔
        Occurs dollarQuote (body ++ (dollarQuote ++ templatePost)) j := by
      rw [hsql, append_assoc (templatePre ++ dollarQuote), append_assoc,
        occurs_append_left, append_assoc]
    rw [← hshift, hdel, length_append, show dollarQuote.length = 2 from rfl]
    omega
  have hsecond : index (body ++ (dollarQuote ++ templatePost)) dollarQuote = some body.length := by
    refine index_eq_some_iff.mpr ⟨(hoffset _).mpr rfl, fun j hj hocc => ?_⟩
    rw [(hoffset j).mp hocc] at hj
    omega
  unfold dollarBody
  rw [hfirst]
  simp only [hdrop, hsecond, Option.map_some]
  simp

/-- **The query keeps its quoting exactly when no argument contains `$$`.** -/
theorem quotingKept_entityQuery_iff (tenantId kind key : Bytes) :
    (∃ body, QuotingKept (entityQuery tenantId kind key) [kind, key, tenantId] body) ↔
      ∀ arg ∈ [kind, key, tenantId], contains arg dollarQuote = false := by
  have hbody := exists_occurs_templateBody_iff kind key tenantId
  constructor
  · rintro ⟨body, htext, hdel, -, -⟩ arg harg
    rw [Bool.eq_false_iff]
    intro hcontains
    obtain ⟨i, hi⟩ := hbody.mpr ⟨arg, harg, hcontains⟩
    have hsame : body = templateBody kind key tenantId := by
      rw [entityQuery_eq] at htext
      simpa [append_assoc] using htext.symm
    -- the occurrence inside the body is at neither place of the template
    have hocc : Occurs dollarQuote (entityQuery tenantId kind key)
        ((templatePre ++ dollarQuote).length + i) := by
      rw [entityQuery_eq, append_assoc (templatePre ++ dollarQuote), append_assoc,
        occurs_append_left]
      exact (hi.append_right _).append_right _
    have hle := hi.length_le
    rw [hdel, hsame, length_append, show dollarQuote.length = 2 from rfl] at hocc
    rw [show dollarQuote.length = 2 from rfl] at hle
    omega
  · intro hnone
    obtain ⟨inner, hinner⟩ := templateBody_ends kind key tenantId
    have hno : ¬ ∃ i, Occurs dollarQuote (templateBody kind key tenantId) i := by
      rw [hbody]
      rintro ⟨arg, harg, hcontains⟩
      rw [hnone arg harg] at hcontains
      cases hcontains
    have htext := entityQuery_eq tenantId kind key
    have hdel : ∀ i, Occurs dollarQuote (entityQuery tenantId kind key) i ↔
        i = templatePre.length ∨
          i = templatePre.length + 2 + (templateBody kind key tenantId).length := by
      intro i
      rw [htext]
      exact occurs_dollarQuote_iff hinner hno i
    exact ⟨templateBody kind key tenantId, htext, hdel, dollarBody_eq htext hdel,
      readFilled_templateBody kind key tenantId⟩

/-- **Every query of `FindMemoriesByEntity` keeps its quoting** exactly when kind, key and tenant id
are without `$$`. -/
theorem findMemoriesByEntity_quotingKept_iff {expanded : Option (List Bytes)}
    {tenantId kind key : Bytes} {queries : List (Bytes × Bytes)}
    (h : findMemoriesByEntity expanded tenantId kind key = .ok queries) :
    ∀ q ∈ queries, (∃ body, QuotingKept q.2 [trimSpace kind, q.1, tenantId] body) ↔
      ∀ arg ∈ [trimSpace kind, q.1, tenantId], contains arg dollarQuote = false := by
  unfold findMemoriesByEntity at h
  dsimp only at h
  split at h <;> cases h
  intro q hq
  obtain ⟨lookupKey, -, rfl⟩ := mem_map.mp hq
  exact quotingKept_entityQuery_iff tenantId (trimSpace kind) lookupKey

theorem findMemoriesByEntity_quotingKept_host :
    ∃ queries, findMemoriesByEntity none (ascii "t") (ascii " Host ") (ascii "it's") = .ok queries ∧
      queries.map (·.1) = [ascii "it's"] ∧
      ∀ q ∈ queries, ∃ body, QuotingKept q.2 [ascii "Host", q.1, ascii "t"] body := by
  have hok : findMemoriesByEntity none (ascii "t") (ascii " Host ") (ascii "it's") =
      .ok [(ascii "it's", entityQuery (ascii "t") (ascii "Host") (ascii "it's"))] := by
    have hkind : trimSpace (ascii " Host ") = ascii "Host" := by decide
    have hkey : trimSpace (ascii "it's") = ascii "it's" := by decide
    simp only [findMemoriesByEntity, hkind, hkey]
    rfl
  refine ⟨_, hok, rfl, fun q hq => ?_⟩
  have hkept := findMemoriesByEntity_quotingKept_iff hok q hq
  rw [show trimSpace (ascii " Host ") = ascii "Host" by decide] at hkept
  refine hkept.mpr ?_
  rw [mem_singleton.mp hq]
  decide

/-- **A key with `$$` ends the SQL string inside its own literal.** -/
theorem dollarQuote_in_key_breaks_quoting :
    ∃ sql, findMemoriesByEntity none (ascii "t") (ascii "Host") (ascii "$$) --") =
        .ok [(ascii "$$) --", sql)] ∧
      (¬ ∃ body, QuotingKept sql [ascii "Host", ascii "$$) --", ascii "t"] body) ∧
      dollarBody sql = some (templateHead ++ ascii "'Host', key: '") := by
  refine ⟨entityQuery (ascii "t") (ascii "Host") (ascii "$$) --"), ?_, ?_, by decide +kernel⟩
  · have hkind : trimSpace (ascii "Host") = ascii "Host" := by decide
    have hkey : trimSpace (ascii "$$) --") = ascii "$$) --" := by decide
    simp only [findMemoriesByEntity, hkind, hkey]
    rfl
  · rw [quotingKept_entityQuery_iff]
    decide

end Pcmi.Graph
