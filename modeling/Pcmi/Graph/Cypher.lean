import Pcmi.Go.Strings
import Pcmi.Lib.Literal

/-!
# The Cypher passthrough

`ExecuteCypher` checks a query and splices a tenant filter into its text. The positions of `RETURN`,
`WHERE` and `:Memory` are found in an upper-case copy and used on the query itself; a slice out of
range is a run-time panic (`Failure.outOfRange`).
-/

namespace Pcmi.Graph

open List Pcmi.Go Pcmi.Lib

def backslash : UInt8 := 0x5C

def singleQuote : UInt8 := 0x27

def escapeCypherString (s : Bytes) : Bytes :=
  let s := replaceAll s backslash [backslash, backslash]
  replaceAll s singleQuote [backslash, singleQuote]

theorem escapeCypherString_eq_escape (s : Bytes) :
    escapeCypherString s = escape backslash singleQuote s := by
  unfold escapeCypherString replaceAll escape
  rw [flatMap_assoc]
  refine flatMap_congr fun b _ => ?_
  unfold escapeOne
  by_cases hb : b = backslash
  · subst hb
    decide
  by_cases hq : b = singleQuote
  · subst hq
    decide
  · simp [hb, hq]

/-! ## Validation -/

def dangerous : List Bytes :=
  ["ALTER", "CALL", "COPY", "CREATE", "DELETE", "DROP", "GRANT", "INSERT", "LOAD", "MERGE",
      "REMOVE",
   "REVOKE", "SET", "TRUNCATE", "UPDATE", "VACUUM"].map ascii

def unsupported : List Bytes := ["UNION", "WITH", "UNWIND", "FOREACH"].map ascii

def cypherKeywordTokens (query : Bytes) : List Bytes :=
  fieldsFunc (fun r => (r < 0x41 || 0x5A < r) && (r < 0x30 || 0x39 < r) && r != 0x5F) query

def refusedToken (token : Bytes) : Option Bytes :=
  if dangerous.contains token then
    some (sprintf (ascii "keyword %s is not allowed in Cypher passthrough queries") [token])
  else if unsupported.contains token then
    some (sprintf (ascii ("keyword %s is not supported in Cypher passthrough queries: " ++
      "it breaks automatic tenant scoping")) [token])
  else none

def validateCypherQuery (query : Bytes) : Except Bytes Bytes :=
  let trimmed := trimSpace query
  if trimmed = [] then .error (ascii "query must not be empty")
  else if contains trimmed (ascii "$$") then
    .error (ascii "dollar-quote delimiters are not allowed in Cypher passthrough queries")
  else if contains trimmed (ascii ";") then
    .error (ascii "multiple statements are not allowed in Cypher passthrough queries")
  else
    let upper := toUpper trimmed
    if ¬ ascii "MATCH" <+: upper then
      .error (ascii "only MATCH queries are allowed in Cypher passthrough")
    else
      match (cypherKeywordTokens upper).findSome? refusedToken with
      | some message => .error message
      | none => .ok trimmed

/-! ## Tenant scoping -/

inductive Failure where
  | error (message : Bytes)
  /-- `panic: slice bounds out of range`. -/
  | outOfRange
  deriving DecidableEq

def sliceOrPanic (s : Bytes) (i j : Nat) : Except Failure Bytes :=
  match slice s i j with
  | some t => .ok t
  | none => .error .outOfRange

/-- The alias of the node whose label colon stands at `memIdx`. -/
def aliasAt (query : Bytes) (memIdx : Nat) : Except Failure Bytes :=
  match sliceOrPanic query 0 memIdx with
  | .error e => .error e
  | .ok before =>
    match lastIndex before (ascii "(") with
    | none => .error (.error (ascii "invalid MATCH pattern: missing ( before :Memory"))
    | some parenIdx =>
      match sliceOrPanic query (parenIdx + 1) memIdx with
      | .error e => .error e
      | .ok part =>
        let aliasPart := trimSpace part
        let aliasPart :=
          match indexAny aliasPart (ascii " :\x7b") with
          | some idx => aliasPart.take idx
          | none => aliasPart
        let name := trimSpace aliasPart
        if name = [] then
          .error (.error (ascii "could not determine Memory node alias for tenant scoping"))
        else .ok name

/-- The aliases at the given offsets, each once, in order of appearance. -/
def aliasesAt (query : Bytes) : List Nat → List Bytes → Except Failure (List Bytes)
  | [], aliases => .ok aliases
  | memIdx :: rest, aliases =>
    match aliasAt query memIdx with
    | .error e => .error e
    | .ok name =>
      aliasesAt query rest (if name ∈ aliases then aliases else aliases ++ [name])

/-- `memoryAliases`; the loop visits the offsets of `:MEMORY` in the copy. -/
def memoryAliases (query : Bytes) : Except Failure (List Bytes) :=
  match aliasesAt query (indices (toUpper query) (ascii ":MEMORY")) [] with
  | .error e => .error e
  | .ok [] =>
    .error (.error (ascii "query must reference at least one :Memory node for tenant scoping"))
  | .ok aliases => .ok aliases

def aliasFilter (tenantId name : Bytes) : Bytes :=
  sprintf (ascii "%s.tenant_id = '%s'") [name, escapeCypherString tenantId]

def tenantFilter (tenantId : Bytes) (aliases : List Bytes) : Bytes :=
  join (aliases.map (aliasFilter tenantId)) (ascii " AND ")

def autoTenantScopeCypher (query tenantId : Bytes) : Except Failure Bytes :=
  let upper := toUpper query
  match memoryAliases query with
  | .error e => .error e
  | .ok aliases =>
    match index upper (ascii "RETURN") with
    | none => .error (.error (ascii "query must contain a RETURN clause"))
    | some returnIdx =>
      let filter := tenantFilter tenantId aliases
      match (index upper (ascii "WHERE")).filter (· < returnIdx) with
      | some whereIdx =>
        match sliceOrPanic query (whereIdx + 5) returnIdx, sliceOrPanic query 0 (whereIdx + 5),
            sliceOrPanic query returnIdx query.length with
        | .ok existing, .ok before, .ok after =>
          .ok (before ++ ascii " " ++ filter ++ ascii " AND (" ++ trimSpace existing ++ ascii ") " ++
            after)
        | _, _, _ => .error .outOfRange
      | none =>
        match sliceOrPanic query 0 returnIdx, sliceOrPanic query returnIdx query.length with
        | .ok before, .ok after => .ok (before ++ ascii "WHERE " ++ filter ++ ascii " " ++ after)
        | _, _ => .error .outOfRange

/-- `ExecuteCypher`, up to the SQL text it sends. -/
def executeCypher (tenantId query : Bytes) : Except Failure Bytes :=
  match validateCypherQuery query with
  | .error message => .error (.error message)
  | .ok trimmed =>
    (autoTenantScopeCypher trimmed tenantId).map fun scopedQuery =>
      sprintf (ascii ("SELECT * FROM ag_catalog.cypher('pcmi_memory_graph', $$ %s $$)" ++
        " AS (result ag_catalog.agtype)")) [scopedQuery]

/-! ## What a scoped query looks like -/

/-- The text before `RETURN` in a query without `WHERE` there. -/
def scopedWithoutWhere (query tenantId : Bytes) (aliases : List Bytes) (returnIdx : Nat) : Bytes :=
  query.take returnIdx ++ ascii "WHERE " ++ tenantFilter tenantId aliases ++ ascii " " ++
    query.drop returnIdx

def userPredicate (query : Bytes) (whereIdx returnIdx : Nat) : Bytes :=
  trimSpace ((query.take returnIdx).drop (whereIdx + 5))

/-- The text up to the parenthesis before the user's predicate. -/
def scopedBefore (query tenantId : Bytes) (aliases : List Bytes) (whereIdx : Nat) : Bytes :=
  query.take (whereIdx + 5) ++ ascii " " ++ tenantFilter tenantId aliases ++ ascii " AND "

def scopedWithWhere (query tenantId : Bytes) (aliases : List Bytes) (whereIdx returnIdx : Nat) :
    Bytes :=
  scopedBefore query tenantId aliases whereIdx ++ ascii "(" ++
    userPredicate query whereIdx returnIdx ++ ascii ") " ++ query.drop returnIdx

variable {i : Nat} {query : Bytes} {s : Bytes} {j : Nat} {aliases : List Bytes}

theorem sliceOrPanic_of_le (hij : i ≤ j) (hj : j ≤ s.length) :
    sliceOrPanic s i j = .ok ((s.take j).drop i) := by
  simp [sliceOrPanic, slice, hij, hj]

theorem sliceOrPanic_eq_ok {t : Bytes} (h : sliceOrPanic s i j = .ok t) :
    i ≤ j ∧ j ≤ s.length ∧ t = (s.take j).drop i := by
  unfold sliceOrPanic slice at h
  split at h
  · next hs =>
    split at hs
    · next hb =>
      cases h
      exact ⟨hb.1, hb.2, (Option.some.inj hs).symm⟩
    · cases hs
  · cases h

/-- The text behind the last opening parenthesis before `i`. -/
def afterParen (query : Bytes) (i : Nat) : Bytes :=
  ((query.take i).reverse.takeWhile (· != 0x28)).reverse

def labelName (query : Bytes) (i : Nat) : Bytes :=
  trimSpace ((trimSpace (afterParen query i)).takeWhile fun b => !(ascii " :\x7b").contains b)

theorem afterParen_eq {front part : Bytes} (h : query.take i = front ++ 0x28 :: part)
    (hpart : 0x28 ∉ part) : afterParen query i = part := by
  have hall : ∀ b ∈ part.reverse, (b != 0x28) = true := by
    intro b hb
    rw [mem_reverse] at hb
    exact bne_iff_ne.mpr fun he => hpart (he ▸ hb)
  unfold afterParen
  rw [h, reverse_append, reverse_cons, append_assoc,
    takeWhile_append_of_pos hall]
  simp

/-- **What the scoping finds in front of a label colon.** -/
theorem aliasAt_eq (hi : i ≤ query.length) :
    aliasAt query i =
      if 0x28 ∉ query.take i then
        .error (.error (ascii "invalid MATCH pattern: missing ( before :Memory"))
      else if labelName query i = [] then
        .error (.error (ascii "could not determine Memory node alias for tenant scoping"))
      else .ok (labelName query i) := by
  unfold aliasAt
  rw [sliceOrPanic_of_le (Nat.zero_le _) hi, drop_zero]
  dsimp only
  by_cases hmem : 0x28 ∈ query.take i
  · obtain ⟨front, part, heq, hpart⟩ := exists_append_cons_of_mem hmem
    have hlen : front.length + 1 ≤ i := by
      have := congrArg List.length heq
      simp at this
      omega
    have hdrop : (query.take i).drop (front.length + 1) = part := by
      rw [heq, drop_length_add_append]
      rfl
    have hlast : lastIndex (query.take i) (ascii "(") = some front.length := by
      rw [heq]
      exact lastIndex_append_cons hpart front
    rw [hlast]
    dsimp only
    rw [sliceOrPanic_of_le hlen hi, hdrop, if_neg (not_not_intro hmem)]
    have hname : labelName query i = trimSpace
        (match indexAny (trimSpace part) (ascii " :\x7b") with
          | some idx => (trimSpace part).take idx
          | none => trimSpace part) := by
      unfold labelName
      rw [afterParen_eq heq hpart]
      exact congrArg trimSpace (take_indexAny _ _).symm
    rw [hname]
  · rw [if_pos hmem, show ascii "(" = [0x28] from rfl, lastIndex_of_not_mem hmem]

theorem aliasAt_eq_ok {name : Bytes} (h : aliasAt query i = .ok name) :
    name = labelName query i ∧ name ≠ [] := by
  have hi : i ≤ query.length := by
    unfold aliasAt at h
    split at h
    · cases h
    · next hbefore => exact (sliceOrPanic_eq_ok hbefore).2.1
  rw [aliasAt_eq hi] at h
  split_ifs at h with hparen hname
  cases h
  exact ⟨rfl, hname⟩

theorem mem_aliasesAt {query : Bytes} : ∀ {offsets : List Nat} {aliases found : List Bytes},
    aliasesAt query offsets aliases = .ok found →
      ∀ name ∈ found, name ∈ aliases ∨ ∃ i ∈ offsets, aliasAt query i = .ok name
  | [], aliases, found, h, name, hname => by
    cases h
    exact .inl hname
  | i :: rest, aliases, found, h, name, hname => by
    unfold aliasesAt at h
    split at h
    · cases h
    next first hfirst =>
    rcases mem_aliasesAt h name hname with hold | ⟨j, hj, hat⟩
    · split at hold
      · exact .inl hold
      · rcases mem_append.mp hold with hold | hnew
        · exact .inl hold
        · rw [mem_singleton] at hnew
          exact .inr ⟨i, mem_cons_self, hnew ▸ hfirst⟩
    · exact .inr ⟨j, mem_cons_of_mem _ hj, hat⟩

theorem mem_memoryAliases (h : memoryAliases query = .ok aliases) :
    ∀ name ∈ aliases, ∃ i ∈ indices (toUpper query) (ascii ":MEMORY"), aliasAt query i =
      .ok name := by
  intro name hname
  unfold memoryAliases at h
  split at h <;> cases h
  next found hfound =>
  rcases mem_aliasesAt hfound name hname with hnil | hat
  · cases hnil
  · exact hat

theorem aliasesAt_complete {query : Bytes} : ∀ {offsets : List Nat} {aliases found : List Bytes},
    aliasesAt query offsets aliases = .ok found →
      (∀ name ∈ aliases, name ∈ found) ∧ ∀ i ∈ offsets, ∃ name ∈ found, aliasAt query i = .ok name
  | [], aliases, found, h => by
    cases h
    exact ⟨fun _ h => h, fun _ h => by cases h⟩
  | i :: rest, aliases, found, h => by
    unfold aliasesAt at h
    split at h
    · cases h
    next first hfirst =>
    obtain ⟨hold, hrest⟩ := aliasesAt_complete h
    refine ⟨fun name hname => hold name ?_, fun j hj => ?_⟩
    · split
      · exact hname
      · exact mem_append_left _ hname
    · rcases mem_cons.mp hj with rfl | hj
      · refine ⟨first, hold first ?_, hfirst⟩
        split
        · next hmem => exact hmem
        · simp
      · exact hrest j hj

theorem memoryAliases_complete (h : memoryAliases query = .ok aliases)
    (hi : i ∈ indices (toUpper query) (ascii ":MEMORY")) :
    ∃ name ∈ aliases, aliasAt query i = .ok name := by
  unfold memoryAliases at h
  split at h <;> cases h
  next found hfound => exact (aliasesAt_complete hfound).2 i hi

theorem mem_indices_toUpper_iff (h : UpperKeepsWidth query) (i : Nat) :
    i ∈ indices (toUpper query) (ascii ":MEMORY") ↔
      Occurs (ascii ":MEMORY") (query.map upperByte) i := by
  have hmem : i ∈ indices (toUpper query) (ascii ":MEMORY") ↔
      Occurs (ascii ":MEMORY") (toUpper query) i :=
    mem_indices_iff (c := 0x3A) (show 0x3A ∉ ascii "MEMORY" by decide)
  rw [hmem, occurs_toUpper_iff h (forall_lt_of_all (by decide))]

theorem aliasFilter_eq (tenantId name : Bytes) :
    aliasFilter tenantId name =
      name ++ (ascii ".tenant_id = '" ++ (escape backslash singleQuote tenantId ++ ascii "'")) := by
  unfold aliasFilter
  rw [escapeCypherString_eq_escape, show ascii "%s.tenant_id = '%s'" = ascii "%s" ++
    (ascii ".tenant_id = '" ++ (ascii "%s" ++ (ascii "'" ++ []))) from rfl, sprintf_verb,
    sprintf_append (by decide), sprintf_verb, sprintf_append (by decide), sprintf, append_nil]

/-- **A scoped query is one of the two texts.** -/
theorem autoTenantScopeCypher_eq_ok {tenantId rewritten : Bytes}
    (h : autoTenantScopeCypher query tenantId = .ok rewritten) :
    ∃ aliases returnIdx, memoryAliases query = .ok aliases ∧
      index (toUpper query) (ascii "RETURN") = some returnIdx ∧ returnIdx ≤ query.length ∧
      ((∃ whereIdx, index (toUpper query) (ascii "WHERE") = some whereIdx ∧ whereIdx < returnIdx ∧
          whereIdx + 5 ≤ returnIdx ∧
          rewritten = scopedWithWhere query tenantId aliases whereIdx returnIdx) ∨
        ((∀ whereIdx, index (toUpper query) (ascii "WHERE") = some whereIdx →
            returnIdx ≤ whereIdx) ∧
          rewritten = scopedWithoutWhere query tenantId aliases returnIdx)) := by
  unfold autoTenantScopeCypher at h
  dsimp only at h
  split at h
  · cases h
  next aliases haliases =>
  split at h
  · cases h
  next returnIdx hreturn =>
  split at h
  · next whereIdx hwhere =>
    obtain ⟨hwhere, hlt⟩ := Option.filter_eq_some_iff.mp hwhere
    split at h <;> cases h
    next existing before after hexisting hbefore hafter =>
    obtain ⟨hle, hlen, rfl⟩ := sliceOrPanic_eq_ok hexisting
    obtain ⟨-, -, rfl⟩ := sliceOrPanic_eq_ok hbefore
    obtain ⟨-, -, rfl⟩ := sliceOrPanic_eq_ok hafter
    refine ⟨aliases, returnIdx, haliases, hreturn, hlen,
      .inl ⟨whereIdx, hwhere, by simpa using hlt, hle, ?_⟩⟩
    simp [scopedWithWhere, scopedBefore, userPredicate, ascii]
  · next hnone =>
    split at h <;> cases h
    next before after hbefore hafter =>
    obtain ⟨-, hlen, rfl⟩ := sliceOrPanic_eq_ok hbefore
    obtain ⟨-, -, rfl⟩ := sliceOrPanic_eq_ok hafter
    refine ⟨aliases, returnIdx, haliases, hreturn, hlen, .inr ⟨fun whereIdx hwhere => ?_, ?_⟩⟩
    · by_contra hlt
      rw [hwhere, Option.filter_some] at hnone
      simp [Nat.lt_of_not_le hlt] at hnone
    · simp [scopedWithoutWhere]

end Pcmi.Graph
