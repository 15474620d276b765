import Pcmi.Graph.Lexer

/-!
# The offsets of the tenant scoping

`autoTenantScopeCypher` looks for `RETURN`, `WHERE` and `:MEMORY` in the upper-case copy and cuts
the query itself at these offsets. The letters may stand in a literal, a comment or a longer name,
and a rune whose upper case has another width moves everything behind it.
-/

namespace Pcmi.Graph

open Pcmi.Go Pcmi.Lib

/-- Offsets in the copy are those of keywords and label colons. -/
structure OffsetsSound (query : Bytes) : Prop where
  labels : ∀ i ∈ indices (toUpper query) (ascii ":MEMORY"), NodeLabelColon query i
  returns : ∀ i, index (toUpper query) (ascii "RETURN") = some i →
    ClauseKeyword query (ascii "RETURN") i
  wheres : ∀ i r, index (toUpper query) (ascii "WHERE") = some i →
    index (toUpper query) (ascii "RETURN") = some r → i < r →
      ClauseKeyword query (ascii "WHERE") i

/-- The filter is code, and only the user's predicate is behind it. -/
def FilterLive (query tenantId rewritten : Bytes) : Prop :=
  ∃ aliases before between returnIdx, memoryAliases query = .ok aliases ∧
    rewritten = before ++ tenantFilter tenantId aliases ++ between ++ query.drop returnIdx ∧
    Mode.run .code before = .code ∧
    Mode.run .code (before ++ tenantFilter tenantId aliases) = .code ∧
    ClauseKeyword query (ascii "RETURN") returnIdx ∧
    (between = ascii " " ∨ ∃ whereIdx,
      between = ascii " AND (" ++ userPredicate query whereIdx returnIdx ++ ascii ") ")

structure ScopingSound (query : Bytes) : Prop where
  offsets : OffsetsSound query
  inRange : ∀ tenantId, autoTenantScopeCypher query tenantId ≠ .error .outOfRange
  filters : ∀ i ∈ indices (toUpper query) (ascii ":MEMORY"), ∀ name, aliasAt query i = .ok name →
    ∀ tenantId, Mode.run .code (aliasFilter tenantId name) = .code
  placed : ∀ tenantId rewritten, autoTenantScopeCypher query tenantId = .ok rewritten →
    FilterLive query tenantId rewritten

/-- The first `RETURN` is the keyword of a clause, so is a `WHERE` before it, and every `:Memory`
begins with the colon of a node label, in front of which no literal, quoted name or comment is cut
off. -/
structure KeywordsStand (query : Bytes) : Prop where
  labels : ∀ i, Occurs (ascii ":MEMORY") (query.map upperByte) i → NodeLabelColon query i
  names : ∀ i, Occurs (ascii ":MEMORY") (query.map upperByte) i →
    (Mode.run .code (labelName query i)).live = true
  returns : ∀ i, index (query.map upperByte) (ascii "RETURN") = some i →
    ClauseKeyword query (ascii "RETURN") i
  wheres : ∀ i r, index (query.map upperByte) (ascii "WHERE") = some i →
    index (query.map upperByte) (ascii "RETURN") = some r → i < r →
      ClauseKeyword query (ascii "WHERE") i

/-! ## Offsets in an aligned copy -/

section Aligned

variable {query : Bytes}

theorem index_toUpper {keyword : Bytes} (h : UpperKeepsWidth query)
    (hkey : ∀ b ∈ keyword, b < 0x80) :
    index (toUpper query) keyword = index (query.map upperByte) keyword :=
  index_congr (occurs_toUpper_iff h hkey)

theorem index_toUpper_return (h : UpperKeepsWidth query) :
    index (toUpper query) (ascii "RETURN") = index (query.map upperByte) (ascii "RETURN") :=
  index_toUpper h (forall_lt_of_all (by decide))

theorem index_toUpper_where (h : UpperKeepsWidth query) :
    index (toUpper query) (ascii "WHERE") = index (query.map upperByte) (ascii "WHERE") :=
  index_toUpper h (forall_lt_of_all (by decide))

/-- In an aligned copy offsets are sound when the letters are keywords. -/
theorem KeywordsStand.offsetsSound (h : UpperKeepsWidth query) (hstand : KeywordsStand query) :
    OffsetsSound query where
  labels i hi := hstand.labels i ((mem_indices_toUpper_iff h i).mp hi)
  returns i hi := hstand.returns i (index_toUpper_return h ▸ hi)
  wheres i r hi hr := hstand.wheres i r (index_toUpper_where h ▸ hi) (index_toUpper_return h ▸ hr)

end Aligned

/-! ## The aliases found -/

theorem aliasesAt_ne_outOfRange {query : Bytes} : ∀ {offsets : List Nat} {aliases : List Bytes},
    (∀ i ∈ offsets, i ≤ query.length) → aliasesAt query offsets aliases ≠ .error .outOfRange
  | [], _, _ => by simp [aliasesAt]
  | i :: rest, aliases, h => by
    unfold aliasesAt
    rw [aliasAt_eq (h i List.mem_cons_self)]
    have ih : ∀ aliases, aliasesAt query rest aliases ≠ .error .outOfRange := fun _ =>
      aliasesAt_ne_outOfRange fun j hj => h j (List.mem_cons_of_mem _ hj)
    split_ifs
    · simp
    · exact ih _
    · simp

variable {query : Bytes}

theorem memoryAliases_ne_outOfRange
    (h : ∀ i ∈ indices (toUpper query) (ascii ":MEMORY"), i ≤ query.length) :
    memoryAliases query ≠ .error .outOfRange := by
  have haliases : aliasesAt query (indices (toUpper query) (ascii ":MEMORY")) [] ≠
      .error .outOfRange := aliasesAt_ne_outOfRange h
  unfold memoryAliases
  split
  · next e he =>
    rw [he] at haliases
    exact haliases
  · simp
  · simp

/-! ## Soundness -/

theorem scoping_inRange (h : OffsetsSound query) (tenantId : Bytes) :
    autoTenantScopeCypher query tenantId ≠ .error .outOfRange := by
  have haliases := memoryAliases_ne_outOfRange fun i hi => (h.labels i hi).le_length
  unfold autoTenantScopeCypher
  dsimp only
  split
  · next e he =>
    rw [he] at haliases
    simpa using haliases
  · split
    · simp
    · next returnIdx hreturn =>
      have hret := h.returns returnIdx hreturn
      have hlen : returnIdx ≤ query.length := (Nat.le_add_right _ _).trans hret.1.add_le_length
      rw [sliceOrPanic_of_le hlen le_rfl]
      split
      · next whereIdx hfilter =>
        obtain ⟨hwhere, hlt⟩ := Option.filter_eq_some_iff.mp hfilter
        have hle : whereIdx + 5 ≤ returnIdx :=
          (h.wheres whereIdx returnIdx hwhere hreturn (by simpa using hlt)).1.add_le
            wordByte_of_mem_where hret.1 (by simpa using hlt)
        rw [sliceOrPanic_of_le hle hlen, sliceOrPanic_of_le (Nat.zero_le _) (hle.trans hlen)]
        simp
      · rw [sliceOrPanic_of_le (Nat.zero_le _) hlen]
        simp

theorem scoping_placed (h : OffsetsSound query)
    (hnames : ∀ i ∈ indices (toUpper query) (ascii ":MEMORY"), ∀ name, aliasAt query i = .ok name →
      ∀ tenantId, Mode.run .code (aliasFilter tenantId name) = .code)
    {tenantId rewritten : Bytes} (hok : autoTenantScopeCypher query tenantId = .ok rewritten) :
    FilterLive query tenantId rewritten := by
  obtain ⟨aliases, returnIdx, haliases, hreturn, -, hcase⟩ := autoTenantScopeCypher_eq_ok hok
  have hfilter : Mode.run .code (tenantFilter tenantId aliases) = .code := by
    refine run_tenantFilter fun name hname => ?_
    obtain ⟨i, hi, hat⟩ := mem_memoryAliases haliases name hname
    exact hnames i hi name hat tenantId
  have hret := h.returns returnIdx hreturn
  rcases hcase with ⟨whereIdx, hwhere, hlt, -, rfl⟩ | ⟨-, rfl⟩
  · have hlive := (h.wheres whereIdx returnIdx hwhere hreturn hlt).1.run_take wordByte_of_mem_where
    have hbefore : Mode.run .code (query.take (whereIdx + 5) ++ ascii " ") = .code := by
      rw [Mode.run_append]
      exact Mode.run_plain_eq hlive (by decide) (List.all_eq_true.mp (by decide))
    refine ⟨aliases, _, _, returnIdx, haliases, ?_, hbefore,
      by rw [Mode.run_append, hbefore, hfilter], hret, .inr ⟨whereIdx, rfl⟩⟩
    simp [scopedWithWhere, scopedBefore, ascii]
  · have hbefore : Mode.run .code (query.take returnIdx ++ ascii "WHERE ") = .code := by
      rw [Mode.run_append]
      exact Mode.run_plain_eq hret.1.mode_live (by decide) (List.all_eq_true.mp (by decide))
    refine ⟨aliases, _, _, returnIdx, haliases, ?_, hbefore,
      by rw [Mode.run_append, hbefore, hfilter], hret, .inl rfl⟩
    simp [scopedWithoutWhere, ascii]

def plainQuery : Bytes := ascii "MATCH (m:Memory) WHERE m.level = 1 RETURN m"

theorem plainQuery_keywordsStand (h : UpperKeepsWidth plainQuery) : KeywordsStand plainQuery := by
  have hlabel : ∀ i, Occurs (ascii ":MEMORY") (plainQuery.map upperByte) i → i = 8 := by
    intro i hi
    have hmem := (mem_indices_toUpper_iff h i).mpr hi
    have hall : indices (toUpper plainQuery) (ascii ":MEMORY") = [8] := by decide +kernel
    simpa [hall] using hmem
  refine ⟨fun i hi => ?_, fun i hi => ?_, fun i hi => ?_, fun i r hi hr _ => ?_⟩
  · rw [hlabel i hi]
    decide +kernel
  · rw [hlabel i hi]
    decide +kernel
  · have hfirst : index (plainQuery.map upperByte) (ascii "RETURN") = some 35 := by decide +kernel
    cases hfirst.symm.trans hi
    decide +kernel
  · have hfirst : index (plainQuery.map upperByte) (ascii "WHERE") = some 17 := by decide +kernel
    cases hfirst.symm.trans hi
    decide +kernel

/-- The first `return` stands in a literal. -/
def returnInLiteral : Bytes := ascii "MATCH (m:Memory \x7bnote: 'return'\x7d) RETURN m"

/-- `WHERE` and `RETURN` overlap in the name of a property. -/
def overlappingKeywords : Bytes := ascii "MATCH (m:Memory \x7bwhereturn: 1\x7d) RETURN m"

/-- A comment is cut off between a node's name and its label. -/
def commentInNode : Bytes := ascii "MATCH (m// node\n:Memory) RETURN m"

/-- Nine times `ɐ`, whose upper case is a byte longer, before `RETURN`. -/
def wideUpperCase : Bytes :=
  ascii "MATCH (m:Memory) WHERE m.note = '" ++ (List.replicate 9 (encodeRune 0x250)).flatten ++
    ascii "' RETURN m"

end Pcmi.Graph
