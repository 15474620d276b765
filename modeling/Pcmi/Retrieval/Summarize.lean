import Pcmi.Go.Unmarshal
import Pcmi.Retention.Workers

/-!
# `SummarizeService.Summarize`

The service asks the repository for a number of memories and summarises all that it gets. Without a
query the repository returns one row more than it is asked for, for a cursor.
-/

namespace Pcmi.Retrieval

open List Pcmi.Go Pcmi.Memory Pcmi.Retention

structure SummarizeRequest where
  pathPrefix : String
  limit : Int
  style : String

inductive SummarizeMethod where
  | none | llm | extractive
  deriving DecidableEq

structure SummarizeResponse where
  pathPrefix : String
  summary : String
  sourceIds : List Nat
  method : SummarizeMethod
  total : Nat

/-- The path prefix and the limit after their defaults. -/
def SummarizeRequest.path (req : SummarizeRequest) : String :=
  if trimSpaceText req.pathPrefix = "" then "root" else trimSpaceText req.pathPrefix

def SummarizeRequest.bound (req : SummarizeRequest) : Int :=
  let limit := if req.limit ≤ 0 then 20 else req.limit
  if 100 < limit then 100 else limit

/-- The texts that the summariser is given. -/
def parts (entries : List Row) : List String :=
  (entries.map fun e => trimSpaceText e.content).filter (· ≠ "")

def extractiveSummary (parts : List String) (style : String) : String :=
  let combined := "\n\n".intercalate parts
  let maxLen := if foldName style = "detailed".toList then 1200 else 400
  if combined.utf8ByteSize ≤ maxLen then combined else truncateUtf8 combined maxLen ++ "…"

/-- What becomes of the entries; `llm` is `llmSummarize`, if any. -/
def respond (llm : Option (List String → String → Except String String)) (req : SummarizeRequest)
    (entries : List Row) : SummarizeResponse :=
  if entries = [] then ⟨req.path, "", [], .none, 0⟩
  else
    let ids := entries.map (·.id)
    match llm.bind fun llm => (llm (parts entries) req.style).toOption.filter (· ≠ "") with
    | some summary => ⟨req.path, summary, ids, .llm, entries.length⟩
    | none => ⟨req.path, extractiveSummary (parts entries) req.style, ids, .extractive,
        entries.length⟩

/-- `Summarize`, with the texts that it gives to the summariser. -/
def summarize (env : Env) (llm : Option (List String → String → Except String String))
    (tenantId : String) (rows : List Row) (req : SummarizeRequest) :
    Except String (List String × SummarizeResponse) :=
  match Retention.retrieve env tenantId req.path req.bound rows with
  | .error e => .error ("summarize retrieve: " ++ e)
  | .ok entries => .ok (parts entries, respond llm req entries)

variable {env : Env} {tenantId : String} {rows entries : List Row} {req : SummarizeRequest}
  {llm : Option (List String → String → Except String String)} {texts : List String}
  {resp : SummarizeResponse}

theorem respond_total (llm) (req : SummarizeRequest) (entries : List Row) :
    (respond llm req entries).total = entries.length ∧
      (respond llm req entries).sourceIds.length = entries.length := by
  unfold respond
  split_ifs with hempty
  · rw [hempty]
    exact ⟨rfl, rfl⟩
  · dsimp only
    split
    · exact ⟨rfl, length_map _⟩
    · exact ⟨rfl, length_map _⟩

theorem length_parts_le (entries : List Row) : (parts entries).length ≤ entries.length :=
  (length_filter_le _ _).trans_eq (length_map _)

/-- The repository returns one row more than the limit. -/
theorem length_retrieve (h : Retention.retrieve env tenantId req.path req.bound rows =
    .ok entries) :
    ∃ path, env.castLtree req.path = some path ∧
      (entries.length : Int) = min (req.bound + 1) (rows.countP (currentUnder tenantId path)) := by
  have htrim : (if trimSpaceText req.path = "" then "root" else trimSpaceText req.path) =
      req.path := by
    unfold SummarizeRequest.path
    by_cases hempty : trimSpaceText req.pathPrefix = ""
    · rw [if_pos hempty]
      decide
    · rw [if_neg hempty, trimSpaceText_trimSpaceText, if_neg hempty]
  have hbound : 1 ≤ req.bound ∧ req.bound ≤ 100 := by
    unfold SummarizeRequest.bound
    dsimp only
    omega
  unfold Retention.retrieve at h
  dsimp only at h
  rw [htrim] at h
  split at h
  · cases h
  next path hpath =>
  have hlength := (forall₂_of_scanAll h).length_eq
  rw [length_take, length_insertionSort, ← countP_eq_length_filter] at hlength
  exact ⟨path, hpath, by omega⟩

/-- **The limit bounds what is summarised exactly if there are no more memories.** -/
theorem summarize_bounded_iff
    (h : summarize env llm tenantId rows req = .ok (texts, resp)) :
    ∃ path, env.castLtree req.path = some path ∧ resp.sourceIds.length = resp.total ∧
      (texts.length ≤ req.bound ∧ resp.total ≤ req.bound ↔
        rows.countP (currentUnder tenantId path) ≤ req.bound) := by
  unfold summarize at h
  split at h <;> cases h
  next entries hentries =>
  obtain ⟨path, hpath, hlength⟩ := length_retrieve hentries
  obtain ⟨htotal, hids⟩ := respond_total llm req entries
  have hparts := length_parts_le entries
  rw [htotal, hids]
  exact ⟨path, hpath, rfl, by omega⟩

/-- A request for one memory. -/
def summarizeOne : SummarizeRequest := ⟨"x", 1, ""⟩

theorem summarize_bounded_one :
    ∃ resp, summarize dedupEnv none "t" [dedupRow 1 "x" "a"] summarizeOne = .ok (["a"], resp) ∧
      resp.total ≤ summarizeOne.bound := by
  have h : summarize dedupEnv none "t" [dedupRow 1 "x" "a"] summarizeOne =
      .ok (["a"], ⟨"x", "a", [1], .extractive, 1⟩) := by rfl
  obtain ⟨path, hpath, -, hiff⟩ := summarize_bounded_iff h
  cases hpath
  exact ⟨_, h, (hiff.mpr (by decide)).2⟩

/-- Two memories are there, and both are summarised. -/
theorem summarize_two_for_one :
    summarize dedupEnv none "t" [dedupRow 1 "x" "a", dedupRow 2 "x" "b"] summarizeOne =
        .ok (["b", "a"], ⟨"x", "b\n\na", [2, 1], .extractive, 2⟩) ∧
      summarizeOne.bound = 1 := by
  exact ⟨by rfl, rfl⟩

end Pcmi.Retrieval
