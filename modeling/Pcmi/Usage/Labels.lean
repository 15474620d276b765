import Pcmi.Go.ValidUtf8
import Pcmi.Usage.Aggregator

/-!
# The labels of a metered call

`usage.Report` trims the operation, the provider and the model and cuts them at a number of bytes.
The counters and the database both want valid UTF-8, and the database no zero byte either.
-/

namespace Pcmi.Usage

open List
open Pcmi.Go

def maxLabelValueSize : Nat := 64

def label (v fallback : Bytes) : Bytes :=
  let v := trimSpace v
  if v = [] then fallback else v.take maxLabelValueSize

/-- An `Event` with its labels in bytes. -/
structure Metered where
  tenantId : String
  operation : Bytes
  provider : Bytes
  model : Bytes
  inputTokens : Int64
  outputTokens : Int64
  atTime : Time
  deriving DecidableEq

def Metered.labels (ev : Metered) : List Bytes := [ev.operation, ev.provider, ev.model]

def opUnknown : Bytes := ascii "unknown"

/-- The event that `Report` builds. -/
def newEvent (tenantId : String) (op provider model : Bytes) (inputTokens outputTokens : Int64)
    (now : Time) : Metered where
  tenantId := tenantId
  operation := label op opUnknown
  provider := label provider (ascii "unknown")
  model := label model (ascii "unknown")
  inputTokens := max inputTokens 0
  outputTokens := max outputTokens 0
  atTime := now

/-- The event that is recorded; `WithLabelValues` panics on a label that is not valid UTF-8. -/
def reportUsage (ev : Metered) : Option Metered :=
  if ∀ l ∈ ev.labels, ValidUtf8 l then some ev else none

/-- `character_not_in_repertoire`, or nothing. -/
def encodingError (ev : Metered) : Option DbError :=
  if ∀ l ∈ ev.labels, ValidUtf8 l ∧ 0 ∉ l then none else some (.pg "22021")

/-- `Flush` drops the row. -/
def droppedByFlush (ev : Metered) : Bool := (encodingError ev).any isPermanent

theorem stored_iff {ev : Metered} :
    reportUsage ev = some ev ∧ droppedByFlush ev = false ↔ ∀ l ∈ ev.labels, ValidUtf8 l ∧
      0 ∉ l := by
  unfold reportUsage droppedByFlush encodingError
  split_ifs with hvalid hstored hstored
  · exact iff_of_true ⟨rfl, rfl⟩ hstored
  · exact iff_of_false (fun h => by cases h.2) hstored
  · exact absurd (fun l hl => (hstored l hl).1) hvalid
  · exact iff_of_false nofun hstored

variable {v fallback op provider model : Bytes}

theorem label_eq_or_isPrefix (v fallback : Bytes) :
    label v fallback = fallback ∨ label v fallback <+: trimSpace v := by
  unfold label
  dsimp only
  split_ifs
  · exact .inl rfl
  · exact .inr ( take_prefix _ _)

/-- No zero byte is left, and no character is cut. -/
def Encodable (v : Bytes) : Prop :=
  (∀ b ∈ (trimSpace v)[maxLabelValueSize]?, runeStart b = true) ∧
    0 ∉ (trimSpace v).take maxLabelValueSize

theorem label_stored_iff (hv : ValidUtf8 v) :
    ValidUtf8 (label v (ascii "unknown")) ∧ 0 ∉ label v (ascii "unknown") ↔ Encodable v := by
  unfold label Encodable
  dsimp only
  split_ifs with hempty
  · rw [hempty]
    exact iff_of_true (by decide) ⟨nofun, nofun⟩
  · rw [validUtf8_take_iff (validUtf8_trimSpace hv)]

/-- **The labels of a call are valid, recorded and not dropped** exactly if each text leaves no zero
byte and is not cut inside a character. -/
theorem labels_stored_iff (tenantId : String) (inputTokens outputTokens : Int64) (now : Time)
    (hop : ValidUtf8 op) (hprovider : ValidUtf8 provider) (hmodel : ValidUtf8 model) :
    let ev := newEvent tenantId op provider model inputTokens outputTokens now
    ((∀ l ∈ ev.labels, ValidUtf8 l) ∧ reportUsage ev = some ev ∧ droppedByFlush ev = false ↔
        Encodable op ∧ Encodable provider ∧ Encodable model) ∧
      (ev.operation = opUnknown ∨ ev.operation <+: trimSpace op) ∧
      (ev.provider = ascii "unknown" ∨ ev.provider <+: trimSpace provider) ∧
      (ev.model = ascii "unknown" ∨ ev.model <+: trimSpace model) := by
  intro ev
  refine ⟨?_, label_eq_or_isPrefix _ _, label_eq_or_isPrefix _ _, label_eq_or_isPrefix _ _⟩
  rw [stored_iff, and_iff_right_of_imp fun h l hl => (h l hl).1]
  simp only [Metered.labels, forall_mem_cons, not_mem_nil, false_imp_iff, implies_true, and_true]
  exact and_congr (label_stored_iff hop)
    (and_congr (label_stored_iff hprovider) (label_stored_iff hmodel))

theorem labels_stored_embedding :
    let ev := newEvent "t" (ascii "embedding") [] (ascii " large ") 3 0 0
    reportUsage ev = some ev ∧ droppedByFlush ev = false := by
  have hop : ValidUtf8 (ascii "embedding") := by decide
  have hprovider : ValidUtf8 [] := by decide
  have hmodel : ValidUtf8 (ascii " large ") := by decide
  have h := (labels_stored_iff "t" 3 0 0 hop hprovider hmodel).1
  exact (h.mpr ⟨⟨nofun, by decide⟩, ⟨nofun, by decide⟩, nofun, by decide⟩).2

/-- The name of a model: the letter a and 32 times é, in 65 bytes. -/
def accents : Bytes := encode ('a' :: replicate 32 'é')

/-- The cut splits the last character, and the event is not recorded. One with a zero byte is
dropped. -/
theorem accents_cut :
    let ev := newEvent "t" (ascii "embedding") (ascii "openai")
    (ValidUtf8 accents ∧ ¬ ValidUtf8 (ev accents 3 0 0).model ∧ reportUsage (ev accents 3 0 0) =
      none ∧
        droppedByFlush (ev accents 3 0 0) = true) ∧
      ValidUtf8 [97, 0] ∧ reportUsage (ev [97, 0] 3 0 0) = some (ev [97, 0] 3 0 0) ∧
        droppedByFlush (ev [97, 0] 3 0 0) = true := by
  decide +kernel

end Pcmi.Usage
