import Mathlib.Data.List.Nodup
import Pcmi.Audit.Canonical
import Pcmi.Lib.HashChain

/-!
# The head hash binds the history

A row hash is the digest of `prev_hash`, a newline and the canonical text, which splits in one way.
So an accepted chain from row `1` is a hash chain on the genesis hash.
-/

namespace Pcmi.Audit

open List Pcmi.Go Pcmi.Lib

variable {sum : Bytes → Bytes}

def Record.text (r : Record) : Bytes := canonical r.toFields

theorem newline_not_mem_hash (d text : Bytes) : 0x0A ∉ hash sum d text :=
  not_mem_encodeToString (by decide) _

theorem newline_not_mem_genesisHash : 0x0A ∉ genesisHash := by
  intro h
  exact absurd (eq_of_mem_replicate h) (by decide)

/-- The digested text determines the hash before the row and the row's text. -/
theorem hash_inj (hsum : Function.Injective sum) {d d' text text' : Bytes} (hd : 0x0A ∉ d)
    (hd' : 0x0A ∉ d') (h : hash sum d text = hash sum d' text') : d = d' ∧ text = text' :=
  append_sep_inj hd hd' (hsum (encodeToString_inj h))

/-- The last row hash is the head of the hash chain over the texts. -/
theorem ValidChain.foldl_hash {tenantId : Bytes} {rs : List Record} {r : Record}
    (h : ValidChain sum tenantId (rs ++ [r])) :
    ((rs ++ [r]).map Record.text).foldl (hash sum)
      (((rs ++ [r]).head?.map fun a => a.prevHash).getD []) = r.rowHash := by
  induction rs using List.reverseRecOn generalizing r with
  | nil => exact (h.hashed r mem_cons_self).symm
  | append_singleton rs a ih =>
    obtain ⟨ha, -, hhashed, hfollows⟩ := validChain_snoc_iff.mp h
    have hhead : ((rs ++ [a] ++ [r]).head?.map fun b => b.prevHash)
        = (rs ++ [a]).head?.map fun b => b.prevHash := by
      rw [head?_append_of_ne_nil _ (by simp)]
    rw [map_append, foldl_append, hhead, ih ha, ← hfollows.2]
    exact hhashed.symm

theorem ValidChain.head_prevHash {tenantId : Bytes} {rs : List Record} (hne : rs ≠ [])
    (h : ValidChain sum tenantId rs) (hfirst : ∀ r ∈ rs.head?, r.chainSeq = 1) :
    (rs.head?.map fun r => r.prevHash).getD [] = genesisHash := by
  obtain ⟨r, rs, rfl⟩ := exists_cons_of_ne_nil hne
  exact h.genesis r rfl (hfirst r rfl)

/-- The listed digest on the listed messages, without collisions. -/
def knownSum (known : List (Bytes × Bytes)) (message : Bytes) : Bytes :=
  match known.lookup message with
  | some digest => digest
  | none => List.replicate 33 0 ++ message

theorem mem_of_lookup {known : List (Bytes × Bytes)} {message digest : Bytes}
    (h : known.lookup message = some digest) : (message, digest) ∈ known := by
  induction known with
  | nil => cases h
  | cons p known ih =>
    rw [lookup_cons] at h
    split at h
    · next heq =>
      obtain rfl := eq_of_beq heq
      cases h
      exact mem_cons_self
    · exact mem_cons_of_mem _ (ih h)

theorem knownSum_injective {known : List (Bytes × Bytes)} (hlen : ∀ p ∈ known, p.2.length = 32)
    (hnodup : (known.map Prod.snd).Nodup) : Function.Injective (knownSum known) := by
  intro a b h
  unfold knownSum at h
  cases ha : known.lookup a with
  | some d =>
    cases hb : known.lookup b with
    | some d' =>
      rw [ha, hb] at h
      dsimp only at h
      subst h
      have hpair := inj_on_of_nodup_map hnodup (mem_of_lookup ha) (mem_of_lookup hb) rfl
      exact congrArg Prod.fst hpair
    | none =>
      rw [ha, hb] at h
      have hd := hlen _ (mem_of_lookup ha)
      have := congrArg List.length h
      simp only [length_append, length_replicate] at this hd
      omega
  | none =>
    cases hb : known.lookup b with
    | some d' =>
      rw [ha, hb] at h
      have hd := hlen _ (mem_of_lookup hb)
      have := congrArg List.length h
      simp only [length_append, length_replicate] at this hd
      omega
    | none =>
      rw [ha, hb] at h
      exact append_cancel_left h

def firstRecord : Record where
  toFields := requestFields 1 (ascii "/v1/memories") (ascii "POST")
  id := 1
  prevHash := genesisHash
  rowHash := ascii "7d46efd68eb0a2f53ed75cdfe2e96444009a254d67b88a0f2e488134696fdf7b"

def secondRecord : Record where
  toFields := requestFields 2 (ascii "/v1/search") (ascii "GET")
  id := 2
  prevHash := firstRecord.rowHash
  rowHash := ascii "f4c41a48a4eb7aae896a84485ef721aeaf14484861423ab5626bdb8e76e34c39"

def thirdRecord : Record where
  toFields := requestFields 3 (ascii "/v1/audit/verify") (ascii "GET")
  id := 3
  prevHash := secondRecord.rowHash
  rowHash := ascii "671397f48e9c97f36f8e1c8282e48359b2241a82f7221df146f934529ba0b84a"

/-- The digested message of a record, with its digest. -/
def Record.known (r : Record) : Bytes × Bytes :=
  (r.prevHash ++ 0x0A :: r.text, (decodeString r.rowHash).getD [])

def sampleSum : Bytes → Bytes :=
  knownSum [firstRecord.known, secondRecord.known, thirdRecord.known]

theorem sampleSum_injective : Function.Injective sampleSum := by
  refine knownSum_injective ?_ (by decide)
  simp only [forall_mem_cons, not_mem_nil, false_implies, implies_true, and_true]
  decide

end Pcmi.Audit
