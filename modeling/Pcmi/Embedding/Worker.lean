import Pcmi.Lib.Batches
import Pcmi.Values

/-!
# The embedding worker (`internal/worker/embedding.go`, `migrations/005_worker_helpers.sql`)

A run of `processPendingEmbeddings` takes the five oldest current rows without an embedding and asks
the provider for each. A row that fails keeps its place. The rows that wait are a queue served in
rounds of batches (`Pcmi.Lib.Queue`).
-/

namespace Pcmi.Embedding

open List Pcmi.Lib

/-- The columns of `memory_entries` that do not change here. -/
structure Entry where
  id : Int
  content : String
  tenantId : String
  createdAt : Time
  deriving DecidableEq

structure Row (E : Type) where
  entry : Entry
  validTo : Option Time
  embedding : Option E

/-- What the calls of one try of a row return. -/
structure Try (E : Type) where
  tenantSet : Bool
  generate : Except String E
  updated : Bool

/-- The table, and how often each row was tried. -/
structure State (E : Type) where
  table : List (Row E)
  tries : Entry → Nat

section

variable {E : Type}

def Row.pending (row : Row E) : Bool := row.embedding.isNone && row.validTo.isNone

/-- The rows of `list_pending_embeddings` without its order and its limit. -/
def pendingOf (table : List (Row E)) : List Entry :=
  (table.filter Row.pending).map fun row => row.entry

/-- `UPDATE memory_entries SET embedding = …`. -/
def setEmbedding (table : List (Row E)) (e : Entry) (emb : E) : List (Row E) :=
  table.map fun row =>
    if row.entry.id = e.id ∧ row.entry.tenantId = e.tenantId then
      { row with embedding := some emb }
    else row

/-- The body of the loop; `env e k` is try number `k` of row `e`. -/
def processRow (env : Entry → Nat → Try E) (s : State E) (e : Entry) : State E :=
  let t := env e (s.tries e)
  let s := { s with tries := Function.update s.tries e (s.tries e + 1) }
  if e.tenantId ≠ "" ∧ t.tenantSet = false then s
  else
    match t.generate with
    | .error _ => s
    | .ok emb => if t.updated then { s with table := setEmbedding s.table e emb } else s

def batchSize : Nat := 5

/-- `processPendingEmbeddings`: by `created_at`, ties in any order. -/
def ProcessPendingEmbeddings (env : Entry → Nat → Try E) (s s' : State E) : Prop :=
  ∃ arranged, Arranges (fun e : Entry => e.createdAt) (pendingOf s.table) arranged ∧
    s' = (arranged.take batchSize).foldl (processRow env) s

/-- Runs one after the other, with no other writer, from untried rows. -/
structure Runs (env : Entry → Nat → Try E) (table : List (Row E)) (run : Nat → State E) : Prop where
  start : run 0 = ⟨table, fun _ => 0⟩
  next : ∀ i, ProcessPendingEmbeddings env (run i) (run (i + 1))

def Try.saves (e : Entry) (t : Try E) : Bool :=
  (e.tenantId == "" || t.tenantSet) && t.generate.isOk && t.updated

def Embedded (s : State E) (e : Entry) : Prop :=
  ∃ row ∈ s.table, row.entry = e ∧ row.embedding.isSome = true

/-! ## The queue -/

def queueOf (s : State E) : Queue Entry := ⟨pendingOf s.table, s.tries⟩

def columns (table : List (Row E)) : List (Entry × Option Time) :=
  table.map fun row => (row.entry, row.validTo)

/-- A state of a table with these columns, in which `id` is the primary key. -/
structure Keeps (cols : List (Entry × Option Time)) (s : State E) : Prop where
  columns : columns s.table = cols
  ids : (cols.map fun c => c.1.id).Nodup

variable {s s' : State E} {e : Entry} {cols : List (Entry × Option Time)}
  {row : Row E}

theorem columns_setEmbedding (table : List (Row E)) (e : Entry) (emb : E) :
    columns (setEmbedding table e emb) = columns table := by
  unfold columns setEmbedding
  rw [map_map]
  refine map_congr_left fun row _ => ?_
  dsimp only [Function.comp_apply]
  split <;> rfl

theorem Keeps.mem_columns (h : Keeps cols s) (hrow : row ∈ s.table) :
    (row.entry, row.validTo) ∈ cols := by
  rw [← h.columns]
  exact mem_map_of_mem hrow

theorem Keeps.entry_eq (h : Keeps cols s) (hrow : row ∈ s.table) {c : Entry × Option Time}
    (hc : c ∈ cols) (hid : row.entry.id = c.1.id) : (row.entry, row.validTo) = c :=
  inj_on_of_nodup_map h.ids (h.mem_columns hrow) hc hid

variable {table : List (Row E)}

theorem mem_pendingOf :
    e ∈ pendingOf table ↔ ∃ row ∈ table, row.entry = e ∧ row.embedding = none ∧
      row.validTo = none := by
  simp [pendingOf, Row.pending, and_assoc, and_comm]

theorem pendingOf_setEmbedding {emb : E} (h : ∀ row ∈ table, row.entry.id = e.id → row.entry = e) :
    pendingOf (setEmbedding table e emb) = (pendingOf table).filter fun b => decide (b ≠ e) := by
  induction table with
  | nil => rfl
  | cons row table ih =>
    have ih := ih fun row hrow => h row (mem_cons_of_mem _ hrow)
    have hrow : row.entry.id = e.id ∧ row.entry.tenantId = e.tenantId ↔ row.entry = e :=
      ⟨fun hid => h row mem_cons_self hid.1, fun heq => by rw [heq]; exact ⟨rfl, rfl⟩⟩
    simp only [pendingOf, setEmbedding, map_cons, hrow, filter_cons] at ih ⊢
    split
    · next heq =>
      rw [if_neg (by simp [Row.pending]), ih]
      split <;> simp [heq]
    · next heq => split <;> simp [heq, ih]

theorem Keeps.queueOf_processRow (h : Keeps cols s) (env : Entry → Nat → Try E) {t : Option Time}
    (he : (e, t) ∈ cols) :
    queueOf (processRow env s e) = (queueOf s).attempt (fun e k => (env e k).saves e) e ∧
      Keeps cols (processRow env s e) := by
  have hid : ∀ row ∈ s.table, row.entry.id = e.id → row.entry = e := fun row hrow hid =>
    congrArg Prod.fst (h.entry_eq hrow he hid)
  unfold processRow
  dsimp only
  split
  · next hskip =>
    have hfails : (env e (s.tries e)).saves e = false := by simp [Try.saves, hskip]
    refine ⟨?_, h.columns, h.ids⟩
    simp [queueOf, Queue.attempt, hfails]
  next htenant =>
  split
  · next err hgenerate =>
    have hfails : (env e (s.tries e)).saves e = false := by
      simp [Try.saves, hgenerate, Except.isOk, Except.toBool]
    refine ⟨?_, h.columns, h.ids⟩
    simp [queueOf, Queue.attempt, hfails]
  next emb hgenerate =>
  split
  · next hupdated =>
    have hsaves : (env e (s.tries e)).saves e = true := by
      simpa [Try.saves, hgenerate, hupdated, Except.isOk, Except.toBool, or_iff_not_imp_left]
        using htenant
    refine ⟨?_, (columns_setEmbedding _ _ _).trans h.columns, h.ids⟩
    simp [queueOf, Queue.attempt, hsaves, pendingOf_setEmbedding hid]
  · next hupdated =>
    have hfails : (env e (s.tries e)).saves e = false := by simp [Try.saves, hupdated]
    refine ⟨?_, h.columns, h.ids⟩
    simp [queueOf, Queue.attempt, hfails]

theorem Keeps.queueOf_foldl {batch : List Entry} (h : Keeps cols s) (env : Entry → Nat → Try E)
    (hbatch : ∀ e ∈ batch, ∃ t, (e, t) ∈ cols) :
    queueOf (batch.foldl (processRow env) s) =
        (queueOf s).attemptAll (fun e k => (env e k).saves e) batch ∧
      Keeps cols (batch.foldl (processRow env) s) := by
  induction batch generalizing s with
  | nil => exact ⟨rfl, h⟩
  | cons e batch ih =>
    obtain ⟨hrow, hrest⟩ := forall_mem_cons.mp hbatch
    obtain ⟨t, ht⟩ := hrow
    obtain ⟨hqueue, hkeeps⟩ := h.queueOf_processRow env ht
    obtain ⟨hqueue', hkeeps'⟩ := ih hkeeps hrest
    refine ⟨hqueue'.trans ?_, hkeeps'⟩
    rw [hqueue]
    rfl

theorem Keeps.mem_of_pendingOf (h : Keeps cols s) (he : e ∈ pendingOf s.table) :
    (e, none) ∈ cols := by
  obtain ⟨row, hrow, rfl, -, hcurrent⟩ := mem_pendingOf.mp he
  have hmem := h.mem_columns hrow
  rwa [hcurrent] at hmem

theorem Keeps.queueOf_batch (h : Keeps cols s) (env : Entry → Nat → Try E) {arranged : List Entry}
    (harranged : Arranges (fun e : Entry => e.createdAt) (pendingOf s.table) arranged) :
    queueOf ((arranged.take batchSize).foldl (processRow env) s) =
        (queueOf s).attemptAll (fun e k => (env e k).saves e) (arranged.take batchSize) ∧
      Keeps cols ((arranged.take batchSize).foldl (processRow env) s) := by
  refine h.queueOf_foldl env fun e he => ⟨none, h.mem_of_pendingOf ?_⟩
  exact harranged.1.mem_iff.mp (mem_of_mem_take he)

abbrev PendingRound (env : Entry → Nat → Try E) : Queue Entry → Queue Entry → Prop :=
  Queue.Round (fun e : Entry => e.createdAt) batchSize fun e k => (env e k).saves e

variable {env : Entry → Nat → Try E}

/-- **A run is a round.** -/
theorem Keeps.round (h : Keeps cols s) (hstep : ProcessPendingEmbeddings env s s') :
    PendingRound env (queueOf s) (queueOf s') ∧ Keeps cols s' := by
  obtain ⟨arranged, harranged, rfl⟩ := hstep
  obtain ⟨hqueue, hkeeps⟩ := h.queueOf_batch env harranged
  exact ⟨⟨arranged, harranged, hqueue⟩, hkeeps⟩

/-- Every round of the queue is that of some run. -/
theorem Keeps.exists_run (h : Keeps cols s) {w : Queue Entry}
    (hround : PendingRound env (queueOf s) w) :
    ∃ s', ProcessPendingEmbeddings env s s' ∧ Keeps cols s' ∧ queueOf s' = w := by
  obtain ⟨arranged, harranged, rfl⟩ := hround
  obtain ⟨hqueue, hkeeps⟩ := h.queueOf_batch env harranged
  exact ⟨_, ⟨arranged, harranged, rfl⟩, hkeeps, hqueue⟩

theorem Keeps.embedded_iff (h : Keeps cols s) (he : (e, none) ∈ cols) :
    Embedded s e ↔ e ∉ pendingOf s.table := by
  constructor
  · rintro ⟨row, hrow, hentry, hembedding⟩ hpending
    obtain ⟨row', hrow', hentry', hnone, -⟩ := mem_pendingOf.mp hpending
    have hids : (s.table.map fun row => row.entry.id).Nodup := by
      have := h.ids
      rw [← h.columns, Embedding.columns, map_map] at this
      exact this
    have hsame : row = row' := inj_on_of_nodup_map hids hrow hrow' (by rw [hentry, hentry'])
    rw [hsame, hnone] at hembedding
    cases hembedding
  · intro hpending
    rw [← h.columns] at he
    obtain ⟨row, hrow, hcols⟩ := mem_map.mp he
    obtain ⟨hentry, hcurrent⟩ := Prod.mk.inj hcols
    refine ⟨row, hrow, hentry, Option.isSome_iff_ne_none.mpr fun hnone => hpending ?_⟩
    exact mem_pendingOf.mpr ⟨row, hrow, hentry, hnone, hcurrent⟩

theorem nodup_pendingOf (hids : (table.map fun row => row.entry.id).Nodup) :
    (pendingOf table).Nodup := by
  have hentries : (table.map fun row => row.entry).Nodup := by
    refine Nodup.of_map (fun e : Entry => e.id) ?_
    rwa [map_map]
  exact hentries.sublist (filter_sublist.map _)

theorem keeps_start (hids : (table.map fun row => row.entry.id).Nodup) :
    Keeps (columns table) (⟨table, fun _ => 0⟩ : State E) := by
  refine ⟨rfl, ?_⟩
  rwa [columns, map_map]

theorem Runs.keeps {run : Nat → State E} (h : Runs env table run)
    (hids : (table.map fun row => row.entry.id).Nodup) (i : Nat) :
    Keeps (columns table) (run i) := by
  induction i with
  | zero => exact h.start ▸ keeps_start hids
  | succ i ih => exact (ih.round (h.next i)).2

/-- A row is embedded if it leaves the queue in every sequence of rounds. -/
theorem embedded_iff_leaves (hids : (table.map fun row => row.entry.id).Nodup) {r : Entry}
    (hr : r ∈ pendingOf table) :
    (∀ run, Runs env table run → ∃ i, Embedded (run i) r) ↔
      ∀ run : Nat → Queue Entry, run 0 = ⟨pendingOf table, fun _ => 0⟩ →
        (∀ i, PendingRound env (run i) (run (i + 1))) → ∃ i, r ∉ (run i).waiting := by
  have hkeeps := keeps_start hids
  have hcurrent := hkeeps.mem_of_pendingOf hr
  constructor
  · intro h run hstart hrun
    obtain ⟨run', hstart', hsteps, hviews⟩ := exists_lift
      (fun s w (hs : Keeps (columns table) s) hround => hs.exists_run hround) hrun hkeeps
      hstart.symm
    have hruns : Runs env table run' := ⟨hstart', hsteps⟩
    obtain ⟨i, hi⟩ := h run' hruns
    refine ⟨i, ?_⟩
    rw [← hviews i]
    exact ((hruns.keeps hids i).embedded_iff hcurrent).mp hi
  · intro h run hrun
    obtain ⟨i, hi⟩ := h (fun i => queueOf (run i)) (by rw [hrun.start]; rfl)
      fun i => ((hrun.keeps hids i).round (hrun.next i)).1
    exact ⟨i, ((hrun.keeps hids i).embedded_iff hcurrent).mpr hi⟩

/-- **A row whose tries would all succeed is embedded** exactly if fewer than five others that are
not younger fail at every try. -/
theorem embedding_progress_iff (env : Entry → Nat → Try E) (table : List (Row E))
    (hids : (table.map fun row => row.entry.id).Nodup) (r : Entry) (hr : r ∈ pendingOf table)
    (haccepted : ∀ k, (env r k).saves r = true) :
    (∀ run, Runs env table run → ∃ i, Embedded (run i) r) ↔
      ∀ qs : List Entry, qs.Nodup →
        (∀ q ∈ qs, q ∈ pendingOf table ∧ q ≠ r ∧ q.createdAt ≤ r.createdAt ∧
          ∀ k, (env q k).saves q = false) → qs.length < 5 :=
  (embedded_iff_leaves hids hr).trans (Queue.leaves_iff (nodup_pendingOf hids) hr haccepted)

end

def pendingRow (id : Int) : Row Unit := ⟨⟨id, "text", "t", id * second⟩, none, none⟩

def acceptsOnly (id : Int) (e : Entry) (_ : Nat) : Try Unit :=
  ⟨true, if e.id = id then .ok () else .error "content rejected", true⟩

theorem embedding_progress_iff_behind_one :
    pendingOf [pendingRow 1, pendingRow 2] = [(pendingRow 1).entry, (pendingRow 2).entry] ∧
      ∀ run, Runs (acceptsOnly 2) [pendingRow 1, pendingRow 2] run →
        ∃ i, Embedded (run i) (pendingRow 2).entry := by
  have hpending : pendingOf [pendingRow 1, pendingRow 2] =
      [(pendingRow 1).entry, (pendingRow 2).entry] := rfl
  refine ⟨hpending, ?_⟩
  refine (embedding_progress_iff (acceptsOnly 2) [pendingRow 1, pendingRow 2] (by decide)
    (pendingRow 2).entry (by simp [hpending]) fun _ => rfl).mpr fun qs hqs hfail => ?_
  have hle : qs.length ≤ 2 := by
    refine (subperm_of_subset hqs fun q hq => ?_).length_le.trans_eq (congrArg _ hpending)
    exact (hfail q hq).1
  omega

/-- Five rows that the provider rejects fill every batch. -/
theorem embedding_starves_behind_five :
    ¬ ∀ run, Runs (acceptsOnly 6) [pendingRow 1, pendingRow 2, pendingRow 3, pendingRow 4,
        pendingRow 5, pendingRow 6] run → ∃ i, Embedded (run i) (pendingRow 6).entry := by
  obtain ⟨rows, hrows⟩ : ∃ rows, [pendingRow 1, pendingRow 2, pendingRow 3, pendingRow 4,
    pendingRow 5, pendingRow 6] = rows := ⟨_, rfl⟩
  have hids : (rows.map fun row => row.entry.id).Nodup := by
    rw [← hrows]
    decide
  have hr : (pendingRow 6).entry ∈ pendingOf rows := by
    rw [← hrows]
    decide
  have hold : ∀ q ∈ [1, 2, 3, 4, 5].map fun n => (pendingRow n).entry, q ∈ pendingOf rows ∧
      q ≠ (pendingRow 6).entry ∧ q.createdAt ≤ (pendingRow 6).entry.createdAt ∧ q.id ≠ 6 := by
    rw [← hrows]
    decide
  rw [hrows]
  intro h
  have hfew := (Queue.leaves_iff (nodup_pendingOf hids) hr fun _ => rfl).mp
    ((embedded_iff_leaves hids hr).mp h)
  refine absurd (hfew ([1, 2, 3, 4, 5].map fun n => (pendingRow n).entry) (by decide) fun q hq =>
    ?_) (by decide)
  obtain ⟨hmem, hne, hle, hid⟩ := hold q hq
  refine ⟨hmem, hne, hle, fun k => ?_⟩
  simp [acceptsOnly, Try.saves, hid, Except.isOk, Except.toBool]

end Pcmi.Embedding
