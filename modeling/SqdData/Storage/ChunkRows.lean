import SqdData.Storage.Content

/-!
# Rows that chunks carry

What is known of the rows of a table when its chunk is stored stays known. The tables of a stored
chunk do not change, and a compaction puts the rows of several chunks one after the other. So a
property of chunks and rows that holds of every chunk that is brought in, and that survives this
concatenation, holds of every stored chunk.
-/

namespace Storage

open List

/-- A kind of rows: the table they are in, the reader that finds them, and what the rows of one
chunk satisfy. The new chunk of a compaction satisfies it again. -/
structure RowKind where
  Row : Type
  table : String
  read : Table → Except Error (List Row)
  Fits : Chunk → List Row → Prop
  concatenative : Concatenative read
  merges : ∀ {merge : List Chunk} {newChunk : Chunk} {rowss : List (List Row)},
    Spans merge newChunk → chunkSegments.Apart merge → Forall₂ Fits merge rowss →
      Fits newChunk rowss.flatten

section Rows

variable [TableFormat] {db db' : Db} {dataset : DatasetId} {chunk : Chunk} {k : RowKind}

/-- The chunk carries rows of this kind: they can be read, they fit the chunk, and their table is
not sorted. A chunk without the table carries no rows. -/
structure RowKind.Held (k : RowKind) (db : Db) (chunk : Chunk) : Prop where
  unsorted : db.Unsorted k.table chunk
  rows : ∃ rows, db.scanTable chunk k.table k.read = .ok rows ∧ k.Fits chunk rows

instance (name : String) (db : Db) (chunk : Chunk) : Decidable (db.Unsorted name chunk) :=
  match h : getTableReader db chunk name with
  | .ok t => decidable_of_iff (t.sortKey = [])
      ⟨fun ht t' ht' => by rw [h] at ht'; cases ht'; exact ht, fun ha => ha t h⟩
  | .error _ => isTrue fun t' ht' => by rw [h] at ht'; cases ht'

instance (k : RowKind) [∀ chunk rows, Decidable (k.Fits chunk rows)] (db : Db) (chunk : Chunk) :
    Decidable (k.Held db chunk) :=
  match h : db.scanTable chunk k.table k.read with
  | .ok rows => decidable_of_iff (db.Unsorted k.table chunk ∧ k.Fits chunk rows)
      ⟨fun hh => ⟨hh.1, rows, h, hh.2⟩,
        fun hh => ⟨hh.unsorted, by
          obtain ⟨rows', hr, hf⟩ := hh.rows
          rw [h] at hr
          cases hr
          exact hf⟩⟩
  | .error _ => isFalse fun hh => by
    obtain ⟨_, hr, -⟩ := hh.rows
    rw [h] at hr
    cases hr

theorem RowKind.Held.of_cells (h : k.Held db chunk)
    (hc : ∀ id ∈ chunk.tables.values, db'.cells id = db.cells id) : k.Held db' chunk := by
  constructor
  · intro t ht
    rw [getTableReader_of_cells hc] at ht
    exact h.unsorted t ht
  · obtain ⟨rows, hr, hf⟩ := h.rows
    exact ⟨rows, by rw [scanTable_of_cells hc]; exact hr, hf⟩

theorem RowKind.Held.of_tables (h : k.Held db chunk) (ht : db'.tables = db.tables) :
    k.Held db' chunk :=
  h.of_cells fun id _ => Db.cells_of_tables ht id

/-- A list of chunks that carry rows has the rows of each. -/
theorem RowKind.rows_of_held {chunks : List Chunk} (h : ∀ chunk ∈ chunks, k.Held db chunk) :
    ∃ rowss, Forall₂ (fun chunk rows => db.scanTable chunk k.table k.read = .ok rows) chunks
      rowss ∧ Forall₂ k.Fits chunks rowss := by
  obtain ⟨rowss, hrw⟩ := exists_forall₂ fun chunk hc => (h chunk hc).rows
  exact ⟨rowss, hrw.imp fun _ _ hr => hr.1, hrw.imp fun _ _ hr => hr.2⟩

variable {s : Node}

/-- The chunk a compaction is about to commit carries what the planned chunks carry. -/
theorem Node.Snapshots.merged_held {run : Nat} {c : CompactionRun} {merge : List Chunk}
    {newChunk : Chunk} (h : s.Snapshots) (find : s.compactions.find? run = some c)
    (phase : c.phase = .built merge newChunk)
    (hs : ∀ chunk ∈ merge, chunk ∈ s.db.chunkSet c.dataset)
    (ha : chunkSegments.Apart merge) (hh : ∀ chunk ∈ merge, k.Held s.db chunk) :
    k.Held s.db newChunk := by
  obtain ⟨rowss, hrw, hf⟩ := RowKind.rows_of_held hh
  refine ⟨?_, rowss.flatten, ?_, k.merges (CompactionRun.spans phase) ha hf⟩
  · intro t ht
    obtain ⟨id, hid, hr⟩ := getTableReader_eq_ok.mp ht
    obtain ⟨-, htb⟩ := h.merged_tables find phase hs
    obtain ⟨_, _, hp, hm, hr'⟩ := htb k.table id hid
    cases hr.symm.trans hr'
    refine (mergeTables_concat ?_ hm).2
    intro last hlast
    obtain ⟨chunk, hc, hpr⟩ := forall₂_right hp last (mem_of_getLast? hlast)
    exact (hh chunk hc).unsorted last hpr
  · exact h.merged_scan find phase hs k.concatenative (fun chunk hc => (hh chunk hc).unsorted) hrw

/-! ### Where stored chunks come from -/

/-- How a chunk of the next state got there. -/
inductive Node.ChunkOrigin (s : Node) (op : NodeOp) (dataset : DatasetId) (chunk : Chunk)
    (db' : Db) : Prop where
  | stored (mem : chunk ∈ s.db.chunkSet dataset)
  | inserted (flags : IndexFlags) (edits : List Edit) (commit : Except Error Unit)
      (op_eq : op = .update dataset flags edits commit)
      (mem : ∃ edit ∈ edits, chunk ∈ edit.inserted) (tables : db'.tables = s.db.tables)
  | merged (run : Nat) (c : CompactionRun) (merge front back : List Chunk) (label : DatasetLabel)
      (find : s.compactions.find? run = some c) (phase : c.phase = .built merge chunk)
      (own : dataset = c.dataset)
      (effect : Compacted c.dataset merge chunk front back label s.db db')

variable {op : NodeOp}

theorem DbStep.chunkOrigin (h : DbStep s op db') (hch : chunk ∈ db'.chunkSet dataset) :
    s.ChunkOrigin op dataset chunk db' := by
  cases h with
  | same hsm => exact .stored (hsm.chunkSet ▸ hch)
  | @updated updated flags edits commit _ hu =>
    by_cases hd : dataset = updated
    · subst hd
      obtain ⟨upd, rfl, he⟩ := Db.update_edited hu
      rcases he.mem chunk hch with hold | hn
      · exact .stored hold
      · exact .inserted flags edits commit rfl hn he.tables
    · exact .stored ((Db.update_of_ne hd hu).2.1 ▸ hch)
  | @compacted run commit c merge newChunk front back label _ find phase effect =>
    by_cases hd : dataset = c.dataset
    · subst hd
      rcases effect.spliced.mem_iff.mp hch with ⟨hold, -⟩ | hn
      · exact .stored hold
      · cases hn
        exact .merged run c merge front back label find phase rfl effect
    · exact .stored (effect.chunkSet_of_ne dataset hd ▸ hch)
  | purgedStale => exact .stored hch
  | created => exact .stored hch
  | @dropped dropped commit label present lifecycle =>
    have hs := dropped_spliced s.db dropped
    by_cases hd : dataset = dropped
    · subst hd
      rcases hs.mem_iff.mp hch with ⟨hold, -⟩ | hn
      · exact .stored hold
      · cases hn
    · exact .stored (hs.others dataset hd ▸ hch)
  | purged => exact .stored hch
  | finished => exact .stored hch

/-! ### Runs that bring in known chunks -/

/-- Inputs in which every chunk that is brought in satisfies `P`. -/
def Node.Supplies (P : Db → Chunk → Prop) (s : Node) : NodeOp → Prop
  | .update _ _ edits _ => ∀ edit ∈ edits, ∀ chunk ∈ edit.inserted, P s.db chunk
  | _ => True

/-- Orderly inputs in which every chunk that is brought in satisfies `P`. -/
def Node.Fed (P : Db → Chunk → Prop) (s : Node) (op : NodeOp) : Prop :=
  s.Orderly op ∧ s.Supplies P op

instance (P : Db → Chunk → Prop) [∀ db chunk, Decidable (P db chunk)] (s : Node) (op : NodeOp) :
    Decidable (s.Supplies P op) := by
  apply NodeOp.casesOn (motive := fun op => Decidable (s.Supplies P op)) op <;> intros <;>
    dsimp only [Node.Supplies] <;> infer_instance

theorem Node.Fed.mono {P Q : Db → Chunk → Prop} (hPQ : ∀ db chunk, P db chunk → Q db chunk)
    (h : s.Fed P op) : s.Fed Q op := by
  refine ⟨h.1, ?_⟩
  cases op with
  | update => exact fun edit he chunk hc => hPQ _ _ (h.2 edit he chunk hc)
  | _ => trivial

theorem step_held {s' : Node} (hl : s.Lifecycle False) (hsn : s.Snapshots)
    (hh : ∀ dataset, ∀ chunk ∈ s.db.chunkSet dataset, k.Held s.db chunk)
    (hok : s.Supplies k.Held op) (hst : s.step op = some s') :
    ∀ dataset, ∀ chunk ∈ s'.db.chunkSet dataset, k.Held s'.db chunk := by
  intro dataset chunk hc
  cases (Node.step_dbStep hst).chunkOrigin hc with
  | stored mem =>
    refine (hh dataset chunk mem).of_cells fun id hid => ?_
    exact hl.step_cells_of_live ⟨dataset, chunk, mem, hid⟩ hst
  | inserted _ _ _ op_eq mem tables =>
    subst op_eq
    obtain ⟨edit, he, hm⟩ := mem
    exact (hok edit he chunk hm).of_tables tables
  | merged _ c merge _ _ _ find phase _ effect =>
    have hs : ∀ g ∈ merge, g ∈ s.db.chunkSet c.dataset := fun g hg => effect.spliced.stored hg
    have ha : chunkSegments.Apart merge := by
      have hd := hsn.disjoint c.dataset
      rw [Db.Disjoint, effect.split] at hd
      exact (pairwise_append.mp (pairwise_append.mp hd).1).2.1
    have hn := hsn.merged_held (k := k) find phase hs ha fun g hg => hh c.dataset g (hs g hg)
    exact hn.of_tables effect.tables

/-- Every stored chunk carries what every chunk brought in carries. -/
theorem reachable_held (h : Node.machine.Reachable (Node.Fed k.Held) s) :
    ∀ dataset, ∀ chunk ∈ s.db.chunkSet dataset, k.Held s.db chunk := by
  refine h.invariant
    (P := fun s => ∀ dataset, ∀ chunk ∈ s.db.chunkSet dataset, k.Held s.db chunk) ?_ ?_
  · rintro s rfl dataset chunk hc
    cases hc
  · intro s op s' hr hs hok hst
    have ho := hr.mono fun _ _ hok => hok.1
    exact step_held (orderly_lifecycle ho) (reachable_snapshots ho) hs hok.2 hst

/-- Only an update of the dataset, or its removal, changes what a scan of it finds. -/
theorem DbStep.scanDataset (h : DbStep s op db') (hsn : s.Snapshots)
    (hcl : ∀ id, s.db.Live id → db'.cells id = s.db.cells id)
    (hh : ∀ chunk ∈ s.db.chunkSet dataset, k.Held s.db chunk)
    (hop : ∀ flags edits commit, op ≠ .update dataset flags edits commit) :
    db'.scanDataset dataset k.table k.read = s.db.scanDataset dataset k.table k.read ∨
      db'.getLabel dataset = none ∧ ∃ commit, op = .dropDataset dataset commit := by
  have hsm : db'.chunkSet dataset = s.db.chunkSet dataset →
      db'.scanDataset dataset k.table k.read = s.db.scanDataset dataset k.table k.read ∨
        db'.getLabel dataset = none ∧ ∃ commit, op = .dropDataset dataset commit := by
    intro hc
    left
    unfold Db.scanDataset
    rw [Db.listChunks_all, Db.listChunks_all, hc]
    refine congrArg (· >>= fun parts => pure (flatten parts)) (mapM_congr fun chunk hm => ?_)
    refine scanTable_of_cells (fun id hid => ?_) _ _
    exact hcl id ⟨dataset, chunk, hm, hid⟩
  cases h with
  | same hdt => exact hsm hdt.chunkSet
  | @updated updated flags edits commit _ hu =>
    have hne : dataset ≠ updated := by
      rintro rfl
      exact hop flags edits commit rfl
    exact hsm (Db.update_of_ne hne hu).2.1
  | @compacted run commit c merge newChunk front back label _ find phase effect =>
    by_cases hd : dataset = c.dataset
    · subst hd
      have hs : ∀ g ∈ merge, g ∈ s.db.chunkSet c.dataset := fun g hg => effect.spliced.stored hg
      obtain ⟨_, hr, -⟩ := RowKind.rows_of_held fun g hg => hh g (hs g hg)
      have hn := hsn.merged_scan find phase hs k.concatenative
        (fun g hg => (hh g (hs g hg)).unsorted) hr
      exact Or.inl (Db.scanDataset_splice effect.split effect.chunkSet_self effect.tables hr hn)
    · exact hsm (effect.chunkSet_of_ne dataset hd)
  | purgedStale => exact hsm rfl
  | created => exact hsm rfl
  | @dropped dropped commit label present lifecycle =>
    by_cases hd : dataset = dropped
    · subst hd
      exact Or.inr ⟨Keyed.find?_erase_self _ _, commit, rfl⟩
    · exact hsm ((dropped_spliced s.db dropped).others dataset hd)
  | purged => exact hsm rfl
  | finished => exact hsm rfl

/-- Along a run that brings in chunks with such rows. -/
theorem step_scanDataset {s' : Node} (h : Node.machine.Reachable (Node.Fed k.Held) s)
    (hop : ∀ flags edits commit, op ≠ .update dataset flags edits commit)
    (hs : s.step op = some s') :
    s'.db.scanDataset dataset k.table k.read = s.db.scanDataset dataset k.table k.read ∨
      s'.db.getLabel dataset = none ∧ ∃ commit, op = .dropDataset dataset commit := by
  have ho := h.mono fun _ _ hok => hok.1
  refine (Node.step_dbStep hs).scanDataset (reachable_snapshots ho) ?_
    (reachable_held h dataset) hop
  exact fun id hid => (orderly_lifecycle ho).step_cells_of_live hid hs

end Rows

/-! ### Rows of blocks and transactions -/

/-- Rows of a `blocks` table: they lie in the range of the chunk, and the last one is its head. -/
structure BlocksFit (chunk : Chunk) (rows : List (Nat × Hash)) : Prop where
  within : ∀ row ∈ rows, chunk.firstBlock ≤ row.1 ∧ row.1 ≤ chunk.lastBlock
  last : rows.getLast? = some (chunk.lastBlock, chunk.lastBlockHash)

instance decidableBlocksFit (chunk : Chunk) (rows : List (Nat × Hash)) :
    Decidable (BlocksFit chunk rows) :=
  decidable_of_iff ((∀ row ∈ rows, chunk.firstBlock ≤ row.1 ∧ row.1 ≤ chunk.lastBlock) ∧
    rows.getLast? = some (chunk.lastBlock, chunk.lastBlockHash))
    ⟨fun h => ⟨h.1, h.2⟩, fun h => ⟨h.within, h.last⟩⟩

theorem BlocksFit.merge {merge : List Chunk} {newChunk : Chunk}
    {rowss : List (List (Nat × Hash))} (hs : Spans merge newChunk)
    (ha : chunkSegments.Apart merge) (hft : Forall₂ BlocksFit merge rowss) :
    BlocksFit newChunk rowss.flatten := by
  constructor
  · intro row hrw
    obtain ⟨rows, hr, hm⟩ := mem_flatten.mp hrw
    obtain ⟨chunk, hc, hfi⟩ := forall₂_right hft rows hr
    obtain ⟨_, _⟩ := hfi.within row hm
    have hf : newChunk.firstBlock ≤ chunk.firstBlock := by
      rw [hs.firstBlock]
      exact ha.head_le hs.nonempty hc
    have hlast : chunk.lastBlock ≤ newChunk.lastBlock := by
      rw [hs.lastBlock]
      exact ha.le_getLast hs.nonempty hc
    omega
  · have hne : rowss ≠ [] := by
      rintro rfl
      exact hs.nonempty (forall₂_nil_right_iff.mp hft)
    have he : BlocksFit (merge.getLast hs.nonempty) (rowss.getLast hne) :=
      forall₂_getLast hft hs.nonempty hne
    have hr : rowss.flatten = rowss.dropLast.flatten ++ rowss.getLast hne := by
      conv_lhs => rw [← dropLast_append_getLast hne]
      rw [flatten_append, flatten_singleton]
    rw [hr, getLast?_append, he.last, hs.lastBlock, hs.lastBlockHash]
    rfl

/-- The blocks of chunks, with what the head of a chunk says about them. -/
def blockRows : RowKind where
  Row := Nat × Hash
  table := "blocks"
  read := blockHashes
  Fits := BlocksFit
  concatenative := concatenative_blockHashes
  merges := BlocksFit.merge

instance (chunk : Chunk) (rows : List blockRows.Row) : Decidable (blockRows.Fits chunk rows) :=
  decidableBlocksFit chunk rows

def transactionRows : RowKind where
  Row := Nat × Nat × Hash
  table := "transactions"
  read := transactionHashes
  Fits := fun _ _ => True
  concatenative := concatenative_transactionHashes
  merges := fun _ _ _ => trivial

instance (chunk : Chunk) (rows : List transactionRows.Row) :
    Decidable (transactionRows.Fits chunk rows) :=
  isTrue trivial

end Storage
