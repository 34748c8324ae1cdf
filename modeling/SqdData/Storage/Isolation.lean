import SqdData.Storage.Keys
import SqdData.Storage.Snapshots

/-!
# Isolation of datasets

The families are shared by all datasets, so that an operation on one dataset could touch the
entries of another. It does not: a step of the node leaves a dataset it does not work on as it was,
its label, its chunks, the hashes that resolve in it and the cells of its tables. A purge of the
hash indexes that stops between two batches and is started again later is a run of such steps.
-/

namespace Storage

variable {dataset other : DatasetId} {db db' : Db}

section HashIndex

variable {ν : Type} {index : Shelved DatasetId (hashPos : Hash × ν → Hash)}

theorem owned_filter_of_ne (hne : other ≠ dataset) :
    Keyed.owned (index.filter fun e => e.1 ≠ dataset) other = index.owned other := by
  apply Keyed.ext
  intro entry
  simp [hne]

/-- A lookup sees the entries of its own dataset only. -/
theorem get?_eq_owned (index : Shelved DatasetId (hashPos : Hash × ν → Hash)) (hash : Hash) :
    index.get? (toLex (dataset, hash)) =
      ((index.owned dataset).get? hash).map fun entry => (dataset, entry) := by
  apply Option.ext
  rintro ⟨_, entry⟩
  simp only [Keyed.get?_eq_some, Option.map_eq_some_iff, Prod.mk.injEq, shelfKey_eq_iff,
    Keyed.mem_owned]
  constructor
  · rintro ⟨hm, rfl, hh⟩
    exact ⟨entry, ⟨hm, hh⟩, rfl, rfl⟩
  · rintro ⟨_, ⟨hm, hh⟩, rfl, rfl⟩
    exact ⟨hm, rfl, hh⟩

end HashIndex

namespace Db

theorem purgeHashBatch_sameHashes (hne : other ≠ dataset) (blocks transactions : List Hash) :
    SameHashes other db (db.purgeHashBatch dataset blocks transactions) :=
  ⟨owned_eraseEntries_of_ne hne blocks, owned_eraseEntries_of_ne hne transactions⟩

theorem purgeHashIndexes_sameHashes (hne : other ≠ dataset) :
    SameHashes other db (db.purgeHashIndexes dataset) :=
  ⟨owned_filter_of_ne hne, owned_filter_of_ne hne⟩

theorem purgeStaleHashIndexes_sameHashes (hne : other ≠ dataset) :
    SameHashes other db (db.purgeStaleHashIndexes dataset) := by
  unfold purgeStaleHashIndexes
  split
  · exact .refl other db
  · exact purgeHashIndexes_sameHashes hne

theorem foldl_deleteChunk_sameHashes (chunks : List Chunk) :
    SameHashes other db (chunks.foldl (fun db c => db.deleteChunk dataset c) db) := by
  induction chunks generalizing db with
  | nil => exact .refl other db
  | cons _ _ ih => exact deleteChunk_sameHashes.trans ih

end Db

/-- The entries of `dataset` are the same in all families but the one of tables. -/
structure Spared (dataset : DatasetId) (db db' : Db) : Prop where
  label : db'.getLabel dataset = db.getLabel dataset
  chunks : db'.chunkSet dataset = db.chunkSet dataset
  hashes : SameHashes dataset db db'

theorem Spared.refl (dataset : DatasetId) (db : Db) : Spared dataset db db :=
  ⟨rfl, rfl, .refl dataset db⟩

theorem Spared.trans {db₁ db₂ db₃ : Db} (h : Spared dataset db₁ db₂)
    (h' : Spared dataset db₂ db₃) : Spared dataset db₁ db₃ :=
  ⟨h'.label.trans h.label, h'.chunks.trans h.chunks, h.hashes.trans h'.hashes⟩

variable (h : Spared dataset db db')

include h

theorem Spared.findBlockByHash (hash : Hash) :
    db'.findBlockByHash dataset hash = db.findBlockByHash dataset hash := by
  simp only [Db.findBlockByHash, Db.hasDataset, h.label, get?_eq_owned, h.hashes.blockHashes]

theorem Spared.findTransactionByHash (hash : Hash) :
    db'.findTransactionByHash dataset hash = db.findTransactionByHash dataset hash := by
  simp only [Db.findTransactionByHash, Db.hasDataset, h.label, get?_eq_owned,
    h.hashes.transactionHashes]

theorem Spared.listChunks (fromBlock : Nat) (toBlock : Option Nat) :
    db'.listChunks dataset fromBlock toBlock = db.listChunks dataset fromBlock toBlock := by
  rw [Db.listChunks_eq, Db.listChunks_eq, h.chunks]

theorem Spared.listChunksReversed (fromBlock : Nat) (toBlock : Option Nat) :
    db'.listChunksReversed dataset fromBlock toBlock =
      db.listChunksReversed dataset fromBlock toBlock := by
  rw [Db.listChunksReversed_eq, Db.listChunksReversed_eq, h.chunks]

omit h

theorem SameData.spared (h : SameData db db') : Spared dataset db db' where
  label := h.getLabel
  chunks := h.chunkSet
  hashes := ⟨by rw [h.blockHashes], by rw [h.transactionHashes]⟩

theorem Db.purgeStaleHashIndexes_spared (hne : other ≠ dataset) :
    Spared other db (db.purgeStaleHashIndexes dataset) where
  label := Node.getLabel_purgeStaleHashIndexes db dataset other
  chunks := by
    unfold Db.purgeStaleHashIndexes
    split <;> rfl
  hashes := Db.purgeStaleHashIndexes_sameHashes hne

/-- Creating a dataset purges its own stale hashes and writes its own label. -/
theorem created_spared {label : DatasetLabel} (hne : other ≠ dataset)
    (hdb : db' = db.purgeStaleHashIndexes dataset ∨
      db' = (db.purgeStaleHashIndexes dataset).writeLabel dataset label) : Spared other db db' := by
  have hp : Spared other db (db.purgeStaleHashIndexes dataset) :=
    Db.purgeStaleHashIndexes_spared hne
  rcases hdb with rfl | rfl
  · exact hp
  · exact ⟨(Db.getLabel_writeLabel_of_ne hne).trans hp.label, hp.chunks,
      ⟨hp.hashes.blockHashes, hp.hashes.transactionHashes⟩⟩

theorem dropped_spared (hne : other ≠ dataset) (chunks : List Chunk) :
    Spared other db
      ((chunks.foldl (fun db c => db.deleteChunk dataset c) db).deleteLabel dataset) where
  label := by
    have hr := Db.foldl_deleteChunk_removed dataset chunks db
    unfold Db.getLabel
    rw [← hr.datasets]
    exact Keyed.find?_erase_of_ne hne
  chunks := (Db.foldl_deleteChunk_removed dataset chunks db).chunkSet_of_ne hne
  hashes := by
    have h : SameHashes other db (chunks.foldl (fun db c => db.deleteChunk dataset c) db) :=
      Db.foldl_deleteChunk_sameHashes chunks
    exact ⟨h.blockHashes, h.transactionHashes⟩

section Steps

variable [TableFormat]

namespace Node

variable {s s' : Node} {op : NodeOp} {ops : List NodeOp}

/-- The dataset an input works on, for the inputs that are about one. -/
def target (s : Node) : NodeOp → Option DatasetId
  | .update dataset _ _ _ => some dataset
  | .compactionStart _ dataset _ => some dataset
  | .compactionBuild run _ => (s.compactions.find? run).map CompactionRun.dataset
  | .compactionStop run => (s.compactions.find? run).map CompactionRun.dataset
  | .compactionCommit run _ => (s.compactions.find? run).map CompactionRun.dataset
  | .compactionAbandon run _ => (s.compactions.find? run).map CompactionRun.dataset
  | .createDataset dataset _ _ => some dataset
  | .createDatasetIfNotExists dataset _ _ => some dataset
  | .dropDataset dataset _ => some dataset
  | .purgeHashBatch _ _ => s.lifecycle
  | .finishDrop => s.lifecycle
  | _ => none

theorem Step.spared (h : Step s op s') (ht : s.target op ≠ some dataset) :
    Spared dataset s.db s'.db := by
  cases h with
  | flush batch => exact (writeBatch_same batch).spared
  | finishTable batch => exact (writeBatch_same batch).spared
  | @update updated flags edits commit serving =>
    have hne : dataset ≠ updated := fun h => ht (congrArg some h.symm)
    cases hu : s.db.update updated flags edits commit with
    | error => exact (SameData.refl _).spared
    | ok =>
      obtain ⟨hl, hc, hh⟩ := Db.update_of_ne hne hu
      exact ⟨hl, hc, hh⟩
  | deleteTables => exact deleteTables_same.spared
  | @compactionCommit run commit c merge front back newChunk label db' find phase effect =>
    have hne : dataset ≠ c.dataset := by
      intro h
      apply ht
      rw [target, find, h]
      rfl
    refine ⟨?_, effect.chunkSet_of_ne dataset hne, ?_⟩
    · unfold Db.getLabel
      rw [effect.datasets, Keyed.find?_put_of_ne hne]
    · exact ⟨by rw [effect.blockHashes], by rw [effect.transactionHashes]⟩
  | compactionAbandon => exact deleteTables_same.spared
  | @createDataset created kind commit lifecycle =>
    have hne : dataset ≠ created := fun h => ht (congrArg some h.symm)
    exact created_spared hne (createDatasetTx_cases.imp_right And.right)
  | @createDatasetIfNotExists created kind commit lifecycle =>
    have hne : dataset ≠ created := fun h => ht (congrArg some h.symm)
    dsimp only
    rw [createDatasetIfNotExists_db]
    exact created_spared hne (createDatasetIfNotExistsTx_cases.imp_right And.right)
  | @dropDataset dropped commit label lifecycle present =>
    have hne : dataset ≠ dropped := fun h => ht (congrArg some h.symm)
    exact dropped_spared hne _
  | @purgeHashBatch purged blocks transactions lifecycle =>
    have hne : dataset ≠ purged := fun h => ht (lifecycle.trans (congrArg some h.symm))
    exact ⟨rfl, rfl, Db.purgeHashBatch_sameHashes hne blocks transactions⟩
  | @finishDrop purged lifecycle =>
    have hne : dataset ≠ purged := fun h => ht (lifecycle.trans (congrArg some h.symm))
    exact ⟨rfl, rfl, Db.purgeHashIndexes_sameHashes hne⟩
  | _ => exact SameData.spared ⟨rfl, rfl, rfl, rfl⟩

/-- A run that never works on a dataset leaves its entries as they were. -/
theorem run_spared (ht : Node.machine.RunOk (fun s op => s.target op ≠ some dataset) s ops)
    (hr : Node.machine.run s ops = some s') : Spared dataset s.db s'.db := by
  induction ops generalizing s with
  | nil =>
    cases hr
    exact .refl dataset _
  | cons _ _ ih =>
    obtain ⟨s₁, hs, hr⟩ := Option.bind_eq_some_iff.mp hr
    exact ((step_cases hs).spared ht.1).trans (ih (ht.2 s₁ hs) hr)

/-- Nor does it change a cell of a table that the dataset refers to. -/
theorem run_cells (hl : s.Lifecycle False)
    (ht : Node.machine.RunOk (fun s op => s.target op ≠ some dataset) s ops)
    (hok : Node.machine.RunOk Node.Disciplined s ops)
    (hr : Node.machine.run s ops = some s') {chunk : Chunk} (hc : chunk ∈ s.db.chunkSet dataset)
    {id : TableId} (hid : id ∈ chunk.tables.values) : s'.db.cells id = s.db.cells id := by
  induction ops generalizing s with
  | nil =>
    cases hr
    rfl
  | cons _ _ ih =>
    obtain ⟨s₁, hs, hr⟩ := Option.bind_eq_some_iff.mp hr
    have hlv : s.db.Live id := ⟨dataset, chunk, hc, hid⟩
    obtain ⟨-, -, hp, hi⟩ := hl.of_live hlv
    have hch := ((step_cases hs).spared ht.1).chunks
    calc s'.db.cells id = s₁.db.cells id :=
          ih (hl.step hok.1 False.elim hs) (ht.2 s₁ hs) (hok.2 s₁ hs) hr (hch ▸ hc)
      _ = s.db.cells id := step_cells hi hp (Or.inl hlv) hs

end Node

section Listings

variable {cf cf' : ChunksFamily} {a b : Sid} {fromBlock : Nat} {toBlock : Option Nat}

omit [TableFormat] in
/-- What a listing of `a` yields is stored under a key of `a`, and under no key of `b`. -/
theorem Db.HasChunks.of_mem (h : db.HasChunks cf) (hab : a ≠ b) {c : Chunk}
    (hc : c ∈ db.chunkSet a.asStr) :
    (chunkId a c.lastBlock, c) ∈ cf ∧ ∀ n, chunkId a c.lastBlock ≠ chunkId b n := by
  refine ⟨?_, fun n heq => hab (eq_of_chunkId_eq heq)⟩
  rw [← encodeChunk_asStr]
  exact (h.image _).mpr ⟨_, Keyed.mem_owned.mp hc, rfl⟩

omit [TableFormat] in
theorem Db.mem_chunkSet_of_listed {c : Chunk} (hc : c ∈ db.listChunks dataset fromBlock toBlock ∨
      c ∈ db.listChunksReversed dataset fromBlock toBlock) : c ∈ db.chunkSet dataset := by
  rw [Db.listChunks_eq, Db.listChunksReversed_eq] at hc
  rcases hc with hc | hc
  · exact (List.mem_filter.mp ((List.takeWhile_sublist _).subset hc)).1
  · have := (List.takeWhile_sublist _).subset hc
    exact (List.mem_filter.mp (List.mem_reverse.mp this)).1

omit [TableFormat] in
theorem Db.HasChunks.getFirstChunk_eq (h : db.HasChunks cf) (a : Sid) :
    cf.getFirstChunk a = .ok (db.getFirstChunk a.asStr) := by
  rw [ChunksFamily.getFirstChunk, h.listChunks_eq a (Nat.zero_le _)]
  rfl

omit [TableFormat] in
theorem Db.HasChunks.getLastChunk_eq (h : db.HasChunks cf) (a : Sid) :
    cf.getLastChunk a = .ok (db.getLastChunk a.asStr) := by
  rw [ChunksFamily.getLastChunk, h.listChunksReversed_eq a (by simp)]
  rfl

end Listings

/-- What readers of `dataset` find is the same in `db` and `db'`. -/
structure SameReads (dataset : DatasetId) (db db' : Db) : Prop where
  label : db'.getLabel dataset = db.getLabel dataset
  chunks : db'.chunkSet dataset = db.chunkSet dataset
  listing : ∀ fromBlock toBlock,
    db'.listChunks dataset fromBlock toBlock = db.listChunks dataset fromBlock toBlock ∧
      db'.listChunksReversed dataset fromBlock toBlock =
        db.listChunksReversed dataset fromBlock toBlock
  blocks : ∀ hash, db'.findBlockByHash dataset hash = db.findBlockByHash dataset hash
  transactions : ∀ hash,
    db'.findTransactionByHash dataset hash = db.findTransactionByHash dataset hash

/-- A run that works on other datasets only leaves a dataset as it was, down to the cells of its
tables where table ids are drawn once. Over the byte keys of the families the same separation is
seen from the other side: the reads of `a` yield entries under keys of `a`, and a purge of `a`,
wherever it stops, keeps the entries of `b`. -/
theorem datasets_are_isolated {a b : Sid} (hab : a ≠ b) {s s' : Node} {ops : List NodeOp}
    (htarget : Node.machine.RunOk (fun s op => s.target op ≠ some b.asStr) s ops)
    (hrun : Node.machine.run s ops = some s') :
    SameReads b.asStr s.db s'.db ∧
      (Node.machine.Reachable Node.Disciplined s → Node.machine.RunOk Node.Disciplined s ops →
        ∀ chunk ∈ s.db.chunkSet b.asStr, ∀ id ∈ chunk.tables.values,
          s'.db.cells id = s.db.cells id) ∧
      (∀ db cf, Db.HasChunks db cf → ∀ fromBlock toBlock, fromBlock ≤ maxBlockNumber →
        (∀ stop ∈ toBlock, stop ≤ maxBlockNumber) →
        ∃ up down first last, cf.listChunks a fromBlock toBlock = .ok up ∧
          cf.listChunksReversed a fromBlock toBlock = .ok down ∧
          cf.getFirstChunk a = .ok first ∧ cf.getLastChunk a = .ok last ∧
          ∀ c, (c ∈ up ∨ c ∈ down ∨ c ∈ first ∨ c ∈ last) →
            c ∈ db.chunkSet a.asStr ∧ (chunkId a c.lastBlock, c) ∈ cf ∧
              ∀ n, chunkId a c.lastBlock ≠ chunkId b n) ∧
      ∀ (ν : Type) (cf : Keyed.Map ByteKeys.Key ν) batches hash value,
        (hashIndexKey b hash, value) ∈ purgeHashIndex cf a batches ↔
          (hashIndexKey b hash, value) ∈ cf := by
  have hs := Node.run_spared htarget hrun
  refine ⟨⟨hs.label, hs.chunks, fun fromBlock toBlock => ?_, hs.findBlockByHash,
    hs.findTransactionByHash⟩, ?_, ?_, ?_⟩
  · exact ⟨hs.listChunks fromBlock toBlock, hs.listChunksReversed fromBlock toBlock⟩
  · intro hr hok chunk hch id hid
    exact Node.run_cells (reachable_lifecycle hr) htarget hok hrun hch hid
  · intro db cf hcf fromBlock toBlock hf hto
    refine ⟨_, _, _, _, hcf.listChunks_eq a hf, hcf.listChunksReversed_eq a hto,
      hcf.getFirstChunk_eq a, hcf.getLastChunk_eq a, fun c hc => ?_⟩
    have hm : c ∈ db.chunkSet a.asStr := by
      rcases hc with hc | hc | hc | hc
      · exact Db.mem_chunkSet_of_listed (Or.inl hc)
      · exact Db.mem_chunkSet_of_listed (Or.inr hc)
      · exact Db.mem_chunkSet_of_listed (Or.inl (List.mem_of_mem_head? hc))
      · exact Db.mem_chunkSet_of_listed (Or.inr (List.mem_of_mem_head? hc))
    exact ⟨hm, hcf.of_mem hab hm⟩
  · intro ν cf batches hash value
    exact mem_purgeHashIndex_of_ne hab.symm batches hash value

end Steps

/-! Two datasets whose ids start alike. One is dropped, its purge is cut off and repeated. -/

section Sample

local instance : TableFormat := catalogFormat []

def mainId : Sid := ⟨ByteKeys.pad 0 48 [109, 97, 105, 110], by decide, by decide +kernel,
  by decide +kernel⟩

def mainId2 : Sid := ⟨ByteKeys.pad 0 48 [109, 97, 105, 110, 50], by decide, by decide +kernel,
  by decide +kernel⟩

def twoDatasets : List NodeOp :=
  [.serve, .createDataset "main" "evm" (.ok ()), .createDataset "main2" "evm" (.ok ()),
    .openTable 7, .flush 7 [(.schema, [1])], .finishTable 7 [(.page 0 0, [2])], .closeTable 7,
    .update "main2" ⟨false, false⟩ [.insertFork (sampleChunk 7)] (.ok ())]

def dropTwice : List NodeOp :=
  [.dropDataset "main" (.ok ()), .purgeHashBatch ["0x0"] [], .crash, .dropDataset "main" (.ok ()),
    .finishDrop, .scanDeleted]

def twoDatasetsNode : Node :=
  (Node.machine.run (Node.start Db.empty []) twoDatasets).getD (Node.start Db.empty [])

def droppedNode : Node := (Node.machine.run twoDatasetsNode dropTwice).getD twoDatasetsNode

theorem main2_survives_main :
    mainId.asStr = "main" ∧ mainId2.asStr = "main2" ∧
      Node.machine.run (Node.start Db.empty []) twoDatasets = some twoDatasetsNode ∧
      Node.machine.run twoDatasetsNode dropTwice = some droppedNode ∧
      SameReads mainId2.asStr twoDatasetsNode.db droppedNode.db ∧
      droppedNode.db.cells 7 = twoDatasetsNode.db.cells 7 := by
  have hrn : Node.machine.run (Node.start Db.empty []) twoDatasets = some twoDatasetsNode := rfl
  have hr : Node.machine.Reachable Node.Disciplined twoDatasetsNode :=
    .run (.init rfl) (by decide +kernel) hrn
  have hd : Node.machine.run twoDatasetsNode dropTwice = some droppedNode := rfl
  have hab : mainId ≠ mainId2 := by decide +kernel
  have h := datasets_are_isolated hab (by decide +kernel) hd
  have hc : sampleChunk 7 ∈ twoDatasetsNode.db.chunkSet mainId2.asStr := by decide +kernel
  exact ⟨by decide +kernel, by decide +kernel, hrn, hd, h.1,
    h.2.1 hr (by decide +kernel) (sampleChunk 7) hc 7 (by decide)⟩

def hashIndex : Shelved DatasetId (hashPos : Hash × Nat → Hash) :=
  (Keyed.put ∅ (mainId.asStr, "0x0", 1)).put (mainId2.asStr, "0x0", 2)

def hashFamily : Keyed.Map ByteKeys.Key Nat :=
  (Keyed.put ∅ (hashIndexKey mainId "0x0", 1)).put (hashIndexKey mainId2 "0x0", 2)

theorem named_hashIndex : Named hashIndex := by
  intro e he
  simp only [hashIndex, Keyed.mem_put, Keyed.not_mem_empty, false_and, or_false] at he
  rcases he with he | ⟨he, -⟩
  · exact ⟨mainId2, by rw [he]⟩
  · exact ⟨mainId, by rw [he]⟩

theorem image_hashFamily : Keyed.Image encodeHash hashIndex hashFamily := by
  have hne : hashIndexKey mainId "0x0" ≠ hashIndexKey mainId2 "0x0" := by decide +kernel
  have hne' : mainId.asStr ≠ mainId2.asStr := by decide +kernel
  intro e
  have hk : e = (hashIndexKey mainId "0x0", 1) → e.1 ≠ hashIndexKey mainId2 "0x0" := by
    rintro rfl
    exact hne
  simpa [hashIndex, hashFamily, encodeHash_asStr, shelfKey, hne', eq_comm] using
    or_congr_right (a := e = (hashIndexKey mainId2 "0x0", 2)) (and_iff_left_of_imp hk)

theorem main_is_purged : Keyed.Image encodeHash (hashIndex.filter fun e => e.1 ≠ mainId.asStr)
    (purgeHashIndex hashFamily mainId 1) :=
  purgeHashIndex_image_all named_hashIndex image_hashFamily (by decide +kernel)

theorem main_is_probed :
    scanDataset hashFamily mainId ≠ [] ↔ hasHashEntries hashIndex mainId.asStr = true :=
  scanDataset_ne_nil_iff named_hashIndex image_hashFamily

end Sample

end Storage
