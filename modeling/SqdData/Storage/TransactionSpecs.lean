import SqdData.Storage.Transactions

/-!
# What a transaction changes

Specifications of the transaction operations in terms of the column families. Index maintenance
touches the two hash families only; a deleted chunk leaves the chunk store and has its tables
marked; `insertFork` keeps a lower part of the dataset's chunks, to which the new chunk links, and
replaces everything above it.
-/

namespace Storage

open List

section HashIndex

variable {ν : Type} {index : Shelved DatasetId (hashPos : Hash × ν → Hash)}
  {dataset other : DatasetId}

theorem owned_putEntries_of_ne (hne : other ≠ dataset) (entries : List (Hash × ν)) :
    (putEntries index dataset entries).owned other = index.owned other := by
  induction entries generalizing index with
  | nil => rfl
  | cons _ _ ih => exact ih.trans (Keyed.owned_put_of_ne hne)

theorem eraseEntries_eq (hashes : List Hash) (name : DatasetId) :
    eraseEntries index name hashes =
      index.eraseAll (hashes.map fun hash => toLex (name, hash)) := by
  rw [eraseEntries, Keyed.eraseAll, foldl_map]

theorem owned_eraseEntries_of_ne (hne : other ≠ dataset) (hashes : List Hash) :
    (eraseEntries index dataset hashes).owned other = index.owned other := by
  rw [eraseEntries_eq]
  exact Keyed.owned_eraseAll_of_ne hne

/-- The entries of `dataset` in the hash indexes are the same. -/
structure SameHashes (dataset : DatasetId) (db db' : Db) : Prop where
  blockHashes : db'.blockHashes.owned dataset = db.blockHashes.owned dataset
  transactionHashes : db'.transactionHashes.owned dataset = db.transactionHashes.owned dataset

theorem SameHashes.refl (dataset : DatasetId) (db : Db) : SameHashes dataset db db := ⟨rfl, rfl⟩

theorem SameHashes.trans {db₁ db₂ db₃ : Db} (h : SameHashes dataset db₁ db₂)
    (h' : SameHashes dataset db₂ db₃) : SameHashes dataset db₁ db₃ :=
  ⟨h'.blockHashes.trans h.blockHashes, h'.transactionHashes.trans h.transactionHashes⟩

end HashIndex

namespace Db

variable {db db' : Db} {dataset other : DatasetId} {chunk : Chunk} {label : DatasetLabel}

/-- Two databases that differ in the hash indexes at most. -/
structure SameButHashes (db db' : Db) : Prop where
  datasets : db'.datasets = db.datasets
  chunks : db'.chunks = db.chunks
  tables : db'.tables = db.tables
  dirtyTables : db'.dirtyTables = db.dirtyTables
  deletedTables : db'.deletedTables = db.deletedTables

/-- Only the entries of `dataset` in the hash indexes differ. -/
structure Reindexed (dataset : DatasetId) (db db' : Db) : Prop extends SameButHashes db db' where
  others : ∀ other, other ≠ dataset → SameHashes other db db'

theorem Reindexed.refl (dataset : DatasetId) (db : Db) : Reindexed dataset db db :=
  ⟨⟨rfl, rfl, rfl, rfl, rfl⟩, fun other _ => .refl other db⟩

theorem Reindexed.trans {db₁ db₂ db₃ : Db} (h : Reindexed dataset db₁ db₂)
    (h' : Reindexed dataset db₂ db₃) : Reindexed dataset db₁ db₃ :=
  ⟨⟨h'.datasets.trans h.datasets, h'.chunks.trans h.chunks, h'.tables.trans h.tables,
    h'.dirtyTables.trans h.dirtyTables, h'.deletedTables.trans h.deletedTables⟩,
    fun other hne => (h.others other hne).trans (h'.others other hne)⟩

@[simp]
theorem getLabel_writeLabel_self : (db.writeLabel dataset label).getLabel dataset = some label :=
  Keyed.find?_put_self _ _ _

theorem getLabel_writeLabel_of_ne (h : other ≠ dataset) :
    (db.writeLabel dataset label).getLabel other = db.getLabel other :=
  Keyed.find?_put_of_ne h

@[simp]
theorem chunkSet_writeLabel : (db.writeLabel dataset label).chunkSet other = db.chunkSet other :=
  rfl

theorem foldl_deleteTable (tables : List TableId) (db : Db) :
    tables.foldl deleteTable db =
      { db with deletedTables := tables.foldl Keyed.put db.deletedTables } := by
  induction tables generalizing db with
  | nil => rfl
  | cons _ _ ih => rw [foldl_cons, ih]; rfl

theorem deleteChunk_eq (db : Db) (dataset : DatasetId) (chunk : Chunk) :
    db.deleteChunk dataset chunk =
      { db with
        chunks := db.chunks.erase (toLex (dataset, chunk.lastBlock))
        deletedTables := chunk.tables.values.foldl Keyed.put db.deletedTables } :=
  foldl_deleteTable _ _

theorem chunkSet_writeChunk_self :
    (db.writeChunk dataset chunk).chunkSet dataset = (db.chunkSet dataset).put chunk :=
  Keyed.owned_put_self _ _ _

theorem chunkSet_writeChunk_of_ne (h : other ≠ dataset) :
    (db.writeChunk dataset chunk).chunkSet other = db.chunkSet other :=
  Keyed.owned_put_of_ne h

variable [TableFormat]

theorem unindexBlockHashes_reindexed (h : db.unindexBlockHashes dataset chunk = .ok db') :
    Reindexed dataset db db' := by
  unfold unindexBlockHashes at h
  split at h
  · cases h
    exact .refl dataset db
  · obtain ⟨_, -, h⟩ := bind_eq_ok.mp h
    cases h
    exact ⟨⟨rfl, rfl, rfl, rfl, rfl⟩, fun _ hne => ⟨owned_eraseEntries_of_ne hne _, rfl⟩⟩

theorem unindexTransactionHashes_reindexed
    (h : db.unindexTransactionHashes dataset chunk = .ok db') : Reindexed dataset db db' := by
  unfold unindexTransactionHashes at h
  split at h
  · cases h
    exact .refl dataset db
  · obtain ⟨_, -, h⟩ := bind_eq_ok.mp h
    cases h
    exact ⟨⟨rfl, rfl, rfl, rfl, rfl⟩, fun _ hne => ⟨rfl, owned_eraseEntries_of_ne hne _⟩⟩

theorem unindexHashes_reindexed (h : db.unindexHashes dataset chunk = .ok db') :
    Reindexed dataset db db' := by
  obtain ⟨_, h₁, h₂⟩ := bind_eq_ok.mp h
  exact (unindexBlockHashes_reindexed h₁).trans (unindexTransactionHashes_reindexed h₂)

theorem indexBlockHashes_reindexed (h : db.indexBlockHashes dataset chunk = .ok db') :
    Reindexed dataset db db' := by
  obtain ⟨_, -, h⟩ := bind_eq_ok.mp h
  cases h
  exact ⟨⟨rfl, rfl, rfl, rfl, rfl⟩, fun _ hne => ⟨owned_putEntries_of_ne hne _, rfl⟩⟩

theorem indexTransactionHashes_reindexed (h : db.indexTransactionHashes dataset chunk = .ok db') :
    Reindexed dataset db db' := by
  obtain ⟨_, -, h⟩ := bind_eq_ok.mp h
  cases h
  exact ⟨⟨rfl, rfl, rfl, rfl, rfl⟩, fun _ hne => ⟨rfl, owned_putEntries_of_ne hne _⟩⟩

variable {flags : IndexFlags}

theorem indexHashes_reindexed (h : db.indexHashes flags dataset chunk = .ok db') :
    Reindexed dataset db db' := by
  unfold indexHashes at h
  split at h
  · cases h
    exact .refl dataset db
  · split at h
    · cases h
      exact .refl dataset db
    · split at h
      · cases h
        exact .refl dataset db
      · obtain ⟨db₁, h₁, h₂⟩ := bind_eq_ok.mp h
        have hb : Reindexed dataset db db₁ := by
          split at h₁
          · exact indexBlockHashes_reindexed h₁
          · cases h₁
            exact .refl dataset db
        split at h₂
        · exact hb.trans (indexTransactionHashes_reindexed h₂)
        · cases h₂
          exact hb

/-- `DatasetUpdate::delete_chunk` for several chunks in turn. -/
def removeChunks (dataset : DatasetId) (chunks : List Chunk) (db : Db) : Except Error Db :=
  chunks.foldlM (fun db chunk => db.removeChunk dataset chunk) db

/-- What removing chunks does to every family but the hash indexes. -/
structure Removed (dataset : DatasetId) (gone : List Chunk) (db db' : Db) : Prop where
  datasets : db'.datasets = db.datasets
  chunks : db'.chunks = db.chunks.eraseAll (gone.map fun c => toLex (dataset, c.lastBlock))
  tables : db'.tables = db.tables
  dirtyTables : db'.dirtyTables = db.dirtyTables
  deletedTables : ∀ id, id ∈ db'.deletedTables ↔
    id ∈ db.deletedTables ∨ ∃ c ∈ gone, id ∈ c.tables.values

theorem removeChunk_removed (h : db.removeChunk dataset chunk = .ok db') :
    Removed dataset [chunk] db db' := by
  obtain ⟨_, h₁, h₂⟩ := bind_eq_ok.mp h
  have hs := unindexHashes_reindexed h₁
  cases h₂
  rw [deleteChunk_eq]
  refine ⟨hs.datasets, by rw [hs.chunks]; rfl, hs.tables, hs.dirtyTables, ?_⟩
  intro id
  simp [Keyed.mem_foldl_put_id, hs.deletedTables]

omit [TableFormat] in
theorem deleteChunk_sameHashes : SameHashes other db (db.deleteChunk dataset chunk) := by
  rw [deleteChunk_eq]
  exact ⟨rfl, rfl⟩

theorem removeChunk_sameHashes (hne : other ≠ dataset)
    (h : db.removeChunk dataset chunk = .ok db') : SameHashes other db db' := by
  obtain ⟨_, h₁, h₂⟩ := bind_eq_ok.mp h
  cases h₂
  exact ((unindexHashes_reindexed h₁).others other hne).trans deleteChunk_sameHashes

variable {chunks : List Chunk}

theorem removeChunks_removed (h : removeChunks dataset chunks db = .ok db') :
    Removed dataset chunks db db' := by
  induction chunks generalizing db with
  | nil =>
    cases h
    exact ⟨rfl, rfl, rfl, rfl, by simp⟩
  | cons _ _ ih =>
    obtain ⟨_, h₁, h₂⟩ := bind_eq_ok.mp (by simpa [removeChunks] using h)
    have hc := removeChunk_removed h₁
    have hr := ih h₂
    refine ⟨hr.datasets.trans hc.datasets, ?_, hr.tables.trans hc.tables,
      hr.dirtyTables.trans hc.dirtyTables, ?_⟩
    · rw [hr.chunks, hc.chunks]
      rfl
    · intro id
      rw [hr.deletedTables, hc.deletedTables]
      simp [or_assoc]

omit [TableFormat] in
theorem Removed.chunkSet_self (h : Removed dataset chunks db db') :
    db'.chunkSet dataset = (db.chunkSet dataset).eraseAll (chunks.map Chunk.lastBlock) := by
  unfold chunkSet
  rw [h.chunks, ← Keyed.owned_eraseAll_self, map_map]
  rfl

omit [TableFormat] in
theorem Removed.chunkSet_of_ne (h : Removed dataset chunks db db') (hne : other ≠ dataset) :
    db'.chunkSet other = db.chunkSet other := by
  have hm : (chunks.map fun c => toLex (dataset, c.lastBlock)) =
      (chunks.map Chunk.lastBlock).map fun k => toLex (dataset, k) := by
    rw [map_map]
    rfl
  unfold chunkSet
  rw [h.chunks, hm, Keyed.owned_eraseAll_of_ne hne]

/-- The loop of `insertFork` removes the chunks that start at or above the new one, from the head
down, and ends at a chunk the new one links to, or with nothing left. -/
theorem dropForked_spec {existing : List Chunk}
    (h : dropForked dataset chunk existing db = .ok db') :
    ∃ removed kept, existing = removed ++ kept ∧
      (∀ c ∈ removed, chunk.firstBlock ≤ c.firstBlock) ∧
      (∀ c ∈ kept.head?, c.lastBlock + 1 = chunk.firstBlock ∧
        c.lastBlockHash = chunk.parentBlockHash) ∧
      removeChunks dataset removed db = .ok db' := by
  induction existing generalizing db with
  | nil => exact ⟨[], [], rfl, by simp, by simp, h⟩
  | cons head existing ih =>
    unfold dropForked at h
    by_cases hf : chunk.firstBlock ≤ head.firstBlock
    · rw [if_pos hf] at h
      obtain ⟨db₁, h₁, h₂⟩ := bind_eq_ok.mp h
      obtain ⟨removed, kept, rfl, hr, hk, hdb⟩ := ih h₂
      refine ⟨head :: removed, kept, rfl, ?_, hk, ?_⟩
      · intro c hc
        rcases mem_cons.mp hc with rfl | hc
        · exact hf
        · exact hr c hc
      · simp only [removeChunks, foldlM_cons]
        exact bind_eq_ok.mpr ⟨db₁, h₁, hdb⟩
    · rw [if_neg hf] at h
      by_cases hn : head.lastBlock + 1 = chunk.firstBlock
      · rw [if_pos hn] at h
        obtain ⟨_, he, h⟩ := bind_eq_ok.mp h
        cases h
        refine ⟨[], head :: existing, rfl, by simp, ?_, rfl⟩
        intro c hc
        obtain rfl : head = c := by simpa using hc
        exact ⟨hn, by simpa using he⟩
      · rw [if_neg hn] at h
        split at h <;> cases h

/-- The effect of a successful `insertFork`: the chunks `kept` stay, the chunks `dropped` above
them give way to the new one. -/
structure Forked (dataset : DatasetId) (chunk : Chunk) (kept dropped : List Chunk) (db db' : Db) :
    Prop where
  split : (db.chunkSet dataset).toList = kept ++ dropped
  above : ∀ c ∈ dropped, chunk.firstBlock ≤ c.firstBlock
  link : ∀ c ∈ kept.getLast?, c.lastBlock + 1 = chunk.firstBlock ∧
    c.lastBlockHash = chunk.parentBlockHash
  chunkSet_self : (db'.chunkSet dataset).toList = kept ++ [chunk]
  chunkSet_of_ne : ∀ other, other ≠ dataset → db'.chunkSet other = db.chunkSet other
  datasets : db'.datasets = db.datasets
  tables : db'.tables = db.tables
  dirtyTables : ∀ id, id ∈ db'.dirtyTables ↔ id ∈ db.dirtyTables ∧ id ∉ chunk.tables.values
  deletedTables : ∀ id, id ∈ db'.deletedTables ↔
    id ∈ db.deletedTables ∨ ∃ c ∈ dropped, id ∈ c.tables.values

/-- The two stages of `insertFork`. -/
theorem insertFork_stages (h : db.insertFork flags dataset chunk = .ok db') :
    ∃ kept dropped db₁, (db.chunkSet dataset).toList = kept ++ dropped ∧
      (∀ c ∈ dropped, chunk.firstBlock ≤ c.firstBlock) ∧
      (∀ c ∈ kept.getLast?, c.lastBlock + 1 = chunk.firstBlock ∧
        c.lastBlockHash = chunk.parentBlockHash) ∧
      removeChunks dataset dropped.reverse db = .ok db₁ ∧
      (db₁.writeChunk dataset chunk).indexHashes flags dataset chunk = .ok db' := by
  obtain ⟨db₁, h₁, h₂⟩ := bind_eq_ok.mp h
  rw [listChunksReversed_all] at h₁
  obtain ⟨removed, kept, hs, hr, hk, hdb⟩ := dropForked_spec h₁
  refine ⟨kept.reverse, removed.reverse, db₁, ?_, ?_, ?_, by simpa using hdb, h₂⟩
  · rw [← reverse_append, ← hs, reverse_reverse]
  · simpa using hr
  · simpa using hk

theorem insertFork_forked (h : db.insertFork flags dataset chunk = .ok db') :
    ∃ kept dropped, Forked dataset chunk kept dropped db db' := by
  obtain ⟨kept, dropped, db₁, hsp, ha, hl, hrm, hi⟩ := insertFork_stages h
  have hr := removeChunks_removed hrm
  have hs := indexHashes_reindexed hi
  have hk : (db₁.chunkSet dataset).toList = kept := by
    rw [hr.chunkSet_self]
    have hsp' : (db.chunkSet dataset).toList = kept ++ dropped ++ [] := by simpa using hsp
    simpa using Keyed.toList_eraseAll_mid hsp' (by simp)
  have hb : ∀ c ∈ db₁.chunkSet dataset, c.lastBlock < chunk.lastBlock := by
    intro c hc
    have hck : c ∈ kept := hk ▸ hc
    have hsr := (db₁.chunkSet dataset).sorted
    rw [hk] at hsr
    have hne : kept ≠ [] := ne_nil_of_mem hck
    have he := (hl (kept.getLast hne) (getLast?_eq_some_getLast hne)).1
    have hle : c.lastBlock ≤ (kept.getLast hne).lastBlock := by
      have hc' := hck
      rw [← dropLast_append_getLast hne, mem_append, mem_singleton] at hc'
      rcases hc' with hc' | rfl
      · rw [← dropLast_append_getLast hne, pairwise_append] at hsr
        exact (hsr.2.2 c hc' _ (mem_singleton_self _)).le
      · exact le_rfl
    have := chunk.first_le_last
    omega
  refine ⟨kept, dropped, hsp, ha, hl, ?_, ?_, hs.datasets.trans hr.datasets,
    hs.tables.trans hr.tables, ?_, ?_⟩
  · have : db'.chunkSet dataset = (db₁.chunkSet dataset).put chunk := by
      rw [← chunkSet_writeChunk_self]
      unfold chunkSet
      rw [hs.chunks]
    rw [this, Keyed.toList_put_of_lt hb, hk]
  · intro other hne
    rw [← hr.chunkSet_of_ne hne]
    have : db'.chunkSet other = (db₁.writeChunk dataset chunk).chunkSet other := by
      unfold chunkSet
      rw [hs.chunks]
    rw [this, chunkSet_writeChunk_of_ne hne]
  · intro id
    rw [hs.dirtyTables, ← hr.dirtyTables]
    exact Keyed.mem_eraseAll
  · intro id
    rw [hs.deletedTables]
    change id ∈ db₁.deletedTables ↔ _
    rw [hr.deletedTables]
    simp

theorem insertFork_sameHashes (hne : other ≠ dataset)
    (h : db.insertFork flags dataset chunk = .ok db') : SameHashes other db db' := by
  obtain ⟨_, _, db₁, -, -, -, hrm, hi⟩ := insertFork_stages h
  have hr : SameHashes other db db₁ := foldlM_preserves hrm (.refl other db) fun _ _ _ _ hs hst =>
      hs.trans (removeChunk_sameHashes hne hst)
  have hw : SameHashes other db₁ (db₁.writeChunk dataset chunk) := ⟨rfl, rfl⟩
  exact (hr.trans hw).trans ((indexHashes_reindexed hi).others other hne)

omit [TableFormat] in
/-- A dataset update that succeeds ran its body on the stored label and then committed. -/
theorem updateDataset_eq_ok {ρ : Type} {commit : Except Error Unit}
    {cb : DatasetUpdate → Except Error (DatasetUpdate × ρ)} {result : ρ} :
    db.updateDataset dataset commit cb = .ok (db', result) ↔
      ∃ label upd, db.getLabel dataset = some label ∧ cb ⟨db, label⟩ = .ok (upd, result) ∧
        commit = .ok () ∧ db' = upd.finish dataset := by
  unfold updateDataset getLabelForUpdate
  cases hl : db.getLabel dataset with
  | none => simp [bind, Except.bind]
  | some label =>
    cases hcb : cb ⟨db, label⟩ with
    | error => simp [bind, Except.bind, hcb]
    | ok out =>
      obtain ⟨upd, _⟩ := out
      cases commit with
      | error => simp [bind, Except.bind, hcb]
      | ok =>
        simp only [bind, Except.bind, hcb, pure, Except.pure]
        constructor
        · intro h
          cases h
          exact ⟨label, upd, rfl, hcb, trivial, rfl⟩
        · rintro ⟨_, _, hlb, hcb', -, rfl⟩
          cases hlb
          rw [hcb] at hcb'
          cases hcb'
          rfl

omit [TableFormat] in
theorem finish_eq (upd : DatasetUpdate) :
    upd.finish dataset = upd.db.writeLabel dataset upd.label.bumpVersion := rfl

end Db

end Storage
