import SqdData.Storage.Compaction
import SqdData.Storage.TransactionSpecs

/-!
# What a compaction commit changes

If the planned chunks are still a contiguous part of the dataset, one chunk takes their place and
nothing else moves. This needs no assumption on the layout of the dataset: the listing the commit
compares with is a contiguous part of the chunk store in any case.
-/

namespace Storage

open List

variable {db db' : Db} {dataset other : DatasetId} {merge : List Chunk} {newChunk : Chunk}

namespace Db

/-- Deleting chunks without touching the hash indexes. -/
theorem foldl_deleteChunk (chunks : List Chunk) (db : Db) :
    chunks.foldl (fun db c => db.deleteChunk dataset c) db =
      { db with
        chunks := db.chunks.eraseAll (chunks.map fun c => toLex (dataset, c.lastBlock))
        deletedTables := (chunks.flatMap fun c => c.tables.values).foldl Keyed.put
          db.deletedTables } := by
  induction chunks generalizing db with
  | nil => rfl
  | cons _ _ ih =>
    rw [foldl_cons, ih, deleteChunk_eq, flatMap_cons, foldl_append]
    rfl

theorem foldl_deleteChunk_removed (dataset : DatasetId) (chunks : List Chunk) (db : Db) :
    Removed dataset chunks db (chunks.foldl (fun db c => db.deleteChunk dataset c) db) := by
  rw [foldl_deleteChunk]
  refine ⟨rfl, rfl, rfl, rfl, ?_⟩
  intro id
  simp [Keyed.mem_foldl_put_id]

end Db

/-- A listing that agrees with the plan contains the plan as a contiguous part of the store. -/
theorem dataWasChanged_eq_false (h : dataWasChanged db dataset merge = false) :
    merge ≠ [] ∧ ∃ front back, (db.chunkSet dataset).toList = front ++ merge ++ back := by
  unfold dataWasChanged at h
  split at h
  · rename_i first last hf hlast
    have hne : merge ≠ [] := by
      rintro rfl
      cases hf
    refine ⟨hne, ?_⟩
    dsimp only at h
    obtain ⟨ha, hlen⟩ := Bool.or_eq_false_iff.mp h
    set listing := db.listChunks dataset first.firstBlock (some last.lastBlock) with hl
    have hln : merge.length ≤ listing.length := by
      have : (listing.zip merge).length = merge.length := by simpa using hlen
      rw [length_zip] at this
      omega
    have ht : listing.take merge.length = merge := by
      refine ext_getElem (by simpa using hln) ?_
      intro i hi hi'
      have hz : (listing[i], merge[i]) ∈ listing.zip merge := by
        rw [mem_iff_getElem]
        exact ⟨i, by simp; omega, by simp⟩
      have := any_eq_false.mp ha _ hz
      simpa using this
    have hw : listing ++ ((db.chunkSet dataset).seek first.firstBlock).dropWhile
        (inRange first.firstBlock (some last.lastBlock)) =
        (db.chunkSet dataset).seek first.firstBlock := by
      rw [hl, Db.listChunks_eq]
      exact takeWhile_append_dropWhile
    refine ⟨(db.chunkSet dataset).toList.filter (fun c => c.lastBlock < first.firstBlock),
      listing.drop merge.length ++ ((db.chunkSet dataset).seek first.firstBlock).dropWhile
        (inRange first.firstBlock (some last.lastBlock)), ?_⟩
    calc (db.chunkSet dataset).toList
        = (db.chunkSet dataset).toList.filter (fun c => c.lastBlock < first.firstBlock) ++
            (db.chunkSet dataset).seek first.firstBlock :=
          Keyed.toList_eq_append_seek _ _
      _ = _ := by
          conv_lhs => rw [← hw, ← take_append_drop merge.length listing, ht]
          simp only [append_assoc]
  · cases h

/-- The effect of a committed compaction. -/
structure Compacted (dataset : DatasetId) (merge : List Chunk) (newChunk : Chunk)
    (front back : List Chunk) (label : DatasetLabel) (db db' : Db) : Prop where
  label_eq : db.getLabel dataset = some label
  split : (db.chunkSet dataset).toList = front ++ merge ++ back
  chunkSet_self : (db'.chunkSet dataset).toList = front ++ [newChunk] ++ back
  chunkSet_of_ne : ∀ other, other ≠ dataset → db'.chunkSet other = db.chunkSet other
  datasets : db'.datasets = db.datasets.put (dataset, label.bumpVersion)
  tables : db'.tables = db.tables
  blockHashes : db'.blockHashes = db.blockHashes
  transactionHashes : db'.transactionHashes = db.transactionHashes
  dirtyTables : ∀ id, id ∈ db'.dirtyTables ↔ id ∈ db.dirtyTables ∧ id ∉ newChunk.tables.values
  deletedTables : ∀ id, id ∈ db'.deletedTables ↔
    id ∈ db.deletedTables ∨ ∃ c ∈ merge, id ∈ c.tables.values

theorem Compacted.getLabel {front back : List Chunk} {label : DatasetLabel}
    (h : Compacted dataset merge newChunk front back label db db') :
    db'.getLabel dataset = some label.bumpVersion := by
  rw [Db.getLabel, h.datasets, Keyed.find?_put_self]

variable [TableFormat] {snapshot : Db} {commit : Except Error Unit}

/-- A compaction transaction that does not fail either cancels and changes nothing, or commits. -/
theorem commitCompaction_eq_ok {status : CompactionStatus}
    (hlast : ∀ c ∈ merge.getLast?, newChunk.lastBlock = c.lastBlock)
    (h : commitCompaction snapshot db dataset merge newChunk commit = .ok (db', status)) :
    (status = .canceled ∧ db' = db) ∨
      (∃ merged, status = .ok merged) ∧ merge ≠ [] ∧
        ∃ front back label, Compacted dataset merge newChunk front back label db db' := by
  unfold commitCompaction at h
  cases hl : db.getLabel dataset with
  | none =>
    rw [hl] at h
    obtain ⟨u, -, h⟩ := bind_eq_ok.mp h
    cases h
    exact Or.inl ⟨rfl, rfl⟩
  | some label =>
    rw [hl] at h
    cases hch : dataWasChanged db dataset merge with
    | true =>
      simp only [hch, if_true] at h
      obtain ⟨u, -, h⟩ := bind_eq_ok.mp h
      cases h
      exact Or.inl ⟨rfl, rfl⟩
    | false =>
      simp only [hch, if_false, Bool.false_eq_true] at h
      obtain ⟨merged, -, h⟩ := bind_eq_ok.mp h
      obtain ⟨u, -, h⟩ := bind_eq_ok.mp h
      cases h
      obtain ⟨hne, front, back, hs⟩ := dataWasChanged_eq_false hch
      have hr := Db.foldl_deleteChunk_removed dataset merge db
      refine Or.inr ⟨⟨merged, rfl⟩, hne, front, back, label, hl, hs, ?_, ?_, ?_, ?_, ?_, ?_, ?_, ?_⟩
      · rw [Db.chunkSet_writeLabel, Db.chunkSet_writeChunk_self, hr.chunkSet_self]
        exact Keyed.toList_eraseAll_put hs hne (hlast _ (getLast?_eq_some_getLast hne))
      · intro other ho
        rw [Db.chunkSet_writeLabel, Db.chunkSet_writeChunk_of_ne ho, hr.chunkSet_of_ne ho]
      · simp only [Db.foldl_deleteChunk]
        rfl
      · simp only [Db.foldl_deleteChunk]
        rfl
      · simp only [Db.foldl_deleteChunk]
        rfl
      · simp only [Db.foldl_deleteChunk]
        rfl
      · intro id
        rw [← hr.dirtyTables]
        exact Keyed.mem_eraseAll
      · exact hr.deletedTables

end Storage
