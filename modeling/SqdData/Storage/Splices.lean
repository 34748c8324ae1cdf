import SqdData.Storage.NodeSpecs

/-!
# Splices of a chunk list

Every operation that changes chunks edits the list of one dataset in one place: a run of chunks is
taken out, and at most one chunk is put in. The tables of what is taken out are marked deleted, and
the tables of what is put in are no longer dirty. The lifecycle of tables is proved from this form.
-/

namespace Storage

open List

/-- In the chunk list of `dataset`, `gone` gives way to `new`. -/
structure Spliced (dataset : DatasetId) (front gone : List Chunk) (new : Option Chunk)
    (back : List Chunk) (db db' : Db) : Prop where
  before : (db.chunkSet dataset).toList = front ++ gone ++ back
  after : (db'.chunkSet dataset).toList = front ++ new.toList ++ back
  others : ∀ other, other ≠ dataset → db'.chunkSet other = db.chunkSet other
  tables : db'.tables = db.tables
  dirtyTables : ∀ id, id ∈ db'.dirtyTables ↔
    id ∈ db.dirtyTables ∧ ∀ c ∈ new, id ∉ c.tables.values
  marks : ∀ id ∈ db.deletedTables, id ∈ db'.deletedTables
  deletedTables : ∀ id ∈ db'.deletedTables,
    id ∈ db.deletedTables ∨ ∃ c ∈ gone, id ∈ c.tables.values

/-- The tables of the chunks that were taken out are marked deleted. -/
def Marked (gone : List Chunk) (db : Db) : Prop :=
  ∀ c ∈ gone, ∀ id ∈ c.tables.values, id ∈ db.deletedTables

variable {db db' : Db} {dataset other : DatasetId} {chunk : Chunk} {back front gone : List Chunk}
  {new : Option Chunk}

theorem Spliced.mem_iff (h : Spliced dataset front gone new back db db') {c : Chunk} :
    c ∈ db'.chunkSet dataset ↔ (c ∈ db.chunkSet dataset ∧ c ∉ gone) ∨ c ∈ new := by
  have hn := (db.chunkSet dataset).nodup
  rw [h.before, nodup_append, nodup_append] at hn
  obtain ⟨⟨-, -, hfg⟩, -, hgb⟩ := hn
  change c ∈ (db'.chunkSet dataset).toList ↔ (c ∈ (db.chunkSet dataset).toList ∧ c ∉ gone) ∨ c ∈ new
  rw [h.before, h.after]
  simp only [mem_append, Option.mem_toList]
  constructor
  · rintro ((hc | hc) | hc)
    · exact Or.inl ⟨Or.inl (Or.inl hc), fun hg => hfg c hc c hg rfl⟩
    · exact Or.inr hc
    · exact Or.inl ⟨Or.inr hc, fun hg => hgb c (mem_append_right _ hg) c hc rfl⟩
  · rintro (⟨(hc | hc) | hc, hg⟩ | hc)
    · exact Or.inl (Or.inl hc)
    · exact absurd hc hg
    · exact Or.inr hc
    · exact Or.inl (Or.inr hc)

theorem Spliced.stored (h : Spliced dataset front gone new back db db') {c : Chunk}
    (hc : c ∈ gone) : c ∈ db.chunkSet dataset := by
  change c ∈ (db.chunkSet dataset).toList
  rw [h.before]
  simp [hc]

theorem Db.Forked.spliced {kept dropped : List Chunk}
    (h : Db.Forked dataset chunk kept dropped db db') :
    Spliced dataset kept dropped (some chunk) [] db db' := by
  refine ⟨by simpa using h.split, by simpa using h.chunkSet_self, h.chunkSet_of_ne, h.tables, ?_,
    fun id hid => (h.deletedTables id).mpr (Or.inl hid), fun id => (h.deletedTables id).mp⟩
  simpa using h.dirtyTables

theorem Compacted.spliced {merge : List Chunk} {label : DatasetLabel}
    (h : Compacted dataset merge chunk front back label db db') :
    Spliced dataset front merge (some chunk) back db db' := by
  refine ⟨h.split, h.chunkSet_self, h.chunkSet_of_ne, h.tables, ?_,
    fun id hid => (h.deletedTables id).mpr (Or.inl hid), fun id => (h.deletedTables id).mp⟩
  simpa using h.dirtyTables

/-- Removing a run of neighbours. -/
theorem Db.Removed.spliced (h : Db.Removed dataset gone db db')
    (hs : (db.chunkSet dataset).toList = front ++ gone ++ back) :
    Spliced dataset front gone none back db db' := by
  refine ⟨hs, ?_, fun other ho => h.chunkSet_of_ne ho, h.tables, ?_,
    fun id hid => (h.deletedTables id).mpr (Or.inl hid), fun id => (h.deletedTables id).mp⟩
  · rw [h.chunkSet_self, Option.toList_none, append_nil]
    exact Keyed.toList_eraseAll_mid hs fun _ => Iff.rfl
  · simp [h.dirtyTables]

/-- Dropping a dataset takes out all of its chunks. -/
theorem dropped_spliced (db : Db) (dataset : DatasetId) :
    Spliced dataset [] (db.chunkSet dataset).toList none [] db
      (((db.chunkSet dataset).toList.foldl (fun db c => db.deleteChunk dataset c)
        db).deleteLabel dataset) := by
  have hr := Db.foldl_deleteChunk_removed dataset (db.chunkSet dataset).toList db
  have hs : Spliced dataset [] (db.chunkSet dataset).toList none [] db _ := hr.spliced (by simp)
  exact ⟨hs.before, hs.after, hs.others, hs.tables, hs.dirtyTables, hs.marks, hs.deletedTables⟩

theorem Spliced.cells_eq (h : Spliced dataset front gone new back db db') (id : TableId) :
    db'.cells id = db.cells id := by
  unfold Db.cells
  rw [h.tables]

theorem marked_of_iff (h : ∀ id, id ∈ db'.deletedTables ↔
    id ∈ db.deletedTables ∨ ∃ c ∈ gone, id ∈ c.tables.values) : Marked gone db' :=
  fun c hc id hid => (h id).mpr (Or.inr ⟨c, hc, hid⟩)

theorem dropped_marked (db : Db) (dataset : DatasetId) :
    Marked (db.chunkSet dataset).toList
      (((db.chunkSet dataset).toList.foldl (fun db c => db.deleteChunk dataset c)
        db).deleteLabel dataset) :=
  marked_of_iff (Db.foldl_deleteChunk_removed dataset (db.chunkSet dataset).toList db).deletedTables

variable [TableFormat]

/-- An inserted chunk takes the place of a stored one with the same last block, whose tables are not
marked. -/
theorem insertChunk_spliced {flags : IndexFlags}
    (h : db.insertChunk flags dataset chunk = .ok db') :
    ∃ front gone back, Spliced dataset front gone (some chunk) back db db' ∧
      (∀ c, c ∈ gone ↔ c ∈ db.chunkSet dataset ∧ c.lastBlock = chunk.lastBlock) ∧
      db'.deletedTables = db.deletedTables := by
  have hs := Db.insertChunk_spec h
  have hput : db'.chunkSet dataset = (db.chunkSet dataset).put chunk := by
    rw [← Db.chunkSet_writeChunk_self]
    unfold Db.chunkSet
    rw [hs.chunks]
  refine ⟨_, _, _, ⟨Keyed.toList_eq_append_append _ chunk.lastBlock, ?_, ?_, hs.tables, ?_, ?_, ?_⟩,
    fun c => by simp, hs.deletedTables⟩
  · rw [hput]
    simp [Keyed.put]
  · intro other ho
    calc db'.chunkSet other = (db.writeChunk dataset chunk).chunkSet other := by
          unfold Db.chunkSet
          rw [hs.chunks]
      _ = db.chunkSet other := Db.chunkSet_writeChunk_of_ne ho
  · intro id
    rw [hs.dirtyTables]
    change id ∈ db.dirtyTables.eraseAll chunk.tables.values ↔ _
    simp
  · intro id hid
    rw [hs.deletedTables]
    exact hid
  · intro id hid
    rw [hs.deletedTables] at hid
    exact Or.inl hid

end Storage
