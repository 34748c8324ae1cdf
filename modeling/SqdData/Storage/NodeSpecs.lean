import SqdData.Storage.CompactionSpecs
import SqdData.Storage.Node

/-!
# What a node step does to one dataset

`DatasetStep` lists every effect a step of the node can have on the label and the chunks of a
dataset, apart from an update of that dataset: none, creation, deletion, or a compaction commit.
Invariants of a dataset are then checked against this list and not against the inputs of the
machine.
-/

namespace Storage

open List

variable [TableFormat] {db db' : Db} {dataset other : DatasetId} {commit : Except Error Unit}

omit [TableFormat] in
/-- The chunk an edit brings in. -/
def Edit.inserted : Edit → Option Chunk
  | .insertChunk chunk => some chunk
  | .insertFork chunk => some chunk
  | .deleteChunk _ => none
  | .setFinalizedHead _ => none

/-- The change of a dataset that brings in chunks of one kind. Labels, tables and other datasets
stay as they are. -/
structure Edited (dataset : DatasetId) (brought : Chunk → Prop) (db db' : Db) : Prop where
  datasets : db'.datasets = db.datasets
  tables : db'.tables = db.tables
  others : ∀ other, other ≠ dataset → db'.chunkSet other = db.chunkSet other ∧
    SameHashes other db db'
  mem : ∀ c ∈ db'.chunkSet dataset, c ∈ db.chunkSet dataset ∨ brought c

namespace Db

variable {flags : IndexFlags}

theorem insertChunk_spec {chunk : Chunk} (h : db.insertChunk flags dataset chunk = .ok db') :
    Reindexed dataset (db.writeChunk dataset chunk) db' := by
  obtain ⟨_, -, h⟩ := bind_eq_ok.mp h
  exact indexHashes_reindexed h

theorem applyEdit_edited {upd upd' : DatasetUpdate} {edit : Edit}
    (h : applyEdit flags dataset upd edit = .ok upd') :
    Edited dataset (· ∈ edit.inserted) upd.db upd'.db := by
  cases edit with
  | insertChunk chunk =>
    obtain ⟨db₁, h₁, h⟩ := bind_eq_ok.mp h
    cases h
    have hs := insertChunk_spec h₁
    have hcs : ∀ other, db₁.chunkSet other = (upd.db.writeChunk dataset chunk).chunkSet other := by
      intro other
      unfold chunkSet
      rw [hs.chunks]
    refine ⟨hs.datasets, hs.tables, fun other hne => ⟨(hcs other).trans
      (chunkSet_writeChunk_of_ne hne), (hs.others other hne).1, (hs.others other hne).2⟩,
      fun c hc => ?_⟩
    rw [hcs, chunkSet_writeChunk_self] at hc
    rcases Keyed.mem_put.mp hc with rfl | ⟨hold, -⟩
    · exact Or.inr rfl
    · exact Or.inl hold
  | insertFork chunk =>
    obtain ⟨db₁, h₁, h⟩ := bind_eq_ok.mp h
    cases h
    obtain ⟨kept, dropped, hf⟩ := insertFork_forked h₁
    refine ⟨hf.datasets, hf.tables, fun other hne =>
      ⟨hf.chunkSet_of_ne other hne, insertFork_sameHashes hne h₁⟩, fun c hc => ?_⟩
    change c ∈ (db₁.chunkSet dataset).toList at hc
    rw [hf.chunkSet_self, mem_append, mem_singleton] at hc
    rcases hc with hk | rfl
    · left
      change c ∈ (upd.db.chunkSet dataset).toList
      rw [hf.split]
      exact mem_append_left _ hk
    · exact Or.inr rfl
  | deleteChunk =>
    obtain ⟨_, h₁, h⟩ := bind_eq_ok.mp h
    cases h
    have hr := removeChunk_removed h₁
    refine ⟨hr.datasets, hr.tables, fun _ hne =>
      ⟨hr.chunkSet_of_ne hne, removeChunk_sameHashes hne h₁⟩, fun c hc => Or.inl ?_⟩
    rw [hr.chunkSet_self] at hc
    exact (Keyed.mem_eraseAll.mp hc).1
  | setFinalizedHead =>
    cases h
    exact ⟨rfl, rfl, fun other _ => ⟨rfl, .refl other _⟩, fun _ => Or.inl⟩

variable {edits : List Edit} {u : Unit} (hne : other ≠ dataset)
  (h : db.update dataset flags edits commit = .ok (db', u))

include h

theorem update_eq_ok : ∃ label upd, db.getLabel dataset = some label ∧
      edits.foldlM (applyEdit flags dataset) ⟨db, label⟩ = .ok upd ∧
      db' = upd.finish dataset := by
  obtain ⟨label, upd, hl, hcb, -, rfl⟩ := updateDataset_eq_ok.mp h
  obtain ⟨upd', hf, hcb⟩ := bind_eq_ok.mp hcb
  cases hcb
  exact ⟨label, upd, hl, hf, rfl⟩

theorem update_edited :
    ∃ upd : DatasetUpdate, db' = upd.finish dataset ∧
      Edited dataset (fun c => ∃ edit ∈ edits, c ∈ edit.inserted) db upd.db := by
  obtain ⟨_, upd, -, hf, rfl⟩ := update_eq_ok h
  refine ⟨upd, rfl, foldlM_preserves (P := fun upd =>
    Edited dataset (fun c => ∃ edit ∈ edits, c ∈ edit.inserted) db upd.db) hf
    ⟨rfl, rfl, fun other _ => ⟨rfl, .refl other _⟩, fun _ => Or.inl⟩ ?_⟩
  intro upd₁ edit upd₂ hed hs h
  have he := applyEdit_edited h
  refine ⟨he.datasets.trans hs.datasets, he.tables.trans hs.tables, fun other hne => ?_,
    fun c hc => ?_⟩
  · obtain ⟨hc, hh⟩ := hs.others other hne
    obtain ⟨hc', hh'⟩ := he.others other hne
    exact ⟨hc'.trans hc, hh.trans hh'⟩
  · rcases he.mem c hc with hc | hc
    · exact hs.mem c hc
    · exact Or.inr ⟨edit, hed, hc⟩

include hne in
theorem update_of_ne :
    db'.getLabel other = db.getLabel other ∧ db'.chunkSet other = db.chunkSet other ∧
      SameHashes other db db' := by
  obtain ⟨upd, rfl, he⟩ := update_edited h
  obtain ⟨hc, hh⟩ := he.others other hne
  refine ⟨?_, hc, hh.trans ⟨rfl, rfl⟩⟩
  rw [finish_eq, getLabel_writeLabel_of_ne hne]
  unfold getLabel
  rw [he.datasets]

omit h

omit [TableFormat] in
theorem dropDatasetTx_eq_ok (h : db.dropDatasetTx dataset commit = .ok db') :
    (db.getLabel dataset = none ∧ db' = db) ∨
      ∃ label, db.getLabel dataset = some label ∧
        db' = (((db.chunkSet dataset).toList).foldl (fun db c => db.deleteChunk dataset c)
          db).deleteLabel dataset := by
  obtain ⟨_, -, h⟩ := bind_eq_ok.mp h
  cases hl : db.getLabel dataset with
  | none =>
    rw [hl] at h
    cases h
    exact Or.inl ⟨rfl, rfl⟩
  | some label =>
    rw [hl] at h
    cases h
    rw [listChunks_all]
    exact Or.inr ⟨label, rfl, rfl⟩

omit [TableFormat] in
/-- Deleting all its chunks empties a dataset. -/
theorem chunkSet_dropped (db : Db) (dataset : DatasetId) :
    ((((db.chunkSet dataset).toList).foldl (fun db c => db.deleteChunk dataset c)
      db).deleteLabel dataset).chunkSet dataset = ∅ := by
  have hr := foldl_deleteChunk_removed dataset (db.chunkSet dataset).toList db
  apply Keyed.ext_list
  have ha : (db.chunkSet dataset).toList = (db.chunkSet dataset).toList ++ [] := by simp
  calc _ = ((db.chunkSet dataset).eraseAll
          ((db.chunkSet dataset).toList.map Chunk.lastBlock)).toList := by
        rw [← hr.chunkSet_self]
        rfl
    _ = [] := Keyed.toList_eraseAll_front ha

end Db

/-- The new chunk of a compaction has the ends of the chunks it replaces. -/
structure Spans (merge : List Chunk) (newChunk : Chunk) : Prop where
  nonempty : merge ≠ []
  firstBlock : newChunk.firstBlock = (merge.head nonempty).firstBlock
  parentBlockHash : newChunk.parentBlockHash = (merge.head nonempty).parentBlockHash
  lastBlock : newChunk.lastBlock = (merge.getLast nonempty).lastBlock
  lastBlockHash : newChunk.lastBlockHash = (merge.getLast nonempty).lastBlockHash

section Spans

variable {merge front back : List Chunk} {newChunk : Chunk}

omit [TableFormat] in
theorem Spans.start_eq (h : Spans merge newChunk) :
    (front ++ [newChunk] ++ back).head?.map Chunk.firstBlock =
      (front ++ merge ++ back).head?.map Chunk.firstBlock := by
  cases front with
  | cons => rfl
  | nil =>
    rw [nil_append, nil_append, head?_append, head?_append, head?_eq_some_head h.nonempty]
    exact congrArg some h.firstBlock

omit [TableFormat] in
theorem Spans.head_eq (h : Spans merge newChunk) :
    (front ++ [newChunk] ++ back).getLast?.map getChunkHead =
      (front ++ merge ++ back).getLast?.map getChunkHead := by
  rw [getLast?_append, getLast?_append, getLast?_append, getLast?_append,
    getLast?_eq_some_getLast h.nonempty, getLast?_singleton]
  cases back.getLast? with
  | some => rfl
  | none => simp [getChunkHead, h.lastBlock, h.lastBlockHash]

end Spans

theorem CompactionRun.spans {c : CompactionRun} {merge : List Chunk} {newChunk : Chunk}
    (h : c.phase = .built merge newChunk) : Spans merge newChunk := by
  have hp := c.planned
  rw [h] at hp
  obtain ⟨-, first, last, _, hf, hlast, heq⟩ := compactionChunk_eq_some hp
  have hne : merge ≠ [] := by
    rintro rfl
    cases hf
  have hh : merge.head hne = first := Option.some.inj ((head?_eq_some_head hne).symm.trans hf)
  have he : merge.getLast hne = last :=
    Option.some.inj ((getLast?_eq_some_getLast hne).symm.trans hlast)
  refine ⟨hne, ?_, ?_, ?_, ?_⟩ <;> rw [heq]
  · rw [hh]; rfl
  · rw [hh]; rfl
  · rw [he]; rfl
  · rw [he]; rfl

/-- Everything but tables and their marks is the same. -/
structure SameData (db db' : Db) : Prop where
  datasets : db'.datasets = db.datasets
  chunks : db'.chunks = db.chunks
  blockHashes : db'.blockHashes = db.blockHashes
  transactionHashes : db'.transactionHashes = db.transactionHashes

omit [TableFormat] in
theorem SameData.refl (db : Db) : SameData db db := ⟨rfl, rfl, rfl, rfl⟩

omit [TableFormat] in
theorem SameData.getLabel (h : SameData db db') : db'.getLabel dataset = db.getLabel dataset := by
  unfold Db.getLabel
  rw [h.datasets]

omit [TableFormat] in
theorem SameData.chunkSet (h : SameData db db') : db'.chunkSet dataset = db.chunkSet dataset := by
  unfold Db.chunkSet
  rw [h.chunks]

/-- What a step of the node can do to the chunks, the labels and the hash indexes. -/
inductive DbStep (s : Node) : NodeOp → Db → Prop where
  | same {op : NodeOp} {db' : Db} (h : SameData s.db db') : DbStep s op db'
  | updated {dataset : DatasetId} {flags : IndexFlags} {edits : List Edit}
      {commit : Except Error Unit} {db' : Db}
      (h : s.db.update dataset flags edits commit = .ok (db', ())) :
      DbStep s (.update dataset flags edits commit) db'
  | compacted {run : Nat} {commit : Except Error Unit} {c : CompactionRun} {merge : List Chunk}
      {newChunk : Chunk} {front back : List Chunk} {label : DatasetLabel} {db' : Db}
      (find : s.compactions.find? run = some c) (phase : c.phase = .built merge newChunk)
      (effect : Compacted c.dataset merge newChunk front back label s.db db') :
      DbStep s (.compactionCommit run commit) db'
  | purgedStale {dataset : DatasetId} {op : NodeOp} (absent : s.db.getLabel dataset = none)
      (lifecycle : s.lifecycle = none) : DbStep s op (s.db.purgeHashIndexes dataset)
  | created {dataset : DatasetId} {kind : DatasetKind} {op : NodeOp}
      (absent : s.db.getLabel dataset = none) (lifecycle : s.lifecycle = none) :
      DbStep s op ((s.db.purgeHashIndexes dataset).writeLabel dataset (Db.newLabel kind))
  | dropped {dataset : DatasetId} {commit : Except Error Unit} {label : DatasetLabel}
      (present : s.db.getLabel dataset = some label) (lifecycle : s.lifecycle = none) :
      DbStep s (.dropDataset dataset commit)
        (((s.db.chunkSet dataset).toList.foldl (fun db c => db.deleteChunk dataset c)
          s.db).deleteLabel dataset)
  | purged {dataset : DatasetId} {blocks transactions : List Hash}
      (lifecycle : s.lifecycle = some dataset) :
      DbStep s (.purgeHashBatch blocks transactions)
        (s.db.purgeHashBatch dataset blocks transactions)
  | finished {dataset : DatasetId} (lifecycle : s.lifecycle = some dataset) :
      DbStep s .finishDrop (s.db.purgeHashIndexes dataset)

namespace Node

variable {s s' : Node} {op : NodeOp}

variable {tables : List TableId}

omit [TableFormat] in
/-- The deletion of tables does nothing or marks all of them. -/
theorem deleteTables_cases :
    orSame db (db.deleteTables tables commit) = db ∨
      orSame db (db.deleteTables tables commit) =
        { db with deletedTables := tables.foldl Keyed.put db.deletedTables } := by
  cases h : db.deleteTables tables commit with
  | error => exact Or.inl rfl
  | ok =>
    obtain ⟨_, -, h⟩ := bind_eq_ok.mp h
    cases h
    exact Or.inr (Db.foldl_deleteTable tables db)

omit [TableFormat] in
theorem deleteTables_same : SameData db (orSame db (db.deleteTables tables commit)) := by
  rcases @deleteTables_cases db commit tables with h | h <;> rw [h] <;> exact ⟨rfl, rfl, rfl, rfl⟩

omit [TableFormat] in
theorem deleteTables_tables : (orSame db (db.deleteTables tables commit)).tables = db.tables := by
  rcases @deleteTables_cases db commit tables with h | h <;> rw [h]

theorem writeBatch_eq_some {table : TableId} {cells : List Cell} {next : BuilderPhase}
    (h : s.writeBatch table cells next = some s') :
    (s.builders.find? table = some .opened ∧ s' = { s with
      db := (s.db.markTableDirty table).putCells table cells
      builders := s.builders.put (table, next) }) ∨
    (s.builders.find? table = some .flushed ∧ s' = { s with
      db := s.db.putCells table cells
      builders := s.builders.put (table, next) }) := by
  unfold writeBatch at h
  split at h
  · rename_i hf
    exact Or.inl ⟨hf, (Option.some.inj h).symm⟩
  · rename_i hf
    exact Or.inr ⟨hf, (Option.some.inj h).symm⟩
  · cases h

theorem writeBatch_same {table : TableId} {cells : List Cell} {next : BuilderPhase}
    (h : s.writeBatch table cells next = some s') : SameData s.db s'.db := by
  rcases writeBatch_eq_some h with ⟨-, rfl⟩ | ⟨-, rfl⟩ <;> exact ⟨rfl, rfl, rfl, rfl⟩

/-- A compaction commit takes effect, or leaves the database alone and gives its tables up. -/
theorem compactionCommit_eq_some {run : Nat} (h : s.step (.compactionCommit run commit) = some s') :
    ∃ c merge newChunk, s.compactions.find? run = some c ∧ c.phase = .built merge newChunk ∧
      ((∃ front back label, Compacted c.dataset merge newChunk front back label s.db s'.db ∧
          s' = { s with db := s'.db, compactions := s.compactions.erase run }) ∨
        s' = { s with
          compactions := s.compactions.put (run, c.refuse newChunk) }) := by
  obtain ⟨c, hf, h⟩ := Option.bind_eq_some_iff.mp h
  split at h
  · rename_i merge newChunk hp
    refine ⟨c, merge, newChunk, hf, hp, ?_⟩
    have hs := CompactionRun.spans hp
    split at h
    · rename_i db₁ merged hc
      cases h
      have hlast : ∀ last ∈ merge.getLast?, newChunk.lastBlock = last.lastBlock := by
        intro last hl
        rw [getLast?_eq_some_getLast hs.nonempty] at hl
        cases hl
        exact hs.lastBlock
      rcases commitCompaction_eq_ok hlast hc with ⟨hst, -⟩ | ⟨-, -, front, back, label, he⟩
      · cases hst
      · exact Or.inl ⟨front, back, label, he, rfl⟩
    · exact Or.inr (Option.some.inj h).symm
  · cases h

omit [TableFormat] in
theorem getLabel_purgeStaleHashIndexes (db : Db) (dataset other : DatasetId) :
    (db.purgeStaleHashIndexes dataset).getLabel other = db.getLabel other := by
  unfold Db.purgeStaleHashIndexes
  split <;> rfl

variable {kind : DatasetKind}

/-- The two transactions that create a dataset, after the purge both start with. -/
theorem created_dbStep {db₀ db₁ : Db} (hlf : s.lifecycle = none)
    (hpr : db₀ = s.db.purgeStaleHashIndexes dataset)
    (hdb : db₁ = db₀ ∨ (db₀.getLabel dataset = none ∧
      db₁ = db₀.writeLabel dataset (Db.newLabel kind))) :
    DbStep s op db₁ := by
  rw [hpr, getLabel_purgeStaleHashIndexes] at hdb
  cases hl : s.db.getLabel dataset with
  | none =>
    have hp : s.db.purgeStaleHashIndexes dataset = s.db.purgeHashIndexes dataset := by
      simp [Db.purgeStaleHashIndexes, Db.hasDataset, hl]
    rw [hp] at hdb
    rcases hdb with rfl | ⟨-, rfl⟩
    · exact .purgedStale hl hlf
    · exact .created hl hlf
  | some =>
    have hp : s.db.purgeStaleHashIndexes dataset = s.db := by
      simp [Db.purgeStaleHashIndexes, Db.hasDataset, hl]
    rcases hdb with rfl | ⟨hn, -⟩
    · rw [hp]
      exact .same (SameData.refl _)
    · rw [hl] at hn
      cases hn

omit [TableFormat] in
theorem createDatasetTx_cases {db₀ : Db} :
    orSame db₀ (db₀.createDatasetTx dataset kind commit) = db₀ ∨
      (db₀.getLabel dataset = none ∧ orSame db₀ (db₀.createDatasetTx dataset kind commit) =
        db₀.writeLabel dataset (Db.newLabel kind)) := by
  unfold Db.createDatasetTx
  cases hl : db₀.getLabel dataset with
  | some => exact Or.inl rfl
  | none =>
    cases commit with
    | error => exact Or.inl rfl
    | ok => exact Or.inr ⟨rfl, rfl⟩

omit [TableFormat] in
theorem createDatasetIfNotExistsTx_cases {db₀ : Db} :
    orSame db₀ (db₀.createDatasetIfNotExistsTx dataset kind commit) = db₀ ∨
      (db₀.getLabel dataset = none ∧
        orSame db₀ (db₀.createDatasetIfNotExistsTx dataset kind commit) =
          db₀.writeLabel dataset (Db.newLabel kind)) := by
  cases h : db₀.createDatasetIfNotExistsTx dataset kind commit with
  | error => exact Or.inl rfl
  | ok =>
    unfold Db.createDatasetIfNotExistsTx at h
    cases hl : db₀.getLabel dataset with
    | some =>
      rw [hl] at h
      obtain ⟨_, -, h⟩ := bind_eq_ok.mp h
      obtain ⟨_, -, h⟩ := bind_eq_ok.mp h
      cases h
      exact Or.inl rfl
    | none =>
      rw [hl] at h
      obtain ⟨_, -, h⟩ := bind_eq_ok.mp h
      cases h
      exact Or.inr ⟨rfl, rfl⟩

omit [TableFormat] in
theorem createDatasetIfNotExists_db (db : Db) (dataset : DatasetId) (kind : DatasetKind)
    (commit : Except Error Unit) :
    (db.createDatasetIfNotExists dataset kind commit).1 =
      orSame (db.purgeStaleHashIndexes dataset)
        ((db.purgeStaleHashIndexes dataset).createDatasetIfNotExistsTx dataset kind commit) := by
  dsimp only [Db.createDatasetIfNotExists]
  cases (db.purgeStaleHashIndexes dataset).createDatasetIfNotExistsTx dataset kind commit <;> rfl

/-- The steps of the node, one constructor for each way an input can take effect. -/
inductive Step (s : Node) : NodeOp → Node → Prop where
  | openTable {table : TableId} (serving : s.serving = true) :
      Step s (.openTable table) { s with
        builders := s.builders.put (table, .opened)
        allocated := table :: s.allocated }
  | flush {table : TableId} {cells : List Cell} {s' : Node}
      (batch : s.writeBatch table cells .flushed = some s') : Step s (.flush table cells) s'
  | finishTable {table : TableId} {cells : List Cell} {s' : Node}
      (batch : s.writeBatch table cells .stats = some s') : Step s (.finishTable table cells) s'
  | writeStatistic {table : TableId} {column : Nat} {bytes : Bytes}
      (find : s.builders.find? table = some .stats) :
      Step s (.writeStatistic table column bytes)
        { s with db := s.db.putCells table [(.statistic column, bytes)] }
  | closeTable {table : TableId} (find : s.builders.find? table = some .stats) :
      Step s (.closeTable table) { s with builders := s.builders.put (table, .finished) }
  | dropBuilder {table : TableId} :
      Step s (.dropBuilder table) { s with builders := s.builders.erase table }
  | update {dataset : DatasetId} {flags : IndexFlags} {edits : List Edit}
      {commit : Except Error Unit} (serving : s.serving = true) :
      Step s (.update dataset flags edits commit)
        { s with db := orSame s.db ((s.db.update dataset flags edits commit).map Prod.fst) }
  | deleteTables {tables : List TableId} {commit : Except Error Unit} :
      Step s (.deleteTables tables commit)
        { s with db := orSame s.db (s.db.deleteTables tables commit) }
  | compactionStart {run : Nat} {dataset : DatasetId} {params : CompactionParams}
      (serving : s.serving = true) (unused : s.compactions.find? run = none) :
      Step s (.compactionStart run dataset params) { s with
        compactions := s.compactions.put (run, ⟨dataset, params, s.db, .planning, trivial⟩) }
  | compactionBuild {run : Nat} {tables : TableMap} {c built : CompactionRun}
      (find : s.compactions.find? run = some c) (phase : c.phase = .planning)
      (build : c.build s.db tables = some built) :
      Step s (.compactionBuild run tables)
        { s with compactions := s.compactions.put (run, built) }
  | compactionStop {run : Nat} {c : CompactionRun} (find : s.compactions.find? run = some c)
      (phase : c.phase = .planning) :
      Step s (.compactionStop run) { s with compactions := s.compactions.erase run }
  | compactionCommit {run : Nat} {commit : Except Error Unit} {c : CompactionRun}
      {merge front back : List Chunk} {newChunk : Chunk} {label : DatasetLabel} {db' : Db}
      (find : s.compactions.find? run = some c) (phase : c.phase = .built merge newChunk)
      (effect : Compacted c.dataset merge newChunk front back label s.db db') :
      Step s (.compactionCommit run commit)
        { s with db := db', compactions := s.compactions.erase run }
  | compactionRefused {run : Nat} {commit : Except Error Unit} {c : CompactionRun}
      {merge : List Chunk} {newChunk : Chunk} (find : s.compactions.find? run = some c)
      (phase : c.phase = .built merge newChunk) :
      Step s (.compactionCommit run commit)
        { s with compactions := s.compactions.put (run, c.refuse newChunk) }
  | compactionAbandon {run : Nat} {commit : Except Error Unit} {c : CompactionRun}
      {newChunk : Chunk} (find : s.compactions.find? run = some c)
      (phase : c.phase = .refused newChunk) :
      Step s (.compactionAbandon run commit) { s with
        db := orSame s.db (s.db.deleteTables newChunk.tables.values commit)
        compactions := s.compactions.erase run }
  | createDataset {dataset : DatasetId} {kind : DatasetKind} {commit : Except Error Unit}
      (lifecycle : s.lifecycle = none) :
      Step s (.createDataset dataset kind commit) { s with
        db := orSame (s.db.purgeStaleHashIndexes dataset)
          ((s.db.purgeStaleHashIndexes dataset).createDatasetTx dataset kind commit) }
  | createDatasetIfNotExists {dataset : DatasetId} {kind : DatasetKind}
      {commit : Except Error Unit} (lifecycle : s.lifecycle = none) :
      Step s (.createDatasetIfNotExists dataset kind commit)
        { s with db := (s.db.createDatasetIfNotExists dataset kind commit).1 }
  | dropDataset {dataset : DatasetId} {commit : Except Error Unit} {label : DatasetLabel}
      (lifecycle : s.lifecycle = none) (present : s.db.getLabel dataset = some label) :
      Step s (.dropDataset dataset commit) { s with
        db := ((s.db.chunkSet dataset).toList.foldl (fun db c => db.deleteChunk dataset c)
          s.db).deleteLabel dataset
        lifecycle := some dataset }
  | dropAbsent {dataset : DatasetId} {commit : Except Error Unit} (lifecycle : s.lifecycle = none)
      (absent : s.db.getLabel dataset = none) :
      Step s (.dropDataset dataset commit) { s with lifecycle := some dataset }
  | dropFailed {dataset : DatasetId} {commit : Except Error Unit} :
      Step s (.dropDataset dataset commit) s
  | purgeHashBatch {dataset : DatasetId} {blocks transactions : List Hash}
      (lifecycle : s.lifecycle = some dataset) :
      Step s (.purgeHashBatch blocks transactions)
        { s with db := s.db.purgeHashBatch dataset blocks transactions }
  | finishDrop {dataset : DatasetId} (lifecycle : s.lifecycle = some dataset) :
      Step s .finishDrop { s with db := s.db.purgeHashIndexes dataset, lifecycle := none }
  | scanDeleted : Step s .scanDeleted { s with purging := s.db.deletedTables.toList ++ s.purging }
  | scanOrphans (startup : s.serving = false) :
      Step s .scanOrphans { s with purging := s.db.dirtyTables.toList ++ s.purging }
  | purgeScanned {table : TableId} (queued : table ∈ s.purging) :
      Step s (.purgeScanned table) { s with db := s.db.purgeTable table }
  | reclaim {unlinked : TableId → TableKey → Bool} {revived : List (TableId × Cell)}
      (startup : s.serving = false) (drawn : ∀ e ∈ revived, e.1 ∈ s.allocated) :
      Step s (.reclaim unlinked revived) { s with db := s.db.reclaimDiskSpace unlinked revived }
  | serve (startup : s.serving = false) :
      Step s .serve { s with serving := true, purging := [] }
  | crash : Step s .crash (start s.db s.allocated)

theorem step_compactionBuild {run : Nat} {tables : TableMap}
    (h : s.step (.compactionBuild run tables) = some s') :
    Step s (.compactionBuild run tables) s' := by
  obtain ⟨c, hf, h⟩ := Option.bind_eq_some_iff.mp h
  split at h
  · rename_i hp
    obtain ⟨_, hb, h⟩ := Option.bind_eq_some_iff.mp h
    cases h
    exact .compactionBuild hf hp hb
  · cases h

theorem step_compactionStop {run : Nat} (h : s.step (.compactionStop run) = some s') :
    Step s (.compactionStop run) s' := by
  obtain ⟨c, hf, h⟩ := Option.bind_eq_some_iff.mp h
  split at h
  · rename_i hp
    cases h
    exact .compactionStop hf hp
  · cases h

theorem step_compactionCommit {run : Nat} {commit : Except Error Unit}
    (h : s.step (.compactionCommit run commit) = some s') :
    Step s (.compactionCommit run commit) s' := by
  obtain ⟨c, _, newChunk, hf, hp, hc | hc⟩ := compactionCommit_eq_some h
  · obtain ⟨front, back, label, he, heq⟩ := hc
    rw [heq]
    exact .compactionCommit hf hp he
  · rw [hc]
    exact .compactionRefused hf hp

theorem step_compactionAbandon {run : Nat} {commit : Except Error Unit}
    (h : s.step (.compactionAbandon run commit) = some s') :
    Step s (.compactionAbandon run commit) s' := by
  obtain ⟨_, hf, h⟩ := Option.bind_eq_some_iff.mp h
  split at h
  · rename_i newChunk hp
    cases h
    exact .compactionAbandon hf hp
  · cases h

theorem step_dropDataset {dataset : DatasetId} {commit : Except Error Unit}
    (h : s.step (.dropDataset dataset commit) = some s') :
    Step s (.dropDataset dataset commit) s' := by
  obtain ⟨hlf, h⟩ := Option.ite_none_right_eq_some.mp h
  have hlf' : s.lifecycle = none := by simpa using hlf
  split at h
  · rename_i db₁ hd
    cases h
    rcases Db.dropDatasetTx_eq_ok hd with ⟨ha, rfl⟩ | ⟨_, hl, rfl⟩
    · exact .dropAbsent hlf' ha
    · exact .dropDataset hlf' hl
  · cases h
    exact .dropFailed

/-- The builder of a table is asked for statistics only after its last batch. -/
theorem step_statistics {table : TableId} {next : Node}
    (h : (match s.builders.find? table with
      | some .stats => some next
      | _ => none) = some s') : s.builders.find? table = some .stats ∧ next = s' := by
  split at h
  · rename_i hf
    exact ⟨hf, Option.some.inj h⟩
  · cases h

theorem step_cases (h : s.step op = some s') : Step s op s' := by
  cases op with
  | openTable => exact Machine.of_guarded h .openTable
  | flush => exact .flush h
  | finishTable => exact .finishTable h
  | writeStatistic =>
    obtain ⟨hf, rfl⟩ := step_statistics h
    exact .writeStatistic hf
  | closeTable =>
    obtain ⟨hf, rfl⟩ := step_statistics h
    exact .closeTable hf
  | dropBuilder => exact Option.some.inj h ▸ .dropBuilder
  | update => exact Machine.of_guarded h .update
  | deleteTables => exact Option.some.inj h ▸ .deleteTables
  | compactionStart =>
    refine Machine.of_guarded h fun hc => ?_
    simp only [Bool.and_eq_true, Option.isNone_iff_eq_none] at hc
    exact .compactionStart hc.1 hc.2
  | compactionBuild => exact step_compactionBuild h
  | compactionStop => exact step_compactionStop h
  | compactionCommit => exact step_compactionCommit h
  | compactionAbandon => exact step_compactionAbandon h
  | createDataset => exact Machine.of_guarded h fun hl => .createDataset (by simpa using hl)
  | createDatasetIfNotExists =>
    exact Machine.of_guarded h fun hl => .createDatasetIfNotExists (by simpa using hl)
  | dropDataset => exact step_dropDataset h
  | purgeHashBatch => exact Machine.of_found h fun _ hl h => Option.some.inj h ▸ .purgeHashBatch hl
  | finishDrop => exact Machine.of_found h fun _ hl h => Option.some.inj h ▸ .finishDrop hl
  | scanDeleted => exact Option.some.inj h ▸ .scanDeleted
  | scanOrphans => exact Machine.of_refused h fun hs => .scanOrphans (by simpa using hs)
  | purgeScanned => exact Machine.of_guarded h .purgeScanned
  | reclaim =>
    refine Machine.of_refused h fun hs => ?_
    obtain ⟨hsv, hd⟩ := not_or.mp hs
    exact .reclaim (by simpa using hsv) (by simpa using hd)
  | serve => exact Machine.of_refused h fun hs => .serve (by simpa using hs)
  | crash => exact Option.some.inj h ▸ .crash

/-- Everything a step can do to the data of datasets. -/
theorem step_dbStep (h : s.step op = some s') : DbStep s op s'.db := by
  cases step_cases h with
  | flush batch => exact .same (writeBatch_same batch)
  | finishTable batch => exact .same (writeBatch_same batch)
  | @update dataset flags edits commit serving =>
    cases hu : s.db.update dataset flags edits commit with
    | error => exact .same (SameData.refl _)
    | ok => exact .updated hu
  | deleteTables => exact .same deleteTables_same
  | compactionCommit find phase effect => exact .compacted find phase effect
  | compactionAbandon => exact .same deleteTables_same
  | createDataset lifecycle => exact created_dbStep lifecycle rfl createDatasetTx_cases
  | createDatasetIfNotExists lifecycle =>
    dsimp only
    rw [createDatasetIfNotExists_db]
    exact created_dbStep lifecycle rfl createDatasetIfNotExistsTx_cases
  | dropDataset lifecycle present => exact .dropped present lifecycle
  | purgeHashBatch lifecycle => exact .purged lifecycle
  | finishDrop lifecycle => exact .finished lifecycle
  | _ => exact .same ⟨rfl, rfl, rfl, rfl⟩

/-- The effects a node step can have on a dataset it does not update. -/
inductive DatasetStep (dataset : DatasetId) (s : Node) (op : NodeOp) (db' : Db) : Prop where
  | same (label : db'.getLabel dataset = s.db.getLabel dataset)
      (chunks : db'.chunkSet dataset = s.db.chunkSet dataset)
  | created (kind : DatasetKind) (absent : s.db.getLabel dataset = none)
      (label : db'.getLabel dataset = some (Db.newLabel kind))
      (chunks : db'.chunkSet dataset = s.db.chunkSet dataset)
  | dropped (commit : Except Error Unit) (op_eq : op = .dropDataset dataset commit)
      (label : db'.getLabel dataset = none) (chunks : db'.chunkSet dataset = ∅)
  | compacted (merge : List Chunk) (newChunk : Chunk) (front back : List Chunk)
      (label : DatasetLabel) (spans : Spans merge newChunk)
      (effect : Compacted dataset merge newChunk front back label s.db db')

theorem DbStep.datasetStep (hop : ∀ flags edits commit, op ≠ .update dataset flags edits commit)
    (h : DbStep s op db') : DatasetStep dataset s op db' := by
  cases h with
  | same hs => exact .same hs.getLabel hs.chunkSet
  | @updated updated flags edits commit _ hu =>
    have hne : dataset ≠ updated := by
      rintro rfl
      exact hop flags edits commit rfl
    obtain ⟨hl, hc, -⟩ := Db.update_of_ne hne hu
    exact .same hl hc
  | @compacted run commit c merge newChunk front back label _ find phase effect =>
    by_cases hd : dataset = c.dataset
    · subst hd
      exact .compacted merge newChunk front back label (CompactionRun.spans phase) effect
    · refine .same ?_ (effect.chunkSet_of_ne dataset hd)
      unfold Db.getLabel
      rw [effect.datasets, Keyed.find?_put_of_ne hd]
  | purgedStale => exact .same rfl rfl
  | @created created kind _ absent lifecycle =>
    by_cases hd : dataset = created
    · subst hd
      exact .created kind absent Db.getLabel_writeLabel_self rfl
    · exact .same (Db.getLabel_writeLabel_of_ne hd) rfl
  | @dropped dropped commit label present lifecycle =>
    by_cases hd : dataset = dropped
    · subst hd
      refine .dropped commit rfl ?_ (Db.chunkSet_dropped _ _)
      exact Keyed.find?_erase_self _ _
    · have hr := Db.foldl_deleteChunk_removed dropped (s.db.chunkSet dropped).toList s.db
      refine .same ?_ (hr.chunkSet_of_ne hd)
      unfold Db.getLabel
      rw [← hr.datasets]
      exact Keyed.find?_erase_of_ne hd
  | purged => exact .same rfl rfl
  | finished => exact .same rfl rfl

theorem step_datasetStep (hop : ∀ flags edits commit, op ≠ .update dataset flags edits commit)
    (h : s.step op = some s') : DatasetStep dataset s op s'.db :=
  DbStep.datasetStep hop (step_dbStep h)

end Node

end Storage
