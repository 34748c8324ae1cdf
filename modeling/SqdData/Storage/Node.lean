import SqdData.Storage.Compaction
import SqdData.Storage.Maintenance
import SqdData.Transition

/-!
# A storage node

The database together with everything that runs against it: table builders, dataset transactions,
compactions, dataset creation and deletion, cleanup passes, crashes and the recovery at startup.
Each step is one atomic effect on the database, so a run of the machine is an interleaving of all
of these at the granularity of write batches and transactions.

The state outside the database is volatile: a crash loses it. `allocated` is a ghost: the ids that
were ever drawn for a table.
-/

namespace Storage

/-- The life of a table builder. Its first write batch starts with the dirty mark. After `finish`
the statistics are written one by one, and then the id is handed out. -/
inductive BuilderPhase where
  | opened
  | flushed
  | stats
  | finished
deriving DecidableEq, Repr

/-- How far a compaction got: its tables are still to be built, or it has a plan and a chunk to
commit, or the transaction did not commit that chunk and its tables are to be abandoned. -/
inductive CompactionPhase where
  | planning
  | built (merge : List Chunk) (newChunk : Chunk)
  | refused (newChunk : Chunk)

variable [TableFormat]

/-- The plan made on a snapshot and the chunk that is to take its place. -/
def compactionChunk (params : CompactionParams) (snapshot : Db) (dataset : DatasetId)
    (tables : TableMap) : Option (List Chunk × Chunk) :=
  match prepareMergePlan params snapshot dataset with
  | .error _ => none
  | .ok merge =>
    match merge.head?, merge.getLast? with
    | some first, some last =>
      if h : 2 ≤ merge.length ∧ first.firstBlock ≤ last.lastBlock then
        some (merge, makeChunk first last tables h.2)
      else none
    | _, _ => none

theorem compactionChunk_eq_some {params : CompactionParams} {snapshot : Db} {dataset : DatasetId}
    {tables : TableMap} {merge : List Chunk} {newChunk : Chunk}
    (h : compactionChunk params snapshot dataset tables = some (merge, newChunk)) :
    prepareMergePlan params snapshot dataset = .ok merge ∧
      ∃ first last ordered, merge.head? = some first ∧ merge.getLast? = some last ∧
        newChunk = makeChunk first last tables ordered := by
  unfold compactionChunk at h
  cases hp : prepareMergePlan params snapshot dataset with
  | error =>
    rw [hp] at h
    cases h
  | ok planned =>
    rw [hp] at h
    dsimp only at h
    split at h
    · rename_i first last hf hlast
      split at h
      · rename_i ho
        cases h
        exact ⟨rfl, first, last, ho.2, hf, hlast, rfl⟩
      · cases h
    · cases h

/-- A chunk that has been built comes from the plan of the run. -/
def CompactionPhase.Planned (params : CompactionParams) (snapshot : Db) (dataset : DatasetId) :
    CompactionPhase → Prop
  | .built merge newChunk =>
    compactionChunk params snapshot dataset newChunk.tables = some (merge, newChunk)
  | _ => True

/-- One run of `perform_dataset_compaction` and the snapshot it reads. -/
structure CompactionRun where
  dataset : DatasetId
  params : CompactionParams
  snapshot : Db
  phase : CompactionPhase
  planned : phase.Planned params snapshot dataset

/-- Whether `tables` are the tables `merge_all_tables` writes: under each name it merged, the
table reads as the merge of what the snapshot has under that name. For tables stored as pages this
is what writing the merges gives (`CompactionRun.merged_of_written`). -/
def CompactionRun.merged (c : CompactionRun) (db : Db) (merge : List Chunk) (tables : TableMap) :
    Bool :=
  match mergeAllTables c.params c.snapshot merge with
  | .ok merged =>
    tables.keys = merged.map Prod.fst &&
      merged.all fun (name, table) =>
        (tables.find? name).any fun id => db.createTableReader id = .ok table
  | .error _ => false

def CompactionRun.build (c : CompactionRun) (db : Db) (tables : TableMap) :
    Option CompactionRun :=
  match h : compactionChunk c.params c.snapshot c.dataset tables with
  | some (merge, newChunk) =>
    if c.merged db merge tables then
      some { c with
        phase := .built merge newChunk
        planned := by
          obtain ⟨-, first, last, ordered, -, -, rfl⟩ := compactionChunk_eq_some h
          exact h }
    else none
  | none => none

def CompactionRun.refuse (c : CompactionRun) (newChunk : Chunk) : CompactionRun :=
  { c with phase := .refused newChunk, planned := trivial }

/-- The changes a dataset update can stage. -/
inductive Edit where
  | insertChunk (chunk : Chunk)
  | insertFork (chunk : Chunk)
  | deleteChunk (chunk : Chunk)
  | setFinalizedHead (head : Option BlockRef)

structure Node where
  db : Db
  builders : Keyed.Map TableId BuilderPhase
  compactions : Keyed.Map Nat CompactionRun
  /-- Tables found by a scan of a cleanup pass or of the orphan sweep, to be purged one by one. -/
  purging : List TableId
  /-- The dataset whose deletion holds the lifecycle lock after its transaction. -/
  lifecycle : Option DatasetId
  /-- Whether startup recovery is over. -/
  serving : Bool
  allocated : List TableId

/-- An input of the machine. `commit` is the verdict of the optimistic transaction. -/
inductive NodeOp where
  | openTable (table : TableId)
  | flush (table : TableId) (cells : List Cell)
  | finishTable (table : TableId) (cells : List Cell)
  | writeStatistic (table : TableId) (column : Nat) (bytes : Bytes)
  | closeTable (table : TableId)
  | dropBuilder (table : TableId)
  | update (dataset : DatasetId) (flags : IndexFlags) (edits : List Edit)
      (commit : Except Error Unit)
  | deleteTables (tables : List TableId) (commit : Except Error Unit)
  | compactionStart (run : Nat) (dataset : DatasetId) (params : CompactionParams)
  | compactionBuild (run : Nat) (tables : TableMap)
  | compactionStop (run : Nat)
  | compactionCommit (run : Nat) (commit : Except Error Unit)
  | compactionAbandon (run : Nat) (commit : Except Error Unit)
  | createDataset (dataset : DatasetId) (kind : DatasetKind) (commit : Except Error Unit)
  | createDatasetIfNotExists (dataset : DatasetId) (kind : DatasetKind)
      (commit : Except Error Unit)
  | dropDataset (dataset : DatasetId) (commit : Except Error Unit)
  | purgeHashBatch (blocks transactions : List Hash)
  | finishDrop
  | scanDeleted
  | scanOrphans
  | purgeScanned (table : TableId)
  | reclaim (unlinked : TableId → TableKey → Bool) (revived : List (TableId × Cell))
  | serve
  | crash

namespace Db

omit [TableFormat] in
def putCells (db : Db) (table : TableId) (cells : List Cell) : Db :=
  { db with tables := cells.foldl (fun tables cell => tables.put (table, cell)) db.tables }

omit [TableFormat] in
def markTableDirty (db : Db) (table : TableId) : Db :=
  { db with dirtyTables := db.dirtyTables.put table }

def applyEdit (flags : IndexFlags) (dataset : DatasetId) (upd : DatasetUpdate) :
    Edit → Except Error DatasetUpdate
  | .insertChunk chunk => do
    return { upd with db := ← upd.db.insertChunk flags dataset chunk }
  | .insertFork chunk => do
    return { upd with db := ← upd.db.insertFork flags dataset chunk }
  | .deleteChunk chunk => do
    return { upd with db := ← upd.db.removeChunk dataset chunk }
  | .setFinalizedHead head => .ok (upd.setFinalizedHead head)

def update (db : Db) (dataset : DatasetId) (flags : IndexFlags) (edits : List Edit)
    (commit : Except Error Unit) : Except Error (Db × Unit) :=
  db.updateDataset dataset commit fun upd => do
    return (← edits.foldlM (applyEdit flags dataset) upd, ())

end Db

namespace Node

/-- A node that has just opened its database. -/
def start (db : Db) (allocated : List TableId) : Node where
  db := db
  builders := ∅
  compactions := ∅
  purging := []
  lifecycle := none
  serving := false
  allocated := allocated

/-- A write batch: the dirty mark goes with the first one. -/
def writeBatch (s : Node) (table : TableId) (cells : List Cell) (next : BuilderPhase) :
    Option Node :=
  match s.builders.find? table with
  | some .opened => some { s with
      db := (s.db.markTableDirty table).putCells table cells
      builders := s.builders.put (table, next) }
  | some .flushed => some { s with
      db := s.db.putCells table cells
      builders := s.builders.put (table, next) }
  | _ => none

omit [TableFormat] in
/-- The database after a call, which a failed call leaves as it was. -/
def orSame (db : Db) : Except Error Db → Db
  | .ok db => db
  | .error _ => db

def step (s : Node) : NodeOp → Option Node
  | .openTable table =>
    if s.serving then
      some { s with
        builders := s.builders.put (table, .opened)
        allocated := table :: s.allocated }
    else none
  | .flush table cells => s.writeBatch table cells .flushed
  | .finishTable table cells => s.writeBatch table cells .stats
  | .writeStatistic table column bytes =>
    match s.builders.find? table with
    | some .stats => some { s with db := s.db.putCells table [(.statistic column, bytes)] }
    | _ => none
  | .closeTable table =>
    match s.builders.find? table with
    | some .stats => some { s with builders := s.builders.put (table, .finished) }
    | _ => none
  | .dropBuilder table => some { s with builders := s.builders.erase table }
  | .update dataset flags edits commit =>
    if s.serving then
      some { s with
        db := orSame s.db ((s.db.update dataset flags edits commit).map Prod.fst) }
    else none
  | .deleteTables tables commit =>
    some { s with db := orSame s.db (s.db.deleteTables tables commit) }
  | .compactionStart run dataset params =>
    if s.serving && (s.compactions.find? run).isNone then
      some { s with
        compactions := s.compactions.put (run, ⟨dataset, params, s.db, .planning, trivial⟩) }
    else none
  | .compactionBuild run tables => do
    let c ← s.compactions.find? run
    match c.phase with
    | .planning => do
      let built ← c.build s.db tables
      some { s with compactions := s.compactions.put (run, built) }
    | _ => none
  | .compactionStop run => do
    let c ← s.compactions.find? run
    match c.phase with
    | .planning => some { s with compactions := s.compactions.erase run }
    | _ => none
  | .compactionCommit run commit => do
    let c ← s.compactions.find? run
    match c.phase with
    | .built merge newChunk =>
      match commitCompaction c.snapshot s.db c.dataset merge newChunk commit with
      | .ok (db, .ok _) =>
        some { s with db := db, compactions := s.compactions.erase run }
      | _ =>
        some { s with
          compactions := s.compactions.put (run, c.refuse newChunk) }
    | _ => none
  | .compactionAbandon run commit => do
    let c ← s.compactions.find? run
    match c.phase with
    | .refused newChunk =>
      some { s with
        db := orSame s.db (s.db.deleteTables newChunk.tables.values commit)
        compactions := s.compactions.erase run }
    | _ => none
  | .createDataset dataset kind commit =>
    if s.lifecycle.isNone then
      let db := s.db.purgeStaleHashIndexes dataset
      some { s with db := orSame db (db.createDatasetTx dataset kind commit) }
    else none
  | .createDatasetIfNotExists dataset kind commit =>
    if s.lifecycle.isNone then
      some { s with db := (s.db.createDatasetIfNotExists dataset kind commit).1 }
    else none
  | .dropDataset dataset commit =>
    if s.lifecycle.isNone then
      match s.db.dropDatasetTx dataset commit with
      | .ok db => some { s with db := db, lifecycle := some dataset }
      | .error _ => some s
    else none
  | .purgeHashBatch blocks transactions => do
    let dataset ← s.lifecycle
    some { s with db := s.db.purgeHashBatch dataset blocks transactions }
  | .finishDrop => do
    let dataset ← s.lifecycle
    some { s with db := s.db.purgeHashIndexes dataset, lifecycle := none }
  | .scanDeleted => some { s with purging := s.db.deletedTables.toList ++ s.purging }
  | .scanOrphans =>
    if s.serving then none
    else some { s with purging := s.db.dirtyTables.toList ++ s.purging }
  | .purgeScanned table =>
    if table ∈ s.purging then some { s with db := s.db.purgeTable table } else none
  | .reclaim unlinked revived =>
    -- Only what was written once can come back, so `revived` is about tables that were drawn.
    if s.serving ∨ ∃ e ∈ revived, e.1 ∉ s.allocated then none
    else some { s with db := s.db.reclaimDiskSpace unlinked revived }
  | .serve => if s.serving then none else some { s with serving := true, purging := [] }
  | .crash => some (start s.db s.allocated)

/-- The storage node as a machine. It starts on an empty database. -/
def machine : Machine Node NodeOp where
  init := fun s => s = start Db.empty []
  step := step

end Node

end Storage
