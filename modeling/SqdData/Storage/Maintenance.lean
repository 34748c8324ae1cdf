import SqdData.Storage.Transactions

/-!
# Dataset lifecycle and table cleanup

Creation and deletion of datasets, the purge of the hash indexes that goes with them, and the
bookkeeping of tables: abandoning, cleanup of deleted tables, the orphan sweep at startup and
reclamation of disk space below the watermark.
-/

namespace Storage

namespace Db

def newLabel (kind : DatasetKind) : DatasetLabel :=
  { kind, version := 0, finalizedHead := none }

/-- `purge_hash_index`, run to its end for both families. -/
def purgeHashIndexes (db : Db) (dataset : DatasetId) : Db :=
  { db with
    blockHashes := db.blockHashes.filter fun e => e.1 ≠ dataset
    transactionHashes := db.transactionHashes.filter fun e => e.1 ≠ dataset }

/-- A part of `purge_hash_index`: the entries of `dataset` under the given hashes. -/
def purgeHashBatch (db : Db) (dataset : DatasetId) (blocks transactions : List Hash) : Db :=
  { db with
    blockHashes := eraseEntries db.blockHashes dataset blocks
    transactionHashes := eraseEntries db.transactionHashes dataset transactions }

/-- `purge_stale_hash_indexes_if_dataset_absent`. -/
def purgeStaleHashIndexes (db : Db) (dataset : DatasetId) : Db :=
  if db.hasDataset dataset then db else db.purgeHashIndexes dataset

/-- The transaction of `create_dataset`. -/
def createDatasetTx (db : Db) (dataset : DatasetId) (kind : DatasetKind)
    (commit : Except Error Unit) : Except Error Db :=
  match db.getLabel dataset with
  | some _ => .error (.text s!"dataset {dataset} already exists")
  | none => do
    commit
    return db.writeLabel dataset (newLabel kind)

/-- The transaction of `create_dataset_if_not_exists`. -/
def createDatasetIfNotExistsTx (db : Db) (dataset : DatasetId) (kind : DatasetKind)
    (commit : Except Error Unit) : Except Error Db :=
  match db.getLabel dataset with
  | some label => do
    ensure (label.kind = kind) (.text
      (s!"wanted to create dataset {dataset} of kind {label.kind}, but it already exists " ++
      s!"with kind {kind}"))
    commit
    return db
  | none => do
    commit
    return db.writeLabel dataset (newLabel kind)

/-- `Database::create_dataset_if_not_exists`. A failed transaction leaves the purge behind. -/
def createDatasetIfNotExists (db : Db) (dataset : DatasetId) (kind : DatasetKind)
    (commit : Except Error Unit) : Db × Except Error Unit :=
  let db := db.purgeStaleHashIndexes dataset
  match db.createDatasetIfNotExistsTx dataset kind commit with
  | .ok db => (db, .ok ())
  | .error e => (db, .error e)

/-- The transaction of `delete_dataset`. -/
def dropDatasetTx (db : Db) (dataset : DatasetId) (commit : Except Error Unit) :
    Except Error Db := do
  commit
  match db.getLabel dataset with
  | none => return db
  | some _ =>
    let db := (db.listChunks dataset 0 none).foldl (fun db c => db.deleteChunk dataset c) db
    return db.deleteLabel dataset

def deleteTables (db : Db) (tables : List TableId) (commit : Except Error Unit) :
    Except Error Db := do
  commit
  return tables.foldl deleteTable db

/-- `purge_table`: all cells of the table and both of its marks, in one batch. -/
def purgeTable (db : Db) (table : TableId) : Db :=
  { db with
    tables := db.tables.filter fun e => e.1 ≠ table
    deletedTables := db.deletedTables.erase table
    dirtyTables := db.dirtyTables.erase table }

def logicalCleanup (db : Db) : Db := db.deletedTables.toList.foldl purgeTable db

def purgeOrphanDirtyTables (db : Db) : Db := db.dirtyTables.toList.foldl purgeTable db

/-- The tables that committed chunks refer to, over all datasets. -/
def liveTables (db : Db) : List TableId := db.chunks.toList.flatMap fun e => e.2.tables.values

def minLiveTableId (db : Db) : Option TableId := (db.liveTables ++ db.dirtyTables.toList).min?

/-- Whether the keys of a table lie below the bound of a reclamation. -/
def belowWatermark (db : Db) (table : TableId) : Bool :=
  db.minLiveTableId.all fun watermark => table < watermark

/-- `reclaim_disk_space`: unlinks the files of the tables family that lie below the watermark, with
the values and the tombstones they hold. Which files those are depends on the layout on disk, so
what becomes of the keys below the watermark is given by two parameters: the cells `unlinked` are
lost, and the cells `revived` are visible again, because their tombstones lay in an unlinked file
and their values in one that reaches above the watermark. Keys at or above it are left alone. -/
def reclaimDiskSpace (db : Db) (unlinked : TableId → TableKey → Bool)
    (revived : List (TableId × Cell)) : Db :=
  { db with
    tables := (revived.filter fun e => db.belowWatermark e.1).foldl Keyed.put
      (db.tables.filter fun e => !(unlinked e.1 e.2.1 && db.belowWatermark e.1)) }

end Db

end Storage
