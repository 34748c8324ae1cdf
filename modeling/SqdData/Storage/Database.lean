import SqdData.Storage.Tables

/-!
# The database

The column families of the storage database and the reads that need no transaction: labels,
chunk listings, table readers and hash lookups.

The chunks column family is one ordered store for all datasets. A listing is a scan of it that
starts inside the dataset's key range and stops at the first entry of another dataset or at the
first chunk outside the requested blocks. `chunkSet` is the abstract view of the same data: the
chunks of one dataset, ordered by last block. `listChunks_eq` and `listChunksReversed_eq` relate
the two.
-/

namespace Storage

/-- `encode_transaction_position`: the value of a transaction hash entry. -/
structure TransactionPosition where
  blockNumber : Nat
  transactionIndex : Nat
deriving DecidableEq, Repr

/-- An entry of a hash index: the hash and the position it stands for. -/
abbrev hashPos {ν : Type} (entry : Hash × ν) : Hash := entry.1

/-- The column families. The values of `CF_DIRTY_TABLES` and `CF_DELETED_TABLES` are unused, so
these two are stores of table ids. -/
structure Db where
  datasets : Keyed.Map DatasetId DatasetLabel
  chunks : Shelved DatasetId Chunk.lastBlock
  tables : Shelved TableId cellPos
  dirtyTables : Keyed (id : TableId → TableId)
  deletedTables : Keyed (id : TableId → TableId)
  blockHashes : Shelved DatasetId (hashPos : Hash × Nat → Hash)
  transactionHashes : Shelved DatasetId (hashPos : Hash × TransactionPosition → Hash)

namespace Db

def empty : Db where
  datasets := ∅
  chunks := ∅
  tables := ∅
  dirtyTables := ∅
  deletedTables := ∅
  blockHashes := ∅
  transactionHashes := ∅

def getLabel (db : Db) (dataset : DatasetId) : Option DatasetLabel :=
  db.datasets.find? dataset

def hasDataset (db : Db) (dataset : DatasetId) : Bool := (db.getLabel dataset).isSome

def chunkSet (db : Db) (dataset : DatasetId) : Keyed Chunk.lastBlock :=
  db.chunks.owned dataset

/-- The chunks of the dataset do not overlap. -/
def Disjoint (db : Db) (dataset : DatasetId) : Prop :=
  chunkSegments.Apart (db.chunkSet dataset).toList

def cells (db : Db) (table : TableId) : TableCells := db.tables.owned table

theorem cells_of_tables {db db' : Db} (h : db'.tables = db.tables) (table : TableId) :
    db'.cells table = db.cells table :=
  congrArg (fun tables => Keyed.owned tables table) h

end Db

/-- The test a chunk iterator makes before it yields a chunk. -/
def inRange (fromBlock : Nat) (toBlock : Option Nat) (chunk : Chunk) : Bool :=
  fromBlock ≤ chunk.lastBlock && toBlock.all fun stop => chunk.firstBlock ≤ stop

namespace Db

/-- `ChunkIterator` in ascending order. -/
def listChunks (db : Db) (dataset : DatasetId) (fromBlock : Nat)
    (toBlock : Option Nat) : List Chunk :=
  (((db.chunks.seek (toLex (dataset, fromBlock))).takeWhile fun e => e.1 = dataset).map
    Prod.snd).takeWhile (inRange fromBlock toBlock)

/-- `ChunkIterator::into_reversed`: the scan starts at the last key up to `toBlock`. -/
def listChunksReversed (db : Db) (dataset : DatasetId) (fromBlock : Nat)
    (toBlock : Option Nat) : List Chunk :=
  (((db.chunks.seekPrev (toLex (dataset, toBlock.getD maxBlockNumber))).takeWhile
    fun e => e.1 = dataset).map Prod.snd).takeWhile (inRange fromBlock toBlock)

def getFirstChunk (db : Db) (dataset : DatasetId) : Option Chunk :=
  (db.listChunks dataset 0 none).head?

def getLastChunk (db : Db) (dataset : DatasetId) : Option Chunk :=
  (db.listChunksReversed dataset 0 none).head?

def createTableReader [TableFormat] (db : Db) (table : TableId) : Except Error Table :=
  TableFormat.decode (db.cells table)

def findBlockByHash (db : Db) (dataset : DatasetId) (hash : Hash) : Option BlockRef :=
  if db.hasDataset dataset then
    (db.blockHashes.get? (toLex (dataset, hash))).map fun e =>
      { number := e.2.2, hash := hash }
  else none

def findTransactionByHash (db : Db) (dataset : DatasetId) (hash : Hash) :
    Option TransactionRef :=
  if db.hasDataset dataset then
    (db.transactionHashes.get? (toLex (dataset, hash))).map fun e =>
      { blockNumber := e.2.2.blockNumber, transactionIndex := e.2.2.transactionIndex, hash := hash }
  else none

theorem listChunks_eq (db : Db) (dataset : DatasetId) (fromBlock : Nat) (toBlock : Option Nat) :
    db.listChunks dataset fromBlock toBlock =
      ((db.chunkSet dataset).seek fromBlock).takeWhile (inRange fromBlock toBlock) := by
  unfold listChunks
  rw [Keyed.seek_takeWhile]
  rfl

theorem listChunksReversed_eq (db : Db) (dataset : DatasetId) (fromBlock : Nat)
    (toBlock : Option Nat) :
    db.listChunksReversed dataset fromBlock toBlock =
      ((db.chunkSet dataset).seekPrev (toBlock.getD maxBlockNumber)).takeWhile
        (inRange fromBlock toBlock) := by
  unfold listChunksReversed
  rw [Keyed.seekPrev_takeWhile]
  rfl

theorem inRange_all (chunk : Chunk) : inRange 0 none chunk = true := by
  simp [inRange]

/-- The unbounded listing yields every chunk of the dataset. -/
theorem listChunks_all (db : Db) (dataset : DatasetId) :
    db.listChunks dataset 0 none = (db.chunkSet dataset).toList := by
  have ha : ∀ c ∈ (db.chunkSet dataset).toList, inRange 0 none c = true :=
    fun c _ => inRange_all c
  rw [listChunks_eq]
  simp only [Keyed.seek, Nat.zero_le, decide_true, List.filter_true]
  exact List.takeWhile_eq_self_iff.mpr ha

/-- So does the reversed one, since no last block exceeds the key the scan starts at. -/
theorem listChunksReversed_all (db : Db) (dataset : DatasetId) :
    db.listChunksReversed dataset 0 none = (db.chunkSet dataset).toList.reverse := by
  have hm : ∀ c ∈ (db.chunkSet dataset).toList,
      decide (c.lastBlock ≤ (none : Option Nat).getD maxBlockNumber) = true := by
    intro c _
    simpa using c.last_le_max
  rw [listChunksReversed_eq, Keyed.seekPrev, List.filter_eq_self.mpr hm]
  exact List.takeWhile_eq_self_iff.mpr fun c _ => inRange_all c

theorem getFirstChunk_eq (db : Db) (dataset : DatasetId) :
    db.getFirstChunk dataset = (db.chunkSet dataset).toList.head? := by
  unfold getFirstChunk
  rw [listChunks_all]

theorem getLastChunk_eq (db : Db) (dataset : DatasetId) :
    db.getLastChunk dataset = (db.chunkSet dataset).toList.getLast? := by
  unfold getLastChunk
  rw [listChunksReversed_all, List.head?_reverse]

end Db

end Storage
