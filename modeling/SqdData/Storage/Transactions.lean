import SqdData.Storage.Database
import SqdData.Wrapping

/-!
# Storage transactions

The operations a storage transaction stages and the update of a dataset built from them. A
transaction works on a staged database: it reads what it has written, and an error drops the
staging. The optimistic commit is a parameter, `commit`: a transaction that is retried runs its
body again from scratch, so a call is described by the attempt that decided it.
-/

namespace Storage

structure IndexFlags where
  blockHashIndex : Bool
  transactionHashIndex : Bool
deriving DecidableEq, Repr

def isIndexedKind (kind : DatasetKind) : Bool := kind = "evm"

section HashIndex

variable {ν : Type}

def putEntries (index : Shelved DatasetId (hashPos : Hash × ν → Hash)) (dataset : DatasetId)
    (entries : List (Hash × ν)) : Shelved DatasetId (hashPos : Hash × ν → Hash) :=
  entries.foldl (fun index entry => index.put (dataset, entry)) index

def eraseEntries (index : Shelved DatasetId (hashPos : Hash × ν → Hash)) (dataset : DatasetId)
    (hashes : List Hash) : Shelved DatasetId (hashPos : Hash × ν → Hash) :=
  hashes.foldl (fun index hash => index.erase (toLex (dataset, hash))) index

def hasHashEntries (index : Shelved DatasetId (hashPos : Hash × ν → Hash)) (dataset : DatasetId) :
    Bool :=
  index.toList.any fun entry => entry.1 = dataset

end HashIndex

namespace Db

def getLabelForUpdate (db : Db) (dataset : DatasetId) : Except Error DatasetLabel :=
  match db.getLabel dataset with
  | some label => .ok label
  | none => .error (.text s!"dataset {dataset} not found")

def writeLabel (db : Db) (dataset : DatasetId) (label : DatasetLabel) : Db :=
  { db with datasets := db.datasets.put (dataset, label) }

def deleteLabel (db : Db) (dataset : DatasetId) : Db :=
  { db with datasets := db.datasets.erase dataset }

/-- `Tx::write_chunk`: a committed table is no longer dirty. -/
def writeChunk (db : Db) (dataset : DatasetId) (chunk : Chunk) : Db :=
  { db with
    chunks := db.chunks.put (dataset, chunk)
    dirtyTables := chunk.tables.values.foldl Keyed.erase db.dirtyTables }

def deleteTable (db : Db) (table : TableId) : Db :=
  { db with deletedTables := db.deletedTables.put table }

def deleteChunk (db : Db) (dataset : DatasetId) (chunk : Chunk) : Db :=
  chunk.tables.values.foldl deleteTable
    { db with chunks := db.chunks.erase (toLex (dataset, chunk.lastBlock)) }

variable [TableFormat]

/-- The rows a reader finds in the chunk's table `name`, or none when the chunk has no such
table. -/
def scanTable {ρ : Type} (db : Db) (chunk : Chunk) (name : String)
    (reader : Table → Except Error (List ρ)) : Except Error (List ρ) :=
  match chunk.tables.find? name with
  | none => .ok []
  | some table => do reader (← db.createTableReader table)

def indexBlockHashes (db : Db) (dataset : DatasetId) (chunk : Chunk) : Except Error Db := do
  let rows ← db.scanTable chunk "blocks" Storage.blockHashes
  let entries := rows.map fun (number, hash) => (hash, number)
  return { db with blockHashes := putEntries db.blockHashes dataset entries }

def indexTransactionHashes (db : Db) (dataset : DatasetId) (chunk : Chunk) : Except Error Db := do
  let rows ← db.scanTable chunk "transactions" Storage.transactionHashes
  let entries := rows.map fun (blockNumber, index, hash) =>
    (hash, TransactionPosition.mk blockNumber index)
  return { db with transactionHashes := putEntries db.transactionHashes dataset entries }

def indexHashes (db : Db) (flags : IndexFlags) (dataset : DatasetId) (chunk : Chunk) :
    Except Error Db :=
  if !flags.blockHashIndex && !flags.transactionHashIndex then .ok db
  else
    match db.getLabel dataset with
    | none => .ok db
    | some label =>
      if !isIndexedKind label.kind then .ok db
      else do
        let db ← (if flags.blockHashIndex then db.indexBlockHashes dataset chunk else .ok db)
        if flags.transactionHashIndex then db.indexTransactionHashes dataset chunk else .ok db

def unindexBlockHashes (db : Db) (dataset : DatasetId) (chunk : Chunk) : Except Error Db :=
  if !hasHashEntries db.blockHashes dataset then .ok db
  else do
    let rows ← db.scanTable chunk "blocks" Storage.blockHashes
    let hashes := rows.map fun (_, hash) => hash
    return { db with blockHashes := eraseEntries db.blockHashes dataset hashes }

def unindexTransactionHashes (db : Db) (dataset : DatasetId) (chunk : Chunk) :
    Except Error Db :=
  if !hasHashEntries db.transactionHashes dataset then .ok db
  else do
    let rows ← db.scanTable chunk "transactions" Storage.transactionHashes
    let hashes := rows.map fun (_, _, hash) => hash
    return { db with transactionHashes := eraseEntries db.transactionHashes dataset hashes }

/-- `Tx::unindex_hashes`: gated on neither the switches nor the dataset kind. -/
def unindexHashes (db : Db) (dataset : DatasetId) (chunk : Chunk) : Except Error Db := do
  let db ← db.unindexBlockHashes dataset chunk
  db.unindexTransactionHashes dataset chunk

/-- `DatasetUpdate::delete_chunk`. -/
def removeChunk (db : Db) (dataset : DatasetId) (chunk : Chunk) : Except Error Db := do
  let db ← db.unindexHashes dataset chunk
  return db.deleteChunk dataset chunk

/-- The loop of `Tx::insert_fork` over the existing chunks, from the head down. -/
def dropForked (dataset : DatasetId) (chunk : Chunk) : List Chunk → Db → Except Error Db
  | [], db => .ok db
  | head :: existing, db =>
    if chunk.firstBlock ≤ head.firstBlock then do
      let db ← db.removeChunk dataset head
      dropForked dataset chunk existing db
    else if head.lastBlock + 1 = chunk.firstBlock then do
      ensure (head.lastBlockHash = chunk.parentBlockHash) (.text
        (s!"chain continuity is violated between new chunk {chunk.display} and its existing " ++
        s!"parent {head.display}, expected parent hash was {chunk.parentBlockHash}"))
      return db
    else if head.lastBlock < chunk.firstBlock then
      .error (.text (s!"there is a gap between new chunk {chunk.display} and existing " ++
        s!"{head.display}, that is just below"))
    else
      .error (.text s!"new chunk {chunk.display} overlaps with existing {head.display}")

def insertFork (db : Db) (flags : IndexFlags) (dataset : DatasetId) (chunk : Chunk) :
    Except Error Db := do
  let db ← dropForked dataset chunk (db.listChunksReversed dataset 0 none) db
  (db.writeChunk dataset chunk).indexHashes flags dataset chunk

omit [TableFormat] in
/-- The checks of `Tx::validate_chunk_insertion` against one neighbour. -/
def checkNeighbor (chunk n : Chunk) : Except Error Unit := do
  let isDisjoint := min n.lastBlock chunk.lastBlock < max n.firstBlock chunk.firstBlock
  ensure isDisjoint (.text s!"new chunk {chunk.display} overlaps with existing {n.display}")
  let violated := Error.text
    s!"chain continuity was violated between new {chunk.display} and existing {n.display}"
  if Wrapping.succ 64 chunk.lastBlock = n.firstBlock then
    ensure (chunk.lastBlockHash = n.parentBlockHash) violated
  if Wrapping.succ 64 n.lastBlock = chunk.firstBlock then
    ensure (n.lastBlockHash = chunk.parentBlockHash) violated

omit [TableFormat] in
def validateChunkInsertion (db : Db) (dataset : DatasetId) (chunk : Chunk) : Except Error Unit :=
  ((db.listChunksReversed dataset 0 (some (Wrapping.succ 64 chunk.lastBlock))).take 2).forM
    (checkNeighbor chunk)

def insertChunk (db : Db) (flags : IndexFlags) (dataset : DatasetId) (chunk : Chunk) :
    Except Error Db := do
  db.validateChunkInsertion dataset chunk
  (db.writeChunk dataset chunk).indexHashes flags dataset chunk

/-- The `blocks` table of a chunk. -/
def blocksTable (db : Db) (chunk : Chunk) : Except Error Table :=
  match chunk.tables.find? "blocks" with
  | some table => db.createTableReader table
  | none => .error (.text s!"'blocks' table does not exist in chunk {chunk.display}")

/-- `Tx::validate_parent_block_hash`: `none` when the parent of `blockNumber` has the expected
hash, otherwise the hash it has. -/
def validateParentBlockHash (db : Db) (chunk : Chunk) (blockNumber : Nat)
    (expectedParentHash : Hash) : Except Error (Option Hash) :=
  let verdict (actual : Hash) := if actual = expectedParentHash then none else some actual
  if chunk.firstBlock = blockNumber then .ok (verdict chunk.parentBlockHash)
  else if chunk.lastBlock + 1 = blockNumber then .ok (verdict chunk.lastBlockHash)
  else do
    ensure (chunk.firstBlock < blockNumber && blockNumber ≤ chunk.lastBlock) (.text
      (s!"chunk {chunk.display} does not have information about parent hash of block " ++
      s!"{blockNumber}"))
    let table ← db.blocksTable chunk
    let parentHash ← getParentBlockHash table blockNumber
    return verdict parentHash

def findBlockHashInChunk (db : Db) (chunk : Chunk) (blockNumber : Nat) :
    Except Error (Option Hash) := do
  findBlockHash (← db.blocksTable chunk) blockNumber

def findStoredBlockHash (db : Db) (dataset : DatasetId) (blockNumber : Nat) :
    Except Error (Option Hash) :=
  match (db.listChunks dataset blockNumber (some blockNumber)).head? with
  | none => .ok none
  | some chunk => db.findBlockHashInChunk chunk blockNumber

def readBlockHashes (db : Db) (chunk : Chunk) (fromBlock toBlock : Nat) :
    Except Error (List (Nat × Hash)) := do
  let rows ← Storage.blockHashes (← db.blocksTable chunk)
  return rows.filter fun (number, _) => fromBlock ≤ number && number ≤ toBlock

/-- The cursor of `Tx::validate_finalized_prefix` over stored blocks: what is left of the chunk
being read, and the chunks after it. -/
structure StoredCursor where
  stored : List (Nat × Hash)
  chunks : List Chunk

/-- `seek_stored`: opens chunks until a stored block is available or none is left. -/
def seekStored (db : Db) (fromBlock upTo : Nat) :
    List (Nat × Hash) → List Chunk → Except Error StoredCursor
  | block :: stored, chunks => .ok ⟨block :: stored, chunks⟩
  | [], [] => .ok ⟨[], []⟩
  | [], next :: chunks => do
    let stored ← db.readBlockHashes next fromBlock upTo
    seekStored db fromBlock upTo stored chunks

/-- One block of the replacement against the stored cursor. -/
def compareStored (db : Db) (fromBlock upTo : Nat)
    (state : StoredCursor × Option String) (block : Nat × Hash) :
    Except Error (StoredCursor × Option String) :=
  let (cursor, divergence) := state
  let (number, hash) := block
  if divergence.isSome || upTo < number then .ok state
  else do
    let cursor ← db.seekStored fromBlock upTo cursor.stored cursor.chunks
    match cursor.stored with
    | [] =>
      return (cursor, some s!"block {number}#{hash} is not part of the stored finalized history")
    | (storedNumber, storedHash) :: stored =>
      if storedNumber = number && storedHash = hash then
        return (⟨stored, cursor.chunks⟩, none)
      else
        return (cursor, some
          s!"expected finalized block {storedNumber}#{storedHash}, got {number}#{hash}")

/-- `Tx::validate_finalized_prefix`: the first divergence of the chunk from stored history over
the blocks up to `upTo`. -/
def validateFinalizedPrefix (db : Db) (dataset : DatasetId) (chunk : Chunk)
    (upTo : Nat) : Except Error (Option String) := do
  let fromBlock := chunk.firstBlock
  let storedChunks := db.listChunks dataset fromBlock (some upTo)
  let rows ← Storage.blockHashes (← db.blocksTable chunk)
  let (cursor, divergence) ← rows.foldlM (db.compareStored fromBlock upTo)
    (⟨[], storedChunks⟩, none)
  if divergence.isSome then return divergence
  else
    let cursor ← db.seekStored fromBlock upTo cursor.stored cursor.chunks
    match cursor.stored with
    | [] => return none
    | (storedNumber, storedHash) :: _ =>
      return some
        s!"finalized block {storedNumber}#{storedHash} is missing from the replacement"

end Db

/-- `DatasetUpdate`: the staged database and the label that `finish` will write. -/
structure DatasetUpdate where
  db : Db
  label : DatasetLabel

def DatasetUpdate.setFinalizedHead (upd : DatasetUpdate) (blockRef : Option BlockRef) :
    DatasetUpdate :=
  { upd with label := upd.label.setFinalizedHead blockRef }

def DatasetUpdate.finish (upd : DatasetUpdate) (dataset : DatasetId) : Db :=
  upd.db.writeLabel dataset upd.label.bumpVersion

def Db.updateDataset {ρ : Type} (db : Db) (dataset : DatasetId) (commit : Except Error Unit)
    (cb : DatasetUpdate → Except Error (DatasetUpdate × ρ)) : Except Error (Db × ρ) := do
  let label ← db.getLabelForUpdate dataset
  let (upd, result) ← cb ⟨db, label⟩
  commit
  return (upd.finish dataset, result)

end Storage
