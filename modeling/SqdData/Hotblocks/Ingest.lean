import SqdData.DataSource.Announcements
import SqdData.Hotblocks.WriteController

/-!
# The ingest loop

`IngestGeneric` buffers the blocks of a data source and cuts them into chunks. A builder holds the
buffered blocks in memory, a processor those that were spilled to temporary files. What the loop
sends to the controller is returned next to the state it leaves, also when it fails.

The tables of a chunk are kept as the blocks they were built from, with the names of the tables
that are passed on. Failures of temporary files and of the message channel end the loop; they are
left out.
-/

namespace Hotblocks

open Storage DataSource

/-- `BlockChunkBuilder`: what the loop asks a builder about the blocks it holds. -/
class ChunkBuilder (B : Type) where
  tables : List String
  push : List B → B → Except Error Unit
  byteSize : List B → Nat
  maxNumRows : List B → Nat

structure PreparedChunk (B : Type) where
  tables : List String
  blocks : List B
deriving DecidableEq

structure NewChunk (B : Type) where
  finalizedHead : Option BlockRef
  parentBlockHash : Hash
  firstBlock : Nat
  lastBlock : Nat
  lastBlockHash : Hash
  firstBlockTime : Option Int
  lastBlockTime : Option Int
  tables : PreparedChunk B
deriving DecidableEq

inductive IngestMessage (B : Type) where
  | finalizedHead (head : BlockRef)
  | newChunk (chunk : NewChunk B)
  | fork (prevBlocks : List BlockRef)
deriving DecidableEq

structure DataBuilder (B : Type) where
  builder : List B
  processor : Option (List B)
  spillBoundBytes : Nat
deriving DecidableEq

namespace DataBuilder

variable {B : Type} [ChunkBuilder B]

def pushBlock (d : DataBuilder B) (block : B) : Except Error (DataBuilder B) :=
  (ChunkBuilder.push d.builder block).map fun _ => { d with builder := d.builder ++ [block] }

def numRows (d : DataBuilder B) : Nat :=
  ChunkBuilder.maxNumRows d.builder + d.processor.elim 0 ChunkBuilder.maxNumRows

def inMemoryBufferedBytes (d : DataBuilder B) : Nat := ChunkBuilder.byteSize d.builder

def flushToProcessor (d : DataBuilder B) : DataBuilder B :=
  { d with processor := some (d.processor.getD [] ++ d.builder), builder := [] }

/-- `finish`: small unspilled contents are prepared in memory. -/
def finish (d : DataBuilder B) : PreparedChunk B × DataBuilder B :=
  if d.processor.isNone && ChunkBuilder.byteSize d.builder ≤ d.spillBoundBytes then
    ({ tables := ChunkBuilder.tables B, blocks := d.builder }, { d with builder := [] })
  else
    let spilled := d.flushToProcessor
    ({ tables := ChunkBuilder.tables B, blocks := spilled.processor.getD [] },
      { spilled with processor := none })

def clear (d : DataBuilder B) : DataBuilder B := { d with builder := [], processor := none }

/-- The blocks the builder and the processor hold, in the order in which they were pushed. -/
def pending (d : DataBuilder B) : List B := d.processor.getD [] ++ d.builder

end DataBuilder

/-- `IngestGeneric`. Of the data source it keeps the position it was last set to. -/
structure IngestGeneric (B : Type) where
  source : BlockStreamRequest
  builder : DataBuilder B
  finalizedHead : Option BlockRef
  bufferedBlocks : Nat
  parentBlockHash : Hash
  firstBlock : Nat
  firstBlockTime : Option Int
  lastBlock : Nat
  lastBlockHash : Hash
  lastBlockTime : Option Int
  dataMask : DataMask
  flushFloor : Option Nat
  withholding : Bool
deriving DecidableEq

namespace IngestGeneric

variable {B : Type} [Block B] [ChunkBuilder B]

def new (source : BlockStreamRequest) (spillBoundBytes : Nat) : IngestGeneric B where
  source
  builder := { builder := [], processor := none, spillBoundBytes }
  finalizedHead := none
  bufferedBlocks := 0
  parentBlockHash := ""
  firstBlock := source.firstBlock
  firstBlockTime := none
  lastBlock := 0
  lastBlockHash := ""
  lastBlockTime := none
  dataMask := 0
  flushFloor := none
  withholding := false

def setFinalizedHead (s : IngestGeneric B) (number : Nat) (hash : Hash) : IngestGeneric B :=
  { s with finalizedHead := some { number, hash } }

/-- `handle_fork`, with the answer of the controller. -/
def handleFork (s : IngestGeneric B) (rollback : Rollback) : IngestGeneric B :=
  { s with
    builder := s.builder.clear
    bufferedBlocks := 0
    finalizedHead := none
    firstBlock := rollback.resumeFrom
    flushFloor := rollback.reachAtLeast
    withholding := false
    source :=
      { firstBlock := rollback.resumeFrom, parentBlockHash := rollback.expectedParentHash } }

/-- The bookkeeping of `push_block`, once the builder has taken the block. -/
def recordBlock (s : IngestGeneric B) (block : B) : IngestGeneric B :=
  { s with
    parentBlockHash := if s.bufferedBlocks = 0 then Block.parentHash block else s.parentBlockHash
    firstBlockTime := if s.bufferedBlocks = 0 then Block.timestamp block else s.firstBlockTime
    bufferedBlocks := s.bufferedBlocks + 1
    lastBlock := Block.number block
    lastBlockHash := Block.hash block
    lastBlockTime := Block.timestamp block }

def pushBlock (s : IngestGeneric B) (block : B) (isFinal : Bool) :
    Except Error (IngestGeneric B) := do
  let builder ← s.builder.pushBlock block
  ensure (s.bufferedBlocks = 0 || s.lastBlockHash = Block.parentHash block)
    (.text s!"chain continuity was violated around block {Block.number block}#{Block.hash block}")
  let recorded := recordBlock { s with builder } block
  return if isFinal then recorded.setFinalizedHead (Block.number block) (Block.hash block)
    else recorded

/-- `flush`. A chunk that does not reach the flush floor is withheld. -/
def flush (s : IngestGeneric B) : List (IngestMessage B) × IngestGeneric B :=
  if s.bufferedBlocks = 0 then ([], s)
  else if s.flushFloor.any fun floor => decide (s.lastBlock < floor) then
    ([], { s with withholding := true })
  else
    let (tables, builder) := s.builder.finish
    ([.newChunk
        { finalizedHead := s.finalizedHead
          parentBlockHash := s.parentBlockHash
          firstBlock := s.firstBlock
          lastBlock := s.lastBlock
          lastBlockHash := s.lastBlockHash
          firstBlockTime := s.firstBlockTime
          lastBlockTime := s.lastBlockTime
          tables := { tables with tables := tables.tables.filter (Block.hasData B s.dataMask) } }],
      { s with
        builder
        flushFloor := none
        withholding := false
        bufferedBlocks := 0
        firstBlock := s.lastBlock + 1 })

def maxRows : Nat := 200000

def flushFull (s : IngestGeneric B) : List (IngestMessage B) × IngestGeneric B :=
  if s.builder.numRows > maxRows then s.flush else ([], s)

def spillLarge (s : IngestGeneric B) : IngestGeneric B :=
  if s.builder.inMemoryBufferedBytes > s.builder.spillBoundBytes then
    { s with builder := s.builder.flushToProcessor }
  else s

/-- `maybe_flush`. A withheld flush leaves the rows in place, so the spill is checked in any
case. -/
def maybeFlush (s : IngestGeneric B) : List (IngestMessage B) × IngestGeneric B :=
  let (sent, s') := s.flushFull
  (sent, s'.spillLarge)

/-- A chunk holds blocks of one availability mask only: a block with another mask cuts it. -/
def cutAtMask (s : IngestGeneric B) (mask : DataMask) : List (IngestMessage B) × IngestGeneric B :=
  if s.dataMask = mask then ([], s) else s.flush

def onBlock (s : IngestGeneric B) (block : B) (isFinal : Bool) :
    List (IngestMessage B) × Except Error (IngestGeneric B) :=
  let mask := Block.dataAvailabilityMask block
  let (cut, s') := s.cutAtMask mask
  if s.dataMask ≠ mask ∧ s'.bufferedBlocks ≠ 0 then
    (cut, .error (.text (s!"data availability changed at block {Block.number block} " ++
      "inside the replayed finalized range")))
  else
    match pushBlock { s' with dataMask := mask } block isFinal with
    | .error e => (cut, .error e)
    | .ok s'' =>
      let (sent, s''') := s''.maybeFlush
      (cut ++ sent, .ok s''')

/-- One round of the loop in `run`. The rollback is what the controller answers to a fork. -/
def step (s : IngestGeneric B) (event : DataEvent B) (rollback : Rollback) :
    List (IngestMessage B) × Except Error (IngestGeneric B) :=
  match event with
  | .finalizedHead head =>
    (if head.number < s.firstBlock then [.finalizedHead head] else [],
      .ok (s.setFinalizedHead head.number head.hash))
  | .block block isFinal => s.onBlock block isFinal
  | .fork prevBlocks => ([.fork prevBlocks], .ok (s.handleFork rollback))
  | .maybeOnHead =>
    let (sent, s') := s.flush
    (sent, .ok s')

/-- `run`, over the events of the data source, each with the answer it would get as a fork. -/
def run : IngestGeneric B → List (DataEvent B × Rollback) →
    List (IngestMessage B) × Except Error (IngestGeneric B)
  | s, [] => ([], .ok s)
  | s, (event, rollback) :: rest =>
    match s.step event rollback with
    | (sent, .error e) => (sent, .error e)
    | (sent, .ok s') =>
      let (later, result) := run s' rest
      (sent ++ later, result)

end IngestGeneric

end Hotblocks
