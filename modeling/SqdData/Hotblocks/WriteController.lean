import SqdData.Storage.Maintenance

/-!
# The write controller

The single writer of a dataset. It keeps the head and the finalized head as its working copy of
committed state and publishes both through watch channels after each commit.

Every operation takes the database and the verdict of its transaction, and returns the database
and the controller it leaves behind. Logging and metrics are left out.
-/

namespace Hotblocks

open Storage

/-- A watch channel: its value and the number of changes subscribers were woken up for. -/
structure Watch where
  value : Option BlockRef
  version : Nat
deriving DecidableEq, Repr

/-- `publish`: a value that is already there wakes nobody. -/
def Watch.publish (w : Watch) (value : Option BlockRef) : Watch :=
  if w.value = value then w else { value, version := w.version + 1 }

@[simp]
theorem Watch.publish_value (w : Watch) (value : Option BlockRef) :
    (w.publish value).value = value := by
  unfold Watch.publish
  split <;> simp_all

/-- `Rollback`: where to resume after a fork was resolved against stored history. -/
structure Rollback where
  resumeFrom : Nat
  expectedParentHash : Option Hash
  reachAtLeast : Option Nat
deriving DecidableEq, Repr

structure WriteController where
  datasetId : DatasetId
  datasetKind : DatasetKind
  firstBlock : Nat
  parentBlockHash : Option Hash
  firstChunkHead : Option BlockRef
  head : Option BlockRef
  finalizedHead : Option BlockRef
  headSender : Watch
  finalizedHeadSender : Watch
deriving DecidableEq, Repr

namespace WriteController

def startBlock (c : WriteController) : Nat := c.firstBlock

def startBlockParentHash (c : WriteController) : Option Hash := c.parentBlockHash

def nextBlock (c : WriteController) : Nat :=
  match c.head with
  | some h => Wrapping.succ 64 h.number
  | none => c.firstBlock

def setHead (c : WriteController) (head : Option BlockRef) : WriteController :=
  { c with head, headSender := c.headSender.publish head }

def setFinalizedHead (c : WriteController) (finalizedHead : Option BlockRef) : WriteController :=
  { c with finalizedHead, finalizedHeadSender := c.finalizedHeadSender.publish finalizedHead }

def clearHeads (c : WriteController) : WriteController :=
  { (c.setHead none).setFinalizedHead none with firstChunkHead := none }

def startsAt (c : WriteController) (blockNumber : Nat) (parentHash : Option Hash) : Bool :=
  c.startBlock = blockNumber && c.startBlockParentHash = parentHash

def new (db : Db) (datasetId : DatasetId) (datasetKind : DatasetKind)
    (headSender finalizedHeadSender : Watch) (commit : Except Error Unit) :
    Db × Except Error WriteController :=
  match db.createDatasetIfNotExists datasetId datasetKind commit with
  | (db, .error e) => (db, .error e)
  | (db, .ok ()) =>
    let firstChunk := db.getFirstChunk datasetId
    let lastChunk := db.getLastChunk datasetId
    let head := lastChunk.map getChunkHead
    let finalizedHead := (db.getLabel datasetId).bind DatasetLabel.finalizedHead
    (db, .ok {
      datasetId, datasetKind
      firstBlock := (firstChunk.map Chunk.firstBlock).getD 0
      parentBlockHash := firstChunk.map Chunk.parentBlockHash
      firstChunkHead := firstChunk.map getChunkHead
      head, finalizedHead
      headSender := headSender.publish head
      finalizedHeadSender := finalizedHeadSender.publish finalizedHead })

end WriteController

/-- The hints at or above the finalized head, once they are known not to contradict it. -/
def hintsAboveFinalized (prev : List BlockRef) :
    Option BlockRef → Except Error (List BlockRef)
  | none => .ok prev
  | some finalizedHead =>
    match prev.dropWhile (fun b => b.number < finalizedHead.number) with
    | [] => .error (.unapplicableFork .hintsBelowFinalizedHead none)
    | b :: rest => do
      ensure (b.number ≠ finalizedHead.number || b.hash = finalizedHead.hash)
        (.unapplicableFork .hintConflictsWithFinalizedHead none)
      return b :: rest

/-- The loop of `compute_rollback` over stored chunks and hints, both from the top down. -/
def resumeAt : List Chunk → List BlockRef → Option (Nat × Hash)
  | [], _ => none
  | head :: chunks, prevBlocks =>
    if prevBlocks.head?.any (fun b => b.number < head.lastBlock) then resumeAt chunks prevBlocks
    else
      match prevBlocks.dropWhile (fun b => head.lastBlock < b.number) with
      | [] => some (Wrapping.succ 64 head.lastBlock, head.lastBlockHash)
      | b :: rest =>
        if b.number = head.lastBlock && b.hash = head.lastBlockHash then
          some (Wrapping.succ 64 b.number, b.hash)
        else resumeAt chunks (b :: rest)

/-- Whether the numbers of a list of blocks ascend strictly. -/
def isAscending : List BlockRef → Bool
  | a :: b :: rest => a.number < b.number && isAscending (b :: rest)
  | _ => true

namespace WriteController

/-- The resume position for hints that passed the check against the finalized head. Retention
trims whole chunks, so the fallback is the physical start of the window. -/
def resumePoint (c : WriteController) (db : Db) (prev : List BlockRef) : Nat × Option Hash :=
  let existingChunks := db.listChunksReversed c.datasetId 0 (prev.getLast?.map BlockRef.number)
  match resumeAt existingChunks prev.reverse with
  | some (resumeFrom, hash) => (resumeFrom, some hash)
  | none =>
    match db.getFirstChunk c.datasetId with
    | some chunk => (chunk.firstBlock, some chunk.parentBlockHash)
    | none => (c.firstBlock, c.parentBlockHash)

def computeRollback (c : WriteController) (db : Db) (prev : List BlockRef) :
    Except Error Rollback := do
  ensure (!prev.isEmpty) (.text "no previous blocks where provided")
  ensure (isAscending prev) (.text "list of previous blocks does not have ascending order")
  match db.getLabel c.datasetId with
  | none => .error (.text s!"dataset {c.datasetId} no longer exists")
  | some label => do
    let prev ← hintsAboveFinalized prev label.finalizedHead
    let (resumeFrom, expectedParentHash) := c.resumePoint db prev
    let reached := label.finalizedHead.filter fun fin => resumeFrom ≤ fin.number
    return { resumeFrom, expectedParentHash, reachAtLeast := reached.map BlockRef.number }

end WriteController

/-- The outcome of the transaction of `_retain`. -/
inductive RetainStatus where
  | range (firstChunk head : Chunk) (finalizedHead : Option BlockRef)
  | hashMismatch
  | gap (existed : Nat)
  | clear
deriving DecidableEq

/-- What a retention call asks for. -/
structure Retention where
  fromBlock : Nat
  parentBlockHash : Option Hash
  deleteMismatch : Bool
deriving DecidableEq, Repr

variable [TableFormat]

/-- The hash check of `_retain` on the chunk that holds the floor: the mismatching hash. -/
def Retention.hashCheck (r : Retention) (db : Db) (chunk : Chunk) : Except Error (Option Hash) :=
  match r.parentBlockHash with
  | some parentBlockHash => db.validateParentBlockHash chunk r.fromBlock parentBlockHash
  | none => .ok none

/-- The loop of `_retain` over the chunks of the dataset, in ascending order. -/
def retainLoop (dataset : DatasetId) (r : Retention) :
    List Chunk → RetainStatus → DatasetUpdate → Except Error (DatasetUpdate × RetainStatus)
  | [], status, upd => .ok (upd.setFinalizedHead none, status)
  | chunk :: chunks, status, upd =>
    if chunk.lastBlock < r.fromBlock then do
      let db ← upd.db.removeChunk dataset chunk
      retainLoop dataset r chunks status { upd with db }
    else if r.fromBlock < chunk.firstBlock then
      if r.deleteMismatch then do
        let db ← upd.db.removeChunk dataset chunk
        let status := if status = .clear then .gap chunk.firstBlock else status
        retainLoop dataset r chunks status { upd with db }
      else
        .error (.text (s!"there is a gap between first requested block {r.fromBlock} and " ++
          s!"already existing chunk {chunk.display}, that could not be filled"))
    else do
      match ← r.hashCheck upd.db chunk with
      | some actualHash =>
        if r.deleteMismatch then
          let db ← upd.db.removeChunk dataset chunk
          retainLoop dataset r chunks .hashMismatch { upd with db }
        else
          let expected := r.parentBlockHash.getD ""
          .error (.text (s!"hash mismatch: expected the parent of {r.fromBlock} to have hash " ++
            s!"{expected}, but got {actualHash}"))
      | none =>
        match (upd.db.listChunksReversed dataset 0 none).head? with
        | none => .error (.text "bottom chunk can't exist without head chunk")
        | some head =>
          let finalizedHead :=
            upd.label.finalizedHead.filter fun h => chunk.firstBlock ≤ h.number
          let upd := if finalizedHead.isNone then upd.setFinalizedHead none else upd
          return (upd, .range chunk head finalizedHead)

/-- The transaction of `_retain`. -/
def retainTx (db : Db) (dataset : DatasetId) (r : Retention) (commit : Except Error Unit) :
    Except Error (Db × RetainStatus) :=
  db.updateDataset dataset commit fun upd =>
    retainLoop dataset r (upd.db.listChunks dataset 0 none) .clear upd

namespace WriteController

omit [TableFormat] in
/-- What `_retain` does to the controller after its commit. -/
def applyRetain (c : WriteController) (r : Retention) (status : RetainStatus) :
    WriteController × Bool :=
  let (c, keptHead) :=
    match status with
    | .range firstChunk head finalizedHead =>
      ({ (c.setHead (some (getChunkHead head))).setFinalizedHead finalizedHead with
        firstChunkHead := some (getChunkHead firstChunk) }, true)
    | .hashMismatch | .gap _ | .clear => (c.clearHeads, false)
  ({ c with firstBlock := r.fromBlock, parentBlockHash := r.parentBlockHash }, keptHead)

/-- `_retain`. -/
def retainImpl (c : WriteController) (db : Db) (r : Retention) (commit : Except Error Unit) :
    Except Error (Db × WriteController × Bool) :=
  if c.startsAt r.fromBlock r.parentBlockHash then .ok (db, c, true)
  else do
    let (db, status) ← retainTx db c.datasetId r commit
    let (c, keptHead) := c.applyRetain r status
    return (db, c, keptHead)

def retain (c : WriteController) (db : Db) (fromBlock : Nat) (parentBlockHash : Option Hash)
    (commit : Except Error Unit) : Except Error (Db × WriteController × Bool) :=
  c.retainImpl db ⟨fromBlock, parentBlockHash, true⟩ commit

def initRetention (c : WriteController) (db : Db) (fromBlock : Nat)
    (parentBlockHash : Option Hash) (commit : Except Error Unit) :
    Except Error (Db × WriteController × Bool) :=
  c.retainImpl db ⟨fromBlock, parentBlockHash, false⟩ commit

end WriteController

inductive FinalityIgnoreReason where
  | regressive
  | alreadyFinalized
  | belowRetainedWindow
  | noBlockAtHeight
deriving DecidableEq, Repr

inductive FinalityDecision where
  | applied (head : BlockRef)
  | ignored (reason : FinalityIgnoreReason)
  | integrityFault (reason : UnapplicableForkReason) (detail : String)
deriving DecidableEq, Repr

omit [TableFormat] in
/-- The comparison of a report with the current finalized head: `none` when it advances. -/
def checkCurrent (current : Option BlockRef) (effective : BlockRef) : Option FinalityDecision :=
  match current with
  | none => none
  | some current =>
    if effective.number < current.number then some (.ignored .regressive)
    else if effective.number = current.number then
      if effective.hash ≠ current.hash then
        some (.integrityFault .finalityHashChanged
          s!"block {current.number}: expected {current.hash}, got {effective.hash}")
      else some (.ignored .alreadyFinalized)
    else none

omit [TableFormat] in
/-- A report at a height where a block with the given hash is found. -/
def matchReport (report : BlockRef) (hash : Hash) (reason : UnapplicableForkReason)
    (detail : String) : FinalityDecision :=
  if hash = report.hash then .applied report else .integrityFault reason detail

/-- A report inside the replacement: a block missing there is a hole only if stored history agrees,
otherwise the commit would drop a block that its own response calls final. -/
def resolveInBatch (db : Db) (dataset : DatasetId) (chunk : Chunk) (report : BlockRef) :
    Except Error FinalityDecision := do
  let inChunk ← db.findBlockHashInChunk chunk report.number
  match inChunk with
  | some hash =>
    return matchReport report hash .finalityContradictsChunk
      s!"block {report.number}: chunk carries {hash}, finality reports {report.hash}"
  | none =>
    let inStore ← db.findStoredBlockHash dataset report.number
    match inStore with
    | some hash =>
      return .integrityFault .finalityEvictsFinalizedBlock
        (s!"block {report.number}#{hash} is dropped by the chunk whose response reports it " ++
        "finalized")
    | none => return .ignored .noBlockAtHeight

/-- A report below the replacement, or without one. -/
def resolveStored (db : Db) (dataset : DatasetId) (report : BlockRef) :
    Except Error FinalityDecision := do
  let inStore ← db.findStoredBlockHash dataset report.number
  match inStore with
  | some hash =>
    return matchReport report hash .finalityContradictsStoredBlock
      (s!"block {report.number}: stored history carries {hash}, finality reports " ++
      s!"{report.hash}")
  | none => return .ignored .noBlockAtHeight

/-- The last part of `resolve_finality`: a report at a height the resulting chain covers. -/
def resolveExact (db : Db) (dataset : DatasetId) (replacement : Option Chunk)
    (report : BlockRef) : Except Error FinalityDecision :=
  match replacement.filter fun c => c.firstBlock ≤ report.number && report.number ≤ c.lastBlock with
  | some chunk => resolveInBatch db dataset chunk report
  | none => resolveStored db dataset report

/-- The head of the state that will exist after the transaction. -/
def postHead (db : Db) (dataset : DatasetId) : Option Chunk → Except Error BlockRef
  | some chunk => .ok (getChunkHead chunk)
  | none =>
    match (db.listChunksReversed dataset 0 none).head? with
    | some head => .ok (getChunkHead head)
    | none => .error (.text "can't finalize an empty dataset")

/-- `resolve_finality`: one report against the state that will exist after the transaction. -/
def resolveFinality (db : Db) (dataset : DatasetId) (current : Option BlockRef)
    (replacement : Option Chunk) (logicalFloor : Nat) (report : BlockRef) :
    Except Error FinalityDecision := do
  let postHead ← postHead db dataset replacement
  let clamped := postHead.number < report.number
  let effective := if clamped then postHead else report
  if effective.number < logicalFloor then return .ignored .belowRetainedWindow
  else
    match checkCurrent current effective with
    | some decision => return decision
    | none =>
      if clamped then return .applied effective
      else resolveExact db dataset replacement report

omit [TableFormat] in
def unapplicableFork (reason : UnapplicableForkReason) (detail : String) : Error :=
  .unapplicableFork reason (some detail)

/-- The finalized head after an update, and the report that was ignored on the way. -/
abbrev FinalityUpdate := Option BlockRef × Option FinalityIgnoreReason

/-- The transaction of `finalize`. -/
def finalizeTx (db : Db) (c : WriteController) (head newFinalizedHead : BlockRef)
    (commit : Except Error Unit) : Except Error (Db × FinalityDecision) :=
  db.updateDataset c.datasetId commit fun upd => do
    let multipleProcesses := Error.text "seems like the dataset is controlled by multiple processes"
    ensure (upd.label.finalizedHead = c.finalizedHead) multipleProcesses
    ensure (((upd.db.listChunksReversed c.datasetId 0 none).head?).any
      fun chunk => chunk.lastBlockHash = head.hash) multipleProcesses
    match ← resolveFinality upd.db c.datasetId upd.label.finalizedHead none c.firstBlock
        newFinalizedHead with
    | .applied newHead => return (upd.setFinalizedHead (some newHead), .applied newHead)
    | .ignored reason => return (upd, .ignored reason)
    | .integrityFault reason detail => .error (unapplicableFork reason detail)

namespace WriteController

def finalize (c : WriteController) (db : Db) (newFinalizedHead : BlockRef)
    (commit : Except Error Unit) : Except Error (Db × WriteController) :=
  match c.head with
  | none => .ok (db, c)
  | some head => do
    match ← finalizeTx db c head newFinalizedHead commit with
    | (db, .applied newHead) => return (db, c.setFinalizedHead (some newHead))
    | (db, _) => return (db, c)

end WriteController

omit [TableFormat] in
/-- The lowest block a chunk may start at: the start of the first stored chunk, or the logical
floor when nothing is stored. -/
def windowStart (db : Db) (dataset : DatasetId) (logicalFloor : Nat) : Nat :=
  match (db.listChunks dataset 0 none).head? with
  | some first => first.firstBlock
  | none => logicalFloor

omit [TableFormat] in
/-- The guards of `new_chunk` on the position of the chunk. -/
def checkPosition (db : Db) (dataset : DatasetId) (logicalFloor : Nat) (chunk : Chunk) :
    Except Error Unit := do
  let windowStart := windowStart db dataset logicalFloor
  ensure (windowStart ≤ chunk.firstBlock) (unapplicableFork .belowRetainedWindow
    (s!"chunk {chunk.firstBlock}-{chunk.lastBlock} starts below window start {windowStart}"))
  match (db.listChunks dataset chunk.firstBlock (some chunk.firstBlock)).head? with
  | some existing =>
    if existing.firstBlock < chunk.firstBlock && chunk.firstBlock ≤ existing.lastBlock then
      .error (unapplicableFork .staleRollbackBoundary
        (s!"chunk {chunk.firstBlock}-{chunk.lastBlock} starts inside compacted chunk " ++
        s!"{existing.firstBlock}-{existing.lastBlock}"))
    else return
  | none => return

/-- The guard of `new_chunk` on finalized history. -/
def checkFinalizedHistory (db : Db) (dataset : DatasetId) (current : Option BlockRef)
    (chunk : Chunk) : Except Error Unit :=
  match current with
  | none => .ok ()
  | some current =>
    if chunk.firstBlock ≤ current.number then do
      ensure (current.number ≤ chunk.lastBlock) (unapplicableFork .dropsFinalizedBlock
        (s!"chunk {chunk.firstBlock}-{chunk.lastBlock} does not reach finalized block " ++
        s!"{current.number}"))
      match ← db.validateFinalizedPrefix dataset chunk current.number with
      | some divergence => .error (unapplicableFork .rewritesFinalizedHistory divergence)
      | none => return
    else .ok ()

/-- How `new_chunk` resolves the report that comes with a chunk. -/
def resolveReport (db : Db) (dataset : DatasetId) (current : Option BlockRef) (chunk : Chunk)
    (logicalFloor : Nat) : Option BlockRef → Except Error FinalityUpdate
  | none => .ok (current, none)
  | some report => do
    match ← resolveFinality db dataset current (some chunk) logicalFloor report with
    | .applied newHead => return (some newHead, none)
    | .ignored reason => return (current, some reason)
    | .integrityFault reason detail => .error (unapplicableFork reason detail)

/-- The transaction of `new_chunk`. -/
def newChunkTx (db : Db) (c : WriteController) (flags : IndexFlags)
    (finalizedHead : Option BlockRef) (chunk : Chunk) (commit : Except Error Unit) :
    Except Error (Db × FinalityUpdate) :=
  db.updateDataset c.datasetId commit fun upd => do
    checkPosition upd.db c.datasetId c.firstBlock chunk
    let current := upd.label.finalizedHead
    checkFinalizedHistory upd.db c.datasetId current chunk
    let (newFinalizedHead, ignored) ←
      resolveReport upd.db c.datasetId current chunk c.firstBlock finalizedHead
    let upd := upd.setFinalizedHead newFinalizedHead
    let db ← upd.db.insertFork flags c.datasetId chunk
    return ({ upd with db }, (newFinalizedHead, ignored))

namespace WriteController

omit [TableFormat] in
/-- `abandon_tables`: a failure is only logged. -/
def abandonTables (db : Db) (chunk : Chunk) (commit : Except Error Unit) : Db :=
  match db.deleteTables chunk.tables.values commit with
  | .ok db => db
  | .error _ => db

omit [TableFormat] in
/-- What `new_chunk` does to the controller after its commit. -/
def applyNewChunk (c : WriteController) (chunk : Chunk) (finalizedHead : Option BlockRef) :
    WriteController :=
  let c := (c.setHead (some (getChunkHead chunk))).setFinalizedHead finalizedHead
  if c.firstChunkHead.all fun h => chunk.firstBlock ≤ h.number then
    { c with firstChunkHead := c.head }
  else c

def newChunk (c : WriteController) (db : Db) (flags : IndexFlags)
    (finalizedHead : Option BlockRef) (chunk : Chunk) (commit abandon : Except Error Unit) :
    Db × WriteController × Except Error Unit :=
  match newChunkTx db c flags finalizedHead chunk commit with
  | .ok (db, finalizedHead, _) => (db, c.applyNewChunk chunk finalizedHead, .ok ())
  | .error e => (abandonTables db chunk abandon, c, .error e)

end WriteController

omit [TableFormat] in
def trimFloor (firstChunkHead : Option Nat) (nextBlock maxBlocks : Nat) : Option Nat :=
  match firstChunkHead with
  | none => none
  | some firstChunkHead =>
    if maxBlocks < Wrapping.sub 64 nextBlock firstChunkHead then
      some (Wrapping.sub 64 nextBlock maxBlocks)
    else none

omit [TableFormat] in
/-- Whether a subtraction of `trim_floor` goes below zero. -/
def trimUnderflows (firstChunkHead : Option Nat) (nextBlock maxBlocks : Nat) : Bool :=
  firstChunkHead.any fun firstChunkHead => nextBlock < firstChunkHead ||
    (maxBlocks < nextBlock - firstChunkHead && nextBlock < maxBlocks)

end Hotblocks
