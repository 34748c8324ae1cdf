import SqdData.Storage.TableMerge
import SqdData.Storage.Transactions

/-!
# Dataset compaction

A compaction reads a snapshot, plans which chunks to merge, builds the merged tables outside any
transaction, and then commits: if the planned chunks are still there, one chunk takes their place.

Write amplification is compared in floating point in the source. The comparison is a parameter of
the plan here, as are the other limits.
-/

namespace Storage

def mergeHorizon : Nat := 500

/-- The limits of a compaction run. `belowWaLimit full max` is the test `full / max < wa_limit`.
`sort` is the order a sorted merge writes its rows in. -/
structure CompactionParams where
  maxChunkSize : Nat
  belowWaLimit : Nat → Nat → Bool
  compactionLenLimit : Nat
  sort : List (List Value) → List Nat

def scoreMerge (chunkSizes : List Nat) (maxWa : Option (Nat → Nat → Bool)) : Nat :=
  let maxSize := chunkSizes.foldl max 0
  let fullSize := chunkSizes.sum
  if maxSize = 0 then 1
  else if maxWa.any (fun below => below fullSize maxSize) then 0
  else fullSize

def slice (l : List Nat) (left right : Nat) : List Nat := (l.take right).drop left

/-- The loop of `find_range`: `right` grows for `steps` more positions until the score reaches the
threshold. Returns the last `right` and its score. -/
def growRange (chunkSizes : List Nat) (left threshold : Nat) (below : Nat → Nat → Bool) :
    Nat → Nat → Nat × Nat
  | 0, right => (right, scoreMerge (slice chunkSizes left right) (some below))
  | steps + 1, right =>
    let score := scoreMerge (slice chunkSizes left right) (some below)
    if threshold ≤ score then (right, score)
    else growRange chunkSizes left threshold below steps (right + 1)

/-- `DatasetCompaction::find_range`. Each recursive call is about a shorter interval, so a fuel
above the length of the interval is never used up. -/
def findRange (chunkSizes : List Nat) (below : Nat → Nat → Bool) (lenLimit : Nat) :
    Nat → Nat → Nat → Nat → Option (Nat × Nat × Nat)
  | 0, _, _, _ => none
  | fuel + 1, start, stop, threshold =>
    if stop ≤ start + 1 then none
    else
      let rightLimit := min stop (start + lenLimit)
      let (right, score) :=
        growRange chunkSizes start threshold below (rightLimit - (start + 1)) (start + 1)
      if threshold ≤ score || 0 < score then some (start, right, score)
      else
        let range := slice chunkSizes start right
        let maxEl := range.foldl max 0
        let maxIdx := range.findIdx fun element => element = maxEl
        (findRange chunkSizes below lenLimit fuel start (start + maxIdx) maxEl).or
          (findRange chunkSizes below lenLimit fuel (start + maxIdx + 1) stop maxEl)

/-- The loop that merges a finished run without regard to write amplification. -/
def growRun (run : List Nat) (maxChunkSize : Nat) : Nat → Nat → Nat
  | 0, right => right
  | steps + 1, right =>
    if scoreMerge (slice run 0 right) none < maxChunkSize then
      growRun run maxChunkSize steps (right + 1)
    else right

/-- The choice of a range: how many chunks to skip and how many to take. -/
def selectRange (params : CompactionParams) : List (List Nat) → Nat → Nat × Nat
  | [], skip => (skip, 0)
  | run :: rest, skip =>
    if run.length < 2 then selectRange params rest (skip + run.length)
    else if rest ≠ [] then (skip, growRun run params.maxChunkSize (run.length - 1) 1)
    else
      match findRange run params.belowWaLimit params.compactionLenLimit (run.length + 1) 0
          run.length params.maxChunkSize with
      | some (left, right, _) => (skip + left, right - left)
      | none => selectRange params rest (skip + run.length)

/-- The state of the first loop of `prepare_merge_plan`. The source pushes runs, and sizes inside a
run, from the newest chunk to the oldest and reverses both at the end. Here both are pushed at the
front, so the oldest chunk comes first all along. -/
structure PlanState where
  runs : List (List Nat)
  lastSchemaMap : Keyed.Map String Table
  firstBlock : Option Nat
  firstApplicableBlock : Nat

/-- What the loop over the tables of one chunk computes. -/
structure SchemaScan where
  lastSchemaMap : Keyed.Map String Table
  maxRows : Nat
  schemaCompatible : Bool

variable [TableFormat]

/-- One table of a chunk against the schemas of the chunk above it. -/
def scanSchema (snapshot : Db) (isLastSchemaEmpty : Bool) (scan : SchemaScan)
    (entry : String × TableId) : Except Error SchemaScan := do
  let reader ← snapshot.createTableReader entry.2
  let compatible :=
    match scan.lastSchemaMap.find? entry.1 with
    | some lastSchema => scan.schemaCompatible && canMergeSchemas reader lastSchema
    | none => scan.schemaCompatible && isLastSchemaEmpty
  return {
    lastSchemaMap := scan.lastSchemaMap.put (entry.1, reader)
    maxRows := max reader.numRows scan.maxRows
    schemaCompatible := compatible }

omit [TableFormat] in
/-- Adds the size of a chunk to the current run or starts a new one. -/
def pushSize (maxChunkSize : Nat) (joins : Bool) (maxRows : Nat) (runs : List (List Nat)) :
    List (List Nat) :=
  let runs :=
    match runs, joins && maxRows < maxChunkSize with
    | run :: rest, true => (maxRows :: run) :: rest
    | runs, _ => [maxRows] :: runs
  if maxChunkSize ≤ maxRows then [] :: runs else runs

/-- The body of the first loop of `prepare_merge_plan`. -/
def planStep (params : CompactionParams) (snapshot : Db) (state : PlanState) (el : Chunk) :
    Except Error PlanState := do
  let isLastSchemaEmpty := state.lastSchemaMap.toList.isEmpty
  let dataContinuous := state.firstBlock.all fun firstBlock => el.lastBlock + 1 = firstBlock
  let mismatch := !isLastSchemaEmpty &&
    el.tables.toList.length ≠ state.lastSchemaMap.toList.length
  let start : SchemaScan :=
    if mismatch then ⟨∅, 0, false⟩ else ⟨state.lastSchemaMap, 0, true⟩
  let scan ← el.tables.toList.foldlM (scanSchema snapshot isLastSchemaEmpty) start
  let maxRows := if scan.maxRows = 0 then el.blocksCount else scan.maxRows
  return {
    runs := pushSize params.maxChunkSize (scan.schemaCompatible && dataContinuous)
      maxRows state.runs
    lastSchemaMap := scan.lastSchemaMap
    firstBlock := some el.firstBlock
    firstApplicableBlock := el.firstBlock }

def prepareMergePlan (params : CompactionParams) (snapshot : Db) (dataset : DatasetId) :
    Except Error (List Chunk) := do
  let newest := (snapshot.listChunksReversed dataset 0 none).take mergeHorizon
  let state ← newest.foldlM (planStep params snapshot) ⟨[[]], ∅, none, maxBlockNumber⟩
  let (skip, take) := selectRange params state.runs 0
  return ((snapshot.listChunks dataset state.firstApplicableBlock none).drop skip).take take

def getTableReader (snapshot : Db) (chunk : Chunk) (name : String) : Except Error Table :=
  match chunk.tables.find? name with
  | some table => snapshot.createTableReader table
  | none => .error (.text s!"table `{name}` does not exist in this chunk")

/-- `DatasetCompaction::merge_table` up to the id of the table it writes. -/
def mergeTable (params : CompactionParams) (snapshot : Db) (merge : List Chunk) (name : String) :
    Except Error Table := do
  let chunks ← merge.mapM fun chunk => getTableReader snapshot chunk name
  mergeTables chunks params.sort

/-- `DatasetCompaction::merge_all_tables`: the merged tables by name. -/
def mergeAllTables (params : CompactionParams) (snapshot : Db) (merge : List Chunk) :
    Except Error (List (String × Table)) :=
  match merge with
  | [] => .ok []
  | first :: _ =>
    first.tables.keys.mapM fun name => do
      return (name, ← mergeTable params snapshot merge name)

omit [TableFormat] in
/-- `DatasetCompaction::make_chunk`. The planned chunks ascend, which is what makes the range of
the new chunk non-empty. -/
def makeChunk (first last : Chunk) (tables : TableMap)
    (ordered : first.firstBlock ≤ last.lastBlock) :
    Chunk :=
  .v1 first.firstBlock last.lastBlock last.lastBlockHash first.parentBlockHash
    first.firstBlockTime last.lastBlockTime tables ordered last.last_le_max

structure MergedChunk where
  firstBlock : Nat
  lastBlock : Nat
  size : Nat
deriving DecidableEq, Repr

inductive CompactionStatus where
  | ok (merged : List MergedChunk)
  | canceled
deriving DecidableEq, Repr

omit [TableFormat] in
def dataWasChanged (db : Db) (dataset : DatasetId) (merge : List Chunk) : Bool :=
  match merge.head?, merge.getLast? with
  | some first, some last =>
    let compared := (db.listChunks dataset first.firstBlock (some last.lastBlock)).zip merge
    compared.any (fun (current, merged) => current ≠ merged) || compared.length ≠ merge.length
  | _, _ => true

/-- The number of rows of the largest table of a planned chunk. -/
def mergedChunk (snapshot : Db) (chunk : Chunk) : Except Error MergedChunk := do
  let sizes ← chunk.tables.keys.mapM fun name => do
    return (← getTableReader snapshot chunk name).numRows
  return { firstBlock := chunk.firstBlock, lastBlock := chunk.lastBlock, size := sizes.foldl max 0 }

/-- The transaction of `DatasetCompaction::execute`. -/
def commitCompaction (snapshot db : Db) (dataset : DatasetId) (merge : List Chunk)
    (newChunk : Chunk) (commit : Except Error Unit) : Except Error (Db × CompactionStatus) :=
  match db.getLabel dataset with
  | none => do
    commit
    return (db, .canceled)
  | some label =>
    if dataWasChanged db dataset merge then do
      commit
      return (db, .canceled)
    else do
      let merged ← merge.mapM (mergedChunk snapshot)
      commit
      let db := merge.foldl (fun db c => db.deleteChunk dataset c) db
      let db := db.writeChunk dataset newChunk
      return (db.writeLabel dataset label.bumpVersion, .ok merged)

end Storage
