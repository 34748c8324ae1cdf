import SqdData.Query.SnapshotReader

/-!
# Reading a parquet file

`TableReader::read` for a parquet file: the statistics of the row groups and of their pages narrow
the row selection, the projection is resolved to the columns of the file, the row groups are read
and filtered one by one, and the columns that the file lacks and that are null by default are added
at the end. A row group is read as one batch.
-/

namespace Query

open List

open Arrow Storage Primitives

/-- `ParquetFile`: row groups of one schema, and the statistics of the row groups and of the pages
of each of them. -/
structure ParquetFile where
  tableName : String
  fields : List (String × DataType)
  rowGroups : List RecordBatch
  schema : ∀ g ∈ rowGroups, (g.columns.map fun c => (c.name, c.dataType)) = fields
  groupStats : String → Option ColumnStats
  pagesStats : Nat → String → Option ColumnStats

structure RowSelector where
  rowCount : Nat
  skip : Bool
deriving DecidableEq, Repr

/-- The loop of `to_parquet_row_selection`. Ranges out of order are a panic. -/
def toParquetRowSelection : List RowSelector → Nat → List Range → Option (List RowSelector)
  | selectors, _, [] => some selectors
  | selectors, lastEnd, range :: ranges =>
    let len := range.stop - range.start
    if range.start = lastEnd then
      match selectors.getLast? with
      | some last =>
        toParquetRowSelection
          (selectors.dropLast ++ [{ last with rowCount := last.rowCount + len }]) range.stop
          ranges
      | none => toParquetRowSelection [{ rowCount := len, skip := false }] range.stop ranges
    else if range.start > lastEnd then
      toParquetRowSelection
        (selectors ++
          [{ rowCount := range.start - lastEnd, skip := true }, { rowCount := len, skip := false }])
        range.stop ranges
    else none

def selectorRows : Nat → List RowSelector → List Nat
  | _, [] => []
  | position, selector :: selectors =>
    if selector.skip then selectorRows (position + selector.rowCount) selectors
    else
      range' position selector.rowCount ++
        selectorRows (position + selector.rowCount) selectors

def rangeRows (ranges : List Range) : List Nat :=
  ranges.flatMap fun r => range' r.start (r.stop - r.start)

def buildRowIndexArray (offset len : Nat) (rowSelection : Option (List Range)) : List Nat :=
  (rowSelection.elim (range len) rangeRows).map (offset + ·)

def nullColumn (len : Nat) (field : String × DataType) : Column where
  name := field.1
  dataType := field.2
  values := replicate len .null

/-- The batch with columns of nulls at its end. -/
def withNulls (nulls : List (String × DataType)) (b : RecordBatch) : RecordBatch where
  columns := b.columns ++ nulls.map (nullColumn b.numRows)
  numRows := b.numRows
  lengths := by
    intro c hc
    rcases mem_append.mp hc with hc | hc
    · exact b.lengths c hc
    · obtain ⟨field, _, rfl⟩ := mem_map.mp hc
      simp [nullColumn]

namespace ParquetFile

def hasField (f : ParquetFile) (name : String) : Bool := f.fields.any fun field => field.1 == name

/-- `row_group_stats`. A column that is not in the schema has none. -/
def rowGroupStats (f : ParquetFile) : RowStats := fun name =>
  .ok (if f.hasField name then f.groupStats name else none)

def pageStats (f : ParquetFile) (rowGroup : Nat) : RowStats := fun name =>
  .ok (if f.hasField name then f.pagesStats rowGroup name else none)

def rowGroupOffsets (f : ParquetFile) : List Nat :=
  (f.rowGroups.map RecordBatch.numRows).scanl (· + ·) 0

/-- The columns among the given ones that the file lacks, if they are null by default. -/
def missingColumns (f : ParquetFile) (defaultNullColumns : Option (List String)) :
    List String → Except Error (List String)
  | [] => .ok []
  | name :: names =>
    if f.hasField name then f.missingColumns defaultNullColumns names
    else if defaultNullColumns.any (name ∈ ·) then
      (f.missingColumns defaultNullColumns names).map (name :: ·)
    else .error (.text s!"column '{name}' is not found in '{f.tableName}'")

section Reading

variable [Casts]

def prune (stats : RowStats) (p : RowPredicate) (selection : Option (List Range)) :
    Except Error (Option (List Range)) := do
  match ← p.evaluateStats stats with
  | none => .ok selection
  | some ranges =>
    .ok (some (selection.elim ranges.ranges (Primitives.intersection · ranges.ranges)))

def selectRowGroups (f : ParquetFile) (selection : Option (List Range)) :
    Except Error (List (Nat × Option (List Range))) :=
  match selection with
  | none => .ok ((range f.rowGroups.length).map fun i => (i, none))
  | some ranges =>
    match paginate 0 (windowsOf f.rowGroupOffsets) ranges with
    | some groups => .ok groups
    | none => .error (.text "assertion failed: !page.is_empty()")

/-- The loop over the page statistics. -/
def prunePages (f : ParquetFile) (p : RowPredicate) :
    List (Nat × Option (List Range)) → Except Error (List (Nat × Option (List Range)))
  | [] => .ok []
  | (i, selection) :: groups => do
    let pruned ← prune (f.pageStats i) p selection
    let rest ← f.prunePages p groups
    return (i, pruned) :: rest

/-- Stages 1 and 2: the row groups to read. -/
def rowGroupsToRead (f : ParquetFile) (predicate : Option RowPredicate)
    (rowSelection : Option (List Range)) : Except Error (List (Nat × Option (List Range))) :=
  match predicate with
  | none => f.selectRowGroups rowSelection
  | some p =>
    if p.canEvaluateStats then do
      let selection ← prune f.rowGroupStats p rowSelection
      let groups ← f.selectRowGroups selection
      let pruned ← f.prunePages p groups
      return pruned.filter fun group => group.2.all fun ranges => !ranges.isEmpty
    else f.selectRowGroups rowSelection

def applyPredicate (p : RowPredicate) (predicateColumns : List String) (batch : RecordBatch) :
    Except Error RecordBatch := do
  let mask ← p.evaluate batch
  let kept :=
    if predicateColumns.length > 0 then batch.project fun name => name ∉ predicateColumns else batch
  return kept.filter mask

def indexBatch (rowIndex : Option (List Nat)) (batch : RecordBatch) : Except Error RecordBatch :=
  match rowIndex with
  | none => .ok batch
  | some index => addRowIndex batch (index.take batch.numRows)

def nonEmpty (batch : RecordBatch) : List RecordBatch := if batch.numRows > 0 then [batch] else []

def filterBatch (predicate : Option (RowPredicate × List String)) (batch : RecordBatch) :
    Except Error (List RecordBatch) :=
  match predicate with
  | none => .ok (nonEmpty batch)
  | some (p, predicateColumns) => (applyPredicate p predicateColumns batch).map nonEmpty

/-- The rows of a row group that the reader is asked for. -/
def readerRows (len : Nat) (selection : Option (List Range)) : Except Error (List Nat) :=
  match selection with
  | none => .ok (range len)
  | some ranges =>
    match toParquetRowSelection [] 0 ranges with
    | some selectors => .ok ((selectorRows 0 selectors).filter (· < len))
    | none => .error (.text "out of order")

/-- `read_row_group`. Without rows there is no batch. -/
def readRowGroup (f : ParquetFile) (projection : Option (List String))
    (predicate : Option (RowPredicate × List String)) (withRowIndex : Bool) (rowGroup : Nat)
    (selection : Option (List Range)) : Except Error (List RecordBatch) :=
  match f.rowGroups[rowGroup]? with
  | none => .error (.text "index out of bounds")
  | some g => do
    let rowIndex :=
      if withRowIndex then
        some (buildRowIndexArray (f.rowGroupOffsets.getD rowGroup 0) g.numRows selection)
      else none
    let rows ← readerRows g.numRows selection
    if rows.isEmpty then return []
    else
      let batch ← indexBatch rowIndex ((projected g projection).take rows)
      filterBatch predicate batch

/-- Stage 4: the row groups one after the other. -/
def readRowGroups (f : ParquetFile) (projection : Option (List String))
    (predicate : Option (RowPredicate × List String)) (withRowIndex : Bool) :
    List (Nat × Option (List Range)) → Except Error (List RecordBatch)
  | [] => .ok []
  | (i, selection) :: groups => do
    let batches ← f.readRowGroup projection predicate withRowIndex i selection
    let rest ← f.readRowGroups projection predicate withRowIndex groups
    return batches ++ rest

/-- The columns of the predicate that are not projected. -/
def predicateColumns (predicate : Option RowPredicate) (columns : List String) : List String :=
  (predicate.elim [] RowPredicate.projection).filter (· ∉ columns)

def read (f : ParquetFile) (predicate : Option RowPredicate) (projection : Option (List String))
    (rowSelection : Option RangeList) (withRowIndex : Bool)
    (defaultNullColumns : Option (List String)) : Except Error (List RecordBatch) := do
  let groups ← f.rowGroupsToRead predicate (rowSelection.map RangeList.ranges)
  match projection with
  | none => f.readRowGroups none (predicate.map (·, [])) withRowIndex groups
  | some columns =>
    let extra := predicateColumns predicate columns
    let missing ← f.missingColumns defaultNullColumns (columns ++ extra)
    let batches ←
      f.readRowGroups (some (columns ++ extra)) (predicate.map (·, extra)) withRowIndex groups
    return batches.map (withNulls (missing.map (·, .null)))

end Reading

end ParquetFile

end Query
