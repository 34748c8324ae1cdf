import SqdData.Query.ParquetFile

/-!
# Statistics of a parquet file

The metadata of a parquet file has minima and maxima for each leaf of its schema, of whole row
groups and of pages. `RowGroupStats` and `PageStats` make the statistics of a top-level column of
them: they look for a leaf with the name of the column, collect its minima and maxima in arrays of
the physical type and cast these to the type of the column.

A file is given with the rows it holds. Cached statistics are not different from those that are
built, so the caches are left out.
-/

namespace Query

open Arrow Storage Primitives

/-! ### Schemas -/

/-- `Type` of a parquet schema. A leaf has the type that its values are read as, and the groups
between a list and its elements are left out. -/
inductive SchemaType where
  | primitive (name : String) (dataType : DataType)
  | group (name : String) (fields : List SchemaType)
  | list (name : String) (element : SchemaType)

namespace SchemaType

def name : SchemaType → String
  | primitive name _ => name
  | group name _ => name
  | list name _ => name

mutual

/-- The type that a field is read as. -/
def arrowType : SchemaType → DataType
  | primitive _ dataType => dataType
  | group _ fields => .struct (arrowFields fields)
  | list _ element => .list element.arrowType

def arrowFields : List SchemaType → List (String × DataType)
  | [] => []
  | field :: fields => (field.name, field.arrowType) :: arrowFields fields

end

mutual

/-- The leaves of a field, with the last part of their path as their name. -/
def leaves : SchemaType → List (String × DataType)
  | primitive name dataType => [(name, dataType)]
  | group _ fields => leavesOf fields
  | list _ element => element.leaves

def leavesOf : List SchemaType → List (String × DataType)
  | [] => []
  | field :: fields => field.leaves ++ leavesOf fields

end

def fieldAt (i : Nat) : Value → Value
  | .struct fields => fields.getD i .null
  | _ => .null

def itemsOf : Value → List Value
  | .list items => items
  | _ => []

mutual

def leafValues : SchemaType → List Value → List (List Value)
  | primitive _ _, values => [values]
  | group _ fields, values => fieldValues fields 0 values
  | list _ element, values => element.leafValues (values.flatMap itemsOf)

def fieldValues : List SchemaType → Nat → List Value → List (List Value)
  | [], _, _ => []
  | field :: fields, i, values =>
    field.leafValues (values.map (fieldAt i)) ++ fieldValues fields (i + 1) values

end

end SchemaType

/-! ### Metadata -/

/-- The physical types with statistics that are used. -/
inductive Physical where
  | boolean
  | int32
  | int64
  | byteArray
deriving DecidableEq, Repr

/-- The type of an array of physical values. -/
def Physical.dataType : Physical → DataType
  | boolean => .boolean
  | int32 => .int ⟨true, .w32⟩
  | int64 => .int ⟨true, .w64⟩
  | byteArray => .binary

inductive Statistics where
  | boolean (min max : Option Bool)
  | int32 (min max : Option Int)
  | int64 (min max : Option Int)
  | byteArray (min max : Option (List Byte))
  | other
deriving DecidableEq, Repr

/-- `Index`, with a minimum and a maximum for each page. -/
inductive PageIndex where
  | none
  | boolean (indexes : List (Option Bool × Option Bool))
  | int32 (indexes : List (Option Int × Option Int))
  | int64 (indexes : List (Option Int × Option Int))
  | byteArray (indexes : List (Option (List Byte) × Option (List Byte)))
  | other
deriving DecidableEq, Repr

/-- The physical type with the minimum and the maximum, as entries of an array. -/
def Statistics.minMax : Statistics → Option (Physical × Option Value × Option Value)
  | boolean min max => some (.boolean, min.map .bool, max.map .bool)
  | int32 min max => some (.int32, min.map .int, max.map .int)
  | int64 min max => some (.int64, min.map .int, max.map .int)
  | byteArray min max => some (.byteArray, min.map .bytes, max.map .bytes)
  | other => Option.none

def PageIndex.minMax : PageIndex → Option (Physical × List (Option Value × Option Value))
  | none => Option.none
  | boolean indexes => some (.boolean, indexes.map fun p => (p.1.map .bool, p.2.map .bool))
  | int32 indexes => some (.int32, indexes.map fun p => (p.1.map .int, p.2.map .int))
  | int64 indexes => some (.int64, indexes.map fun p => (p.1.map .int, p.2.map .int))
  | byteArray indexes => some (.byteArray, indexes.map fun p => (p.1.map .bytes, p.2.map .bytes))
  | other => Option.none

/-- The metadata of a leaf in a row group: its statistics, the first rows of its pages and their
minima and maxima. -/
structure ColumnChunk where
  statistics : Option Statistics
  firstRows : List Nat
  index : PageIndex
deriving DecidableEq, Repr

/-- The pages of a column chunk cut the rows of the row group, and an index has an entry for each
page. -/
structure ColumnChunk.Paged (c : ColumnChunk) (numRows : Nat) : Prop where
  ascending : (c.firstRows ++ [numRows]).IsChain (· ≤ ·)
  starts : (c.firstRows ++ [numRows]).head? = some 0
  entries : ∀ kind indexes, c.index.minMax = some (kind, indexes) →
    indexes.length = c.firstRows.length

structure RowGroup where
  batch : RecordBatch
  chunks : List ColumnChunk
  paged : ∀ c ∈ chunks, c.Paged batch.numRows

/-- A parquet file: its schema, the rows of its row groups and its metadata. The page indexes are
optional as a whole. -/
structure ParquetData where
  tableName : String
  root : List SchemaType
  rowGroups : List RowGroup
  hasOffsetIndex : Bool
  hasColumnIndex : Bool
  typed : ∀ g ∈ rowGroups,
    (g.batch.columns.map fun c => (c.name, c.dataType)) = SchemaType.arrowFields root
  complete : ∀ g ∈ rowGroups, g.chunks.length = (SchemaType.leavesOf root).length

/-! ### Building statistics -/

/-- `cast` of arrays, for the types it is not described for below. A null stays a null. -/
class ArrayCasts where
  castValue : DataType → DataType → Option (Value → Value)
  castValue_null : ∀ source target f, castValue source target = some f → f .null = .null

def utf8Text (bytes : List Byte) : Option String :=
  String.fromUTF8? ⟨(bytes.map fun b => UInt8.ofNat b).toArray⟩

section Casting

variable [ArrayCasts]

/-- `cast`: what does not fit into the target becomes null. -/
def castValue : DataType → DataType → Option (Value → Value)
  | .int _, .int target => some fun
      | .int i => if target.least ≤ i ∧ i ≤ target.greatest then .int i else .null
      | _ => .null
  | .binary, .utf8 => some fun
      | .bytes bytes => (utf8Text bytes).elim .null .str
      | _ => .null
  | source, target => ArrayCasts.castValue source target

/-- The conversion to the unsigned type with the given number of bits. -/
def wrapValue (bits : Nat) : Value → Value
  | .int i => .int (i % 2 ^ bits)
  | v => v

def castStatArray (array : ArrayRef) (target : DataType) : Option ArrayRef :=
  if array.dataType = target then some array
  else if array.dataType = .int ⟨true, .w32⟩ ∧ target = .int ⟨false, .w32⟩ then
    some ⟨target, array.values.map (wrapValue 32)⟩
  else if array.dataType = .int ⟨true, .w64⟩ ∧ target = .int ⟨false, .w64⟩ then
    some ⟨target, array.values.map (wrapValue 64)⟩
  else (castValue array.dataType target).map fun f => ⟨target, array.values.map f⟩

namespace ParquetData

/-- `find_primitive_column`. The leaves are primitive. -/
def findPrimitiveColumn (f : ParquetData) (name : String) : Option Nat :=
  (SchemaType.leavesOf f.root).findIdx? fun leaf => leaf.1 == name

/-- The type of a column in the schema. -/
def fieldType (f : ParquetData) (name : String) : Option DataType :=
  ((SchemaType.arrowFields f.root).find? fun field => field.1 == name).map Prod.snd

/-- What the loop of `RowGroupStats` appends for a row group: a pair, a pair of nulls, or it returns
nothing. -/
def groupEntry (statistics : Option Statistics) : Option (Physical × Value × Value) := do
  match ← (← statistics).minMax with
  | (kind, some min, some max) => some (kind, min, max)
  | (kind, none, none) => some (kind, .null, .null)
  | _ => none

/-- `complete_min_max!` for the builders of one physical type. A builder exists when something was
appended to it. -/
def completeMinMax (entries : List (Physical × Value × Value)) (numRowGroups : Nat)
    (kind : Physical) : Option (ArrayRef × ArrayRef) :=
  let appended := entries.filter fun e => e.1 = kind
  if appended ≠ [] ∧ appended.length = numRowGroups then
    some (⟨kind.dataType, appended.map fun e => e.2.1⟩,
      ⟨kind.dataType, appended.map fun e => e.2.2⟩)
  else none

/-- The positions at which the row groups start and the end of the last one. -/
def groupOffsets (f : ParquetData) : List Nat :=
  (f.rowGroups.map fun g => g.batch.numRows).scanl (· + ·) 0

omit [ArrayCasts] in
theorem isChain_scanl (l : List Nat) (n : Nat) : (l.scanl (· + ·) n).IsChain (· ≤ ·) := by
  induction l generalizing n with
  | nil => exact List.isChain_singleton n
  | cons a l ih =>
    rw [List.scanl_cons]
    cases l with
    | nil => exact List.isChain_pair.mpr (Nat.le_add_right n a)
    | cons =>
      have hr := ih (n + a)
      rw [List.scanl_cons] at hr ⊢
      exact List.isChain_cons_cons.mpr ⟨Nat.le_add_right n a, hr⟩

/-- `RowGroupStats::build_column_stats`. -/
def buildGroupStats (f : ParquetData) (name : String) : Option ColumnStats := do
  let dataType ← f.fieldType name
  let k ← f.findPrimitiveColumn name
  let entries ← f.rowGroups.mapM fun g => groupEntry ((g.chunks[k]?).bind ColumnChunk.statistics)
  let (min, max) ← [Physical.byteArray, .int32, .int64, .boolean].findSome?
    (completeMinMax entries f.rowGroups.length)
  let min ← castStatArray min dataType
  let max ← castStatArray max dataType
  return ⟨⟨f.groupOffsets, isChain_scanl _ 0⟩, min, max⟩

/-- The arrays of the minima and of the maxima of the pages. -/
def pageArrays (index : PageIndex) : Option (ArrayRef × ArrayRef) := do
  let (kind, indexes) ← index.minMax
  return (⟨kind.dataType, indexes.map fun p => p.1.getD .null⟩,
    ⟨kind.dataType, indexes.map fun p => p.2.getD .null⟩)

/-- The statistics of the pages of one column chunk. -/
def chunkPageStats (c : ColumnChunk) {numRows : Nat} (h : c.Paged numRows) (dataType : DataType) :
    Option ColumnStats := do
  let (min, max) ← pageArrays c.index
  let min ← castStatArray min dataType
  let max ← castStatArray max dataType
  return ⟨⟨c.firstRows ++ [numRows], h.ascending⟩, min, max⟩

/-- `PageStats::build_column_stats`. -/
def buildPageStats (f : ParquetData) (rowGroup : Nat) (name : String) : Option ColumnStats := do
  let dataType ← f.fieldType name
  let k ← f.findPrimitiveColumn name
  let g ← f.rowGroups[rowGroup]?
  guard (f.hasOffsetIndex ∧ f.hasColumnIndex)
  if h : k < g.chunks.length then
    chunkPageStats g.chunks[k] (g.paged _ (List.getElem_mem h)) dataType
  else none

def toFile (f : ParquetData) : ParquetFile where
  tableName := f.tableName
  fields := SchemaType.arrowFields f.root
  rowGroups := f.rowGroups.map RowGroup.batch
  schema := by
    intro b hb
    obtain ⟨g, hg, rfl⟩ := List.mem_map.mp hb
    exact f.typed g hg
  groupStats := f.buildGroupStats
  pagesStats := f.buildPageStats

end ParquetData

end Casting

/-! ### What statistics say -/

/-- A value of a type as it is stored. -/
def plainValue : DataType → Physical → Value → Option Value
  | .boolean, .boolean, .bool b => some (.bool b)
  | .int type, .int32, .int i =>
    if type = ⟨false, .w32⟩ then some (.int (i % 2 ^ 32))
    else if type.width ≠ .w64 ∧ type.least ≤ i ∧ i ≤ type.greatest then some (.int i)
    else none
  | .int type, .int64, .int i =>
    if type = ⟨false, .w64⟩ then some (.int (i % 2 ^ 64))
    else if type = ⟨true, .w64⟩ then some (.int i)
    else none
  | .utf8, .byteArray, .bytes bytes => (utf8Text bytes).map .str
  | .binary, .byteArray, .bytes bytes => some (.bytes bytes)
  | _, _, _ => none

/-- A pair of stored values of the type bounds the values. A pair of others, as of bytes that are
not a text for a column of texts, is not asked to mean anything. -/
def Bounds (dataType : DataType) (kind : Physical) (min max : Value) (values : List Value) : Prop :=
  ∀ lo hi, plainValue dataType kind min = some lo → plainValue dataType kind max = some hi →
    ∀ v ∈ values, v ≠ .null → lo.le v ∧ v.le hi

def sliceRange (values : List Value) (r : Range) : List Value :=
  (values.drop r.start).take (r.stop - r.start)

def rootLeafValues : List SchemaType → List Column → Range → List (List Value)
  | field :: fields, c :: columns, r =>
    field.leafValues (sliceRange c.values r) ++ rootLeafValues fields columns r
  | _, _, _ => []

def ColumnChunk.windows (c : ColumnChunk) (numRows : Nat) : List Range :=
  windowsOf (c.firstRows ++ [numRows])

/-- The pairs that are present bound the values of their own leaves. -/
structure ParquetData.Described (f : ParquetData) : Prop where
  groups : ∀ g ∈ f.rowGroups, ∀ (k : Nat) (c : ColumnChunk) (leaf : String × DataType),
    g.chunks[k]? = some c → (SchemaType.leavesOf f.root)[k]? = some leaf →
    ∀ s ∈ c.statistics, ∀ kind min max, s.minMax = some (kind, some min, some max) →
      ∀ values ∈ (rootLeafValues f.root g.batch.columns ⟨0, g.batch.numRows⟩)[k]?,
        Bounds leaf.2 kind min max values
  pages : ∀ g ∈ f.rowGroups, ∀ (k : Nat) (c : ColumnChunk) (leaf : String × DataType),
    g.chunks[k]? = some c → (SchemaType.leavesOf f.root)[k]? = some leaf →
    ∀ kind indexes, c.index.minMax = some (kind, indexes) →
      ∀ (w : Nat) (r : Range) (min max : Value), (c.windows g.batch.numRows)[w]? = some r →
        indexes[w]? = some (some min, some max) →
        ∀ values ∈ (rootLeafValues f.root g.batch.columns r)[k]?,
          Bounds leaf.2 kind min max values

end Query
