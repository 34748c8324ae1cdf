import SqdData.Storage.Tables

/-!
# Merging tables

Compaction concatenates the tables of consecutive chunks. The schemas may list their columns in
different orders and index columns may have different widths; the target schema is that of the
last chunk with each index column widened to a common type.

A panic of the source is an error here. The order in which a sorted merge writes its rows comes
from an unstable sort, so it is a parameter.
-/

namespace Storage

def commonIndexInner : DataType → DataType → Option DataType
  | .uint16, .uint16 => some .uint16
  | .uint16, .uint32 => some .uint32
  | .uint32, .uint32 => some .uint32
  | .uint32, .uint64 => some .uint64
  | .uint64, .uint64 => some .uint64
  | _, _ => none

def commonIndex (a b : DataType) : Option DataType :=
  (commonIndexInner a b).or (commonIndexInner b a)

def commonItemIndexType : DataType → DataType → Option DataType
  | .list aName aNullable a, .list _ bNullable b =>
    (commonIndex a b).map (.list aName (aNullable || bNullable))
  | a, b => commonIndex a b

/-- `data_types_equal`: equality that ignores list item names and nullability. -/
def dataTypesEqual : DataType → DataType → Bool
  | .list aName aNullable a, .list bName bNullable b =>
    DataType.list aName aNullable a = .list bName bNullable b || dataTypesEqual a b
  | a, b => a = b

def mergeFields (a b : Field) : Option Field :=
  let dataType :=
    if a.dataType = b.dataType then some a.dataType
    else commonItemIndexType a.dataType b.dataType
  dataType.map fun dataType => { name := a.name, dataType, nullable := a.nullable || b.nullable }

/-- The body of the loop of `merge_schema`. -/
def mergeField (base : List Field) (newField : Field) : Except Error (List Field) :=
  match base.findIdx? (fun f => f.name = newField.name) with
  | none => .error (.text s!"field `{newField.name}` does not exist in the base schema")
  | some bi =>
    match base[bi]? with
    | none => .error (.text s!"field `{newField.name}` does not exist in the base schema")
    | some bf =>
      if bf = newField then .ok base
      else
        match mergeFields bf newField with
        | some merged => .ok (base.set bi merged)
        | none =>
          let ours := bf.dataType.display
          let theirs := newField.dataType.display
          .error (.text (s!"failed to merge field `{newField.name}`: data types {ours} " ++
            s!"and {theirs} are not compatible"))

def mergeSchema (base fields : List Field) : Except Error (List Field) :=
  if base = fields then .ok base else fields.foldlM mergeField base

def canMergeSchemas (a b : Table) : Bool :=
  let key (t : Table) := t.sortKey.map fun i => (t.fields[i]?).map Field.name
  (a.fields = b.fields && a.sortKey = b.sortKey) ||
    (a.fields.length = b.fields.length && key a = key b &&
      b.fields.all fun bf =>
        match a.fields.find? (fun f => f.name = bf.name) with
        | none => false
        | some af =>
          af.dataType = bf.dataType || (commonItemIndexType af.dataType bf.dataType).isSome)

def invalidCast (src : String) (target : DataType) : Error :=
  let target := target.display
  .text s!"invalid index cast from {src} to {target}"

/-- `cast_primitive` and the item cast of `cast_address_impl`, for one value. -/
def castValue (target : DataType) (v : Value) : Except Error Value :=
  if target.admits v then .ok v else .error (.text "conversion error: TryFromIntError(())")

/-- `cast_item_index`: the casts it knows change the width of an index or of the items of an
address. -/
def castItemIndex (src target : DataType) (values : List Value) : Except Error (List Value) :=
  match src, target with
  | .uint16, .uint32 => values.mapM (castValue target)
  | .uint16, _ => .error (invalidCast "UInt16" target)
  | .uint32, .uint16 => values.mapM (castValue target)
  | .uint32, .uint64 => values.mapM (castValue target)
  | .uint32, _ => .error (invalidCast "UInt32" target)
  | .uint64, .uint32 => values.mapM (castValue target)
  | .uint64, .uint16 => values.mapM (castValue target)
  | .uint64, _ => .error (invalidCast "UInt64" target)
  | .list _ _ .uint16, .list _ _ .uint32 => values.mapM (castValue target)
  | .list _ _ .uint16, _ => .error (invalidCast "u16 list" target)
  | .list _ _ .uint32, .list _ _ .uint16 => values.mapM (castValue target)
  | .list _ _ .uint32, _ => .error (invalidCast "u32 list" target)
  | _, _ => .error (.text "src is not an index slice")

/-- `create_maybe_casted_reader` followed by a read of the whole column. The casting reader works
in steps over the rows, so it does nothing on an empty column. -/
def readMaybeCasted (column : Column) (target : DataType) : Except Error (List Value) :=
  if dataTypesEqual column.field.dataType target then .ok column.values
  else if column.values = [] then .ok []
  else castItemIndex column.field.dataType target column.values

/-- `TableMerge`. Column statistics are not modelled. -/
structure TableMerge where
  chunks : List Table
  fields : List Field
  sortKey : List Nat

def TableMerge.prepare (chunks : List Table) : Except Error TableMerge :=
  match chunks.getLast? with
  | none => .error (.text "nothing to merge")
  | some lastChunk => do
    let fields ← (chunks.reverse.drop 1).foldlM (fun base t => mergeSchema base t.fields)
      lastChunk.fields
    return { chunks, fields, sortKey := lastChunk.sortKey }

namespace TableMerge

def chunkColumn (t : Table) (index : Nat) (name : String) : Except Error Column :=
  match t.columns[index]? with
  | none => .error (.text "index out of bounds")
  | some c =>
    if c.field.name = name then .ok c
    else
      match t.column? name with
      | some c => .ok c
      | none => .error (.text "chunk and target schema mismatch")

def readUnsortedColumn (m : TableMerge) (index : Nat) (field : Field) :
    Except Error (List Value) := do
  let parts ← m.chunks.mapM fun t => do
    let c ← chunkColumn t index field.name
    readMaybeCasted c field.dataType
  return parts.flatten

/-- `unsorted_write`: the columns of the target, in schema order. -/
def unsortedWrite (m : TableMerge) : Except Error (List (List Value)) :=
  m.fields.zipIdx.mapM fun (field, index) => m.readUnsortedColumn index field

/-- The values of a column gathered in the given row order. -/
def gather (values : List Value) (order : List Nat) : Except Error (List Value) :=
  order.mapM fun i =>
    match values[i]? with
    | some v => .ok v
    | none => .error (.text "index is out of bounds")

/-- `sorted_write`. The columns of the key are taken from the table of key columns by their index
in the full schema, as the source does. -/
def sortedWrite (m : TableMerge) (sort : List (List Value) → List Nat) :
    Except Error (List (List Value)) := do
  let sortTable ← m.sortKey.mapM fun i =>
    match m.fields[i]? with
    | some field => m.readUnsortedColumn i field
    | none => .error (.text "index out of bounds")
  let order := sort sortTable
  m.fields.zipIdx.mapM fun (field, index) =>
    if index ∈ m.sortKey then
      match sortTable[index]? with
      | some values => gather values order
      | none => .error (.text "index out of bounds")
    else if m.sortKey.length = m.fields.length then .ok []
    else do gather (← m.readUnsortedColumn index field) order

def write (m : TableMerge) (sort : List (List Value) → List Nat) :
    Except Error (List (List Value)) :=
  if 0 < m.sortKey.length then m.sortedWrite sort else m.unsortedWrite

end TableMerge

/-- Pairs fields with the values written for them. -/
def buildColumns : List Field → List (List Value) → Except Error (List Column)
  | [], [] => .ok []
  | field :: fields, values :: rest =>
    if h : values.all field.dataType.admits = true then do
      let columns ← buildColumns fields rest
      return ⟨field, values, h⟩ :: columns
    else .error (.text "column holds a value of another type")
  | _, _ => .error (.text "number of columns does not match the schema")

/-- The table a builder holds after the given columns were written to it. -/
def buildTable (fields : List Field) (sortKey : List Nat) (values : List (List Value)) :
    Except Error Table := do
  let columns ← buildColumns fields values
  if even : ∀ c ∈ columns, c.values.length = rowCount columns then
    if named : (columns.map fun c => c.field.name).Nodup then
      if keyed : ∀ i ∈ sortKey, i < columns.length then
        return { columns, sortKey, even, named, keyed }
      else .error (.text "sort key refers to non-existent column")
    else .error (.text "column names are not unique")
  else .error (.text "columns have different lengths")

/-- `TableMerge::prepare`, `write` and the builder they fill: the merged table. -/
def mergeTables (chunks : List Table) (sort : List (List Value) → List Nat) :
    Except Error Table := do
  let src ← TableMerge.prepare chunks
  let values ← src.write sort
  buildTable src.fields src.sortKey values

end Storage
