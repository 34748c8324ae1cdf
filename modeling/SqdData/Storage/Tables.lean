import SqdData.Storage.Data

/-!
# Tables

A stored table is a schema with columns of equal length. How its pages are laid out under the
keys of the tables column family is left to a `TableFormat`, which turns the cells stored for a
table id back into the table. The module then gives the readers of the two tables the storage
itself looks into: `blocks` and `transactions`.

The readers of the source stream a column in batches. A null or a value that does not fit fails
the whole scan and with it the transaction of the caller, so a reader here returns all rows or
one error.
-/

namespace Storage

open List

/-- Column types. The storage inspects the index types and text. Any other type is known by its
name only. -/
inductive DataType where
  | uint16
  | uint32
  | uint64
  | utf8
  | list (itemName : String) (itemNullable : Bool) (item : DataType)
  | other (name : String)
deriving DecidableEq, Repr

def DataType.display : DataType → String
  | uint16 => "UInt16"
  | uint32 => "UInt32"
  | uint64 => "UInt64"
  | utf8 => "Utf8"
  | list _ _ item => s!"List({item.display})"
  | other name => name

/-- A cell of a column. Values of a type the storage does not inspect are opaque tokens. -/
inductive Value where
  | null
  | uint (n : Nat)
  | text (s : String)
  | list (items : List (Option Nat))
  | other (token : String)
deriving DecidableEq, Repr

/-- Whether a column of type `ty` can hold the value. -/
def DataType.admits (ty : DataType) : Value → Bool
  | .null => true
  | .uint n =>
    match ty with
    | uint16 => n < 2 ^ 16
    | uint32 => n < 2 ^ 32
    | uint64 => n < 2 ^ 64
    | _ => false
  | .text _ => ty = utf8
  | .list items =>
    match ty with
    | list _ _ uint16 => items.all fun i => i.all fun n => n < 2 ^ 16
    | list _ _ uint32 => items.all fun i => i.all fun n => n < 2 ^ 32
    | list _ _ uint64 => items.all fun i => i.all fun n => n < 2 ^ 64
    | _ => false
  | .other _ =>
    match ty with
    | list _ _ uint16 | list _ _ uint32 | list _ _ uint64 => false
    | list .. => true
    | other _ => true
    | _ => false

structure Field where
  name : String
  dataType : DataType
  nullable : Bool
deriving DecidableEq, Repr

/-- A column holds only values of its type. -/
structure Column where
  field : Field
  values : List Value
  typed : values.all field.dataType.admits = true
deriving DecidableEq

def rowCount (columns : List Column) : Nat :=
  (columns.head?.map fun c => c.values.length).getD 0

/-- A table: columns of one length with distinct names, and the columns it is sorted by, which is
the empty list for an unsorted table. -/
structure Table where
  columns : List Column
  sortKey : List Nat
  even : ∀ c ∈ columns, c.values.length = rowCount columns
  named : (columns.map fun c => c.field.name).Nodup
  keyed : ∀ i ∈ sortKey, i < columns.length
deriving DecidableEq

namespace Table

def numRows (t : Table) : Nat := rowCount t.columns

def fields (t : Table) : List Field := t.columns.map Column.field

def column? (t : Table) (name : String) : Option Column :=
  t.columns.find? fun c => c.field.name = name

/-- `Schema::index_of` followed by opening the column it found. -/
def columnNamed (t : Table) (name : String) : Except Error Column :=
  match t.column? name with
  | some c => .ok c
  | none =>
    let valid := ", ".intercalate (t.fields.map fun f => s!"\"{f.name}\"")
    .error (.text
      s!"Schema error: Unable to get field named \"{name}\". Valid fields: [{valid}]")

def row (t : Table) (i : Nat) (name : String) : Option Value :=
  (t.column? name).bind fun c => c.values[i]?

def rows (t : Table) : List (String → Option Value) :=
  (List.range t.numRows).map t.row

end Table

/-- The number behind a cell of an index column. A null cell holds zero. -/
def Value.asUint : Value → Nat
  | .uint n => n
  | _ => 0

/-- The text behind a cell of a text column. A null cell holds the empty text. -/
def Value.asText : Value → String
  | .text s => s
  | _ => ""

/-- Fails unless the column has one of the expected types. -/
def Column.expectType (c : Column) (types : List DataType) : Except Error Unit :=
  let actual := c.field.dataType.display
  ensure (types.contains c.field.dataType)
    (.text s!"'{c.field.name}' column has unexpected data type - {actual}")

def Column.hasNulls (c : Column) : Bool := c.values.contains .null

/-- `for_each_block_hash`: the number and hash of every row of a `blocks` table. -/
def blockHashes (t : Table) : Except Error (List (Nat × Hash)) := do
  let numbers ← t.columnNamed "number"
  numbers.expectType [.uint32, .uint64]
  let hashes ← t.columnNamed "hash"
  hashes.expectType [.utf8]
  ensure (!numbers.hasNulls && !hashes.hasNulls)
    (.text "block number and hash columns must not contain nulls")
  return (numbers.values.map Value.asUint).zip (hashes.values.map Value.asText)

/-- `TransactionIndexes::value`. -/
def transactionIndex (index : Nat) : Except Error Nat :=
  if index < 2 ^ 32 then .ok index
  else .error (.text s!"transaction_index {index} does not fit u32")

/-- `for_each_transaction_hash`: position and hash of every row of a `transactions` table. -/
def transactionHashes (t : Table) : Except Error (List (Nat × Nat × Hash)) := do
  let blockNumbers ← t.columnNamed "block_number"
  blockNumbers.expectType [.uint32, .uint64]
  let transactionIndexes ← t.columnNamed "transaction_index"
  transactionIndexes.expectType [.uint16, .uint32, .uint64]
  let hashes ← t.columnNamed "hash"
  hashes.expectType [.utf8]
  ensure (!blockNumbers.hasNulls && !transactionIndexes.hasNulls && !hashes.hasNulls)
    (.text "transaction position and hash columns must not contain nulls")
  let indexes ← (transactionIndexes.values.map Value.asUint).mapM transactionIndex
  return (blockNumbers.values.map Value.asUint).zip
    (indexes.zip (hashes.values.map Value.asText))

def readStringCell (t : Table) (column : String) (rowIndex : Nat) : Except Error String := do
  let c ← t.columnNamed column
  c.expectType [.utf8]
  return ((c.values[rowIndex]?).getD .null).asText

/-- `find_block_row`: the row of the least number that is at least `block`. -/
def findBlockRow (numbers : List Nat) (block : Nat) : Option Nat :=
  ((numbers.zipIdx.filter fun e => block ≤ e.1).argmin Prod.fst).map Prod.snd

def findExactBlockRow (numbers : List Nat) (block : Nat) : Option Nat :=
  numbers.findIdx? fun n => n = block

/-- `get_parent_block_hash`. A number column of 32 bits compares with the low bits of the
requested number. -/
def getParentBlockHash (t : Table) (blockNumber : Nat) : Except Error Hash := do
  let numbers ← t.columnNamed "number"
  let ty := numbers.field.dataType.display
  let values := numbers.values.map Value.asUint
  let maybeRow ←
    match numbers.field.dataType with
    | .uint32 => pure (findBlockRow values (blockNumber % 2 ^ 32))
    | .uint64 => pure (findBlockRow values blockNumber)
    | _ => .error (.text s!"'number' column has unexpected data type - {ty}")
  match maybeRow with
  | some rowIndex => readStringCell t "parent_hash" rowIndex
  | none => .error (.text s!"block {blockNumber} was not found in the given table")

/-- `find_block_hash`: the hash of exactly this block, if the table has it. -/
def findBlockHash (t : Table) (blockNumber : Nat) : Except Error (Option Hash) := do
  let numbers ← t.columnNamed "number"
  let ty := numbers.field.dataType.display
  let values := numbers.values.map Value.asUint
  let maybeRow ←
    match numbers.field.dataType with
    | .uint32 =>
      pure (if blockNumber < 2 ^ 32 then findExactBlockRow values blockNumber else none)
    | .uint64 => pure (findExactBlockRow values blockNumber)
    | _ => .error (.text s!"'number' column has unexpected data type - {ty}")
  match maybeRow with
  | some rowIndex => some <$> readStringCell t "hash" rowIndex
  | none => return none

/-- Looking a key up by its index and reading that row of a second list is looking it up in the
two lists taken together. -/
theorem findIdx?_zip {l : List Nat} {m : List String} (hlen : l.length = m.length) (n : Nat) :
    (l.findIdx? fun k => k = n).map (fun i => (m[i]?).getD "") =
      ((l.zip m).find? fun e => e.1 = n).map Prod.snd := by
  induction l generalizing m with
  | nil => simp
  | cons k l ih =>
    cases m with
    | nil => simp at hlen
    | cons _ m =>
      have hlen' : l.length = m.length := by simpa using hlen
      by_cases hk : k = n
      · simp [findIdx?_cons, hk]
      · have hr := ih hlen'
        simp only [findIdx?_cons, hk, decide_false, Bool.false_eq_true, if_false,
          Option.map_map, zip_cons_cons, find?_cons_of_neg, not_false_eq_true]
        rw [← hr]
        rfl

variable {t : Table} {name : String} {c : Column}

theorem columnNamed_eq_ok : t.columnNamed name = .ok c ↔ t.column? name = some c := by
  unfold Table.columnNamed
  cases h : t.column? name <;> simp

theorem column?_mem (h : t.column? name = some c) : c ∈ t.columns ∧ c.field.name = name :=
  ⟨mem_of_find?_eq_some h, by simpa using find?_some h⟩

theorem Table.length_of_column? (h : t.column? name = some c) : c.values.length = t.numRows :=
  t.even c (column?_mem h).1

/-- Column `name` has one of the types and holds values of one kind, which `f` reads as `read`. -/
def Table.Scanned {α : Type} (t : Table) (name : String) (types : List DataType)
    (R : Value → Prop) (f : Value → α) (read : List α) : Prop :=
  ∃ c, t.column? name = some c ∧ c.field.dataType ∈ types ∧ (∀ v ∈ c.values, R v) ∧
    read = c.values.map f

theorem Table.Scanned.length_eq {α : Type} {types : List DataType} {R : Value → Prop}
    {f : Value → α} {read : List α} (h : t.Scanned name types R f read) :
    read.length = t.numRows := by
  obtain ⟨_, hc, -, -, rfl⟩ := h
  rw [length_map, Table.length_of_column? hc]

theorem Column.hasNulls_eq_false : (!c.hasNulls) = true ↔ ∀ v ∈ c.values, v ≠ .null := by
  simp [Column.hasNulls, forall_mem_ne']

/-- What a successful scan of a `blocks` table saw. -/
theorem blockHashes_eq_ok {rows : List (Nat × Hash)} :
    blockHashes t = .ok rows ↔ ∃ numbers hashes,
      t.Scanned "number" [.uint32, .uint64] (· ≠ .null) Value.asUint numbers ∧
      t.Scanned "hash" [.utf8] (· ≠ .null) Value.asText hashes ∧ rows = numbers.zip hashes := by
  simp only [blockHashes, bind_eq_ok, columnNamed_eq_ok, Column.expectType, ensure_eq_ok,
    Bool.and_eq_true, Column.hasNulls_eq_false, contains_iff_mem, pure, Except.pure,
    Except.ok.injEq]
  constructor
  · rintro ⟨n, hn, -, htn, d, hd, -, htd, -, ⟨hnl, hnl'⟩, rfl⟩
    exact ⟨_, _, ⟨n, hn, htn, hnl, rfl⟩, ⟨d, hd, htd, hnl', rfl⟩, rfl⟩
  · rintro ⟨_, _, ⟨n, hn, htn, hnl, rfl⟩, ⟨d, hd, htd, hnl', rfl⟩, rfl⟩
    exact ⟨n, hn, (), htn, d, hd, (), htd, (), ⟨hnl, hnl'⟩, rfl⟩

theorem mapM_transactionIndex {l r : List Nat} :
    l.mapM transactionIndex = .ok r ↔ (∀ i ∈ l, i < 2 ^ 32) ∧ r = l := by
  rw [mapM_eq_ok]
  constructor
  · intro h
    induction h with
    | nil => exact ⟨nofun, rfl⟩
    | cons hi _ ih =>
      obtain ⟨ha, rfl⟩ := ih
      unfold transactionIndex at hi
      split at hi
      · rename_i hlt
        cases hi
        exact ⟨forall_mem_cons.mpr ⟨hlt, ha⟩, rfl⟩
      · cases hi
  · rintro ⟨ha, rfl⟩
    exact forall₂_same.mpr fun i hi => if_pos (ha i hi)

/-- What a successful scan of a `transactions` table saw. -/
theorem transactionHashes_eq_ok {rows : List (Nat × Nat × Hash)} :
    transactionHashes t = .ok rows ↔ ∃ blockNumbers indexes hashes,
      t.Scanned "block_number" [.uint32, .uint64] (· ≠ .null) Value.asUint blockNumbers ∧
      t.Scanned "transaction_index" [.uint16, .uint32, .uint64]
        (fun v => v ≠ .null ∧ v.asUint < 2 ^ 32) Value.asUint indexes ∧
      t.Scanned "hash" [.utf8] (· ≠ .null) Value.asText hashes ∧
      rows = blockNumbers.zip (indexes.zip hashes) := by
  simp only [transactionHashes, bind_eq_ok, columnNamed_eq_ok, Column.expectType, ensure_eq_ok,
    Bool.and_eq_true, Column.hasNulls_eq_false, contains_iff_mem, mapM_transactionIndex,
    forall_mem_map, pure, Except.pure, Except.ok.injEq]
  constructor
  · rintro ⟨n, hn, -, htn, i, hi, -, hti, d, hd, -, htd, -, ⟨⟨hnn, hni⟩, hnd⟩, _, ⟨hlt, rfl⟩, rfl⟩
    exact ⟨_, _, _, ⟨n, hn, htn, hnn, rfl⟩, ⟨i, hi, hti, fun v hv => ⟨hni v hv, hlt v hv⟩, rfl⟩,
      ⟨d, hd, htd, hnd, rfl⟩, rfl⟩
  · rintro ⟨_, _, _, ⟨n, hn, htn, hnn, rfl⟩, ⟨i, hi, hti, hf, rfl⟩, ⟨d, hd, htd, hnd, rfl⟩, rfl⟩
    exact ⟨n, hn, (), htn, i, hi, (), hti, d, hd, (), htd, (),
      ⟨⟨hnn, fun v hv => (hf v hv).1⟩, hnd⟩, _, ⟨fun v hv => (hf v hv).2, rfl⟩, rfl⟩

/-- On a readable `blocks` table, the exact lookup agrees with the scanned rows. -/
theorem findBlockHash_of_blockHashes {rows : List (Nat × Hash)} (h : blockHashes t = .ok rows)
    (n : Nat) : findBlockHash t n = .ok ((rows.find? fun e => e.1 = n).map Prod.snd) := by
  obtain ⟨_, _, hnm, hhs, rfl⟩ := blockHashes_eq_ok.mp h
  have hlen := hnm.length_eq.trans hhs.length_eq.symm
  obtain ⟨numbers, hn, hty, -, rfl⟩ := hnm
  obtain ⟨hashes, hh, hth, -, rfl⟩ := hhs
  rw [mem_singleton] at hth
  have hc : ∀ i, readStringCell t "hash" i =
      .ok (((hashes.values.map Value.asText)[i]?).getD "") := by
    intro i
    have hok : hashes.expectType [.utf8] = .ok () := by
      simp [Column.expectType, ensure, hth]
    simp only [readStringCell, columnNamed_eq_ok.mpr hh, hok, bind, Except.bind, pure,
      Except.pure, getElem?_map]
    cases hashes.values[i]? <;> rfl
  have hf : ∀ o : Option Nat, (match o with
        | some rowIndex => some <$> readStringCell t "hash" rowIndex
        | none => (return none : Except Error (Option Hash))) =
      .ok (o.map fun i => ((hashes.values.map Value.asText)[i]?).getD "") := by
    intro o
    cases o with
    | none => rfl
    | some => simp [hc, Functor.map, Except.map]
  -- A 32-bit column cannot hold a number above its range, so the narrowing test changes nothing.
  have hnr : numbers.field.dataType = .uint32 → ¬ n < 2 ^ 32 →
      findExactBlockRow (numbers.values.map Value.asUint) n = none := by
    intro h32 hge
    refine findIdx?_eq_none_iff.mpr ?_
    intro k hk
    obtain ⟨v, hv, rfl⟩ := mem_map.mp hk
    have ha := all_eq_true.mp numbers.typed v hv
    have hlt : v.asUint < 2 ^ 32 := by
      rw [h32] at ha
      cases v with
      | uint => simpa [DataType.admits, Value.asUint] using ha
      | _ => simp [Value.asUint]
    have hne : v.asUint ≠ n := (hlt.trans_le (Nat.le_of_not_lt hge)).ne
    simpa using hne
  rw [← findIdx?_zip hlen n, ← findExactBlockRow]
  simp only [findBlockHash, columnNamed_eq_ok.mpr hn, bind, Except.bind]
  rcases mem_pair.mp hty with h32 | h64
  · rw [h32]
    by_cases hlt : n < 2 ^ 32
    · simp only [hlt, if_true, pure, Except.pure]
      exact hf _
    · simp only [hlt, if_false, pure, Except.pure, hnr h32 hlt]
      rfl
  · rw [h64]
    exact hf _

/-- The key of a data cell inside one table. -/
inductive TableKey where
  | schema
  | statistic (column : Nat)
  | offsets (buffer : Nat)
  | page (buffer index : Nat)
deriving DecidableEq, Repr

/-- `TableKey::serialize` up to the encoding of its numbers: the tag byte, then the arguments. -/
def TableKey.rank : TableKey → ℕ ×ₗ ℕ ×ₗ ℕ
  | schema => toLex (0, toLex (0, 0))
  | statistic column => toLex (1, toLex (column, 0))
  | offsets buffer => toLex (2, toLex (buffer, 0))
  | page buffer index => toLex (3, toLex (buffer, index))

abbrev Bytes := List UInt8

abbrev Cell := TableKey × Bytes

def cellPos (cell : Cell) : ℕ ×ₗ ℕ ×ₗ ℕ := cell.1.rank

abbrev TableCells := Keyed cellPos

/-- How the cells of a table encode it. -/
class TableFormat where
  decode : TableCells → Except Error Table

/-- The format that knows the listed tables by the bytes they are stored as. -/
@[reducible]
def catalogFormat (tables : List (List Bytes × Table)) : TableFormat where
  decode cells :=
    match tables.lookup (cells.toList.map Prod.snd) with
    | some table => .ok table
    | none => .error (.text "unknown table")

end Storage
