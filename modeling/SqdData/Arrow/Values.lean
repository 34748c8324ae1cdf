import SqdData.Bits

/-!
# Columnar data

Data types, values, columns and record batches of the columnar format, as far as their logical
content goes: a column is the list of its values, and a null is a value of its own. A boolean array
is a list of three-valued entries. The boolean kernels are the strict ones: a null on either side
gives a null.
-/

namespace Arrow

open List

abbrev Byte := Fin 256

inductive Width where
  | w8
  | w16
  | w32
  | w64
deriving DecidableEq, Repr

def Width.bits : Width → Nat
  | w8 => 8
  | w16 => 16
  | w32 => 32
  | w64 => 64

structure IntType where
  signed : Bool
  width : Width
deriving DecidableEq, Repr

namespace IntType

def least (t : IntType) : Int := if t.signed then -(2 ^ (t.width.bits - 1)) else 0

def greatest (t : IntType) : Int :=
  if t.signed then 2 ^ (t.width.bits - 1) - 1 else 2 ^ t.width.bits - 1

end IntType

inductive TimeUnit where
  | second
  | millisecond
  | microsecond
  | nanosecond
deriving DecidableEq, Repr

/-- The primitive types besides the integers. -/
inductive PrimitiveType where
  | float16
  | float32
  | float64
  | timestamp (unit : TimeUnit) (timezone : Option String)
deriving DecidableEq, Repr

/-- The integers the values are stored as. -/
def PrimitiveType.native : PrimitiveType → IntType
  | float16 => ⟨true, .w16⟩
  | float32 => ⟨true, .w32⟩
  | float64 => ⟨true, .w64⟩
  | timestamp _ _ => ⟨true, .w64⟩

inductive DataType where
  | null
  | boolean
  | int (type : IntType)
  | primitive (type : PrimitiveType)
  | utf8
  | binary
  | fixedSizeBinary (size : Nat)
  | list (item : DataType)
  | struct (fields : List (String × DataType))
deriving Repr

mutual

def decEqDataType : (a b : DataType) → Decidable (a = b)
  | .null, .null => isTrue rfl
  | .boolean, .boolean => isTrue rfl
  | .utf8, .utf8 => isTrue rfl
  | .binary, .binary => isTrue rfl
  | .int t, .int u => decidable_of_iff (t = u) (by simp)
  | .primitive t, .primitive u => decidable_of_iff (t = u) (by simp)
  | .fixedSizeBinary m, .fixedSizeBinary n => decidable_of_iff (m = n) (by simp)
  | .list a, .list b =>
    have := decEqDataType a b
    decidable_of_iff (a = b) (by simp)
  | .struct fs, .struct gs =>
    have := decEqFields fs gs
    decidable_of_iff (fs = gs) (by simp)
  | .null, .boolean | .null, .int _ | .null, .utf8 | .null, .binary | .null, .fixedSizeBinary _
  | .null, .list _ | .null, .struct _ | .boolean, .null | .int _, .null | .utf8, .null
  | .binary, .null | .fixedSizeBinary _, .null | .list _, .null | .struct _, .null
  | .boolean, .int _ | .boolean, .utf8 | .boolean, .binary | .boolean, .fixedSizeBinary _
  | .boolean, .list _ | .boolean, .struct _ | .int _, .boolean | .int _, .utf8 | .int _, .binary
  | .int _, .fixedSizeBinary _ | .int _, .list _ | .int _, .struct _ | .utf8, .boolean
  | .utf8, .int _ | .utf8, .binary | .utf8, .fixedSizeBinary _ | .utf8, .list _ | .utf8, .struct _
  | .binary, .boolean | .binary, .int _ | .binary, .utf8 | .binary, .fixedSizeBinary _
  | .binary, .list _ | .binary, .struct _ | .fixedSizeBinary _, .boolean
  | .fixedSizeBinary _, .int _ | .fixedSizeBinary _, .utf8 | .fixedSizeBinary _, .binary
  | .fixedSizeBinary _, .list _ | .fixedSizeBinary _, .struct _ | .list _, .boolean
  | .list _, .int _ | .list _, .utf8 | .list _, .binary | .list _, .fixedSizeBinary _
  | .list _, .struct _ | .struct _, .boolean | .struct _, .int _ | .struct _, .utf8
  | .struct _, .binary | .struct _, .fixedSizeBinary _ | .struct _, .list _ | .primitive _, .null
  | .primitive _, .boolean | .primitive _, .int _ | .primitive _, .utf8 | .primitive _, .binary
  | .primitive _, .fixedSizeBinary _ | .primitive _, .list _ | .primitive _, .struct _
  | .null, .primitive _ | .boolean, .primitive _ | .int _, .primitive _ | .utf8, .primitive _
  | .binary, .primitive _ | .fixedSizeBinary _, .primitive _ | .list _, .primitive _
  | .struct _, .primitive _ => isFalse (by simp)

def decEqFields : (fs gs : List (String × DataType)) → Decidable (fs = gs)
  | [], [] => isTrue rfl
  | [], _ :: _ | _ :: _, [] => isFalse (by simp)
  | (m, a) :: fs, (n, b) :: gs =>
    have := decEqDataType a b
    have := decEqFields fs gs
    decidable_of_iff ((m = n ∧ a = b) ∧ fs = gs) (by simp)

end

instance : DecidableEq DataType := decEqDataType

/-- A value of a column. The type of the column says which values occur. The integer of a timestamp
is its count, and that of a float is its place in the total order of floats, which is the order of
the comparison kernels. -/
inductive Value where
  | null
  | bool (b : Bool)
  | int (i : Int)
  | str (s : String)
  | bytes (bs : List Byte)
  | list (items : List Value)
  | struct (fields : List Value)
deriving Repr

mutual

def decEqValue : (a b : Value) → Decidable (a = b)
  | .null, .null => isTrue rfl
  | .bool a, .bool b => decidable_of_iff (a = b) (by simp)
  | .int a, .int b => decidable_of_iff (a = b) (by simp)
  | .str a, .str b => decidable_of_iff (a = b) (by simp)
  | .bytes a, .bytes b => decidable_of_iff (a = b) (by simp)
  | .list a, .list b =>
    have := decEqValues a b
    decidable_of_iff (a = b) (by simp)
  | .struct a, .struct b =>
    have := decEqValues a b
    decidable_of_iff (a = b) (by simp)
  | .null, .bool _ | .null, .int _ | .null, .str _ | .null, .bytes _ | .null, .list _
  | .null, .struct _ | .bool _, .null | .bool _, .int _ | .bool _, .str _ | .bool _, .bytes _
  | .bool _, .list _ | .bool _, .struct _ | .int _, .null | .int _, .bool _ | .int _, .str _
  | .int _, .bytes _ | .int _, .list _ | .int _, .struct _ | .str _, .null | .str _, .bool _
  | .str _, .int _ | .str _, .bytes _ | .str _, .list _ | .str _, .struct _ | .bytes _, .null
  | .bytes _, .bool _ | .bytes _, .int _ | .bytes _, .str _ | .bytes _, .list _
  | .bytes _, .struct _ | .list _, .null | .list _, .bool _ | .list _, .int _ | .list _, .str _
  | .list _, .bytes _ | .list _, .struct _ | .struct _, .null | .struct _, .bool _
  | .struct _, .int _ | .struct _, .str _ | .struct _, .bytes _ | .struct _, .list _ =>
    isFalse (by simp)

def decEqValues : (as bs : List Value) → Decidable (as = bs)
  | [], [] => isTrue rfl
  | [], _ :: _ | _ :: _, [] => isFalse (by simp)
  | a :: as, b :: bs =>
    have := decEqValue a b
    have := decEqValues as bs
    decidable_of_iff (a = b ∧ as = bs) (by simp)

end

instance : DecidableEq Value := decEqValue

namespace Value

/-- The order of two values of one primitive, text or binary type. -/
def le : Value → Value → Prop
  | .bool a, .bool b => a ≤ b
  | .int a, .int b => a ≤ b
  | .str a, .str b => a ≤ b
  | .bytes a, .bytes b => a ≤ b
  | _, _ => False

instance decidableLe : (a b : Value) → Decidable (le a b) := by
  intro a b
  cases a <;> cases b <;> unfold le <;> infer_instance

theorem le_of_le_of_le {a b c : Value} (hab : a.le b) (hbc : b.le c) : a.le c := by
  cases a <;> cases b <;> try exact hab.elim
  all_goals
    cases c <;> first | exact hbc.elim | exact le_trans hab hbc

end Value

/-- `BooleanArray`: `none` is a null entry. -/
abbrev BooleanArray := List (Option Bool)

namespace BooleanArray

/-- A strict binary kernel. -/
def lift (f : Bool → Bool → Bool) (a b : BooleanArray) : BooleanArray :=
  zipWith (fun x y => x.bind fun x => y.map fun y => f x y) a b

def and (a b : BooleanArray) : BooleanArray := lift Bool.and a b

def or (a b : BooleanArray) : BooleanArray := lift Bool.or a b

theorem getElem?_lift {f : Bool → Bool → Bool} {a b : BooleanArray} {i : Nat} {v : Bool} :
    (lift f a b)[i]? = some (some v) ↔
      ∃ x y, a[i]? = some (some x) ∧ b[i]? = some (some y) ∧ f x y = v := by
  simp only [lift, getElem?_zipWith]
  cases a[i]? with
  | none => simp
  | some x =>
    cases b[i]? with
    | none => simp
    | some y => cases x <;> cases y <;> simp

end BooleanArray

/-- `ArrayRef`: values of one type. -/
structure ArrayRef where
  dataType : DataType
  values : List Value
deriving DecidableEq

structure Column extends ArrayRef where
  name : String
deriving DecidableEq

/-- `take`: the values at the given rows. -/
def Column.take (c : Column) (rows : List Nat) : Column :=
  { c with values := rows.map fun i => c.values.getD i .null }

/-- The entries at the rows where the mask is set. A null does not select a row. -/
def selected {α : Type} (mask : BooleanArray) (l : List α) : List α :=
  (l.zip mask).filterMap fun p => if p.2 = some true then some p.1 else none

theorem length_selected {α β : Type} (mask : BooleanArray) {l : List α} {l' : List β}
    (h : l.length = l'.length) : (selected mask l).length = (selected mask l').length := by
  induction mask generalizing l l' with
  | nil => simp [selected]
  | cons _ _ ih =>
    cases l with
    | nil =>
      cases l' with
      | nil => rfl
      | cons => simp at h
    | cons _ l =>
      cases l' with
      | nil => simp at h
      | cons _ l' =>
        have hr := @ih l l' (by simpa using h)
        simp only [selected, zip_cons_cons, filterMap_cons] at hr ⊢
        split <;> split <;> simp_all

/-- `RecordBatch`: columns of one length. -/
structure RecordBatch where
  columns : List Column
  numRows : Nat
  lengths : ∀ c ∈ columns, c.values.length = numRows

namespace RecordBatch

theorem ext {a b : RecordBatch} (hc : a.columns = b.columns) (hr : a.numRows = b.numRows) :
    a = b := by
  cases a
  simp_all

instance : DecidableEq RecordBatch := fun a b =>
  decidable_of_iff (a.columns = b.columns ∧ a.numRows = b.numRows)
    ⟨fun h => ext h.1 h.2, fun h => by rw [h]; exact ⟨rfl, rfl⟩⟩

def columnByName (b : RecordBatch) (name : String) : Option Column :=
  b.columns.find? fun c => c.name == name

def project (b : RecordBatch) (keep : String → Bool) : RecordBatch where
  columns := b.columns.filter fun c => keep c.name
  numRows := b.numRows
  lengths := fun c hc => b.lengths c (mem_of_mem_filter hc)

def take (b : RecordBatch) (rows : List Nat) : RecordBatch where
  columns := b.columns.map fun c => c.take rows
  numRows := rows.length
  lengths := by
    intro c hc
    obtain ⟨c', _, rfl⟩ := mem_map.mp hc
    simp [Column.take]

def filter (b : RecordBatch) (mask : BooleanArray) : RecordBatch where
  columns := b.columns.map fun c => { c with values := selected mask c.values }
  numRows := (selected mask (range b.numRows)).length
  lengths := by
    intro c hc
    obtain ⟨c', hc', rfl⟩ := mem_map.mp hc
    exact length_selected mask (by rw [b.lengths c' hc', length_range])

end RecordBatch

end Arrow
