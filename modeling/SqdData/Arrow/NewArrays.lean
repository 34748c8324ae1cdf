import SqdData.Arrow.ArrayData
import SqdData.Storage.Data

/-!
# Making arrays

The constructors of arrays with the checks they make. An array made of buffers that fit has the
values the buffers stand for. The texts of the errors are those of the array library in short.
-/

namespace Arrow

open Paging Storage

def maskFits (nulls : Option (List Bool)) (n : Nat) : Bool := nulls.all fun bits => bits.length = n

/-- The mask stands for the given bits. No mask stands for set bits only. -/
def IsMask (mask : Option (List Bool)) (bits : List Bool) : Prop :=
  mask.getD (List.replicate bits.length true) = bits

section Constructors

variable (nulls : Option (List Bool))

def newBoolean (values : List Bool) : Except Error ArrayData := do
  ensure (maskFits nulls values.length)
    (.text "null mask length does not match the length of the array")
  return .boolean nulls values

def newPrimitive (values : List Int) : Except Error ArrayData := do
  ensure (maskFits nulls values.length) (.text "Incorrect length of null buffer")
  return .primitive nulls values

def newBinary (offsets : List Nat) (values : List Byte) : Except Error ArrayData := do
  ensure (offsets.getLastD 0 ≤ values.length) (.text "Maximum offset is larger than values")
  ensure (maskFits nulls (offsets.length - 1)) (.text "Incorrect length of null buffer")
  return .binary nulls offsets values

/-- The number of values is the length divided by the size, which panics for a size of zero. -/
def newFixedSizeBinary (size : Nat) (values : List Byte) : Except Error ArrayData := do
  ensure (size ≠ 0) (.text "attempt to divide by zero")
  ensure (maskFits nulls (values.length / size)) (.text "Incorrect length of null buffer")
  return .fixedSizeBinary size nulls values

def newList (offsets : List Nat) (values : ArrayData) : Except Error ArrayData := do
  ensure (offsets.getLastD 0 ≤ values.len) (.text "Max offset exceeds length of values")
  ensure (maskFits nulls (offsets.length - 1)) (.text "Incorrect length of null buffer")
  return .list nulls offsets values

def newStruct (columns : List ArrayData) : Except Error ArrayData := do
  let len := (columns.head?.map ArrayData.len).getD 0
  ensure (columns.all fun column => column.len = len) (.text "Incorrect array length")
  ensure (maskFits nulls len) (.text "Incorrect number of nulls")
  return .struct len nulls columns

end Constructors

theorem maskFits_of_isMask {mask : Option (List Bool)} {bits : List Bool} {n : Nat}
    (h : IsMask mask bits) (hn : bits.length = n) : maskFits mask n = true := by
  cases mask with
  | none => rfl
  | some m =>
    have hm : m = bits := h
    simp [maskFits, hm, hn]

theorem masked_of_isMask {mask : Option (List Bool)} {bits : List Bool} {values : List Value}
    (h : IsMask mask bits) (hl : values.length = bits.length) :
    masked mask values = applyMask bits values := by
  rw [masked_eq hl]
  exact congrArg (applyMask · values) h

theorem getLastD_buildOffsets (lens : List Nat) : (buildOffsets 0 lens).getLastD 0 = lens.sum := by
  rw [List.getLastD_eq_getLast?, getLast?_buildOffsets, Option.getD_some, Nat.zero_add]

theorem rowsAt_lengths {α : Type} (lens : List Nat) (items : List α) :
    rowsAt (buildOffsets 0 lens) items = splitLengths lens items := by
  rw [rowsAt_buildOffsets, List.drop_zero]

def Makes (result : Except Error ArrayData) (n : Nat) (values : List Value) : Prop :=
  ∃ array, result = .ok array ∧ array.len = n ∧ array.toValues = values

section Makes

variable {nulls : Option (List Bool)} {bits : List Bool} {n : Nat}

theorem newBoolean_makes {items : List Bool} (hm : IsMask nulls bits) (hb : bits.length = n)
    (hi : items.length = n) :
    Makes (newBoolean nulls items) n (applyMask bits (items.map .bool)) := by
  have hf : maskFits nulls items.length = true := maskFits_of_isMask hm (hb.trans hi.symm)
  refine ⟨.boolean nulls items, by simp only [newBoolean, ensure_of_true hf]; rfl, hi, ?_⟩
  exact masked_of_isMask hm (by rw [List.length_map, hb, hi])

theorem newPrimitive_makes {items : List Int} (hm : IsMask nulls bits) (hb : bits.length = n)
    (hi : items.length = n) :
    Makes (newPrimitive nulls items) n (applyMask bits (items.map .int)) := by
  have hf : maskFits nulls items.length = true := maskFits_of_isMask hm (hb.trans hi.symm)
  refine ⟨.primitive nulls items, by simp only [newPrimitive, ensure_of_true hf]; rfl, hi, ?_⟩
  exact masked_of_isMask hm (by rw [List.length_map, hb, hi])

theorem newBinary_makes {lens : List Nat} {items : List Byte} (hm : IsMask nulls bits)
    (hb : bits.length = n) (hln : lens.length = n) (hi : items.length = lens.sum) :
    Makes (newBinary nulls (buildOffsets 0 lens) items) n
      (applyMask bits ((splitLengths lens items).map .bytes)) := by
  have hlast : decide ((buildOffsets 0 lens).getLastD 0 ≤ items.length) = true := by
    rw [decide_eq_true_eq, getLastD_buildOffsets, hi]
  have hl : (buildOffsets 0 lens).length - 1 = n := by
    rw [length_buildOffsets, hln, Nat.add_sub_cancel]
  have hf : maskFits nulls ((buildOffsets 0 lens).length - 1) = true :=
    maskFits_of_isMask hm (hb.trans hl.symm)
  refine ⟨.binary nulls (buildOffsets 0 lens) items,
    by simp only [newBinary, ensure_of_true hlast, ensure_of_true hf]; rfl, hl, ?_⟩
  rw [ArrayData.toValues, rowsAt_lengths,
    masked_of_isMask hm (by rw [List.length_map, length_splitLengths, hln, hb])]

theorem newFixedSizeBinary_makes {size : Nat} (hs : 0 < size) {items : List Byte}
    (hm : IsMask nulls bits) (hb : bits.length = n) (hi : items.length = n * size) :
    Makes (newFixedSizeBinary nulls size items) n
      (applyMask bits ((splitLengths (List.replicate n size) items).map .bytes)) := by
  have hne : decide (size ≠ 0) = true := by simpa using hs.ne'
  have hl : items.length / size = n := by
    rw [hi, Nat.mul_div_cancel n hs]
  have hf : maskFits nulls (items.length / size) = true := maskFits_of_isMask hm (hb.trans hl.symm)
  refine ⟨.fixedSizeBinary size nulls items,
    by simp only [newFixedSizeBinary, ensure_of_true hne, ensure_of_true hf]; rfl, hl, ?_⟩
  rw [ArrayData.toValues, hl, masked_of_isMask hm (by simpa using hb.symm)]

theorem newList_makes {lens : List Nat} {array : ArrayData} {items : List Value}
    (hm : IsMask nulls bits) (hb : bits.length = n) (hln : lens.length = n)
    (hlen : array.len = lens.sum) (hv : array.toValues = items) :
    Makes (newList nulls (buildOffsets 0 lens) array) n
      (applyMask bits ((splitLengths lens items).map .list)) := by
  have hlast : decide ((buildOffsets 0 lens).getLastD 0 ≤ array.len) = true := by
    rw [decide_eq_true_eq, getLastD_buildOffsets, hlen]
  have hl : (buildOffsets 0 lens).length - 1 = n := by
    rw [length_buildOffsets, hln, Nat.add_sub_cancel]
  have hf : maskFits nulls ((buildOffsets 0 lens).length - 1) = true :=
    maskFits_of_isMask hm (hb.trans hl.symm)
  refine ⟨.list nulls (buildOffsets 0 lens) array,
    by simp only [newList, ensure_of_true hlast, ensure_of_true hf]; rfl, hl, ?_⟩
  rw [ArrayData.toValues, hv, rowsAt_lengths,
    masked_of_isMask hm (by rw [List.length_map, length_splitLengths, hln, hb])]

theorem newStruct_makes {arrays : List ArrayData} {columns : List (List Value)}
    (hm : IsMask nulls bits) (hb : bits.length = n) (hne : arrays ≠ [])
    (hl : ∀ array ∈ arrays, array.len = n) (hc : toColumns arrays = columns) :
    Makes (newStruct nulls arrays) n (applyMask bits (structRows n columns)) := by
  have hlen : (arrays.head?.map ArrayData.len).getD 0 = n := by
    cases arrays with
    | nil => exact absurd rfl hne
    | cons array => exact hl array (by simp)
  have ha : (arrays.all fun column => decide (column.len = n)) = true := by
    simpa using hl
  have hf : maskFits nulls n = true := maskFits_of_isMask hm hb
  refine ⟨.struct n nulls arrays,
    by simp only [newStruct, hlen, ensure_of_true ha, ensure_of_true hf]; rfl, rfl, ?_⟩
  rw [ArrayData.toValues, hc, masked_of_isMask hm (by rw [length_structRows, hb])]

end Makes

end Arrow
