import SqdData.Arrow.Values
import SqdData.Paging
import SqdData.Primitives.Gather

/-!
# Arrays and their buffers

An array as its buffers: an optional null mask, and the values, offsets and child arrays of its
type. The offsets of an array need not start at zero, and a child array may have more values than
the offsets use. The text of a string array is kept as its bytes.

`toValues` is the logical content of an array. The value under a null is not part of it.
-/

namespace Arrow

open List hiding splitLengths flatten_splitLengths length_splitLengths

open Paging Primitives

inductive ArrayData where
  | boolean (nulls : Option (List Bool)) (values : List Bool)
  | primitive (nulls : Option (List Bool)) (values : List Int)
  | binary (nulls : Option (List Bool)) (offsets : List Nat) (values : List Byte)
  | fixedSizeBinary (size : Nat) (nulls : Option (List Bool)) (values : List Byte)
  | list (nulls : Option (List Bool)) (offsets : List Nat) (values : ArrayData)
  | struct (len : Nat) (nulls : Option (List Bool)) (columns : List ArrayData)

def ArrayData.len : ArrayData → Nat
  | boolean _ values => values.length
  | primitive _ values => values.length
  | binary _ offsets _ => offsets.length - 1
  | fixedSizeBinary size _ values => values.length / size
  | list _ offsets _ => offsets.length - 1
  | struct len _ _ => len

variable {e i n s : Nat}

section Rows

variable {α : Type}

def rowsAt : List Nat → List α → List (List α)
  | o :: next :: offsets, items => items.extract o next :: rowsAt (next :: offsets) items
  | _, _ => []

theorem rowsAt_buildOffsets (first : Nat) (lengths : List Nat) (items : List α) :
    rowsAt (buildOffsets first lengths) items = splitLengths lengths (items.drop first) := by
  induction lengths generalizing first with
  | nil => rfl
  | cons len lengths ih =>
    have hr := ih (first + len)
    obtain ⟨tail, ht⟩ : ∃ tail, buildOffsets (first + len) lengths = (first + len) :: tail := by
      cases lengths <;> exact ⟨_, rfl⟩
    rw [ht] at hr
    rw [buildOffsets, ht, rowsAt, hr, splitLengths, drop_drop, extract_eq_take_drop,
      Nat.add_sub_cancel_left]

/-- Offsets that ascend and stay within `n` items. -/
structure ValidOffsets (offsets : List Nat) (n : Nat) : Prop where
  nonempty : offsets ≠ []
  ascending : offsets.Pairwise (· ≤ ·)
  bounded : ∀ o ∈ offsets, o ≤ n

variable {offsets : List Nat}

/-- The rows of consecutive offsets, as their lengths and the items from the first offset to the
last. -/
theorem rowsAt_eq (h : ValidOffsets offsets n) (items : List α) :
    rowsAt offsets items =
      splitLengths (lengthsOf offsets) (items.extract (offsets.headD 0) (offsets.getLastD 0)) := by
  cases offsets with
  | nil => exact absurd rfl h.nonempty
  | cons o offsets =>
    have hsum := sum_lengthsOf h.ascending
    have hlen : (o :: offsets).getLastD 0 - o = (lengthsOf (o :: offsets)).sum := by omega
    have hr := rowsAt_buildOffsets o (lengthsOf (o :: offsets)) items
    rw [buildOffsets_lengthsOf h.ascending] at hr
    rw [hr, headD_cons, extract_eq_take_drop, hlen, splitLengths_take]

theorem length_rowsAt (offsets : List Nat) (items : List α) :
    (rowsAt offsets items).length = offsets.length - 1 := by
  fun_induction rowsAt offsets items with
  | case1 o next offsets items ih => simp [ih]
  | case2 offsets items h =>
    cases offsets with
    | nil => rfl
    | cons o offsets =>
      cases offsets with
      | nil => rfl
      | cons next offsets => exact absurd rfl (h o next offsets)

theorem rowsAt_drop (offsets : List Nat) (items : List α) (n : Nat) :
    rowsAt (offsets.drop n) items = (rowsAt offsets items).drop n := by
  induction n generalizing offsets with
  | zero => rfl
  | succ _ ih =>
    cases offsets with
    | nil => rfl
    | cons _ offsets =>
      rw [drop_succ_cons, ih]
      cases offsets <;> simp [rowsAt]

theorem rowsAt_take (offsets : List Nat) (items : List α) (n : Nat) :
    rowsAt (offsets.take (n + 1)) items = (rowsAt offsets items).take n := by
  induction n generalizing offsets with
  | zero => cases offsets <;> simp [rowsAt]
  | succ _ ih =>
    cases offsets with
    | nil => rfl
    | cons _ offsets =>
      have hr := ih offsets
      cases offsets with
      | nil => simp [rowsAt]
      | cons =>
        simp only [take_succ_cons, rowsAt] at hr ⊢
        rw [hr]

/-- The rows of a range have the offsets of the range. -/
theorem rowsAt_extract {items : List α} (h : s ≤ e) :
    rowsAt (offsets.extract s (e + 1)) items = (rowsAt offsets items).extract s e := by
  rw [extract_eq_take_drop, show e + 1 - s = (e - s) + 1 by omega, rowsAt_take, rowsAt_drop,
    extract_eq_take_drop]

theorem ValidOffsets.extract (h : ValidOffsets offsets n) (hse : s ≤ e) (he : e < offsets.length) :
    ValidOffsets (offsets.extract s (e + 1)) n := by
  constructor
  · intro hn
    have := length_extract (l := offsets) (a := s) (b := e + 1) he
    rw [hn, length_nil] at this
    omega
  · exact (h.ascending.drop).take
  · intro o ho
    exact h.bounded o (mem_of_mem_drop (mem_of_mem_take ho))

theorem ValidOffsets.getD_le (h : ValidOffsets offsets n) (he : e ≤ offsets.length - 1) :
    offsets.getD e 0 ≤ n := by
  have hp : 0 < offsets.length := length_pos_iff.mpr h.nonempty
  have hlt : e < offsets.length := by omega
  rw [getD_eq_getElem _ _ hlt]
  exact h.bounded _ (getElem_mem hlt)

theorem headD_extract (hse : s ≤ e) : (offsets.extract s (e + 1)).headD 0 = offsets.getD s 0 := by
  rw [extract_eq_take_drop, headD_eq_head?_getD, head?_take, head?_drop,
    if_neg (by omega), getD_eq_getElem?_getD]

theorem getLastD_extract (hse : s ≤ e) (he : e < offsets.length) :
    (offsets.extract s (e + 1)).getLastD 0 = offsets.getD e 0 := by
  have hl := length_extract (l := offsets) (a := s) (b := e + 1) he
  rw [getLastD_eq_getLast?, getLast?_eq_getElem?, hl, extract_eq_take_drop,
    getElem?_take, if_pos (by omega), getElem?_drop, getD_eq_getElem?_getD]
  congr 2
  omega

def offsetAt (lens : List Nat) (i : Nat) : Nat := (lens.take i).sum

variable {j : Nat}

theorem offsetAt_mono (lens : List Nat) (h : i ≤ j) : offsetAt lens i ≤ offsetAt lens j :=
  monotone_sum_take lens h

theorem offsetAt_le_sum (lens : List Nat) (i : Nat) : offsetAt lens i ≤ lens.sum := by
  have := offsetAt_mono lens (Nat.le_max_left i lens.length)
  rwa [offsetAt, offsetAt, take_of_length_le (Nat.le_max_right i lens.length)] at this

theorem sum_extract (lens : List Nat) (h : i ≤ j) :
    (lens.extract i j).sum = offsetAt lens j - offsetAt lens i := by
  have hs := extract_append_extract (l := lens) (Nat.zero_le i) h
  have := congrArg sum hs
  simp only [sum_append, extract_eq_take_drop, drop_zero, Nat.sub_zero] at this
  simp only [extract_eq_take_drop, offsetAt]
  omega

/-- The rows of a range have their values between two offsets. -/
theorem extract_splitLengths (lens : List Nat) (h : i ≤ j) (vals : List α) :
    (splitLengths lens vals).extract i j =
      splitLengths (lens.extract i j) (vals.extract (offsetAt lens i) (offsetAt lens j)) := by
  rw [extract_eq_take_drop, drop_splitLengths, take_splitLengths, extract_eq_take_drop,
    extract_eq_take_drop, ← sum_extract lens h, extract_eq_take_drop, splitLengths_take]
  rfl

theorem flatten_extract_splitLengths (lens : List Nat) (h : i ≤ j) (vals : List α) :
    ((splitLengths lens vals).extract i j).flatten =
      vals.extract (offsetAt lens i) (offsetAt lens j) := by
  rw [extract_splitLengths lens h, flatten_splitLengths, sum_extract lens h, take_of_length_le]
  exact length_take_le _ _

/-- The offsets of a range of rows. -/
theorem extract_buildOffsets_from (first : Nat) {lens : List Nat} (hij : i ≤ j)
    (hj : j ≤ lens.length) : (buildOffsets first lens).extract i (j + 1) =
      buildOffsets (first + offsetAt lens i) (lens.extract i j) := by
  rw [extract_eq_take_drop, drop_buildOffsets (hij.trans hj),
    show j + 1 - i = (j - i) + 1 by omega, take_buildOffsets, extract_eq_take_drop]
  rfl

end Rows

variable {nulls : Option (List Bool)} {values : List Value}

section Mask

def applyMask (bits : List Bool) (values : List Value) : List Value :=
  List.zipWith (fun valid value => if valid then value else .null) bits values

def masked (nulls : Option (List Bool)) (values : List Value) : List Value :=
  nulls.elim values fun bits => applyMask bits values

def maskBits (nulls : Option (List Bool)) (n : Nat) : List Bool :=
  nulls.getD (List.replicate n true)

theorem applyMask_replicate (values : List Value) :
    applyMask (List.replicate values.length true) values = values := by
  induction values with
  | nil => rfl
  | cons _ _ ih =>
    simp only [applyMask, length_cons, replicate_succ, zipWith_cons_cons, if_true] at ih ⊢
    rw [ih]

theorem masked_eq (h : values.length = n) :
    masked nulls values = applyMask (maskBits nulls n) values := by
  cases nulls with
  | none =>
    subst h
    exact (applyMask_replicate values).symm
  | some => rfl

theorem length_applyMask {bits : List Bool} (hb : bits.length = n)
    (hv : values.length = n) : (applyMask bits values).length = n := by
  simp [applyMask, hb, hv]

theorem applyMask_append {bits more : List Bool} {rest : List Value}
    (h : bits.length = values.length) :
    applyMask (bits ++ more) (values ++ rest) = applyMask bits values ++ applyMask more rest :=
  zipWith_append h

theorem applyMask_extract (bits : List Bool) (values : List Value) (s e : Nat) :
    applyMask (bits.extract s e) (values.extract s e) = (applyMask bits values).extract s e := by
  simp only [applyMask, extract_eq_take_drop, take_zipWith, drop_zipWith]

theorem select_applyMask {sel : Option (List Range)} (h : Fitting n sel) {bits : List Bool}
    (hb : bits.length = n) (hv : values.length = n) :
    select sel (applyMask bits values) = applyMask (select sel bits) (select sel values) := by
  rw [select_eq_map h (length_applyMask hb hv) .null, select_eq_map h hb true,
    select_eq_map h hv .null, applyMask, applyMask, zipWith_map_left,
    zipWith_map_right, zipWith_self]
  apply map_congr_left
  intro i hi
  have hlt := lt_of_mem_selectedRows h hi
  simp [hb, hv, hlt]

end Mask

section Struct

def structRows (n : Nat) (columns : List (List Value)) : List Value :=
  (List.range n).map fun i => .struct (columns.map fun column => column.getD i .null)

@[simp]
theorem length_structRows (n : Nat) (columns : List (List Value)) :
    (structRows n columns).length = n := by
  simp [structRows]

variable {columns : List (List Value)}

theorem structRows_append {m : Nat} {more : List (List Value)}
    (hc : ∀ c ∈ columns, c.length = m) (hm : columns.length = more.length) :
    structRows (m + n) (List.zipWith (· ++ ·) columns more) =
      structRows m columns ++ structRows n more := by
  have hlf : ∀ i < m, (zipWith (· ++ ·) columns more).map (fun c => c.getD i .null) =
      columns.map fun c => c.getD i .null := by
    intro i hi
    apply ext_getElem
    · simp [hm]
    · intro j hj hj'
      simp only [length_map] at hj'
      have hlt : i < columns[j].length := by
        rw [hc _ (getElem_mem hj')]
        exact hi
      simp only [getElem_zipWith, getElem_map, getD_append _ _ _ _ hlt]
  have hr : ∀ i, (zipWith (· ++ ·) columns more).map (fun c => c.getD (m + i) .null) =
      more.map fun c => c.getD i .null := by
    intro i
    apply ext_getElem
    · simp [hm]
    · intro j hj hj'
      simp only [length_map] at hj'
      have hj'' : j < columns.length := by omega
      have hl : columns[j].length = m := hc _ (getElem_mem hj'')
      simp only [getElem_zipWith, getElem_map]
      rw [getD_append_right _ _ _ _ (by omega), hl, Nat.add_sub_cancel_left]
  simp only [structRows, range_add, map_append, map_map, Function.comp_def, hr]
  congr 1
  apply map_congr_left
  intro i hi
  rw [hlf i (mem_range.mp hi)]

theorem structRows_extract {len : Nat} (hcl : ∀ c ∈ columns, c.length = len) (he : e ≤ len) :
    (structRows len columns).extract s e =
      structRows (e - s) (columns.map fun c => c.extract s e) := by
  have hr : ∀ i < e - s, (columns.map fun c => c.extract s e).map (fun c => c.getD i .null) =
      columns.map fun c => c.getD (s + i) .null := by
    intro i hi
    rw [map_map]
    apply map_congr_left
    intro c hc
    have := hcl c hc
    simp [extract_eq_take_drop, getD_eq_getElem?_getD, hi]
  rw [extract_eq_map (by simpa using he) .null, range'_eq_map_range, map_map]
  apply map_congr_left
  intro i hi
  have hlt := mem_range.mp hi
  have hin : s + i < len := by omega
  simp only [Function.comp_apply, structRows, hr i hlt]
  simp [getD_eq_getElem?_getD, hin]

theorem select_structRows {sel : Option (List Range)} (h : Fitting n sel)
    (hcl : ∀ c ∈ columns, c.length = n) :
    select sel (structRows n columns) =
      structRows (selectedRows n sel).length (columns.map (select sel)) := by
  rw [select_eq_map h (length_structRows n columns) .null]
  apply ext_getElem
  · simp
  · intro i hi hi'
    have hi'' : i < (selectedRows n sel).length := by simpa using hi
    have hlt := lt_of_mem_selectedRows h (getElem_mem hi'')
    simp only [structRows, getElem_map, getElem_range, map_map]
    rw [getD_eq_getElem _ _ (by simpa using hlt), getElem_map, getElem_range]
    congr 1
    apply map_congr_left
    intro c hc
    have hg : ((selectedRows n sel).map fun i => c.getD i .null).getD i .null =
        c.getD (selectedRows n sel)[i] .null := by
      rw [getD_eq_getElem _ _ (by simpa using hi''), getElem_map]
    rw [Function.comp_apply, select_eq_map h (hcl c hc) .null, hg]

end Struct

mutual

def ArrayData.toValues : ArrayData → List Value
  | .boolean nulls values => masked nulls (values.map .bool)
  | .primitive nulls values => masked nulls (values.map .int)
  | .binary nulls offsets values => masked nulls ((rowsAt offsets values).map .bytes)
  | .fixedSizeBinary size nulls values =>
    masked nulls ((splitLengths (List.replicate (values.length / size) size) values).map .bytes)
  | .list nulls offsets values => masked nulls ((rowsAt offsets values.toValues).map .list)
  | .struct len nulls columns => masked nulls (structRows len (toColumns columns))

def toColumns : List ArrayData → List (List Value)
  | [] => []
  | column :: columns => column.toValues :: toColumns columns

end

def MaskFits (nulls : Option (List Bool)) (n : Nat) : Prop := ∀ bits ∈ nulls, bits.length = n

mutual

/-- The buffers of the array fit together and are those of the type. -/
def WellFormed : DataType → ArrayData → Prop
  | .boolean, .boolean nulls values => MaskFits nulls values.length
  | .int _, .primitive nulls values => MaskFits nulls values.length
  | .primitive _, .primitive nulls values => MaskFits nulls values.length
  | .utf8, .binary nulls offsets values =>
    MaskFits nulls (offsets.length - 1) ∧ ValidOffsets offsets values.length
  | .binary, .binary nulls offsets values =>
    MaskFits nulls (offsets.length - 1) ∧ ValidOffsets offsets values.length
  | .fixedSizeBinary n, .fixedSizeBinary size nulls values =>
    size = n ∧ values.length = values.length / size * size ∧
      MaskFits nulls (values.length / size)
  | .list item, .list nulls offsets values =>
    MaskFits nulls (offsets.length - 1) ∧ ValidOffsets offsets values.len ∧ WellFormed item values
  | .struct fields, .struct len nulls columns =>
    MaskFits nulls len ∧ WellFormedAll fields len columns
  | _, _ => False

def WellFormedAll : List (String × DataType) → Nat → List ArrayData → Prop
  | [], _, [] => True
  | (_, type) :: fields, len, column :: columns =>
    column.len = len ∧ WellFormed type column ∧ WellFormedAll fields len columns
  | _, _, _ => False

end

theorem length_maskBits (h : MaskFits nulls n) : (maskBits nulls n).length = n := by
  cases nulls with
  | none => simp [maskBits]
  | some bits => exact h bits rfl

theorem length_masked (hn : MaskFits nulls n) (hv : values.length = n) :
    (masked nulls values).length = n := by
  rw [masked_eq hv, length_applyMask (length_maskBits hn) hv]

theorem ArrayData.length_toValues {type : DataType} {array : ArrayData}
    (h : WellFormed type array) :
    array.toValues.length = array.len := by
  cases array with
  | boolean =>
    cases type <;> first | exact h.elim | skip
    exact length_masked h (length_map _)
  | primitive =>
    cases type <;> first | exact h.elim | skip
    all_goals exact length_masked h (length_map _)
  | binary =>
    cases type <;> first | exact h.elim | skip
    all_goals exact length_masked h.1 (by rw [length_map, length_rowsAt]; rfl)
  | fixedSizeBinary =>
    cases type <;> first | exact h.elim | skip
    exact length_masked h.2.2 (by simp [ArrayData.len])
  | list =>
    cases type <;> first | exact h.elim | skip
    exact length_masked h.1 (by rw [length_map, length_rowsAt]; rfl)
  | struct =>
    cases type <;> first | exact h.elim | skip
    exact length_masked h.1 (length_structRows _ _)

variable {fields : List (String × DataType)}

theorem WellFormedAll.lengths {len : Nat} {columns : List ArrayData}
    (h : WellFormedAll fields len columns) : ∀ c ∈ toColumns columns, c.length = len := by
  induction fields generalizing columns with
  | nil =>
    cases columns with
    | nil => simp [toColumns]
    | cons => exact h.elim
  | cons _ _ ih =>
    cases columns with
    | nil => exact h.elim
    | cons =>
      obtain ⟨hlen, hco, hcl⟩ := h
      intro c hc
      rcases mem_cons.mp hc with rfl | hc
      · rw [ArrayData.length_toValues hco, hlen]
      · exact ih hcl c hc

theorem WellFormedAll.length_columns {len : Nat} {columns : List ArrayData}
    (h : WellFormedAll fields len columns) : (toColumns columns).length = fields.length := by
  induction fields generalizing columns with
  | nil =>
    cases columns with
    | nil => rfl
    | cons => exact h.elim
  | cons _ _ ih =>
    cases columns with
    | nil => exact h.elim
    | cons => simp [toColumns, ih h.2.2]

mutual

/-- Types whose arrays know their length from their values: fixed sizes are not zero, and a struct
has a field. -/
def Supported : DataType → Prop
  | .null => False
  | .boolean => True
  | .int _ => True
  | .primitive _ => True
  | .utf8 => True
  | .binary => True
  | .fixedSizeBinary size => 0 < size
  | .list item => Supported item
  | .struct fields => fields ≠ [] ∧ SupportedAll fields

def SupportedAll : List (String × DataType) → Prop
  | [] => True
  | (_, type) :: fields => Supported type ∧ SupportedAll fields

end

theorem SupportedAll.get (h : SupportedAll fields) (hi : i < fields.length) :
    Supported (fields.getD i ("", .null)).2 := by
  induction fields generalizing i with
  | nil => simp at hi
  | cons _ _ ih =>
    cases i with
    | zero => exact h.1
    | succ => exact ih h.2 (by simpa using hi)

end Arrow
