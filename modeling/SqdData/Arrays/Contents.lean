import SqdData.Arrow.ArrayData

/-!
# Buffers of an array

The buffers of an array type stand one after the other: the null mask first, then the values, or the
offsets and the buffers of the items, or the buffers of the fields. `Decodes` says which values the
contents of such a sequence of buffers stand for. Offsets are given by the lengths between them.
-/

namespace Arrays

open Arrow Paging

mutual

def getNumBuffers : DataType → Nat
  | .null => 0
  | .boolean => 2
  | .int _ => 2
  | .primitive _ => 2
  | .utf8 => 3
  | .binary => 3
  | .fixedSizeBinary _ => 2
  | .list item => 2 + getNumBuffers item
  | .struct fields => 1 + getNumFieldBuffers fields

def getNumFieldBuffers : List (String × DataType) → Nat
  | [] => 0
  | (_, type) :: fields => getNumBuffers type + getNumFieldBuffers fields

end

inductive Content where
  | nullmask (bits : List Bool)
  | bitmask (bits : List Bool)
  | native (items : List Int)
  | bytes (items : List Byte)
  | lengths (lens : List Nat)

/-- The number of entries, and of the items that offsets lead to. -/
def Content.size : Content → Nat
  | .nullmask bits => bits.length
  | .bitmask bits => bits.length
  | .native items => items.length
  | .bytes items => items.length
  | .lengths lens => lens.length + lens.sum

def contentsSize (contents : List Content) : Nat := (contents.map Content.size).sum

@[simp]
theorem contentsSize_nil : contentsSize [] = 0 := rfl

@[simp]
theorem contentsSize_cons (content : Content) (contents : List Content) :
    contentsSize (content :: contents) = content.size + contentsSize contents := List.sum_cons

theorem contentsSize_append (contents more : List Content) :
    contentsSize (contents ++ more) = contentsSize contents + contentsSize more := by
  rw [contentsSize, List.map_append, List.sum_append]
  rfl

theorem Content.size_le {content : Content} {contents : List Content} (h : content ∈ contents) :
    content.size ≤ contentsSize contents :=
  List.single_le_sum (fun _ _ => Nat.zero_le _) _ (List.mem_map_of_mem h)

mutual

/-- The contents are those of `n` values of the type. -/
def Decodes : DataType → Nat → List Content → List Value → Prop
  | .null, _, _, _ => False
  | .boolean, n, contents, values =>
    ∃ bits items, contents = [.nullmask bits, .bitmask items] ∧ bits.length = n ∧
      items.length = n ∧ values = applyMask bits (items.map .bool)
  | .int _, n, contents, values | .primitive _, n, contents, values =>
    ∃ bits items, contents = [.nullmask bits, .native items] ∧ bits.length = n ∧
      items.length = n ∧ values = applyMask bits (items.map .int)
  | .utf8, n, contents, values | .binary, n, contents, values =>
    ∃ bits lens items, contents = [.nullmask bits, .lengths lens, .bytes items] ∧
      bits.length = n ∧ lens.length = n ∧ items.length = lens.sum ∧
        values = applyMask bits ((splitLengths lens items).map .bytes)
  | .fixedSizeBinary size, n, contents, values =>
    ∃ bits items, contents = [.nullmask bits, .bytes items] ∧ bits.length = n ∧
      items.length = n * size ∧
        values = applyMask bits ((splitLengths (List.replicate n size) items).map .bytes)
  | .list item, n, contents, values =>
    ∃ bits lens inner items, contents = .nullmask bits :: .lengths lens :: inner ∧
      bits.length = n ∧ lens.length = n ∧ Decodes item lens.sum inner items ∧
        values = applyMask bits ((splitLengths lens items).map .list)
  | .struct fields, n, contents, values =>
    ∃ bits inner columns, contents = .nullmask bits :: inner ∧ bits.length = n ∧
      DecodesAll fields n inner columns ∧ values = applyMask bits (structRows n columns)

/-- The contents are those of the fields, one after the other. -/
def DecodesAll : List (String × DataType) → Nat → List Content → List (List Value) → Prop
  | [], _, contents, columns => contents = [] ∧ columns = []
  | (_, type) :: fields, n, contents, columns =>
    ∃ first rest values others, contents = first ++ rest ∧ columns = values :: others ∧
      Decodes type n first values ∧ DecodesAll fields n rest others

end

mutual

theorem Decodes.length {n : Nat} {contents : List Content} {values : List Value} :
    (type : DataType) → Decodes type n contents values → contents.length = getNumBuffers type
  | .null, h => h.elim
  | .boolean, h | .int _, h | .primitive _, h | .fixedSizeBinary _, h => by
    obtain ⟨_, _, rfl, _⟩ := h
    rfl
  | .utf8, h | .binary, h => by
    obtain ⟨_, _, _, rfl, _⟩ := h
    rfl
  | .list item, h => by
    obtain ⟨_, _, inner, _, rfl, _, _, hi, _⟩ := h
    rw [List.length_cons, List.length_cons, Decodes.length item hi, getNumBuffers]
    omega
  | .struct fields, h => by
    obtain ⟨_, _, _, rfl, _, hi, _⟩ := h
    rw [List.length_cons, DecodesAll.length fields hi, getNumBuffers]
    omega

theorem DecodesAll.length {n : Nat} {contents : List Content} {columns : List (List Value)} :
    (fields : List (String × DataType)) → DecodesAll fields n contents columns →
      contents.length = getNumFieldBuffers fields
  | [], h => by
    rw [h.1]
    rfl
  | (_, type) :: fields, h => by
    obtain ⟨first, rest, _, _, rfl, _, hf, hr⟩ := h
    rw [List.length_append, Decodes.length type hf, DecodesAll.length fields hr, getNumFieldBuffers]

end

variable {contents : List Content}

theorem Decodes.length_values {type : DataType} {n : Nat} {values : List Value}
    (h : Decodes type n contents values) : values.length = n := by
  cases type with
  | null => exact h.elim
  | boolean | int | primitive =>
    obtain ⟨_, _, _, hb, hi, rfl⟩ := h
    exact length_applyMask hb (by simpa using hi)
  | utf8 | binary =>
    obtain ⟨_, _, _, _, hb, hl, _, rfl⟩ := h
    exact length_applyMask hb (by simpa using hl)
  | fixedSizeBinary =>
    obtain ⟨_, _, _, hb, _, rfl⟩ := h
    exact length_applyMask hb (by simp)
  | list =>
    obtain ⟨_, _, _, _, _, hb, hl, _, rfl⟩ := h
    exact length_applyMask hb (by simpa using hl)
  | struct =>
    obtain ⟨_, _, _, _, hb, _, rfl⟩ := h
    exact length_applyMask hb (length_structRows _ _)

theorem DecodesAll.lengths {fields : List (String × DataType)} {n : Nat}
    {columns : List (List Value)} (h : DecodesAll fields n contents columns) :
    ∀ c ∈ columns, c.length = n := by
  induction fields generalizing contents columns with
  | nil => simp [h.2]
  | cons _ _ ih =>
    obtain ⟨first, _, _, _, _, rfl, hf, hr⟩ := h
    intro c hc
    rcases List.mem_cons.mp hc with rfl | hc
    · exact hf.length_values
    · exact ih hr c hc

theorem DecodesAll.length_columns {fields : List (String × DataType)} {n : Nat}
    {columns : List (List Value)} (h : DecodesAll fields n contents columns) :
    columns.length = fields.length := by
  induction fields generalizing contents columns with
  | nil => simp [h.2]
  | cons _ _ ih =>
    obtain ⟨_, _, _, _, _, rfl, _, hr⟩ := h
    simp [ih hr]

end Arrays
