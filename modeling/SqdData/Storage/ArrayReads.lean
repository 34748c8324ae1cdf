import SqdData.Storage.PageReads
import SqdData.Storage.TableWriter

/-!
# Reading arrays of a stored table

`read_array` assembles an array from the buffers of its type, which start at a given position. A row
selection is handed down to the buffers: as it is to those of structs, scaled to those of fixed size
values, and as the ranges between the selected offsets to those of lists.
-/

namespace Storage

open List hiding splitLengths flatten_splitLengths length_splitLengths

open Arrow Arrays Paging Primitives

/-- `context`: the message of a failure is replaced. -/
def context {α : Type} (message : String) (result : Except Error α) : Except Error α :=
  result.mapError fun _ => .text message

@[simp]
theorem context_ok {α : Type} (message : String) (a : α) : context message (.ok a) = .ok a := rfl

section Buffers

variable (buffers : List StoredBuffer)

def readNullMaskAt (pos : Nat) (sel : Option (List Range)) : Except Error (Option (List Bool)) :=
  match buffers[pos]? with
  | some (.nullmask b) => readNullMask b sel
  | _ => .error (.text "offsets page was not found")

def readBooleanAt (pos : Nat) (sel : Option (List Range)) : Except Error (List Bool) :=
  match buffers[pos]? with
  | some (.bitmask b) => readBoolean b sel
  | _ => .error (.text "offsets page was not found")

def readNativeAt (pos : Nat) (sel : Option (List Range)) : Except Error (List Int) :=
  match buffers[pos]? with
  | some (.native b) => readNative 0 b sel
  | _ => .error (.text "offsets page was not found")

def readBytesAt (pos : Nat) (sel : Option (List Range)) : Except Error (List Byte) :=
  match buffers[pos]? with
  | some (.bytes b) => readNative 0 b sel
  | _ => .error (.text "offsets page was not found")

def readOffsetsAt (pos : Nat) (sel : Option (List Range)) :
    Except Error (List Nat × Option (List Range)) :=
  match buffers[pos]? with
  | some (.offsets b) => readOffsets b sel
  | _ => .error (.text "offsets page was not found")

def readBinary (pos : Nat) (sel : Option (List Range)) : Except Error ArrayData := do
  let nulls ← context "failed to read null mask" (readNullMaskAt buffers pos sel)
  let offsets ← context "failed to read offsets" (readOffsetsAt buffers (pos + 1) sel)
  let values ← context "failed to read values array" (readBytesAt buffers (pos + 2) offsets.2)
  newBinary nulls offsets.1 values

mutual

def readArray : DataType → Nat → Option (List Range) → Except Error ArrayData
  | .null, _, _ => .error (.text "unsupported arrow data type")
  | .boolean, pos, sel => do
    let nulls ← context "failed to read null mask" (readNullMaskAt buffers pos sel)
    let values ← context "failed to read boolean values" (readBooleanAt buffers (pos + 1) sel)
    newBoolean nulls values
  | .int _, pos, sel | .primitive _, pos, sel => do
    let nulls ← context "failed to read null mask" (readNullMaskAt buffers pos sel)
    let values ← context "failed to read values buffer" (readNativeAt buffers (pos + 1) sel)
    newPrimitive nulls values
  | .utf8, pos, sel => readBinary buffers pos sel
  | .binary, pos, sel => readBinary buffers pos sel
  | .fixedSizeBinary size, pos, sel => do
    let nulls ← context "failed to read null mask" (readNullMaskAt buffers pos sel)
    let valueRanges := sel.map fun ranges =>
      ranges.map fun r => (⟨r.start * size, r.stop * size⟩ : Range)
    let values ← context "failed to read values array" (readBytesAt buffers (pos + 1) valueRanges)
    newFixedSizeBinary nulls size values
  | .list item, pos, sel => do
    let nulls ← context "failed to read null mask" (readNullMaskAt buffers pos sel)
    let offsets ← context "failed to read offsets" (readOffsetsAt buffers (pos + 1) sel)
    let values ← context "failed to read list values array" (readArray item (pos + 2) offsets.2)
    newList nulls offsets.1 values
  | .struct fields, pos, sel => do
    let nulls ← context "failed to read null mask" (readNullMaskAt buffers pos sel)
    let columns ← readFields fields (pos + 1) sel
    newStruct nulls columns

def readFields : List (String × DataType) → Nat → Option (List Range) →
    Except Error (List ArrayData)
  | [], _, _ => .ok []
  | (name, type) :: fields, pos, sel => do
    let column ← context s!"failed to read field `{name}`" (readArray type pos sel)
    let columns ← readFields fields (pos + getNumBuffers type) sel
    return column :: columns

end

end Buffers

section Positions

def At (buffers : List StoredBuffer) (pos : Nat) (part : List StoredBuffer) : Prop :=
  ∃ before after, buffers = before ++ part ++ after ∧ before.length = pos

variable {buffers part : List StoredBuffer} {pos : Nat}

theorem At.head {b : StoredBuffer} (h : At buffers pos (b :: part)) : buffers[pos]? = some b := by
  obtain ⟨_, _, rfl, rfl⟩ := h
  simp

theorem At.tail {b : StoredBuffer} (h : At buffers pos (b :: part)) :
    At buffers (pos + 1) part := by
  obtain ⟨before, after, rfl, rfl⟩ := h
  exact ⟨before ++ [b], after, by simp, by simp⟩

theorem At.left {part' : List StoredBuffer} (h : At buffers pos (part ++ part')) :
    At buffers pos part := by
  obtain ⟨before, after, rfl, rfl⟩ := h
  exact ⟨before, part' ++ after, by simp, rfl⟩

theorem At.right {part' : List StoredBuffer} (h : At buffers pos (part ++ part')) {n : Nat}
    (hn : part.length = n) : At buffers (pos + n) part' := by
  obtain ⟨before, after, rfl, rfl⟩ := h
  exact ⟨before ++ part, after, by simp, by simp [hn]⟩

end Positions

section Specs

variable {buffers : List StoredBuffer}

variable {lens : List Nat}

section Buffers

variable {pos : Nat} {part : List StoredBuffer} {contents : List Content}
  {sel : Option (List Range)}

def Next (buffers : List StoredBuffer) (pos : Nat) (contents : List Content) : Prop :=
  ∃ part, List.Forall₂ HoldsStored part contents ∧ At buffers (pos + 1) part

theorem readNullMaskAt_eq {bits : List Bool}
    (h : List.Forall₂ HoldsStored part (.nullmask bits :: contents)) (hat : At buffers pos part)
    (hs : Fitting bits.length sel) :
    ∃ mask, readNullMaskAt buffers pos sel = .ok mask ∧ IsMask mask (select sel bits) ∧
      Next buffers pos contents := by
  obtain ⟨_, rest, hb, hr, rfl⟩ := forall₂_cons_right_iff.mp h
  cases hb with
  | nullmask hb =>
    obtain ⟨mask, hrd, hm⟩ := readNullMask_eq hb hs
    exact ⟨mask, by rw [readNullMaskAt, hat.head]; exact hrd, hm, rest, hr, hat.tail⟩

theorem readBooleanAt_eq {bits : List Bool}
    (h : List.Forall₂ HoldsStored part (.bitmask bits :: contents)) (hat : At buffers pos part)
    (hs : Fitting bits.length sel) : readBooleanAt buffers pos sel = .ok (select sel bits) := by
  obtain ⟨_, _, hb, _, rfl⟩ := forall₂_cons_right_iff.mp h
  cases hb with
  | bitmask hb =>
    rw [readBooleanAt, hat.head]
    exact readBoolean_eq hb hs

theorem readNativeAt_eq {items : List Int}
    (h : List.Forall₂ HoldsStored part (.native items :: contents)) (hat : At buffers pos part)
    (hs : Fitting items.length sel) : readNativeAt buffers pos sel = .ok (select sel items) := by
  obtain ⟨_, _, hb, _, rfl⟩ := forall₂_cons_right_iff.mp h
  cases hb with
  | native hb =>
    rw [readNativeAt, hat.head]
    exact readNative_eq hb hs 0

theorem readBytesAt_eq {items : List Byte}
    (h : List.Forall₂ HoldsStored part (.bytes items :: contents)) (hat : At buffers pos part)
    (hs : Fitting items.length sel) : readBytesAt buffers pos sel = .ok (select sel items) := by
  obtain ⟨_, _, hb, _, rfl⟩ := forall₂_cons_right_iff.mp h
  cases hb with
  | bytes hb =>
    rw [readBytesAt, hat.head]
    exact readNative_eq hb hs 0

theorem readOffsetsAt_eq (h : List.Forall₂ HoldsStored part (.lengths lens :: contents))
    (hat : At buffers pos part) (hs : Fitting lens.length sel) :
    ∃ inner, readOffsetsAt buffers pos sel = .ok (buildOffsets 0 (select sel lens), inner) ∧
      Fitting lens.sum inner ∧
      (∀ {β : Type} (vals : List β), vals.length = lens.sum →
        select inner vals = (select sel (splitLengths lens vals)).flatten) ∧
      Next buffers pos contents := by
  obtain ⟨_, rest, hb, hr, rfl⟩ := forall₂_cons_right_iff.mp h
  cases hb with
  | offsets hb =>
    obtain ⟨inner, hrd, hf, hv⟩ := readOffsets_eq hb hs
    exact ⟨inner, by rw [readOffsetsAt, hat.head]; exact hrd, hf, hv, rest, hr, hat.tail⟩

end Buffers

def ReadsBack (buffers : List StoredBuffer) (type : DataType) : Prop :=
  ∀ {n pos : Nat} {contents : List Content} {values : List Value} {part : List StoredBuffer}
    {sel : Option (List Range)}, Decodes type n contents values →
    List.Forall₂ HoldsStored part contents → At buffers pos part → Fitting n sel →
    Makes (readArray buffers type pos sel) (selectedRows n sel).length (select sel values)

def ReadsBackAll (buffers : List StoredBuffer) (fields : List (String × DataType)) : Prop :=
  ∀ {n pos : Nat} {contents : List Content} {columns : List (List Value)}
    {part : List StoredBuffer} {sel : Option (List Range)}, DecodesAll fields n contents columns →
    List.Forall₂ HoldsStored part contents → At buffers pos part → Fitting n sel →
    ∃ arrays, readFields buffers fields pos sel = .ok arrays ∧
      (∀ array ∈ arrays, array.len = (selectedRows n sel).length) ∧
        toColumns arrays = columns.map (select sel) ∧ arrays.length = fields.length

theorem readsBack_boolean : ReadsBack buffers .boolean := by
  intro n pos contents values part sel hd hh hat hs
  obtain ⟨bits, items, rfl, hb, hi, rfl⟩ := hd
  obtain ⟨mask, hn, hms, rest, hr, hnx⟩ := readNullMaskAt_eq hh hat (hb ▸ hs)
  have hv := readBooleanAt_eq hr hnx (hi ▸ hs)
  have hl : (select sel items).length = (selectedRows n sel).length := length_select hs hi
  have hl' : (select sel bits).length = (selectedRows n sel).length := length_select hs hb
  have hm := newBoolean_makes hms hl' hl
  rw [← select_map, ← select_applyMask hs hb (by simpa using hi)] at hm
  simpa only [readArray, hn, hv, context_ok, bind, Except.bind] using hm

theorem readsBack_int (type : IntType) : ReadsBack buffers (.int type) := by
  intro n pos contents values part sel hd hh hat hs
  obtain ⟨bits, items, rfl, hb, hi, rfl⟩ := hd
  obtain ⟨mask, hn, hms, rest, hr, hnx⟩ := readNullMaskAt_eq hh hat (hb ▸ hs)
  have hv := readNativeAt_eq hr hnx (hi ▸ hs)
  have hl : (select sel items).length = (selectedRows n sel).length := length_select hs hi
  have hl' : (select sel bits).length = (selectedRows n sel).length := length_select hs hb
  have hm := newPrimitive_makes hms hl' hl
  rw [← select_map, ← select_applyMask hs hb (by simpa using hi)] at hm
  simpa only [readArray, hn, hv, context_ok, bind, Except.bind] using hm

variable {α : Type} {sel : Option (List Range)} {items : List α} {size : Nat}

/-- The items of the selected rows, split by their lengths, are the selected rows. -/
theorem splitLengths_selected {inner : Option (List Range)} (hi : items.length = lens.sum)
    (hin : select inner items = (select sel (splitLengths lens items)).flatten) :
    splitLengths (select sel lens) (select inner items) = select sel (splitLengths lens items) := by
  have hl : (select sel (splitLengths lens items)).map length = select sel lens := by
    rw [← select_map, map_length_splitLengths hi.ge]
  rw [hin, ← hl, splitLengths_flatten]

theorem length_selected_items {inner : Option (List Range)} (hi : items.length = lens.sum)
    (hin : select inner items = (select sel (splitLengths lens items)).flatten) :
    (select inner items).length = (select sel lens).sum := by
  rw [hin, length_flatten, ← select_map, map_length_splitLengths hi.ge]

theorem readsBack_binary : ReadsBack buffers .binary := by
  intro n pos contents values part sel hd hh hat hs
  obtain ⟨bits, lens, items, rfl, hb, hln, hi, rfl⟩ := hd
  obtain ⟨mask, hn, hms, rest, hr, hnx⟩ := readNullMaskAt_eq hh hat (hb ▸ hs)
  obtain ⟨_, ho, hf, hin, _, hr', hnx'⟩ := readOffsetsAt_eq hr hnx (hln ▸ hs)
  have hv := readBytesAt_eq hr' hnx' (hi ▸ hf)
  have hl : (select sel lens).length = (selectedRows n sel).length := length_select hs hln
  have hl' : (select sel bits).length = (selectedRows n sel).length := length_select hs hb
  have hm := newBinary_makes hms hl' hl (length_selected_items hi (hin items hi))
  rw [splitLengths_selected hi (hin items hi), ← select_map,
    ← select_applyMask hs hb (by simpa using hln)] at hm
  simpa only [readArray, readBinary, hn, ho, hv, context_ok, bind, Except.bind] using hm

/-- Scaled ranges select the bytes of the selected values. -/
theorem select_scaled {n : Nat} (hsl : Fitting n sel) (hit : items.length = n * size) :
    select (sel.map fun ranges => ranges.map fun r => (⟨r.start * size, r.stop * size⟩ : Range))
        items =
      (select sel (splitLengths (List.replicate n size) items)).flatten := by
  cases sel with
  | none =>
    rw [Option.map_none, select, select, Option.elim_none, Option.elim_none, flatten_splitLengths,
      sum_replicate_nat, ← hit, take_length]
  | some ranges =>
    obtain ⟨hc, hb⟩ := hsl ranges rfl
    simp only [Option.map_some, select, Option.elim_some, gather_map_ranges, flatten_gather]
    apply flatMap_congr
    intro r hr
    have hs := hb r hr
    have hle := (hc.nonempty r hr).le
    have ho : ∀ i ≤ n, offsetAt (replicate n size) i = i * size := by
      intro i hi
      rw [offsetAt, take_replicate, Nat.min_eq_left hi, sum_replicate_nat]
    rw [flatten_extract_splitLengths _ hle, ho _ hs, ho _ (hle.trans hs)]

theorem fitting_scaled {n : Nat} (hs : 0 < size) (hsl : Fitting n sel) :
    Fitting (n * size)
      (sel.map fun ranges => ranges.map fun r => (⟨r.start * size, r.stop * size⟩ : Range)) := by
  cases sel with
  | none => exact fitting_none _
  | some ranges =>
    obtain ⟨hc, hb⟩ := hsl ranges rfl
    intro l hl
    cases hl
    refine ⟨hc.scale hs, ?_⟩
    intro r hr
    obtain ⟨r', hr', rfl⟩ := mem_map.mp hr
    exact Nat.mul_le_mul_right size (hb r' hr')

theorem readsBack_fixedSizeBinary (hsz : 0 < size) : ReadsBack buffers (.fixedSizeBinary size) := by
  intro n pos contents values part sel hd hh hat hsl
  obtain ⟨bits, items, rfl, hb, hi, rfl⟩ := hd
  obtain ⟨mask, hn, hms, rest, hr, hnx⟩ := readNullMaskAt_eq hh hat (hb ▸ hsl)
  have hv := readBytesAt_eq hr hnx (hi ▸ fitting_scaled hsz hsl)
  have hs := select_scaled hsl hi
  have hl' : (select sel bits).length = (selectedRows n sel).length := length_select hsl hb
  have hsp : (splitLengths (replicate n size) items).map length =
      replicate n size := map_length_splitLengths (by rw [sum_replicate_nat, hi])
  have hl : (select sel (splitLengths (replicate n size) items)).map length =
      replicate (selectedRows n sel).length size := by
    rw [← select_map, hsp, select_replicate hsl]
  have hc : (select sel (splitLengths (replicate n size) items)).flatten.length =
      (selectedRows n sel).length * size := by
    rw [length_flatten, hl, sum_replicate_nat]
  have hm := newFixedSizeBinary_makes hsz hms hl' hc
  rw [← hl, splitLengths_flatten, ← select_map, ← select_applyMask hsl hb (by simp)] at hm
  rw [hs] at hv
  simpa only [readArray, hn, hv, context_ok, bind, Except.bind] using hm

theorem readsBack_list {item : DataType} (h : ReadsBack buffers item) :
    ReadsBack buffers (.list item) := by
  intro n pos contents values part sel hd hh hat hs
  obtain ⟨bits, lens, _, items, rfl, hb, hln, hd, rfl⟩ := hd
  have hi := hd.length_values
  obtain ⟨_, hn, hms, _, hr, hnx⟩ := readNullMaskAt_eq hh hat (hb ▸ hs)
  obtain ⟨itemSel, ho, hf, hin, rest', hr', hnx'⟩ := readOffsetsAt_eq hr hnx (hln ▸ hs)
  obtain ⟨array, ha, hlen, hv⟩ := h hd hr' hnx' hf
  have hl : (select sel lens).length = (selectedRows n sel).length := length_select hs hln
  have hl' : (select sel bits).length = (selectedRows n sel).length := length_select hs hb
  have hlen' : array.len = (select sel lens).sum := by
    rw [hlen, ← length_select hf hi, length_selected_items hi (hin items hi)]
  have hm := newList_makes hms hl' hl hlen' hv
  rw [splitLengths_selected hi (hin items hi), ← select_map,
    ← select_applyMask hs hb (by simpa using hln)] at hm
  simpa only [readArray, hn, ho, ha, context_ok, bind, Except.bind] using hm

theorem readsBack_struct {fields : List (String × DataType)} (hne : fields ≠ [])
    (h : ReadsBackAll buffers fields) : ReadsBack buffers (.struct fields) := by
  intro n pos contents values part sel hd hh hat hsl
  obtain ⟨bits, _, _, rfl, hb, hd, rfl⟩ := hd
  obtain ⟨mask, hn, hms, rest, hr, hnx⟩ := readNullMaskAt_eq hh hat (hb ▸ hsl)
  obtain ⟨arrays, ha, hl, hcl, hc⟩ := h hd hr hnx hsl
  have hl' : (select sel bits).length = (selectedRows n sel).length := length_select hsl hb
  have hs : arrays ≠ [] := by
    intro hnl
    rw [hnl, length_nil] at hc
    exact hne (length_eq_zero_iff.mp hc.symm)
  have hm := newStruct_makes hms hl' hs hl hcl
  rw [← select_structRows hsl hd.lengths, ← select_applyMask hsl hb (by simp)] at hm
  simpa only [readArray, hn, ha, context_ok, bind, Except.bind] using hm

theorem readsBackAll_nil : ReadsBackAll buffers [] := by
  intro n pos contents columns part sel hd hh hat hs
  obtain ⟨rfl, rfl⟩ := hd
  exact ⟨[], rfl, by simp, rfl, rfl⟩

theorem readsBackAll_cons {name : String} {type : DataType} {fields : List (String × DataType)}
    (ht : ReadsBack buffers type) (hfl : ReadsBackAll buffers fields) :
    ReadsBackAll buffers ((name, type) :: fields) := by
  intro n pos contents columns part sel hd hh hat hs
  obtain ⟨first, _, _, _, rfl, rfl, hf, ho⟩ := hd
  obtain ⟨part₁, part₂, hh₁, hh₂, rfl⟩ := forall₂_append hh
  have hl : part₁.length = getNumBuffers type := by
    rw [hh₁.length_eq, hf.length]
  obtain ⟨array, harr, hlen, hv⟩ := ht hf hh₁ hat.left hs
  obtain ⟨arrays, har, hln, hc, hcn⟩ := hfl ho hh₂ (hat.right hl) hs
  refine ⟨array :: arrays, ?_, ?_, ?_, by simp [hcn]⟩
  · simp only [readFields, harr, har, context_ok, bind, Except.bind]
    rfl
  · intro a ha
    rcases mem_cons.mp ha with rfl | ha
    · exact hlen
    · exact hln a ha
  · rw [toColumns, hv, hc, map_cons]

mutual

/-- Every stored array reads back, with any row selection. -/
theorem readsBack (buffers : List StoredBuffer) : (type : DataType) → Supported type →
    ReadsBack buffers type
  | .null, h => h.elim
  | .boolean, _ => readsBack_boolean
  | .int type, _ => readsBack_int type
  | .primitive type, _ => readsBack_int type.native
  | .utf8, _ => readsBack_binary
  | .binary, _ => readsBack_binary
  | .fixedSizeBinary _, h => readsBack_fixedSizeBinary h
  | .list item, h => readsBack_list (readsBack buffers item h)
  | .struct fields, h => readsBack_struct h.1 (readsBackAll buffers fields h.2)

theorem readsBackAll (buffers : List StoredBuffer) : (fields : List (String × DataType)) →
    SupportedAll fields → ReadsBackAll buffers fields
  | [], _ => readsBackAll_nil
  | (_, type) :: fields, h =>
    readsBackAll_cons (readsBack buffers type h.1) (readsBackAll buffers fields h.2)

end

end Specs

end Storage
