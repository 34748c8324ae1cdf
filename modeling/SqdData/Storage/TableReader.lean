import SqdData.Storage.ArrayReads

/-!
# Reading tables

`read_table` picks the columns of the projection and reads each of them with the row selection. The
number of rows of a table is found in the pages of its first null mask. The result is the record
batch that reading the rows one by one gives; without any column left by the projection that is all
rows, whatever the selection is.
-/

namespace Storage

open List

open Arrow Arrays Paging Primitives

/-! ### Row by row

The projected columns, gathered at the selected positions. Without any column left by the projection
the selection is only checked. -/

/-- The columns a projection leaves; no projection leaves all of them. -/
def projected (t : RecordBatch) (projection : Option (List String)) : RecordBatch :=
  t.project fun name => projection.all fun names => decide (name ∈ names)

def readTable (t : RecordBatch) (projection : Option (List String))
    (rowRanges : Option RangeList) : Except Error RecordBatch :=
  match rowRanges with
  | none => .ok (projected t projection)
  | some ranges =>
    match (projected t projection).columns with
    | [] => do
      ensure (ranges.stop ≤ t.numRows)
        (.text s!"range list is out of bounds: {t.numRows} < {ranges.stop}")
      return projected t projection
    | column :: _ => do
      ensure (ranges.stop ≤ t.numRows) (.text s!"failed to read column '{column.name}'")
      return (projected t projection).take ranges.indexes

/-! ### From the pages -/

structure ReadBatch where
  fields : List (String × DataType)
  columns : List ArrayData
  numRows : Nat

namespace TableData

/-- The number of rows that `TableReader::new` finds. -/
def numRows (t : TableData) : Except Error Nat :=
  if t.fields.length = 0 then .ok 0
  else
    match t.buffers.head? with
    | some (.nullmask b) => (nullmaskPages b).map fun pages => pages.getLast?.getD 0
    | _ => .error (.text "offsets page was not found")

def columnPosition (t : TableData) (i : Nat) : Nat :=
  (buildOffsets 0 (t.fields.map fun f => getNumBuffers f.2)).getD i 0

def field (t : TableData) (i : Nat) : String × DataType := t.fields.getD i ("", .null)

def columnIndexes (t : TableData) (projection : Option (List String)) : List Nat :=
  (List.range t.fields.length).filter fun i => projection.all fun names => (t.field i).1 ∈ names

def readColumn (t : TableData) (sel : Option (List Range)) (i : Nat) : Except Error ArrayData :=
  context s!"failed to read column '{(t.field i).1}'"
    (readArray t.buffers (t.field i).2 (t.columnPosition i) sel)

/-- `read_table`, with the number of rows found when the table was opened. -/
def readTable (t : TableData) (projection : Option (List String)) (sel : Option (List Range)) :
    Except Error ReadBatch := do
  let numRows ← t.numRows
  let indexes := t.columnIndexes projection
  if indexes.length = 0 then
    ensure (rangesEnd (sel.getD []) ≤ numRows)
      (.text s!"range list is out of bounds: {numRows} < {rangesEnd (sel.getD [])}")
    return ⟨[], [], numRows⟩
  else
    let columns ← indexes.mapM (t.readColumn sel)
    let rows := (columns.head?.map ArrayData.len).getD 0
    ensure (columns.all fun column => column.len = rows)
      (.text "all columns in a record batch must have the same length")
    return ⟨indexes.map t.field, columns, rows⟩

end TableData

/-- The table holds the given columns of `n` values each. -/
def TableData.Holds (t : TableData) (n : Nat) (columns : List (List Value)) : Prop :=
  ∃ contents, List.Forall₂ HoldsStored t.buffers contents ∧ DecodesAll t.fields n contents columns

section Columns

/-- The contents start with a null mask for the values. -/
theorem Decodes.nullmask {type : DataType} {n : Nat} {contents : List Content} {values : List Value}
    (h : Decodes type n contents values) :
    ∃ bits rest, contents = .nullmask bits :: rest ∧ bits.length = n := by
  cases type with
  | null => exact h.elim
  | boolean =>
    obtain ⟨bits, _, rfl, hb, _⟩ := h
    exact ⟨bits, _, rfl, hb⟩
  | int | primitive =>
    obtain ⟨bits, _, rfl, hb, _⟩ := h
    exact ⟨bits, _, rfl, hb⟩
  | utf8 =>
    obtain ⟨bits, _, _, rfl, hb, _⟩ := h
    exact ⟨bits, _, rfl, hb⟩
  | binary =>
    obtain ⟨bits, _, _, rfl, hb, _⟩ := h
    exact ⟨bits, _, rfl, hb⟩
  | fixedSizeBinary =>
    obtain ⟨bits, _, rfl, hb, _⟩ := h
    exact ⟨bits, _, rfl, hb⟩
  | list =>
    obtain ⟨bits, _, _, _, rfl, hb, _⟩ := h
    exact ⟨bits, _, rfl, hb⟩
  | struct =>
    obtain ⟨bits, _, _, rfl, hb, _⟩ := h
    exact ⟨bits, _, rfl, hb⟩

/-- Each field has its buffers at its position. -/
theorem decodesAll_column {buffers : List StoredBuffer} {fields : List (String × DataType)}
    {n pos : Nat}
    {contents : List Content} {columns : List (List Value)} {part : List StoredBuffer}
    (hd : DecodesAll fields n contents columns) (hh : List.Forall₂ HoldsStored part contents)
    (hat : At buffers pos part) {i : Nat} (hi : i < fields.length) :
    ∃ part' contents', List.Forall₂ HoldsStored part' contents' ∧
      At buffers ((buildOffsets pos (fields.map fun f => getNumBuffers f.2)).getD i 0) part' ∧
        Decodes (fields.getD i ("", .null)).2 n contents' (columns.getD i []) := by
  induction fields generalizing pos contents columns part i with
  | nil => simp at hi
  | cons f _ ih =>
    obtain ⟨first, _, _, _, rfl, rfl, hf, ho⟩ := hd
    obtain ⟨part₁, part₂, hh₁, hh₂, rfl⟩ := forall₂_append hh
    have hl : part₁.length = getNumBuffers f.2 := by
      rw [hh₁.length_eq, hf.length]
    cases i with
    | zero => exact ⟨part₁, first, hh₁, hat.left, hf⟩
    | succ => exact ih ho hh₂ (hat.right hl) (by simpa using hi)

variable {t : TableData} {n : Nat} {columns : List (List Value)}

theorem TableData.Holds.numRows (h : t.Holds n columns) :
    t.numRows = .ok (if t.fields.length = 0 then 0 else n) := by
  obtain ⟨_, hh, hd⟩ := h
  unfold TableData.numRows
  cases hf : t.fields with
  | nil => rfl
  | cons =>
    rw [hf] at hd
    obtain ⟨first, _, _, _, rfl, _, hfr, _⟩ := hd
    obtain ⟨bits, rest, rfl, hbt⟩ := Decodes.nullmask hfr
    rw [cons_append] at hh
    obtain ⟨_, _, hb, _, hbf⟩ := forall₂_cons_right_iff.mp hh
    cases hb with
    | nullmask hb =>
      obtain ⟨hp, hlast⟩ := nullmaskPages_eq hb
      rw [if_neg (by simp), if_neg (by simp), hbf]
      simp only [head?_cons, hp, Except.map, hlast, hbt]

variable {sel : Option (List Range)}

/-- A column reads back with any selection. -/
theorem TableData.Holds.readColumn (h : t.Holds n columns) (hs : SupportedAll t.fields)
    (hsl : Fitting n sel) {i : Nat} (hi : i < t.fields.length) :
    ∃ array, t.readColumn sel i = .ok array ∧ array.len = (selectedRows n sel).length ∧
      array.toValues = select sel (columns.getD i []) := by
  obtain ⟨_, hh, hd⟩ := h
  have hal : At t.buffers 0 t.buffers := ⟨[], [], by simp, rfl⟩
  obtain ⟨_, _, hh', hat, hd'⟩ := decodesAll_column hd hh hal hi
  have ht : Supported (t.field i).2 := hs.get hi
  obtain ⟨array, ha, hlen, hv⟩ := readsBack t.buffers _ ht hd' hh' hat hsl
  refine ⟨array, ?_, hlen, hv⟩
  rw [TableData.readColumn, TableData.columnPosition, ha, context_ok]

theorem TableData.Holds.readColumns (h : t.Holds n columns) (hs : SupportedAll t.fields)
    (hsl : Fitting n sel) {indexes : List Nat} (hi : ∀ i ∈ indexes, i < t.fields.length) :
    ∃ arrays, indexes.mapM (t.readColumn sel) = .ok arrays ∧
      (∀ array ∈ arrays, array.len = (selectedRows n sel).length) ∧
        toColumns arrays = indexes.map (fun i => select sel (columns.getD i [])) ∧
          arrays.length = indexes.length := by
  induction indexes with
  | nil => exact ⟨[], rfl, by simp, rfl, rfl⟩
  | cons i _ ih =>
    obtain ⟨array, harr, hlen, hv⟩ := h.readColumn hs hsl (hi i (by simp))
    obtain ⟨arrays, har, hl, hc, hcn⟩ := ih fun j hj => hi j (by simp [hj])
    refine ⟨array :: arrays, ?_, ?_, ?_, by simp [hcn]⟩
    · rw [mapM_cons, harr, har]
      rfl
    · intro a ha
      rcases mem_cons.mp ha with rfl | ha
      · exact hlen
      · exact hl a ha
    · rw [toColumns, hv, hc, map_cons]

theorem columnIndexes_lt {projection : Option (List String)} {i : Nat}
    (h : i ∈ t.columnIndexes projection) : i < t.fields.length :=
  mem_range.mp (mem_of_mem_filter h)

/-- What `read_table` returns: the selected rows of the projected columns, or all rows if there is
no such column. -/
theorem TableData.Holds.readTable (h : t.Holds n columns) (hs : SupportedAll t.fields)
    (hr : t.numRows = .ok n) (hsl : Fitting n sel) (projection : Option (List String)) :
    ∃ batch, t.readTable projection sel = .ok batch ∧
      batch.fields = (t.columnIndexes projection).map t.field ∧
      toColumns batch.columns =
        (t.columnIndexes projection).map (fun i => select sel (columns.getD i [])) ∧
      batch.numRows =
        if t.columnIndexes projection = [] then n else (selectedRows n sel).length := by
  by_cases he : t.columnIndexes projection = []
  · have hen : rangesEnd (sel.getD []) ≤ n := by
      cases sel with
      | none => exact Nat.zero_le n
      | some ranges => exact rangesEnd_le (hsl ranges rfl).2
    refine ⟨⟨[], [], n⟩, ?_, by simp [he], by simp [he, toColumns], by simp [he]⟩
    simp only [TableData.readTable, hr, bind, Except.bind, he, length_nil, if_true,
      ensure_of_true (decide_eq_true hen)]
    rfl
  · obtain ⟨arrays, ha, hln, hc, hcn⟩ := h.readColumns hs hsl fun i hi => columnIndexes_lt hi
    have hlen : (arrays.head?.map ArrayData.len).getD 0 = (selectedRows n sel).length := by
      cases arrays with
      | nil => exact absurd (length_eq_zero_iff.mp hcn.symm) he
      | cons array => exact hln array (by simp)
    have hal : (arrays.all fun column =>
        decide (column.len = (selectedRows n sel).length)) = true := by
      simpa using hln
    refine ⟨⟨(t.columnIndexes projection).map t.field, arrays, (selectedRows n sel).length⟩, ?_,
      rfl, hc, by rw [if_neg he]⟩
    have hl : ¬ (t.columnIndexes projection).length = 0 := by simpa using he
    simp only [TableData.readTable, hr, bind, Except.bind, if_neg hl, ha, hlen, ensure_of_true hal]
    rfl

end Columns

section Refinement

def recordBatch (fields : List (String × DataType)) (n : Nat) (columns : List (List Value))
    (h : ∀ c ∈ columns, c.length = n) : RecordBatch where
  columns := List.zipWith (fun f values => ⟨⟨f.2, values⟩, f.1⟩) fields columns
  numRows := n
  lengths := by
    intro c hc
    obtain ⟨i, hi, rfl⟩ := getElem_of_mem hc
    rw [getElem_zipWith]
    exact h _ (getElem_mem _)

variable {t : TableData} {n : Nat} {columns : List (List Value)}

/-- The columns of the table by their indexes. -/
theorem zipWith_fields (hc : columns.length = t.fields.length) :
    List.zipWith (fun f values => (⟨⟨f.2, values⟩, f.1⟩ : Column)) t.fields columns =
      (List.range t.fields.length).map fun i =>
        ⟨⟨(t.field i).2, columns.getD i []⟩, (t.field i).1⟩ := by
  apply ext_getElem
  · simp [hc]
  · intro i hi hi'
    simp only [length_map, length_range] at hi'
    have hlt : i < columns.length := by omega
    simp [TableData.field, hi', hlt]

theorem zipWith_indexes (indexes : List Nat) (field : Nat → String × DataType)
    (values : Nat → List Value) :
    List.zipWith (fun f values => (⟨⟨f.2, values⟩, f.1⟩ : Column)) (indexes.map field)
      (indexes.map values) = indexes.map fun i => ⟨⟨(field i).2, values i⟩, (field i).1⟩ := by
  rw [zipWith_map_left, zipWith_map_right, zipWith_self]

/-- The projected columns. -/
theorem projected_recordBatch (hc : columns.length = t.fields.length)
    (h : ∀ c ∈ columns, c.length = n) (projection : Option (List String)) :
    (projected (recordBatch t.fields n columns h) projection).columns =
      (t.columnIndexes projection).map fun i =>
        ⟨⟨(t.field i).2, columns.getD i []⟩, (t.field i).1⟩ := by
  simp only [projected, RecordBatch.project, recordBatch, zipWith_fields hc, filter_map,
    TableData.columnIndexes, Function.comp_def]

/-- Reading the pages is reading the rows. -/
theorem readTable_refines (h : t.Holds n columns) (hs : SupportedAll t.fields)
    (hrw : t.numRows = .ok n) {ranges : Option RangeList}
    (hsl : Fitting n (ranges.map RangeList.ranges)) (projection : Option (List String))
    (hl : ∀ c ∈ columns, c.length = n) :
    ∃ batch hbt, t.readTable projection (ranges.map RangeList.ranges) = .ok batch ∧
      Storage.readTable (recordBatch t.fields n columns hl) projection ranges =
        .ok (recordBatch batch.fields batch.numRows (toColumns batch.columns) hbt) := by
  obtain ⟨batch, hrd, hbf, hbc, hb⟩ := h.readTable hs hrw hsl projection
  have hcn : columns.length = t.fields.length := by
    obtain ⟨_, _, hd⟩ := h
    exact hd.length_columns
  have hcl : ∀ i ∈ t.columnIndexes projection, (columns.getD i []).length = n := by
    intro i hi
    have hlt : i < columns.length := by
      rw [hcn]
      exact columnIndexes_lt hi
    rw [getD_eq_getElem _ _ hlt]
    exact hl _ (getElem_mem hlt)
  have hbt : ∀ c ∈ toColumns batch.columns, c.length = batch.numRows := by
    intro c hc
    rw [hbc] at hc
    obtain ⟨i, hi, rfl⟩ := mem_map.mp hc
    rw [hb, if_neg (ne_nil_of_mem hi), length_select hsl (hcl i hi)]
  refine ⟨batch, hbt, hrd, ?_⟩
  have hp := projected_recordBatch hcn hl projection
  have hr : (recordBatch batch.fields batch.numRows (toColumns batch.columns) hbt).columns =
      (t.columnIndexes projection).map fun i =>
        ⟨⟨(t.field i).2, select (ranges.map RangeList.ranges) (columns.getD i [])⟩,
          (t.field i).1⟩ := by
    simp only [recordBatch, hbf, hbc]
    exact zipWith_indexes _ _ _
  cases ranges with
  | none =>
    refine congrArg Except.ok (RecordBatch.ext ?_ ?_)
    · rw [hp, hr]
      rfl
    · show n = batch.numRows
      rw [hb]
      split <;> simp [selectedRows]
  | some ranges =>
    obtain ⟨_, hbl⟩ := hsl ranges.ranges rfl
    have hst : decide (ranges.stop ≤ n) = true := decide_eq_true (RangeList.stop_le_of_below hbl)
    cases hin : t.columnIndexes projection with
    | nil =>
      rw [hin] at hp hr hb
      simp only [Storage.readTable, hp, map_nil]
      have hrw : (recordBatch t.fields n columns hl).numRows = n := rfl
      simp only [hrw, ensure_of_true hst]
      refine congrArg Except.ok (RecordBatch.ext ?_ ?_)
      · rw [hp, hr]
        rfl
      · rw [if_pos rfl] at hb
        exact hb.symm
    | cons =>
      rw [hin] at hp hr hb
      simp only [Storage.readTable, hp, map_cons]
      have hrw : (recordBatch t.fields n columns hl).numRows = n := rfl
      simp only [hrw, ensure_of_true hst]
      refine congrArg Except.ok (RecordBatch.ext ?_ ?_)
      · have ht : ((projected (recordBatch t.fields n columns hl) projection).take
            ranges.indexes).columns = (projected (recordBatch t.fields n columns hl)
              projection).columns.map fun c => c.take ranges.indexes := rfl
        rw [hr, ht, hp, map_map]
        apply map_congr_left
        intro j hj
        have hg := select_eq_map hsl (hcl j (hin ▸ hj)) .null
        rw [hg]
        rfl
      · rw [if_neg (by simp)] at hb
        exact hb.symm

end Refinement

end Storage
