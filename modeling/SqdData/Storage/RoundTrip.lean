import SqdData.Storage.TableReader
import SqdData.Storage.TableWriter

/-!
# Round trips of tables

A table that was written batch by batch holds the rows of the batches. A row selection reads the
selected rows of the projected columns.
-/

namespace Storage

open List

open Arrow Arrays Paging Primitives

/-- A written table holds the rows of its batches, as long as these are not too large for the
offsets. -/
theorem writeTable_stores (sizes : PageSizes) {fields : List (String × DataType)}
    (hs : SupportedAll fields) (batches : List (ArrayBatch fields))
    (hlt : batchesSize batches < 2 ^ 31) :
    ∃ table : TableData, writeTable sizes fields batches = .ok table ∧ table.fields = fields ∧
      table.Holds (batches.map (·.numRows)).sum (concatColumns fields batches) := by
  obtain ⟨table, contents, hw, hf, hh, hd⟩ := writeTable_holds sizes hs batches hlt
  exact ⟨table, hw, hf, contents, hh, hf ▸ hd⟩

theorem map_columnIndexes_none {t : TableData} {α : Type} {items : List α} (default : α)
    (h : items.length = t.fields.length) :
    (t.columnIndexes none).map (fun i => items.getD i default) = items := by
  have hf : t.columnIndexes none = List.range items.length := by
    rw [h]
    exact filter_eq_self.mpr fun _ _ => rfl
  rw [hf]
  exact ext_getElem (by simp) fun i hi hi' => by simp [hi']

/-- Without a projection and a selection the whole table is read. -/
theorem TableData.Holds.readAll {t : TableData} {n : Nat} {columns : List (List Value)}
    (h : t.Holds n columns) (hs : SupportedAll t.fields) :
    ∃ batch, t.readTable none none = .ok batch ∧ batch.fields = t.fields ∧
      toColumns batch.columns = columns := by
  have hr := h.numRows
  have hc : columns.length = t.fields.length := by
    obtain ⟨_, _, hd⟩ := h
    exact hd.length_columns
  by_cases hf : t.fields.length = 0
  · have hn := length_eq_zero_iff.mp hf
    refine ⟨⟨[], [], 0⟩, ?_, hn.symm, (length_eq_zero_iff.mp (hc.trans hf)).symm⟩
    rw [if_pos hf] at hr
    have hi : t.columnIndexes none = [] := by simp [TableData.columnIndexes, hn]
    simp only [TableData.readTable, hr, bind, Except.bind, hi, length_nil, if_true]
    rfl
  · rw [if_neg hf] at hr
    have hft : Fitting n none := by rintro _ ⟨⟩
    obtain ⟨batch, hrd, hbf, hbc, -⟩ := h.readTable hs hr hft none
    refine ⟨batch, hrd, ?_, ?_⟩
    · rw [hbf]
      exact map_columnIndexes_none _ rfl
    · rw [hbc]
      exact map_columnIndexes_none _ hc

section Sample

def sampleSizes : PageSizes := ⟨1, 1, 1, by decide, by decide, by decide⟩

/-- A number column and a column of lists of strings. -/
def sampleFields : List (String × DataType) := [("id", .int ⟨false, .w32⟩), ("tags", .list .utf8)]

def sampleBatch : ArrayBatch sampleFields where
  numRows := 2
  columns := [.primitive (some [true, false]) [7, 0],
    .list none [0, 1, 2] (.binary none [0, 1, 3] [104, 105, 106])]
  wellFormed := by
    refine ⟨rfl, by simp [WellFormed, MaskFits], rfl, ⟨by simp [MaskFits], ?_, ?_⟩, trivial⟩
    · exact ⟨by decide, by decide, by decide⟩
    · exact ⟨by simp [MaskFits], by decide, by decide, by decide⟩

theorem supported_sampleFields : SupportedAll sampleFields := ⟨trivial, trivial, trivial⟩

end Sample

/-- A read with a projection and a row selection returns the selected rows of the projected columns,
if and only if a column is left or as many rows are selected as there are: if no column is left the
number of rows is that of the table. -/
theorem selected_rows_read_iff {t : TableData} {n : Nat} {columns : List (List Value)}
    (h : t.Holds n columns) (hrows : t.numRows = .ok n) (hsupported : SupportedAll t.fields)
    (projection : Option (List String)) {sel : Option (List Range)} (hsel : Fitting n sel) :
    (∃ batch, t.readTable projection sel = .ok batch ∧
      batch.numRows = (selectedRows n sel).length ∧
      batch.fields = (t.columnIndexes projection).map t.field ∧
      toColumns batch.columns = (t.columnIndexes projection).map (fun i =>
        (selectedRows n sel).map fun row => (columns.getD i []).getD row .null)) ↔
    t.columnIndexes projection ≠ [] ∨ (selectedRows n sel).length = n := by
  obtain ⟨batch, hr, hbf, hb, hbr⟩ := h.readTable hsupported hrows hsel projection
  constructor
  · rintro ⟨_, hr', hn, -⟩
    cases hr.symm.trans hr'
    by_cases he : t.columnIndexes projection = []
    · rw [if_pos he] at hbr
      exact Or.inr (hn.symm.trans hbr)
    · exact Or.inl he
  · intro hcolumn
    have hl : ∀ c ∈ columns, c.length = n := by
      obtain ⟨_, _, hd⟩ := h
      exact hd.lengths
    have hc : columns.length = t.fields.length := by
      obtain ⟨_, _, hd⟩ := h
      exact hd.length_columns
    refine ⟨batch, hr, ?_, hbf, ?_⟩
    · rw [hbr]
      split
      · next he =>
          rcases hcolumn with hcolumn | ha
          · exact absurd he hcolumn
          · exact ha.symm
      · rfl
    · rw [hb]
      apply map_congr_left
      intro i hi
      have hlt : i < columns.length := by
        rw [hc]
        exact columnIndexes_lt hi
      apply select_eq_map hsel
      rw [getD_eq_getElem _ _ hlt]
      exact hl _ (getElem_mem hlt)

theorem fitting_firstRow : Fitting 2 (some [⟨0, 1⟩]) := by
  intro ranges h
  cases h
  refine ⟨by decide, ?_⟩
  intro r hr
  rw [mem_singleton.mp hr]
  decide

theorem sample_holds : ∃ table : TableData,
    writeTable sampleSizes sampleFields [sampleBatch] = .ok table ∧ table.fields = sampleFields ∧
      table.Holds 2 (concatColumns sampleFields [sampleBatch]) :=
  writeTable_stores sampleSizes supported_sampleFields [sampleBatch] (by decide)

/-- The first row of one column. -/
theorem first_row_of_sample : ∃ table batch,
    writeTable sampleSizes sampleFields [sampleBatch] = .ok table ∧
      table.readTable (some ["id"]) (some [⟨0, 1⟩]) = .ok batch ∧ batch.numRows = 1 := by
  obtain ⟨table, hw, hf, hh⟩ := sample_holds
  have hr : table.numRows = .ok 2 := by
    have := hh.numRows
    rwa [hf] at this
  have hi : table.columnIndexes (some ["id"]) = [0] := by
    simp only [TableData.columnIndexes, TableData.field, hf]
    decide
  obtain ⟨batch, hrd, hc, _⟩ := (selected_rows_read_iff hh hr
    (hf ▸ supported_sampleFields) (some ["id"]) fitting_firstRow).mpr
    (Or.inl (by rw [hi]; exact cons_ne_nil _ _))
  exact ⟨table, batch, hw, hrd, hc⟩

def firstRow : RangeList := ⟨[⟨0, 1⟩], by simp [Ordered, Above]⟩

/-- The first row of one column, read from the pages and row by row. -/
theorem id_column_is_read : ∃ table batch hl hbt,
    writeTable sampleSizes sampleFields [sampleBatch] = .ok table ∧
      table.readTable (some ["id"]) (some [⟨0, 1⟩]) = .ok batch ∧
      Storage.readTable
          (recordBatch table.fields 2 (concatColumns sampleFields [sampleBatch]) hl) (some ["id"])
          (some firstRow) =
        .ok (recordBatch batch.fields batch.numRows (toColumns batch.columns) hbt) := by
  obtain ⟨table, hw, hf, hh⟩ := sample_holds
  have hr : table.numRows = .ok 2 := by
    have := hh.numRows
    rwa [hf] at this
  obtain ⟨_, _, hd⟩ := id hh
  obtain ⟨batch, hbt, hp, hb⟩ := @readTable_refines _ _ _ hh (hf ▸ supported_sampleFields) hr
    (some firstRow) fitting_firstRow (some ["id"]) hd.lengths
  exact ⟨table, batch, hd.lengths, hbt, hw, hp, hb⟩

/-- A projection without columns returns all rows for a selection of one. -/
theorem empty_projection_ignores_selection : ∃ table batch,
    writeTable sampleSizes sampleFields [sampleBatch] = .ok table ∧
      table.readTable (some []) (some [⟨0, 1⟩]) = .ok batch ∧ Fitting 2 (some [⟨0, 1⟩]) ∧
        batch.numRows = 2 ∧ (selectedRows 2 (some [⟨0, 1⟩])).length = 1 := by
  obtain ⟨table, hw, hf, hh⟩ := sample_holds
  have hr : table.numRows = .ok 2 := by
    have := hh.numRows
    rwa [hf] at this
  have hi : table.columnIndexes (some []) = [] := by
    simp [TableData.columnIndexes]
  obtain ⟨batch, hrd, _, _, hc⟩ := hh.readTable (hf ▸ supported_sampleFields) hr
    fitting_firstRow (some [])
  rw [if_pos hi] at hc
  exact ⟨table, batch, hw, hrd, fitting_firstRow, hc, by decide⟩

end Storage
