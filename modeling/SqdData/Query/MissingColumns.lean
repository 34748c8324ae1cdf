import SqdData.Query.DefaultNulls

/-!
# Columns that a table lacks

Reading a table of a snapshot does not look at the columns that are null by default, and reading a
parquet file adds them after the predicate was evaluated. For both it is said exactly when a table
that lacks such columns is read like the table extended by columns of nulls.
-/

namespace Query

open List

open Arrow Storage Primitives

variable {withRowIndex : Bool} {predicate : Option RowPredicate} {batches : List RecordBatch}
    {rowSelection : Option RangeList}

namespace RowPredicate

variable [Casts]

/-- A predicate without columns can be evaluated on any batch. -/
theorem evaluate_of_projection_eq_nil {p : RowPredicate} (h : p.projection = [])
    (b : RecordBatch) : ∃ mask, p.evaluate b = .ok mask := by
  have hall : ∀ ps : List RowPredicate, (∀ p ∈ ps, ∃ mask, p.evaluate b = .ok mask) →
      ∃ masks, evaluateAll ps b = .ok masks := by
    intro ps hps
    choose! mask hmask using hps
    rw [evaluateAll_eq_mapM]
    exact ⟨_, mapM_eq_ok_map hmask⟩
  induction p using RowPredicate.induction with
  | column => cases h
  | and ps ih =>
    obtain ⟨masks, hm⟩ := hall ps fun p hp =>
      ih p hp (eq_nil_iff_forall_not_mem.mpr fun name hn =>
        eq_nil_iff_forall_not_mem.mp h name (mem_projection_and.mpr ⟨p, hp, hn⟩))
    rw [evaluate, hm]
    exact ⟨_, rfl⟩
  | or ps ih =>
    obtain ⟨masks, hm⟩ := hall ps fun p hp =>
      ih p hp (eq_nil_iff_forall_not_mem.mpr fun name hn =>
        eq_nil_iff_forall_not_mem.mp h name (mem_projection_or.mpr ⟨p, hp, hn⟩))
    rw [evaluate, hm]
    exact ⟨_, rfl⟩

end RowPredicate

namespace SnapshotTable

def lacking (t : SnapshotTable) (nulls : List (String × DataType)) : List (String × DataType) :=
  nulls.filter fun field => (t.batch.columnByName field.1).isNone

/-- The table with the columns it lacks, filled with nulls. They have no statistics. -/
def extended (t : SnapshotTable) (nulls : List (String × DataType)) : SnapshotTable where
  batch := withNulls (t.lacking nulls) t.batch
  stats := fun name => if (t.batch.columnByName name).isSome then t.stats name else none

/-- Reading the table is not affected by the columns it lacks: neither the predicate nor the
projection names one. -/
def Unaffected (t : SnapshotTable) (nulls : List (String × DataType))
    (predicate : Option RowPredicate) (projection : Option (List String)) : Prop :=
  ∀ field ∈ t.lacking nulls,
    (∀ p ∈ predicate, field.1 ∉ p.projection) ∧ ∃ columns ∈ projection, field.1 ∉ columns

variable {t : SnapshotTable} {nulls : List (String × DataType)} {columns : List String}
    {projection : Option (List String)} {b : RecordBatch}

theorem not_hasColumn_of_lacking {field : String × DataType} (hf : field ∈ t.lacking nulls) :
    ¬ HasColumn t.batch field.1 := by
  have hn := Option.isNone_iff_eq_none.mp (mem_filter.mp hf).2
  rw [hasColumn_iff, hn]
  simp

theorem projected_extended :
    projected (t.extended nulls).batch projection =
      withNulls (keptNulls projection (t.lacking nulls)) (projected t.batch projection) :=
  project_withNulls _

theorem getColumnStats_extended (h : ∀ field ∈ t.lacking nulls, field.1 ≠ name) :
    (t.extended nulls).getColumnStats name = t.getColumnStats name := by
  have hn : (t.lacking nulls).find? (fun field => field.1 == name) = none := by
    rw [find?_eq_none]
    intro field hf heq
    exact h field hf (beq_iff_eq.mp heq)
  have hc : (t.extended nulls).batch.columnByName name = t.batch.columnByName name := by
    rw [extended, columnByName_withNulls, hn]
    simp
  unfold getColumnStats
  rw [hc]
  cases hfn : t.batch.columnByName name with
  | none => rfl
  | some => simp [extended, hfn]

theorem narrowed_extended [Casts]
    (h : ∀ p ∈ predicate, ∀ field ∈ t.lacking nulls, field.1 ∉ p.projection) :
    (t.extended nulls).narrowed predicate rowSelection = t.narrowed predicate rowSelection := by
  cases predicate with
  | none => rfl
  | some p =>
    have hs := @RowPredicate.evaluateStats_congr _ (t.extended nulls).getColumnStats
      t.getColumnStats p fun name hnm => getColumnStats_extended fun field hf heq =>
        h p rfl field hf (heq ▸ hnm)
    simp only [narrowed, hs]

/-! ### The columns that are read -/

theorem hasColumn_readTable (h : readTable t.batch projection rowSelection = .ok b) :
    HasColumn b name ↔
      HasColumn t.batch name ∧ (projection.all fun names => decide (name ∈ names)) = true := by
  unfold readTable at h
  split at h
  · cases h
    exact hasColumn_project
  · split at h
    · obtain ⟨_, _, h⟩ := bind_eq_ok.mp h
      cases h
      exact hasColumn_project
    · obtain ⟨_, _, h⟩ := bind_eq_ok.mp h
      cases h
      rw [hasColumn_take, projected, hasColumn_project]

theorem hasColumn_readBatch (h : t.readBatch projection rowSelection withRowIndex = .ok b) :
    HasColumn b name ↔
      HasColumn t.batch name ∧ (projection.all fun names => decide (name ∈ names)) = true ∨
        withRowIndex = true ∧ name = "row_index" := by
  obtain ⟨batch, hb, h⟩ := bind_eq_ok.mp h
  cases withRowIndex with
  | false =>
    cases h
    rw [hasColumn_readTable hb]
    simp
  | true =>
    rw [hasColumn_addRowIndex h, hasColumn_readTable hb]
    simp

/-- A column of the table is read if it is projected or named by the predicate. -/
theorem all_widened :
    (((widened predicate projection).or projection).all fun names => decide (name ∈ names)) =
        true ↔
      (projection.all fun names => decide (name ∈ names)) = true ∨
        ∃ p ∈ predicate, name ∈ p.projection := by
  cases projection with
  | none => simp [widened]
  | some columns =>
    cases predicate with
    | none => simp [widened]
    | some p =>
      simp only [widened]
      split
      · rename_i ha
        have hs : ∀ n ∈ p.projection, n ∈ columns := by simpa using ha
        simpa using hs name
      · simp

/-- What is returned is one batch with the projected columns, and the predicate found its
columns. -/
theorem hasColumn_read [Casts] {nullColumns : Option (List String)}
    (h : t.read predicate projection rowSelection withRowIndex nullColumns = .ok batches) :
    (∀ p ∈ predicate, ∀ name ∈ p.projection,
      HasColumn t.batch name ∨ withRowIndex = true ∧ name = "row_index") ∧
    ∃ b, batches = [b] ∧ ∀ name, HasColumn b name ↔
      HasColumn t.batch name ∧ (projection.all fun names => decide (name ∈ names)) = true ∨
        withRowIndex = true ∧ name = "row_index" := by
  obtain ⟨_, _, h⟩ := bind_eq_ok.mp h
  obtain ⟨batch, hbt, h⟩ := bind_eq_ok.mp h
  cases predicate with
  | none =>
    cases h
    exact ⟨nofun, batch, rfl, fun name => hasColumn_readBatch hbt⟩
  | some p =>
    obtain ⟨mask, hm, h⟩ := bind_eq_ok.mp h
    cases h
    refine ⟨?_, _, rfl, fun name => ?_⟩
    · rintro _ ⟨⟩ name hn
      have hc := hasColumn_iff.mpr (RowPredicate.column_of_evaluate p hm name hn)
      exact ((hasColumn_readBatch hbt).mp hc).imp And.left id
    · rw [hasColumn_filter]
      cases hw : widened (some p) projection with
      | none =>
        rw [hw] at hbt
        exact hasColumn_readBatch hbt
      | some wider =>
        rw [Option.isSome_some, if_pos rfl, hasColumn_project, hasColumn_readBatch hbt,
          all_widened]
        cases projection with
        | none => cases hw
        | some columns =>
          simp only [Option.getD_some, Option.all_some, decide_eq_true_eq, Bool.or_eq_true,
            Bool.and_eq_true, beq_iff_eq]
          tauto

theorem onlyProjected_read [Casts] {nullColumns : Option (List String)}
    (h : t.read predicate (some columns) rowSelection withRowIndex nullColumns = .ok batches) :
    ∀ b ∈ batches, OnlyProjected columns withRowIndex b := by
  obtain ⟨-, b, rfl, hc⟩ := hasColumn_read h
  refine forall_mem_singleton.mpr fun name hn => ?_
  refine ((hc name).mp hn).imp (fun hr => ?_) id
  simpa using hr.2

/-! ### The extended table -/

theorem take_of_columns_eq_nil {rows : List Nat} (hc : b.columns = [])
    (hl : rows.length = b.numRows) : b.take rows = b :=
  RecordBatch.ext (by simp [RecordBatch.take, hc]) hl

theorem length_of_addRowIndex {batch : RecordBatch} {index : List Nat}
    (h : addRowIndex batch index = .ok b) : index.length = batch.numRows := by
  unfold addRowIndex at h
  split at h
  · assumption
  · cases h

theorem readTable_some {batch : RecordBatch} {ranges : RangeList}
    (h : ranges.stop ≤ batch.numRows) :
    readTable batch projection (some ranges) =
      .ok (if (projected batch projection).columns = [] then projected batch projection
        else (projected batch projection).take ranges.indexes) := by
  simp only [readTable]
  split
  · rename_i hc
    rw [ensure_of_true (decide_eq_true h), if_pos hc]
    rfl
  · rename_i hc
    rw [ensure_of_true (decide_eq_true h), if_neg (by simp [hc])]
    rfl

theorem stop_le_of_readTable {batch : RecordBatch} {ranges : RangeList}
    (h : readTable batch projection (some ranges) = .ok b) : ranges.stop ≤ batch.numRows := by
  simp only [readTable] at h
  split at h
  · obtain ⟨_, he, -⟩ := bind_eq_ok.mp h
    exact of_decide_eq_true (ensure_eq_ok.mp he)
  · obtain ⟨_, he, -⟩ := bind_eq_ok.mp h
    exact of_decide_eq_true (ensure_eq_ok.mp he)

variable (nulls) in
/-- The rows that are read from the extended table. If no column of the table is projected, the row
ranges are not applied to it. -/
theorem readTable_extended (h : readTable t.batch projection rowSelection = .ok b) :
    ∃ b', readTable (t.extended nulls).batch projection rowSelection = .ok b' ∧
      (b' = withNulls (keptNulls projection (t.lacking nulls)) b ∨
        b.columns = [] ∧ b' = withNulls (keptNulls projection (t.lacking nulls))
          (b.take (rowIndexes b.numRows rowSelection))) := by
  have hpr := @projected_extended t nulls projection
  cases rowSelection with
  | none =>
    cases h
    exact ⟨_, rfl, Or.inl hpr⟩
  | some ranges =>
    have hle := stop_le_of_readTable h
    rw [readTable_some hle] at h
    cases h
    refine ⟨_, readTable_some hle, ?_⟩
    rw [hpr]
    by_cases hc : (projected t.batch projection).columns = []
    · rw [if_pos hc]
      split
      · exact Or.inl rfl
      · exact Or.inr ⟨hc, take_withNulls _⟩
    · have hc' : (withNulls (keptNulls projection (t.lacking nulls))
          (projected t.batch projection)).columns ≠ [] := fun hn => hc (append_eq_nil_iff.mp hn).1
      rw [if_neg hc, if_neg hc', take_withNulls]
      exact Or.inl rfl

variable (nulls) in
/-- The extended table can be read where the table can. The batches differ by columns of nulls, or
the batch of the table has no column. -/
theorem readBatch_extended (h : t.readBatch projection rowSelection withRowIndex = .ok b) :
    ∃ b', (t.extended nulls).readBatch projection rowSelection withRowIndex = .ok b' ∧
      (b' = withNulls (keptNulls projection (t.lacking nulls)) b ∨ b.columns = []) := by
  obtain ⟨batch, hb, h⟩ := bind_eq_ok.mp h
  obtain ⟨batch', hb', hcase⟩ := readTable_extended nulls hb
  cases withRowIndex with
  | false =>
    cases h
    exact ⟨batch', bind_eq_ok.mpr ⟨batch', hb', rfl⟩, hcase.imp id And.left⟩
  | true =>
    have hs : batch' = withNulls (keptNulls projection (t.lacking nulls)) batch := by
      rcases hcase with hs | ⟨hc, hs⟩
      · exact hs
      · rw [hs, take_of_columns_eq_nil hc (length_of_addRowIndex h)]
    subst hs
    refine ⟨_, bind_eq_ok.mpr ⟨_, hb', ?_⟩, Or.inl rfl⟩
    rw [if_pos rfl] at h ⊢
    exact (addRowIndex_withNulls _).trans (congrArg _ h)

section Extended

variable [Casts]

/-- If neither the projection nor the predicate names a missing column, reading the table gives the
same as reading the table extended by columns of nulls. -/
theorem read_extended (h : t.Unaffected nulls predicate projection)
    (nullColumns : Option (List String)) :
    t.read predicate projection rowSelection withRowIndex nullColumns =
      (t.extended nulls).read predicate projection rowSelection withRowIndex none := by
  have hk : keptNulls ((widened predicate projection).or projection)
      (t.lacking nulls) = [] := by
    refine filter_eq_nil_iff.mpr fun field hf ha => ?_
    obtain ⟨hp, columns, rfl, hc⟩ := h field hf
    rcases all_widened.mp ha with hn | ⟨p, hpm, hn⟩
    · exact hc (of_decide_eq_true hn)
    · exact hp p hpm hn
  have hpr : projected (t.extended nulls).batch ((widened predicate projection).or projection) =
      projected t.batch ((widened predicate projection).or projection) := by
    rw [projected_extended, hk, withNulls_nil]
  have hr : ∀ selection, (t.extended nulls).readSelected predicate projection selection
      withRowIndex = t.readSelected predicate projection selection withRowIndex := by
    intro selection
    have ht : readTable (t.extended nulls).batch ((widened predicate projection).or projection)
        selection = readTable t.batch ((widened predicate projection).or projection) selection := by
      unfold readTable
      rw [hpr]
      rfl
    simp only [readSelected, readBatch, ht]
  simp only [read, narrowed_extended fun p hp field hf => (h field hf).1 p hp, hr]

variable (hindex : withRowIndex = true → "row_index" ∉ nulls.map Prod.fst)

include hindex

/-- A predicate on a column that the table lacks fails. -/
theorem not_named_of_read {nullColumns : Option (List String)}
    (h : t.read predicate projection rowSelection withRowIndex nullColumns = .ok batches) :
    ∀ p ∈ predicate, ∀ field ∈ t.lacking nulls, field.1 ∉ p.projection := by
  intro p hp field hf hn
  rcases (hasColumn_read h).1 p hp field.1 hn with hc | ⟨hi, heq⟩
  · exact not_hasColumn_of_lacking hf hc
  · exact hindex hi (mem_map.mpr ⟨field, mem_of_mem_filter hf, heq⟩)

/-- If the table can be read, the extended table can be read. -/
theorem extended_read_of_read {nullColumns : Option (List String)}
    (h : t.read predicate projection rowSelection withRowIndex nullColumns = .ok batches) :
    ∃ batches',
      (t.extended nulls).read predicate projection rowSelection withRowIndex none =
        .ok batches' := by
  have hnot := not_named_of_read hindex h
  obtain ⟨selection, hs, h⟩ := bind_eq_ok.mp h
  obtain ⟨b, hb, h⟩ := bind_eq_ok.mp h
  obtain ⟨b', hb', hcase⟩ := readBatch_extended nulls hb
  have hs' := (narrowed_extended hnot).trans hs
  cases predicate with
  | none => exact ⟨[b'], bind_eq_ok.mpr ⟨selection, hs', bind_eq_ok.mpr ⟨b', hb', rfl⟩⟩⟩
  | some p =>
    obtain ⟨mask, hm, -⟩ := bind_eq_ok.mp h
    obtain ⟨mask', hm'⟩ : ∃ mask', p.evaluate b' = .ok mask' := by
      rcases hcase with rfl | hc
      · exact ⟨mask, (RowPredicate.evaluate_withNulls fun field hf =>
          hnot p rfl field (mem_of_mem_filter hf)).trans hm⟩
      · refine RowPredicate.evaluate_of_projection_eq_nil ?_ b'
        refine eq_nil_iff_forall_not_mem.mpr fun name hn => ?_
        obtain ⟨c, hc', -⟩ := hasColumn_iff.mpr (RowPredicate.column_of_evaluate p hm name hn)
        simp [hc] at hc'
    exact ⟨_, bind_eq_ok.mpr ⟨selection, hs', bind_eq_ok.mpr ⟨b', hb',
      bind_eq_ok.mpr ⟨mask', hm', rfl⟩⟩⟩⟩

/-- If the extended table can be read, then reading the table gives the same exactly if it is not
affected by the columns it lacks. -/
theorem read_same_iff {nullColumns : Option (List String)} {returned : List RecordBatch}
    (h : (t.extended nulls).read predicate projection rowSelection withRowIndex none =
      .ok returned) :
    t.read predicate projection rowSelection withRowIndex nullColumns = .ok returned ↔
      t.Unaffected nulls predicate projection := by
  refine ⟨fun ht field hf => ⟨fun p hp => not_named_of_read hindex ht p hp field hf, ?_⟩,
    fun hu => (read_extended hu _).trans h⟩
  by_contra hnot
  have hall : (projection.all fun names => decide (field.1 ∈ names)) = true := by
    cases projection with
    | none => rfl
    | some columns => exact decide_eq_true (not_not.mp fun hn => hnot ⟨columns, rfl, hn⟩)
  obtain ⟨-, b, rfl, hc⟩ := hasColumn_read ht
  obtain ⟨-, b', hbb, hc'⟩ := hasColumn_read h
  cases hbb
  have hfield : HasColumn (t.extended nulls).batch field.1 :=
    hasColumn_withNulls.mpr (Or.inr (mem_map_of_mem hf))
  rcases (hc field.1).mp ((hc' field.1).mpr (Or.inl ⟨hfield, hall⟩)) with ⟨hcol, -⟩ | ⟨hi, heq⟩
  · exact not_hasColumn_of_lacking hf hcol
  · exact hindex hi (mem_map.mpr ⟨field, mem_of_mem_filter hf, heq⟩)

end Extended

end SnapshotTable

/-- A parquet file that lacks columns which are null by default is read like the extended file
exactly if the predicate names none of them, or no row is read, and without a projection there is
nothing to add. A table of a snapshot is read like the extended table exactly if neither the
predicate nor the projection names such a column. Where the extended one cannot be read, the other
cannot be read either. Columns that are not projected are not returned. -/
theorem default_null_columns_read_as_nulls [Casts] (nulls : List (String × DataType))
    (predicate : Option RowPredicate) (projection : Option (List String))
    (rowSelection : Option RangeList) (withRowIndex : Bool)
    (hindex : withRowIndex = true → "row_index" ∉ nulls.map Prod.fst) :
    (∀ f : ParquetFile,
      (∀ returned,
        (f.extended nulls).read predicate projection rowSelection withRowIndex none =
          .ok returned →
        (SameResult
            (f.read predicate projection rowSelection withRowIndex (some (nulls.map Prod.fst)))
            (.ok returned) ↔
          f.Unaffected nulls predicate projection rowSelection returned)) ∧
      (∀ e, (f.extended nulls).read predicate projection rowSelection withRowIndex none =
          .error e →
        ∃ e', f.read predicate projection rowSelection withRowIndex (some (nulls.map Prod.fst)) =
            .error e' ∧
          (projection.isSome → ¬ f.NamesLacking nulls predicate → e' = e)) ∧
      ∀ columns ∈ projection, ∀ batches,
        f.read predicate projection rowSelection withRowIndex (some (nulls.map Prod.fst)) =
          .ok batches → ∀ b ∈ batches, OnlyProjected columns withRowIndex b) ∧
    (∀ t : SnapshotTable,
      (∀ returned,
        (t.extended nulls).read predicate projection rowSelection withRowIndex none =
          .ok returned →
        (t.read predicate projection rowSelection withRowIndex (some (nulls.map Prod.fst)) =
            .ok returned ↔
          t.Unaffected nulls predicate projection)) ∧
      (∀ e, (t.extended nulls).read predicate projection rowSelection withRowIndex none =
          .error e →
        ∃ e', t.read predicate projection rowSelection withRowIndex (some (nulls.map Prod.fst)) =
            .error e' ∧
          (t.Unaffected nulls predicate projection → e' = e)) ∧
      ∀ columns ∈ projection, ∀ batches,
        t.read predicate projection rowSelection withRowIndex (some (nulls.map Prod.fst)) =
          .ok batches → ∀ b ∈ batches, OnlyProjected columns withRowIndex b) := by
  constructor
  · intro f
    refine ⟨fun returned h => ParquetFile.read_same_iff hindex h, fun e he => ?_, ?_⟩
    · cases hr : f.read predicate projection rowSelection withRowIndex
          (some (nulls.map Prod.fst)) with
      | ok =>
        obtain ⟨_, hr'⟩ := ParquetFile.extended_read_of_read hindex hr
        rw [he] at hr'
        cases hr'
      | error e' =>
        refine ⟨e', rfl, fun hs hp => ?_⟩
        obtain ⟨columns, rfl⟩ := Option.isSome_iff_exists.mp hs
        have hsame := @ParquetFile.read_extended withRowIndex predicate rowSelection f nulls _
          columns fun p hpm field hf hn => hp ⟨p, hpm, field, hf, hn⟩
        rw [hr, he] at hsame
        exact hsame
    · rintro columns rfl batches hr
      exact ParquetFile.onlyProjected_read hindex hr
  · intro t
    refine ⟨fun returned h => SnapshotTable.read_same_iff hindex h, fun e he => ?_, ?_⟩
    · cases hr : t.read predicate projection rowSelection withRowIndex
          (some (nulls.map Prod.fst)) with
      | ok =>
        obtain ⟨_, hr'⟩ := SnapshotTable.extended_read_of_read hindex hr
        rw [he] at hr'
        cases hr'
      | error e' =>
        refine ⟨e', rfl, fun hu => ?_⟩
        have hsame := @SnapshotTable.read_extended withRowIndex predicate rowSelection t nulls
          projection _ hu (some (nulls.map Prod.fst))
        rw [hr, he] at hsame
        exact Except.error.inj hsame
    · rintro columns rfl batches hr
      exact SnapshotTable.onlyProjected_read hr

section Sample

local instance failingCasts : Casts where
  castWithOptions := fun _ _ => .error (.text "cast is not supported")

def numbers : RecordBatch where
  columns := [{ name := "number", dataType := .int byteType, values := [.int 1, .int 2] }]
  numRows := 2
  lengths := by decide

def numbersFile : ParquetFile where
  tableName := "blocks"
  fields := [("number", .int byteType)]
  rowGroups := [numbers]
  schema := by
    intro g hg
    rw [mem_singleton.mp hg]
    rfl
  groupStats := fun _ => none
  pagesStats := fun _ _ => none

def numbersTable : SnapshotTable where
  batch := numbers
  stats := fun _ => none

def numberOne : RowPredicate := colEq "number" { dataType := .int byteType, value := .int 1 }

def sizeOne : RowPredicate := colEq "size" { dataType := .int byteType, value := .int 1 }

/-- The size is added to the row that is read from the file, and the table is read without it. -/
theorem default_null_columns_read_as_nulls_sample :
    (∃ returned,
      (numbersFile.extended [("size", .int byteType)]).read (some numberOne) (some ["size"]) none
          true none = .ok returned ∧ returned ≠ [] ∧
      SameResult (numbersFile.read (some numberOne) (some ["size"]) none true (some ["size"]))
        (.ok returned)) ∧
    ∃ returned,
      (numbersTable.extended [("size", .int byteType)]).read (some numberOne) (some ["number"])
          none true none = .ok returned ∧ returned ≠ [] ∧
      numbersTable.read (some numberOne) (some ["number"]) none true (some ["size"]) =
        .ok returned := by
  have hindex : true = true → "row_index" ∉ [("size", DataType.int byteType)].map Prod.fst :=
    fun _ => by decide
  have hp := (default_null_columns_read_as_nulls [("size", .int byteType)] (some numberOne)
    (some ["size"]) none true hindex).1 numbersFile
  have hs := (default_null_columns_read_as_nulls [("size", .int byteType)] (some numberOne)
    (some ["number"]) none true hindex).2 numbersTable
  constructor
  · refine ⟨_, rfl, by decide, (hp.1 _ rfl).mpr ⟨?_, nofun⟩⟩
    rintro ⟨_, ⟨⟩, field, hf, hn⟩
    exact absurd hn (by revert field; decide)
  · exact ⟨_, rfl, by decide, (hs.1 _ rfl).mpr fun field hf =>
      ⟨by revert field; decide, ["number"], rfl, by revert field; decide⟩⟩

/-- A predicate on a missing column fails, in the file and in the table, where the extended ones
select no row; and a missing column that is projected is left out of what is read from the table. -/
theorem missing_columns_are_not_nulls :
    numbersFile.read (some sizeOne) (some ["number"]) none false (some ["size"]) =
        .error (.text "missing column: size") ∧
      (numbersFile.extended [("size", .int byteType)]).read (some sizeOne) (some ["number"]) none
        false none = .ok [] ∧
      (∃ e, numbersTable.read (some sizeOne) (some ["number"]) none false (some ["size"]) =
        .error e) ∧
      (∃ b, (numbersTable.extended [("size", .int byteType)]).read (some sizeOne) (some ["number"])
        none false none = .ok [b] ∧ b.numRows = 0) ∧
      (∃ b, numbersTable.read none (some ["size"]) none false (some ["size"]) = .ok [b] ∧
        b.columnByName "size" = none) ∧
      ∃ b, (numbersTable.extended [("size", .int byteType)]).read none (some ["size"]) none false
        none = .ok [b] ∧ (b.columnByName "size").isSome := by
  refine ⟨by decide, by decide, ⟨_, rfl⟩, ⟨_, rfl, by decide⟩, ⟨_, rfl, by decide⟩,
    ⟨_, rfl, by decide⟩⟩

end Sample

end Query
