import SqdData.Query.ParquetFile

/-!
# Columns that are null by default

A table that lacks some columns is compared with the table extended by columns of nulls. Reading a
parquet file gives the same for both if the columns are named by the projection only: the predicate
is evaluated before they are added. Reading a table of a snapshot does not look at them at all.
-/

namespace Query

open List

open Arrow Storage Primitives

theorem selected_replicate {α : Type} (mask : BooleanArray) (n : Nat) (a : α) :
    selected mask (List.replicate n a) =
      List.replicate (selected mask (List.range n)).length a := by
  have hl := @length_selected α Nat mask (replicate n a) (range n) (by simp)
  rw [eq_replicate_iff]
  exact ⟨hl, fun b hb => eq_of_mem_replicate ((selected_sublist mask _).subset hb)⟩

/-- The columns of nulls that a projection names. -/
def keptNulls (projection : Option (List String)) (nulls : List (String × DataType)) :
    List (String × DataType) :=
  nulls.filter fun field => projection.all fun names => decide (field.1 ∈ names)

section Batches

variable {nulls : List (String × DataType)} {b : RecordBatch}

theorem project_withNulls (keep : String → Bool) :
    (withNulls nulls b).project keep =
      withNulls (nulls.filter fun field => keep field.1) (b.project keep) := by
  refine RecordBatch.ext ?_ rfl
  simp only [RecordBatch.project, withNulls, filter_append, filter_map]
  rfl

theorem take_withNulls (rows : List Nat) :
    (withNulls nulls b).take rows = withNulls nulls (b.take rows) := by
  refine RecordBatch.ext ?_ rfl
  simp only [RecordBatch.take, withNulls, map_append, map_map]
  congr 1
  refine map_congr_left fun field _ => ?_
  simp only [Function.comp, Column.take, nullColumn, Column.mk.injEq, ArrayRef.mk.injEq, true_and,
    and_true]
  rw [eq_replicate_iff]
  refine ⟨by simp, fun v hv => ?_⟩
  obtain ⟨_, _, rfl⟩ := mem_map.mp hv
  rw [getD_eq_getElem?_getD, getElem?_replicate]
  split <;> rfl

theorem filter_withNulls (mask : BooleanArray) :
    (withNulls nulls b).filter mask = withNulls nulls (b.filter mask) := by
  refine RecordBatch.ext ?_ rfl
  simp only [RecordBatch.filter, withNulls, map_append, map_map]
  congr 1
  refine map_congr_left fun field _ => ?_
  simp only [Function.comp, nullColumn, selected_replicate]

theorem addRowIndex_withNulls (index : List Nat) :
    addRowIndex (withNulls nulls b) index = (addRowIndex b index).map (withNulls nulls) := by
  unfold addRowIndex
  by_cases h : index.length = b.numRows
  · rw [dif_pos h, dif_pos (show index.length = (withNulls nulls b).numRows from h)]
    rfl
  · rw [dif_neg h, dif_neg (show ¬ index.length = (withNulls nulls b).numRows from h)]
    rfl

theorem withNulls_nil : withNulls [] b = b := RecordBatch.ext (append_nil _) rfl

theorem columnByName_withNulls (name : String) :
    (withNulls nulls b).columnByName name =
      (b.columnByName name).or
        ((nulls.find? fun field => field.1 == name).map (nullColumn b.numRows)) := by
  simp only [RecordBatch.columnByName, withNulls, find?_append, find?_map]
  rfl

end Batches

variable {name : String}

namespace RowPredicate

variable [Casts]

/-- A predicate reads the columns of its projection and no others. -/
theorem evaluate_congr {b b' : RecordBatch} (hr : b.numRows = b'.numRows) (p : RowPredicate)
    (h : ∀ name ∈ p.projection, b.columnByName name = b'.columnByName name) :
    p.evaluate b = p.evaluate b' := by
  induction p using RowPredicate.induction with
  | column name => rw [evaluate, evaluate, h name (by simp [projection])]
  | and _ ih =>
    rw [evaluate, evaluate, hr, evaluateAll_eq_mapM, evaluateAll_eq_mapM,
      mapM_congr fun p hp => ih p hp fun name hn =>
        h name (mem_projection_and.mpr ⟨p, hp, hn⟩)]
  | or _ ih =>
    rw [evaluate, evaluate, hr, evaluateAll_eq_mapM, evaluateAll_eq_mapM,
      mapM_congr fun p hp => ih p hp fun name hn =>
        h name (mem_projection_or.mpr ⟨p, hp, hn⟩)]

/-- A predicate can only be evaluated if all its columns are there. -/
theorem column_of_evaluate {b : RecordBatch} {mask : BooleanArray} (p : RowPredicate)
    (h : p.evaluate b = .ok mask) : ∀ name ∈ p.projection, ∃ c, b.columnByName name = some c := by
  induction p using RowPredicate.induction generalizing mask with
  | column name =>
    intro n hn
    rw [projection, mem_singleton] at hn
    rw [evaluate] at h
    split at h
    · rename_i c hc
      exact ⟨c, hn ▸ hc⟩
    · cases h
  | and _ ih =>
    intro name hn
    obtain ⟨p, hp, hn⟩ := mem_projection_and.mp hn
    rw [evaluate] at h
    obtain ⟨masks, hm, -⟩ := map_eq_ok h
    rw [evaluateAll_eq_mapM, mapM_eq_ok] at hm
    obtain ⟨_, -, hev⟩ := forall₂_left hm p hp
    exact ih p hp hev name hn
  | or _ ih =>
    intro name hn
    obtain ⟨p, hp, hn⟩ := mem_projection_or.mp hn
    rw [evaluate] at h
    obtain ⟨masks, hm, -⟩ := map_eq_ok h
    rw [evaluateAll_eq_mapM, mapM_eq_ok] at hm
    obtain ⟨_, -, hev⟩ := forall₂_left hm p hp
    exact ih p hp hev name hn

theorem evaluateStats_congr {stats stats' : RowStats} (p : RowPredicate)
    (h : ∀ name ∈ p.projection, stats name = stats' name) :
    p.evaluateStats stats = p.evaluateStats stats' := by
  induction p using RowPredicate.induction with
  | column name => rw [evaluateStats, evaluateStats, h name (by simp [projection])]
  | and ps ih =>
    have hpr := fun p hp => ih p hp fun name hn =>
      h name (mem_projection_and.mpr ⟨p, hp, hn⟩)
    rw [evaluateStats, evaluateStats]
    generalize (none : Option RangeList) = selection
    clear ih h
    induction ps generalizing selection with
    | nil => rfl
    | cons p _ ih =>
      rw [evaluateStatsAnd, evaluateStatsAnd, hpr p mem_cons_self]
      simp only [ih fun q hq => hpr q (mem_cons_of_mem p hq)]
  | or ps ih =>
    have hpr := fun p hp => ih p hp fun name hn =>
      h name (mem_projection_or.mpr ⟨p, hp, hn⟩)
    rw [evaluateStats, evaluateStats]
    generalize (none : Option RangeList) = selection
    clear ih h
    induction ps generalizing selection with
    | nil => rfl
    | cons p _ ih =>
      rw [evaluateStatsOr, evaluateStatsOr, hpr p mem_cons_self]
      simp only [ih fun q hq => hpr q (mem_cons_of_mem p hq)]

theorem evaluate_withNulls {nulls : List (String × DataType)} {b : RecordBatch} {p : RowPredicate}
    (h : ∀ field ∈ nulls, field.1 ∉ p.projection) :
    p.evaluate (withNulls nulls b) = p.evaluate b := by
  refine evaluate_congr (show (withNulls nulls b).numRows = b.numRows from rfl) p fun name hn => ?_
  have hnn : nulls.find? (fun field => field.1 == name) = none := by
    rw [find?_eq_none]
    intro field hf heq
    exact h field hf (by rw [beq_iff_eq.mp heq]; exact hn)
  rw [columnByName_withNulls, hnn]
  simp

end RowPredicate

/-! ## Names of columns -/

/-- The batch has a column of the name. -/
def HasColumn (b : RecordBatch) (name : String) : Prop := ∃ c ∈ b.columns, c.name = name

section Names

variable {b b' : RecordBatch} {mask : BooleanArray} {rows : List Nat} {keep : String → Bool}

theorem hasColumn_iff : HasColumn b name ↔ ∃ c, b.columnByName name = some c := by
  rw [HasColumn, ← Option.isSome_iff_exists, RecordBatch.columnByName, find?_isSome]
  simp only [beq_iff_eq]

theorem hasColumn_project :
    HasColumn (b.project keep) name ↔ HasColumn b name ∧ keep name = true := by
  simp only [HasColumn, RecordBatch.project, mem_filter]
  constructor
  · rintro ⟨c, ⟨hc, hk⟩, rfl⟩
    exact ⟨⟨c, hc, rfl⟩, hk⟩
  · rintro ⟨⟨c, hc, rfl⟩, hk⟩
    exact ⟨c, ⟨hc, hk⟩, rfl⟩

theorem hasColumn_take : HasColumn (b.take rows) name ↔ HasColumn b name := by
  simp only [HasColumn, RecordBatch.take, mem_map, exists_exists_and_eq_and]
  rfl

theorem hasColumn_filter : HasColumn (b.filter mask) name ↔ HasColumn b name := by
  simp only [HasColumn, RecordBatch.filter, mem_map, exists_exists_and_eq_and]

theorem hasColumn_withNulls {nulls : List (String × DataType)} :
    HasColumn (withNulls nulls b) name ↔ HasColumn b name ∨ name ∈ nulls.map Prod.fst := by
  simp only [HasColumn, withNulls, mem_append, mem_map, or_and_right, exists_or,
    exists_exists_and_eq_and]
  rfl

theorem hasColumn_addRowIndex {index : List Nat} (h : addRowIndex b index = .ok b') :
    HasColumn b' name ↔ HasColumn b name ∨ name = "row_index" := by
  unfold addRowIndex at h
  split at h
  · cases h
    simp only [HasColumn, exists_mem_cons_iff]
    rw [or_comm, eq_comm (b := "row_index")]
    rfl
  · cases h

end Names

/-- All columns of the batch are among the projected ones, or are the index column. -/
def OnlyProjected (columns : List String) (withRowIndex : Bool) (b : RecordBatch) : Prop :=
  ∀ name, HasColumn b name → name ∈ columns ∨ (withRowIndex = true ∧ name = "row_index")

/-- Columns with the same values. The types may differ where there are only nulls. -/
def SameColumn (c c' : Column) : Prop :=
  c.name = c'.name ∧ c.values = c'.values ∧
    (c.dataType = c'.dataType ∨ ∀ v ∈ c.values, v = .null)

/-- Batches with the same rows and the same columns, in whatever order the columns are. -/
def SameBatch (b b' : RecordBatch) : Prop :=
  b.numRows = b'.numRows ∧
    ∀ name, Option.Rel SameColumn (b.columnByName name) (b'.columnByName name)

/-- The same batches, or the same error. -/
def SameResult : Except Error (List RecordBatch) → Except Error (List RecordBatch) → Prop
  | .ok batches, .ok batches' => List.Forall₂ SameBatch batches batches'
  | .error e, .error e' => e = e'
  | _, _ => False

theorem find?_field_isSome {nulls : List (String × DataType)} :
    (nulls.find? fun field => field.1 == name).isSome ↔ name ∈ nulls.map Prod.fst := by
  rw [find?_isSome, mem_map]
  simp only [beq_iff_eq]

/-- Columns of nulls are the same if they have the same names. -/
theorem sameBatch_withNulls {nulls nulls' : List (String × DataType)} {b : RecordBatch}
    (h : ∀ name, name ∈ nulls.map Prod.fst ↔ name ∈ nulls'.map Prod.fst) :
    SameBatch (withNulls nulls b) (withNulls nulls' b) := by
  refine ⟨rfl, fun name => ?_⟩
  rw [columnByName_withNulls, columnByName_withNulls]
  have hn := h name
  rw [← find?_field_isSome, ← find?_field_isSome] at hn
  cases b.columnByName name with
  | some => exact .some ⟨rfl, rfl, Or.inl rfl⟩
  | none =>
    cases hfn : nulls.find? (fun field => field.1 == name) with
    | none =>
      rw [hfn] at hn
      rw [Option.not_isSome_iff_eq_none.mp fun h => absurd (hn.mpr h) (by simp)]
      exact .none
    | some =>
      rw [hfn] at hn
      obtain ⟨_, hfn'⟩ := Option.isSome_iff_exists.mp (hn.mp rfl)
      have hf := find?_some hfn
      have hf' := find?_some hfn'
      simp only [beq_iff_eq] at hf hf'
      rw [hfn']
      refine .some ⟨hf.trans hf'.symm, rfl, Or.inr fun v hv => ?_⟩
      exact eq_of_mem_replicate hv

variable {withRowIndex : Bool} {predicate : Option RowPredicate} {batches : List RecordBatch}
    {rowSelection : Option RangeList}

namespace ParquetFile

def lacking (f : ParquetFile) (nulls : List (String × DataType)) : List (String × DataType) :=
  nulls.filter fun field => !f.hasField field.1

/-- The file with the columns it lacks, filled with nulls. They have no statistics. -/
def extended (f : ParquetFile) (nulls : List (String × DataType)) : ParquetFile where
  tableName := f.tableName
  fields := f.fields ++ f.lacking nulls
  rowGroups := f.rowGroups.map (withNulls (f.lacking nulls))
  schema := by
    intro g hg
    obtain ⟨g', hg', rfl⟩ := mem_map.mp hg
    simp only [withNulls, map_append, map_map, f.schema g' hg']
    congr 1
    exact map_id'' (fun _ => rfl) _
  groupStats := fun name => if f.hasField name then f.groupStats name else none
  pagesStats := fun i name => if f.hasField name then f.pagesStats i name else none

variable {f : ParquetFile} {nulls : List (String × DataType)}

theorem hasField_extended (name : String) :
    (f.extended nulls).hasField name = (f.hasField name || decide (name ∈ nulls.map Prod.fst)) := by
  have hl : (f.lacking nulls).any (fun field => field.1 == name) =
      (!f.hasField name && decide (name ∈ nulls.map Prod.fst)) := by
    rw [Bool.eq_iff_iff]
    simp only [lacking, any_filter, any_eq_true, Bool.and_eq_true, Bool.not_eq_true',
      beq_iff_eq, decide_eq_true_eq, mem_map]
    constructor
    · rintro ⟨field, hf, hnot, rfl⟩
      exact ⟨hnot, field, hf, rfl⟩
    · rintro ⟨hnot, field, hf, rfl⟩
      exact ⟨field, hf, hnot, rfl⟩
  have ha : (f.extended nulls).hasField name =
      (f.hasField name || (f.lacking nulls).any fun field => field.1 == name) := by
    simp only [hasField, extended, any_append]
  rw [ha, hl]
  cases f.hasField name <;> simp

theorem rowGroupStats_extended : (f.extended nulls).rowGroupStats = f.rowGroupStats := by
  funext name
  simp only [rowGroupStats, hasField_extended]
  cases hf : f.hasField name <;> simp [extended, hf]

theorem pageStats_extended (i : Nat) : (f.extended nulls).pageStats i = f.pageStats i := by
  funext name
  simp only [pageStats, hasField_extended]
  cases hf : f.hasField name <;> simp [extended, hf]

theorem rowGroupOffsets_extended : (f.extended nulls).rowGroupOffsets = f.rowGroupOffsets := by
  simp only [rowGroupOffsets, extended, map_map]
  rfl

theorem missingColumns_extended (names : List String) :
    (f.extended nulls).missingColumns none names =
      (f.missingColumns (some (nulls.map Prod.fst)) names).map fun _ => [] := by
  induction names with
  | nil => rfl
  | cons name names ih =>
    simp only [missingColumns, hasField_extended, Option.any_some, Option.any_none]
    cases hf : f.hasField name with
    | true => simpa using ih
    | false =>
      by_cases hn : name ∈ nulls.map Prod.fst
      · simp only [decide_eq_true hn, Bool.or_true, if_true, ih]
        cases f.missingColumns (some (nulls.map Prod.fst)) names <;> rfl
      · simp only [decide_eq_false hn]
        rfl

theorem mem_missingColumns {names missing : List String}
    (h : f.missingColumns (some (nulls.map Prod.fst)) names = .ok missing) :
    name ∈ missing ↔
      name ∈ names ∧ f.hasField name = false ∧ name ∈ nulls.map Prod.fst := by
  induction names generalizing missing with
  | nil =>
    cases h
    simp
  | cons first names ih =>
    simp only [missingColumns, Option.any_some] at h
    split at h
    · rename_i hf
      rw [ih h, mem_cons]
      constructor
      · exact fun ⟨hn, hr⟩ => ⟨Or.inr hn, hr⟩
      · rintro ⟨rfl | hn, hnot, hnl⟩
        · simp [hf] at hnot
        · exact ⟨hn, hnot, hnl⟩
    · rename_i hf
      split at h
      · rename_i hnl
        obtain ⟨_, hr, rfl⟩ := map_eq_ok h
        rw [mem_cons, mem_cons, ih hr]
        constructor
        · rintro (rfl | ⟨hn, hnot⟩)
          · exact ⟨Or.inl rfl, by simpa using hf, by simpa using hnl⟩
          · exact ⟨Or.inr hn, hnot⟩
        · rintro ⟨rfl | hn, hnot⟩
          · exact Or.inl rfl
          · exact Or.inr ⟨hn, hnot⟩
      · cases h

section Reading

variable [Casts]

theorem rowGroupsToRead_extended (predicate : Option RowPredicate)
    (rowSelection : Option (List Range)) :
    (f.extended nulls).rowGroupsToRead predicate rowSelection =
      f.rowGroupsToRead predicate rowSelection := by
  have hs : ∀ selection,
      (f.extended nulls).selectRowGroups selection = f.selectRowGroups selection := by
    intro selection
    have hl : (f.extended nulls).rowGroups.length = f.rowGroups.length := by simp [extended]
    simp only [selectRowGroups, rowGroupOffsets_extended, hl]
  have hp : ∀ p groups, (f.extended nulls).prunePages p groups = f.prunePages p groups := by
    intro p groups
    induction groups with
    | nil => rfl
    | cons _ _ ih => simp only [prunePages, pageStats_extended, ih]
  simp only [rowGroupsToRead, hs, hp, rowGroupStats_extended]

/-- The columns of nulls that are left once the columns of the predicate are removed. -/
def stripped (predicate : Option (RowPredicate × List String)) (nulls : List (String × DataType)) :
    List (String × DataType) :=
  nulls.filter fun field => predicate.all fun p => field.1 ∉ p.2

variable {b : RecordBatch} {columns : List String} {projection : Option (List String)}

theorem applyPredicate_withNulls {p : RowPredicate} {predicateColumns : List String}
    (h : ∀ field ∈ nulls, field.1 ∉ p.projection) :
    applyPredicate p predicateColumns (withNulls nulls b) =
      (applyPredicate p predicateColumns b).map
        (withNulls (nulls.filter fun field => field.1 ∉ predicateColumns)) := by
  unfold applyPredicate
  rw [RowPredicate.evaluate_withNulls h]
  cases p.evaluate b with
  | error => rfl
  | ok =>
    refine congrArg Except.ok ?_
    cases predicateColumns with
    | nil =>
      simp only [length_nil, gt_iff_lt, Nat.lt_irrefl, if_false, filter_withNulls,
        not_mem_nil, not_false_eq_true, decide_true, filter_true]
    | cons =>
      simp only [length_cons, gt_iff_lt, Nat.zero_lt_succ, if_true, project_withNulls,
        filter_withNulls]

omit [Casts] in
theorem indexBatch_withNulls {rowIndex : Option (List Nat)} :
    indexBatch rowIndex (withNulls nulls b) = (indexBatch rowIndex b).map (withNulls nulls) := by
  cases rowIndex with
  | none => rfl
  | some => exact addRowIndex_withNulls _

omit [Casts] in
theorem nonEmpty_withNulls : nonEmpty (withNulls nulls b) = (nonEmpty b).map (withNulls nulls) := by
  unfold nonEmpty
  rw [show (withNulls nulls b).numRows = b.numRows from rfl]
  split <;> rfl

theorem filterBatch_withNulls {predicate : Option (RowPredicate × List String)}
    (h : ∀ p ∈ predicate, ∀ field ∈ nulls, field.1 ∉ p.1.projection) :
    filterBatch predicate (withNulls nulls b) =
      (filterBatch predicate b).map (List.map (withNulls (stripped predicate nulls))) := by
  cases predicate with
  | none =>
    simp only [filterBatch, stripped, Option.all_none, filter_true]
    exact congrArg Except.ok nonEmpty_withNulls
  | some p =>
    simp only [filterBatch, stripped, Option.all_some]
    rw [applyPredicate_withNulls (h p rfl)]
    cases applyPredicate p.1 p.2 b with
    | error => rfl
    | ok => exact congrArg Except.ok nonEmpty_withNulls

theorem finish_withNulls {predicate : Option (RowPredicate × List String)}
    {rowIndex : Option (List Nat)}
    (h : ∀ p ∈ predicate, ∀ field ∈ nulls, field.1 ∉ p.1.projection) :
    (indexBatch rowIndex (withNulls nulls b) >>= filterBatch predicate) =
      (indexBatch rowIndex b >>= filterBatch predicate).map
        (List.map (withNulls (stripped predicate nulls))) := by
  rw [indexBatch_withNulls]
  cases indexBatch rowIndex b with
  | error => rfl
  | ok => exact filterBatch_withNulls h

/-- What is read from the extended file is what is read from the file, with columns of nulls. -/
theorem readRowGroup_extended
    {predicate : Option (RowPredicate × List String)}
    (h : ∀ p ∈ predicate, ∀ field ∈ f.lacking nulls, field.1 ∉ p.1.projection) (i : Nat)
    (selection : Option (List Range)) :
    (f.extended nulls).readRowGroup projection predicate withRowIndex i selection =
      (f.readRowGroup projection predicate withRowIndex i selection).map
        (List.map (withNulls (stripped predicate (keptNulls projection (f.lacking nulls))))) := by
  have hg : (f.extended nulls).rowGroups[i]? =
      f.rowGroups[i]?.map (withNulls (f.lacking nulls)) := getElem?_map ..
  unfold readRowGroup
  rw [hg, rowGroupOffsets_extended]
  cases f.rowGroups[i]? with
  | none => rfl
  | some g =>
    simp only [Option.map_some]
    rw [show (withNulls (f.lacking nulls) g).numRows = g.numRows from rfl]
    cases readerRows g.numRows selection with
    | error => rfl
    | ok rows =>
      simp only [bind, Except.bind]
      cases rows.isEmpty with
      | true => rfl
      | false =>
        have hpr : projected (withNulls (f.lacking nulls) g) projection =
            withNulls (keptNulls projection (f.lacking nulls)) (projected g projection) :=
          project_withNulls _
        rw [hpr, take_withNulls]
        exact finish_withNulls fun p hp field hf =>
          h p hp field (mem_of_mem_filter hf)

theorem readRowGroups_extended
    {predicate : Option (RowPredicate × List String)}
    (h : ∀ p ∈ predicate, ∀ field ∈ f.lacking nulls, field.1 ∉ p.1.projection)
    (groups : List (Nat × Option (List Range))) :
    (f.extended nulls).readRowGroups projection predicate withRowIndex groups =
      (f.readRowGroups projection predicate withRowIndex groups).map
        (List.map (withNulls (stripped predicate (keptNulls projection (f.lacking nulls))))) := by
  induction groups with
  | nil => rfl
  | cons group groups ih =>
    rw [readRowGroups, readRowGroups, readRowGroup_extended h, ih]
    cases f.readRowGroup projection predicate withRowIndex group.1 group.2 with
    | error => rfl
    | ok =>
      cases f.readRowGroups projection predicate withRowIndex groups with
      | error => rfl
      | ok => exact congrArg Except.ok (map_append ..).symm

omit [Casts] in
/-- The columns that are added and the columns of nulls that are kept are the same. -/
theorem mem_missing_iff_mem_kept {missing : List String}
    (h : ∀ p ∈ predicate, ∀ field ∈ f.lacking nulls, field.1 ∉ p.projection)
    (hm : f.missingColumns (some (nulls.map Prod.fst))
      (columns ++ predicateColumns predicate columns) = .ok missing)
    (name : String) :
    name ∈ (missing.map fun name => (name, DataType.null)).map Prod.fst ↔
      name ∈ (stripped (predicate.map (·, predicateColumns predicate columns))
        (keptNulls (some (columns ++ predicateColumns predicate columns))
          (f.lacking nulls))).map Prod.fst := by
  have he : ∀ field ∈ f.lacking nulls, field.1 ∉ predicateColumns predicate columns := by
    intro field hf hmm
    cases predicate with
    | none => cases hmm
    | some p => exact h p rfl field hf (mem_of_mem_filter hmm)
  have hk : stripped (predicate.map (·, predicateColumns predicate columns))
      (keptNulls (some (columns ++ predicateColumns predicate columns)) (f.lacking nulls)) =
      keptNulls (some (columns ++ predicateColumns predicate columns)) (f.lacking nulls) := by
    refine filter_eq_self.mpr fun field hf => ?_
    cases predicate with
    | none => rfl
    | some => exact decide_eq_true (he field (mem_of_mem_filter hf))
  have hn : (missing.map fun name => (name, DataType.null)).map Prod.fst = missing := by
    rw [map_map]
    exact map_id'' (fun _ => rfl) _
  rw [hk, hn, mem_missingColumns hm]
  simp only [mem_map, mem_filter, keptNulls, lacking, Option.all_some, decide_eq_true_eq,
    Bool.not_eq_true']
  constructor
  · rintro ⟨hnm, hnot, field, hf, rfl⟩
    exact ⟨field, ⟨⟨hf, hnot⟩, hnm⟩, rfl⟩
  · rintro ⟨field, ⟨⟨hf, hnot⟩, hnm⟩, rfl⟩
    exact ⟨hnm, hnot, field, hf, rfl⟩

omit [Casts] in
theorem hasColumn_rowGroup {g : RecordBatch} (hg : g ∈ f.rowGroups) :
    HasColumn g name ↔ f.hasField name = true := by
  have hn : f.fields.map Prod.fst = g.columns.map fun c => c.name := by
    rw [← f.schema g hg, map_map]
    rfl
  have hf : f.hasField name = true ↔ name ∈ f.fields.map Prod.fst := by
    simp only [hasField, any_eq_true, beq_iff_eq, mem_map]
  rw [hf, hn, mem_map, HasColumn]

variable {filtered : Option (RowPredicate × List String)} {batch : RecordBatch}
    {groups : List (Nat × Option (List Range))}

omit [Casts] in
theorem hasColumn_indexBatch {rowIndex : Option (List Nat)}
    (h : indexBatch rowIndex b = .ok batch) :
    HasColumn batch name ↔ HasColumn b name ∨ rowIndex.isSome = true ∧ name = "row_index" := by
  cases rowIndex with
  | none =>
    cases h
    simp
  | some =>
    rw [hasColumn_addRowIndex h]
    simp

omit [Casts] in
theorem eq_of_mem_nonEmpty (h : b ∈ nonEmpty batch) : b = batch := by
  unfold nonEmpty at h
  split at h
  · exact mem_singleton.mp h
  · cases h

/-- The predicate finds its columns in the batch, and the columns it alone needs are removed. -/
theorem filterBatch_columns (h : filterBatch filtered batch = .ok batches) :
    (∀ q ∈ filtered, ∀ name ∈ q.1.projection, HasColumn batch name) ∧
      ∀ b ∈ batches, ∀ name,
        HasColumn b name ↔ HasColumn batch name ∧ ∀ q ∈ filtered, name ∉ q.2 := by
  cases filtered with
  | none =>
    cases h
    refine ⟨nofun, fun b hb name => ?_⟩
    rw [eq_of_mem_nonEmpty hb]
    simp
  | some q =>
    obtain ⟨kept, hk, rfl⟩ := map_eq_ok h
    obtain ⟨mask, hm, hk⟩ := bind_eq_ok.mp hk
    cases hk
    constructor
    · rintro _ ⟨⟩ name hn
      exact hasColumn_iff.mpr (RowPredicate.column_of_evaluate q.1 hm name hn)
    · intro b hb name
      rw [eq_of_mem_nonEmpty hb, hasColumn_filter]
      split
      · rw [hasColumn_project]
        simp
      · rename_i hl
        have hnil : q.2 = [] := length_eq_zero_iff.mp (Nat.eq_zero_of_not_pos hl)
        simp [hnil]

/-- The batches read from the file have the column: it is read, or it is the index column. -/
def Available (f : ParquetFile) (projection : Option (List String)) (withRowIndex : Bool)
    (name : String) : Prop :=
  f.hasField name = true ∧ (projection.all fun names => decide (name ∈ names)) = true ∨
    withRowIndex = true ∧ name = "row_index"

/-- The readers of the row groups are asked for no row. -/
def NoRow (f : ParquetFile) (groups : List (Nat × Option (List Range))) : Prop :=
  ∀ group ∈ groups, ∀ g rows, f.rowGroups[group.1]? = some g →
    readerRows g.numRows group.2 = .ok rows → rows = []

theorem readRowGroup_columns {group : Nat × Option (List Range)}
    (h : f.readRowGroup projection filtered withRowIndex group.1 group.2 = .ok batches) :
    (∀ b ∈ batches, ∀ name, HasColumn b name ↔
      f.Available projection withRowIndex name ∧ ∀ q ∈ filtered, name ∉ q.2) ∧
    ((∃ q ∈ filtered, ∃ name ∈ q.1.projection, ¬ f.Available projection withRowIndex name) →
      f.NoRow [group]) := by
  unfold readRowGroup at h
  split at h
  · cases h
  rename_i g hg
  obtain ⟨rows, hr, h⟩ := bind_eq_ok.mp h
  have hno : rows = [] → f.NoRow [group] := by
    rintro rfl _ hm _ _ hg' hr'
    rw [mem_singleton.mp hm, hg] at hg'
    cases hg'
    rw [mem_singleton.mp hm, hr] at hr'
    cases hr'
    rfl
  split at h
  · rename_i he
    cases h
    exact ⟨nofun, fun _ => hno (isEmpty_iff.mp he)⟩
  · obtain ⟨batch, hb, h⟩ := bind_eq_ok.mp h
    have hav : ∀ name, HasColumn batch name ↔ f.Available projection withRowIndex name := by
      intro name
      rw [hasColumn_indexBatch hb, hasColumn_take, projected, hasColumn_project,
        hasColumn_rowGroup (mem_of_getElem? hg), Available]
      cases withRowIndex <;> simp
    obtain ⟨hp, hc⟩ := filterBatch_columns h
    refine ⟨fun b hb name => by rw [hc b hb name, hav name], ?_⟩
    rintro ⟨q, hq, name, hn, hnot⟩
    exact absurd ((hav name).mp (hp q hq name hn)) hnot

/-- The columns of the batches. If the predicate names a column that is not available, then no row
is read. -/
theorem readRowGroups_columns
    (h : f.readRowGroups projection filtered withRowIndex groups = .ok batches) :
    (∀ b ∈ batches, ∀ name, HasColumn b name ↔
      f.Available projection withRowIndex name ∧ ∀ q ∈ filtered, name ∉ q.2) ∧
    ((∃ q ∈ filtered, ∃ name ∈ q.1.projection, ¬ f.Available projection withRowIndex name) →
      f.NoRow groups) := by
  induction groups generalizing batches with
  | nil =>
    cases h
    exact ⟨nofun, fun _ => nofun⟩
  | cons group groups ih =>
    obtain ⟨_, hgr, h⟩ := bind_eq_ok.mp h
    obtain ⟨_, hrs, h⟩ := bind_eq_ok.mp h
    cases h
    obtain ⟨hc, hno⟩ := readRowGroup_columns hgr
    obtain ⟨hcs, hnos⟩ := ih hrs
    constructor
    · intro b hb
      exact (mem_append.mp hb).elim (hc b) (hcs b)
    · intro hq
      exact forall_mem_cons.mpr ⟨hno hq group mem_cons_self, hnos hq⟩

variable (nulls) in
theorem readRowGroup_noRow {group : Nat × Option (List Range)} (hno : f.NoRow [group]) :
    (f.extended nulls).readRowGroup projection filtered withRowIndex group.1 group.2 =
        f.readRowGroup projection filtered withRowIndex group.1 group.2 ∧
      ∀ batches, f.readRowGroup projection filtered withRowIndex group.1 group.2 = .ok batches →
        batches = [] := by
  have hg : (f.extended nulls).rowGroups[group.1]? =
      f.rowGroups[group.1]?.map (withNulls (f.lacking nulls)) := getElem?_map ..
  unfold readRowGroup
  rw [hg]
  cases hfg : f.rowGroups[group.1]? with
  | none => exact ⟨rfl, nofun⟩
  | some g =>
    simp only [Option.map_some]
    rw [show (withNulls (f.lacking nulls) g).numRows = g.numRows from rfl]
    cases hr : readerRows g.numRows group.2 with
    | error => exact ⟨rfl, nofun⟩
    | ok rows =>
      rw [hno group mem_cons_self g rows hfg hr]
      refine ⟨rfl, fun batches hb => ?_⟩
      cases hb
      rfl

variable (nulls) in
theorem readRowGroups_noRow (hno : f.NoRow groups) :
    (f.extended nulls).readRowGroups projection filtered withRowIndex groups =
        f.readRowGroups projection filtered withRowIndex groups ∧
      ∀ batches, f.readRowGroups projection filtered withRowIndex groups = .ok batches →
        batches = [] := by
  induction groups with
  | nil =>
    refine ⟨rfl, fun batches hb => ?_⟩
    cases hb
    rfl
  | cons group groups ih =>
    obtain ⟨hhead, htail⟩ := forall_mem_cons.mp hno
    have hno : f.NoRow [group] := forall_mem_singleton.mpr hhead
    obtain ⟨heq, hnil⟩ := readRowGroup_noRow nulls hno
    obtain ⟨heqs, hnils⟩ := ih htail
    refine ⟨by rw [readRowGroups, readRowGroups, heq, heqs], fun batches hb => ?_⟩
    obtain ⟨_, hgr, hb⟩ := bind_eq_ok.mp hb
    obtain ⟨_, hrs, hb⟩ := bind_eq_ok.mp hb
    cases hb
    rw [hnil _ hgr, hnils _ hrs]
    rfl

/-- If the predicate does not read a missing column, reading the file gives the same as reading the
file extended by columns of nulls. -/
theorem read_extended
    (h : ∀ p ∈ predicate, ∀ field ∈ f.lacking nulls, field.1 ∉ p.projection) :
    SameResult
      (f.read predicate (some columns) rowSelection withRowIndex (some (nulls.map Prod.fst)))
      ((f.extended nulls).read predicate (some columns) rowSelection withRowIndex none) := by
  simp only [read, rowGroupsToRead_extended, missingColumns_extended]
  cases f.rowGroupsToRead predicate (rowSelection.map RangeList.ranges) with
  | error => exact rfl
  | ok groups =>
    cases hm : f.missingColumns (some (nulls.map Prod.fst))
        (columns ++ predicateColumns predicate columns) with
    | error e => exact rfl
    | ok missing =>
      have he : ∀ p ∈ predicate.map (·, predicateColumns predicate columns),
          ∀ field ∈ f.lacking nulls, field.1 ∉ p.1.projection := by
        intro p hp
        obtain ⟨q, hq, rfl⟩ := Option.mem_map.mp hp
        exact h q hq
      simp only [bind, Except.bind, Except.map, readRowGroups_extended he]
      cases f.readRowGroups (some (columns ++ predicateColumns predicate columns))
          (predicate.map (·, predicateColumns predicate columns)) withRowIndex groups with
      | error e => exact rfl
      | ok batches =>
        simp only [pure, Except.pure, SameResult, map_nil]
        rw [forall₂_map_left_iff, forall₂_map_right_iff, forall₂_map_right_iff, forall₂_same]
        intro b _
        rw [withNulls_nil]
        exact sameBatch_withNulls (mem_missing_iff_mem_kept h hm)

/-- The columns that are read and the columns that are removed again. -/
theorem read_eq_ok {nullColumns : Option (List String)} :
    f.read predicate projection rowSelection withRowIndex nullColumns = .ok batches ↔
      ∃ groups missing read,
        f.rowGroupsToRead predicate (rowSelection.map RangeList.ranges) = .ok groups ∧
        (projection.elim (.ok []) fun columns => f.missingColumns nullColumns
          (columns ++ predicateColumns predicate columns)) = .ok missing ∧
        f.readRowGroups
          (projection.map fun columns => columns ++ predicateColumns predicate columns)
          (predicate.map (·, projection.elim [] (predicateColumns predicate))) withRowIndex groups =
            .ok read ∧
        batches = read.map (withNulls (missing.map (·, .null))) := by
  cases projection with
  | none =>
    constructor
    · intro h
      obtain ⟨groups, hg, h⟩ := bind_eq_ok.mp h
      exact ⟨groups, [], batches, hg, rfl, h, (map_id'' (fun _ => withNulls_nil) _).symm⟩
    · rintro ⟨groups, missing, read, hg, hm, hr, rfl⟩
      cases hm
      refine bind_eq_ok.mpr ⟨groups, hg, hr.trans ?_⟩
      exact congrArg Except.ok (map_id'' (fun _ => withNulls_nil) _).symm
  | some columns =>
    constructor
    · intro h
      obtain ⟨groups, hg, h⟩ := bind_eq_ok.mp h
      obtain ⟨missing, hm, h⟩ := bind_eq_ok.mp h
      obtain ⟨read, hr, h⟩ := bind_eq_ok.mp h
      cases h
      exact ⟨groups, missing, read, hg, hm, hr, rfl⟩
    · rintro ⟨groups, missing, read, hg, hm, hr, rfl⟩
      exact bind_eq_ok.mpr ⟨groups, hg,
        bind_eq_ok.mpr ⟨missing, hm, bind_eq_ok.mpr ⟨read, hr, rfl⟩⟩⟩

/-- No row is read from the file, whatever the values are. -/
def ReadsNoRow (f : ParquetFile) (predicate : Option RowPredicate)
    (rowSelection : Option RangeList) : Prop :=
  ∀ groups, f.rowGroupsToRead predicate (rowSelection.map RangeList.ranges) = .ok groups →
    f.NoRow groups

/-- The predicate names a column that the file lacks. -/
def NamesLacking (f : ParquetFile) (nulls : List (String × DataType))
    (predicate : Option RowPredicate) : Prop :=
  ∃ p ∈ predicate, ∃ field ∈ f.lacking nulls, field.1 ∈ p.projection

section Lacking

variable (hindex : withRowIndex = true → "row_index" ∉ nulls.map Prod.fst)

include hindex

omit [Casts] in
theorem not_available_of_lacking {field : String × DataType} (hf : field ∈ f.lacking nulls) :
    ¬ f.Available projection withRowIndex field.1 := by
  obtain ⟨hn, hl⟩ := mem_filter.mp hf
  rintro (⟨ha, -⟩ | ⟨hi, heq⟩)
  · simp [ha] at hl
  · exact hindex hi (mem_map.mpr ⟨field, hn, heq⟩)

/-- A predicate on a column that the file lacks fails on the first row. -/
theorem readsNoRow_of_read {nullColumns : Option (List String)}
    (hp : f.NamesLacking nulls predicate)
    (h : f.read predicate projection rowSelection withRowIndex nullColumns = .ok batches) :
    f.ReadsNoRow predicate rowSelection ∧ batches = [] := by
  obtain ⟨groups, missing, read, hg, -, hr, rfl⟩ := read_eq_ok.mp h
  have hno : f.NoRow groups := by
    obtain ⟨p, hpm, field, hf, hn⟩ := hp
    exact (readRowGroups_columns hr).2
      ⟨_, Option.mem_map.mpr ⟨p, hpm, rfl⟩, field.1, hn, not_available_of_lacking hindex hf⟩
  constructor
  · intro groups' hg'
    rw [hg] at hg'
    cases hg'
    exact hno
  · rw [(readRowGroups_noRow nulls hno).2 _ hr]
    rfl

/-- Columns that are not projected are not returned. -/
theorem onlyProjected_read
    (h : f.read predicate (some columns) rowSelection withRowIndex (some (nulls.map Prod.fst)) =
      .ok batches) :
    ∀ b ∈ batches, OnlyProjected columns withRowIndex b := by
  obtain ⟨groups, missing, read, -, hm, hr, hb⟩ := read_eq_ok.mp h
  intro b hbm name hc
  have hex : name ∈ predicateColumns predicate columns → f.hasField name = false →
      name ∉ nulls.map Prod.fst := by
    intro hn hnot hnl
    obtain ⟨field, hf, rfl⟩ := mem_map.mp hnl
    have hlf : field ∈ f.lacking nulls := mem_filter.mpr ⟨hf, by simp [hnot]⟩
    have hnm : f.NamesLacking nulls predicate := by
      cases predicate with
      | none => cases hn
      | some p => exact ⟨p, rfl, field, hlf, mem_of_mem_filter hn⟩
    rw [(readsNoRow_of_read hindex hnm h).2] at hbm
    cases hbm
  rw [hb] at hbm
  obtain ⟨b', hb', rfl⟩ := mem_map.mp hbm
  rcases hasColumn_withNulls.mp hc with hc | hc
  · obtain ⟨⟨-, hn⟩ | hi, hq⟩ := ((readRowGroups_columns hr).1 b' hb' name).mp hc
    · rcases mem_append.mp (of_decide_eq_true hn) with hn | hn
      · exact Or.inl hn
      · cases predicate with
        | none => cases hn
        | some p => exact absurd hn (hq _ rfl)
    · exact Or.inr hi
  · have hnm : name ∈ missing := by simpa using hc
    obtain ⟨hn, hnot, hnl⟩ := (mem_missingColumns hm).mp hnm
    rcases mem_append.mp hn with hn | hn
    · exact Or.inl hn
    · exact absurd hnl (hex hn hnot)

end Lacking

/-- Reading the file is not affected by the columns it lacks. The predicate names none of them, or
is never evaluated; and without a projection none is to be added to what is `returned`. -/
def Unaffected (f : ParquetFile) (nulls : List (String × DataType))
    (predicate : Option RowPredicate) (projection : Option (List String))
    (rowSelection : Option RangeList) (returned : List RecordBatch) : Prop :=
  (f.NamesLacking nulls predicate → f.ReadsNoRow predicate rowSelection) ∧
    (projection = none → f.lacking nulls = [] ∨ returned = [])

/-- If no row is read, the file and the extended file give no batch. -/
theorem read_of_noRow (hno : f.ReadsNoRow predicate rowSelection)
    (h : (f.extended nulls).read predicate projection rowSelection withRowIndex none =
      .ok batches) :
    SameResult
      (f.read predicate projection rowSelection withRowIndex (some (nulls.map Prod.fst)))
      (.ok batches) := by
  obtain ⟨groups, missing', read, hg, hm', hr, rfl⟩ := read_eq_ok.mp h
  rw [rowGroupsToRead_extended] at hg
  obtain ⟨heq, hnil⟩ := readRowGroups_noRow nulls (hno groups hg)
  rw [heq] at hr
  obtain ⟨missing, hm⟩ : ∃ missing, (projection.elim (.ok []) fun columns =>
      f.missingColumns (some (nulls.map Prod.fst))
        (columns ++ predicateColumns predicate columns)) = .ok missing := by
    cases projection with
    | none => exact ⟨[], rfl⟩
    | some columns =>
      simp only [Option.elim_some, missingColumns_extended] at hm'
      obtain ⟨missing, hm, -⟩ := map_eq_ok hm'
      exact ⟨missing, hm⟩
  rw [read_eq_ok.mpr ⟨groups, missing, read, hg, hm, hr, rfl⟩, hnil _ hr]
  exact .nil

/-- If the file can be read, the extended file can be read. -/
theorem extended_read_of_read (hindex : withRowIndex = true → "row_index" ∉ nulls.map Prod.fst)
    (h : f.read predicate projection rowSelection withRowIndex (some (nulls.map Prod.fst)) =
      .ok batches) :
    ∃ batches',
      (f.extended nulls).read predicate projection rowSelection withRowIndex none =
        .ok batches' := by
  obtain ⟨groups, missing, read, hg, hm, hr, -⟩ := read_eq_ok.mp h
  have hm' : ∃ missing', (projection.elim (.ok []) fun columns =>
      (f.extended nulls).missingColumns none (columns ++ predicateColumns predicate columns)) =
        .ok missing' := by
    cases projection with
    | none => exact ⟨[], rfl⟩
    | some columns =>
      simp only [Option.elim_some] at hm ⊢
      rw [missingColumns_extended, hm]
      exact ⟨[], rfl⟩
  have hr' : ∃ read', (f.extended nulls).readRowGroups
      (projection.map fun columns => columns ++ predicateColumns predicate columns)
      (predicate.map (·, projection.elim [] (predicateColumns predicate))) withRowIndex groups =
        .ok read' := by
    by_cases hp : f.NamesLacking nulls predicate
    · rw [(readRowGroups_noRow nulls ((readsNoRow_of_read hindex hp h).1 groups hg)).1]
      exact ⟨read, hr⟩
    · rw [readRowGroups_extended, hr]
      · exact ⟨_, rfl⟩
      · rintro q hq field hf hn
        obtain ⟨p, hpm, rfl⟩ := Option.mem_map.mp hq
        exact hp ⟨p, hpm, field, hf, hn⟩
  obtain ⟨missing', hm'⟩ := hm'
  obtain ⟨read', hr'⟩ := hr'
  rw [← @rowGroupsToRead_extended f nulls] at hg
  exact ⟨_, read_eq_ok.mpr ⟨groups, missing', read', hg, hm', hr', rfl⟩⟩

/-- Without a projection the columns of the file are read, and those it lacks are not added. -/
theorem read_all_extended
    (h : ∀ p ∈ predicate, ∀ field ∈ f.lacking nulls, field.1 ∉ p.projection)
    (hr : (f.extended nulls).read predicate none rowSelection withRowIndex none = .ok batches)
    (hn : f.lacking nulls = [] ∨ batches = []) :
    SameResult (f.read predicate none rowSelection withRowIndex (some (nulls.map Prod.fst)))
      (.ok batches) := by
  have he : ∀ p ∈ predicate.map (·, ([] : List String)),
      ∀ field ∈ f.lacking nulls, field.1 ∉ p.1.projection := by
    intro p hp
    obtain ⟨q, hq, rfl⟩ := Option.mem_map.mp hp
    exact h q hq
  obtain ⟨groups, hg, hr⟩ := bind_eq_ok.mp hr
  rw [rowGroupsToRead_extended] at hg
  simp only [readRowGroups_extended he] at hr
  obtain ⟨read, hrd, rfl⟩ := map_eq_ok hr
  have hf : f.read predicate none rowSelection withRowIndex (some (nulls.map Prod.fst)) =
      .ok read := bind_eq_ok.mpr ⟨groups, hg, hrd⟩
  rw [hf]
  rcases hn with hn | hn
  · rw [hn]
    refine forall₂_map_right_iff.mpr (forall₂_same.mpr fun b _ => ?_)
    have hb := @sameBatch_withNulls [] [] b fun _ => Iff.rfl
    rw [withNulls_nil] at hb
    rw [show stripped (predicate.map (·, [])) (keptNulls none []) = [] from rfl, withNulls_nil]
    exact hb
  · rw [map_eq_nil_iff.mp hn]
    exact .nil

omit [Casts] in
theorem hasColumn_of_sameBatch {b' : RecordBatch} (h : SameBatch b b') (hc : HasColumn b' name) :
    HasColumn b name := by
  obtain ⟨c, hc⟩ := hasColumn_iff.mp hc
  have hn := h.2 name
  rw [hc] at hn
  cases hbc : b.columnByName name with
  | none =>
    rw [hbc] at hn
    cases hn
  | some c' => exact hasColumn_iff.mpr ⟨c', hbc⟩

/-- What is returned without a projection has no column that the file lacks. -/
theorem lacking_of_same (hindex : withRowIndex = true → "row_index" ∉ nulls.map Prod.fst)
    {returned : List RecordBatch}
    (h : f.read predicate none rowSelection withRowIndex (some (nulls.map Prod.fst)) = .ok batches)
    (hr : (f.extended nulls).read predicate none rowSelection withRowIndex none = .ok returned)
    (hsame : List.Forall₂ SameBatch batches returned) :
    f.lacking nulls = [] ∨ returned = [] := by
  rw [or_iff_not_imp_left]
  intro hl
  obtain ⟨field, hf⟩ := exists_mem_of_ne_nil _ hl
  refine eq_nil_iff_forall_not_mem.mpr fun b' hb' => ?_
  obtain ⟨b, hb, hbb⟩ := forall₂_right hsame b' hb'
  obtain ⟨groups, -, hrd⟩ := bind_eq_ok.mp h
  obtain ⟨groups', -, hrd'⟩ := bind_eq_ok.mp hr
  have hfield : (f.extended nulls).hasField field.1 = true := by
    rw [hasField_extended, decide_eq_true (mem_map_of_mem (mem_of_mem_filter hf))]
    simp
  have hc' : HasColumn b' field.1 := by
    refine ((readRowGroups_columns hrd').1 b' hb' field.1).mpr ⟨Or.inl ⟨hfield, rfl⟩, ?_⟩
    intro q hq
    obtain ⟨_, -, rfl⟩ := Option.mem_map.mp hq
    exact not_mem_nil
  have hc := ((readRowGroups_columns hrd).1 b hb field.1).mp (hasColumn_of_sameBatch hbb hc')
  exact not_available_of_lacking hindex hf hc.1

/-- If the extended file can be read, then reading the file gives the same exactly if it is not
affected by the columns it lacks. -/
theorem read_same_iff (hindex : withRowIndex = true → "row_index" ∉ nulls.map Prod.fst)
    {returned : List RecordBatch}
    (h : (f.extended nulls).read predicate projection rowSelection withRowIndex none =
      .ok returned) :
    SameResult
        (f.read predicate projection rowSelection withRowIndex (some (nulls.map Prod.fst)))
        (.ok returned) ↔
      f.Unaffected nulls predicate projection rowSelection returned := by
  constructor
  · intro hsame
    cases hr : f.read predicate projection rowSelection withRowIndex
        (some (nulls.map Prod.fst)) with
    | error =>
      rw [hr] at hsame
      exact hsame.elim
    | ok batches =>
      rw [hr] at hsame
      refine ⟨fun hp => (readsNoRow_of_read hindex hp hr).1, ?_⟩
      rintro rfl
      exact lacking_of_same hindex hr h hsame
  · rintro ⟨hno, hall⟩
    by_cases hp : f.NamesLacking nulls predicate
    · exact read_of_noRow (hno hp) h
    · have hnot : ∀ p ∈ predicate, ∀ field ∈ f.lacking nulls, field.1 ∉ p.projection :=
        fun p hpm field hf hn => hp ⟨p, hpm, field, hf, hn⟩
      cases projection with
      | none => exact read_all_extended hnot h (hall rfl)
      | some columns => exact h ▸ read_extended hnot

end Reading

end ParquetFile

end Query
