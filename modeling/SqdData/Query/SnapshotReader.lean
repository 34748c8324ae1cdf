import SqdData.Query.RowWise
import SqdData.Storage.TableReader

/-!
# Reading a table of a snapshot

`TableReader::read` for a table of the storage: the statistics narrow the row selection, the columns
of the predicate are read besides the projected ones, and the rows that do not satisfy the predicate
are filtered out. Narrowing the selection does not change the result, except where it moves the
bytes that Bloom filters are compared with.
-/

namespace Query

open List

open Arrow Storage Primitives

/-- A table of a snapshot: its rows, and the statistics that are stored for its columns. -/
structure SnapshotTable where
  batch : RecordBatch
  stats : String → Option ColumnStats

def rowIndexes (len : Nat) (rowSelection : Option RangeList) : List Nat :=
  rowSelection.elim (List.range len) RangeList.indexes

def rowIndexColumn (index : List Nat) : Column where
  name := "row_index"
  dataType := .int { signed := false, width := .w32 }
  values := index.map fun i : Nat => Value.int (i : Int)

/-- `add_row_index`. It panics when the lengths differ. -/
def addRowIndex (batch : RecordBatch) (index : List Nat) : Except Error RecordBatch :=
  if h : index.length = batch.numRows then
    .ok
      { columns := rowIndexColumn index :: batch.columns
        numRows := batch.numRows
        lengths := by
          intro c hc
          rcases mem_cons.mp hc with rfl | hc
          · simpa [rowIndexColumn] using h
          · exact batch.lengths c hc }
  else .error (.text "all columns in a record batch must have the specified row count")

namespace SnapshotTable

/-- `get_column_stats`. A column that the schema does not have is an error. -/
def getColumnStats (t : SnapshotTable) : RowStats := fun name =>
  match t.batch.columnByName name with
  | none => .error (.text s!"Unable to get field named \"{name}\"")
  | some _ => .ok (t.stats name)

/-- The projection widened by the columns of the predicate, if it lacks any of them. -/
def widened (predicate : Option RowPredicate) (projection : Option (List String)) :
    Option (List String) :=
  match predicate, projection with
  | some p, some columns =>
    if p.projection.all (· ∈ columns) then none else some (columns ++ p.projection)
  | _, _ => none

/-- The selected rows, with their positions in front if they are asked for. -/
def readBatch (t : SnapshotTable) (projection : Option (List String))
    (rowSelection : Option RangeList) (withRowIndex : Bool) : Except Error RecordBatch := do
  let batch ← readTable t.batch projection rowSelection
  if withRowIndex then addRowIndex batch (rowIndexes batch.numRows rowSelection) else .ok batch

section Reading

variable [Casts]

def narrowed (t : SnapshotTable) (predicate : Option RowPredicate)
    (rowSelection : Option RangeList) : Except Error (Option RangeList) :=
  match predicate with
  | none => .ok rowSelection
  | some p =>
    if p.canEvaluateStats then do
      match ← p.evaluateStats t.getColumnStats with
      | none => .ok rowSelection
      | some ranges => .ok (some (rowSelection.elim ranges (·.intersection ranges)))
    else .ok rowSelection

/-- The rows that satisfy the predicate, without the columns only the predicate needed. -/
def applyPredicate (p : RowPredicate) (projection : Option (List String)) (isWidened : Bool)
    (withRowIndex : Bool) (batch : RecordBatch) : Except Error (List RecordBatch) := do
  let mask ← p.evaluate batch
  let kept :=
    if isWidened then
      batch.project fun name =>
        decide (name ∈ projection.getD []) || (withRowIndex && name == "row_index")
    else batch
  return [kept.filter mask]

/-- `read`, after the selection was narrowed. -/
def readSelected (t : SnapshotTable) (predicate : Option RowPredicate)
    (projection : Option (List String)) (rowSelection : Option RangeList) (withRowIndex : Bool) :
    Except Error (List RecordBatch) := do
  let wider := widened predicate projection
  let batch ← t.readBatch (wider.or projection) rowSelection withRowIndex
  match predicate with
  | none => .ok [batch]
  | some p => applyPredicate p projection wider.isSome withRowIndex batch

/-- `read`. The default-null columns are not looked at. -/
def read (t : SnapshotTable) (predicate : Option RowPredicate) (projection : Option (List String))
    (rowSelection : Option RangeList) (withRowIndex : Bool)
    (_defaultNullColumns : Option (List String)) : Except Error (List RecordBatch) := do
  let selection ← t.narrowed predicate rowSelection
  t.readSelected predicate projection selection withRowIndex

end Reading

end SnapshotTable

def indexed (withRowIndex : Bool) (batch : RecordBatch) : RecordBatch :=
  if withRowIndex then
    { columns := rowIndexColumn (List.range batch.numRows) :: batch.columns
      numRows := batch.numRows
      lengths := by
        intro c hc
        rcases mem_cons.mp hc with rfl | hc
        · simp [rowIndexColumn]
        · exact batch.lengths c hc }
  else batch

theorem numRows_indexed (withRowIndex : Bool) (batch : RecordBatch) :
    (indexed withRowIndex batch).numRows = batch.numRows := by
  cases withRowIndex <;> rfl

variable {n : Nat}

theorem take_rowIndexColumn {rows : List Nat} (h : ∀ i ∈ rows, i < n) :
    (rowIndexColumn (List.range n)).take rows = rowIndexColumn rows := by
  simp only [Column.take, rowIndexColumn, Column.mk.injEq, ArrayRef.mk.injEq, true_and, and_true]
  refine map_congr_left fun i hi => ?_
  simp [getD_eq_getElem?_getD, h i hi]

/-- The index column of the selected rows is the index column of the table at those rows. -/
theorem addRowIndex_take {batch : RecordBatch} {rows : List Nat}
    (h : ∀ i ∈ rows, i < batch.numRows) :
    addRowIndex (batch.take rows) rows = .ok ((indexed true batch).take rows) := by
  unfold addRowIndex
  rw [dif_pos (show rows.length = (batch.take rows).numRows from rfl)]
  refine congrArg _ (RecordBatch.ext ?_ rfl)
  simp only [indexed, if_true, RecordBatch.take, map_cons, take_rowIndexColumn h]

theorem take_range_numRows (batch : RecordBatch) :
    batch.take (List.range batch.numRows) = batch := by
  refine RecordBatch.ext ?_ (by simp [RecordBatch.take])
  simp only [RecordBatch.take]
  refine (map_congr_left fun c hc => ?_).trans (map_id _)
  have hlen := batch.lengths c hc
  have hv : (range batch.numRows).map (fun i => c.values.getD i .null) = c.values := by
    apply ext_getElem
    · simp [hlen]
    · intro i h₁ h₂
      simp [getD_eq_getElem?_getD, h₂]
  simp only [Column.take, hv, id]

theorem RowPredicate.evaluate_all [Casts] (batch : RecordBatch) (p : RowPredicate) :
    p.evaluate batch = (p.evaluate (batch.take [])).map fun _ =>
      (range batch.numRows).map (p.entryAmong batch (range batch.numRows)) := by
  rw [← p.evaluate_take batch nodup_range, take_range_numRows]

theorem selected_map {α : Type} (m : Nat → Option Bool) (g : Nat → α) (rows : List Nat) :
    selected (rows.map m) (rows.map g) = (rows.filter fun i => m i = some true).map g := by
  induction rows with
  | nil => rfl
  | cons i _ ih =>
    simp only [selected, map_cons, zip_cons_cons, filterMap_cons] at ih ⊢
    by_cases hi : m i = some true
    · simp [hi, ih]
    · simp [hi, ih]

/-- Filtering selected rows by a mask with an entry for each of them. -/
theorem filter_take_map (batch : RecordBatch) (rows : List Nat) (m : Nat → Option Bool) :
    (batch.take rows).filter (rows.map m) = batch.take (rows.filter fun i => m i = some true) := by
  refine RecordBatch.ext ?_ ?_
  · simp only [RecordBatch.filter, RecordBatch.take, map_map]
    refine map_congr_left fun c _ => ?_
    simp only [Function.comp_apply, Column.take, selected_map]
  · have hlen := length_selected (rows.map m)
      (show (range rows.length).length = (rows.map id).length by simp)
    rw [selected_map, length_map] at hlen
    exact hlen

/-- Filtering after another filter, which holds wherever a third one does. -/
theorem filter_filter_eq_iff {α : Type} {l : List α} {q s : α → Bool} (r : α → Bool)
    (h : ∀ a ∈ l, s a = true → q a = true) :
    (l.filter q).filter r = l.filter s ↔ ∀ a ∈ l.filter q, (r a = true ↔ s a = true) := by
  constructor
  · intro heq a ha
    have hmem : a ∈ (l.filter q).filter r ↔ a ∈ l.filter s := by rw [heq]
    exact ⟨fun h => (mem_filter.mp (hmem.mp (mem_filter.mpr ⟨ha, h⟩))).2,
      fun h => (mem_filter.mp (hmem.mpr (mem_filter.mpr ⟨mem_of_mem_filter ha, h⟩))).2⟩
  · intro hsame
    rw [filter_filter]
    refine filter_congr fun a ha => ?_
    by_cases hq : q a = true
    · rw [hq, Bool.and_true]
      exact Bool.eq_iff_iff.mpr (hsame a (mem_filter.mpr ⟨ha, hq⟩))
    · rw [Bool.eq_false_of_not_eq_true hq, Bool.and_false]
      exact (Bool.eq_false_of_not_eq_true fun hs => hq (h a ha hs)).symm

theorem project_take (batch : RecordBatch) (rows : List Nat) (keep : String → Bool) :
    (batch.take rows).project keep = (batch.project keep).take rows := by
  refine RecordBatch.ext ?_ rfl
  simp only [RecordBatch.project, RecordBatch.take, filter_map]
  rfl

namespace SnapshotTable

def withoutStats (t : SnapshotTable) : SnapshotTable := { t with stats := fun _ => none }

def Valid (t : SnapshotTable) : Prop :=
  (∀ name, ∀ stats ∈ t.stats name, ∀ c ∈ t.batch.columnByName name, StatsFor c.toArrayRef stats) ∧
    ∀ c ∈ t.batch.columns, Sized c.dataType c.values

variable [Casts] {t : SnapshotTable} {p : RowPredicate} {projection : Option (List String)}
  {withRowIndex : Bool}

variable {name : String}

omit [Casts] in
theorem widened_keeps (h : name ∈ p.projection) :
    ((widened (some p) projection).or projection).all fun names => decide (name ∈ names) := by
  unfold widened
  cases projection with
  | none => rfl
  | some columns =>
    simp only []
    split
    · rename_i ha
      have hm := all_eq_true.mp ha name h
      simpa using hm
    · simp [h]

/-- The batch the predicate is evaluated on, for all rows of the table. -/
def base (t : SnapshotTable) (p : RowPredicate) (projection : Option (List String))
    (withRowIndex : Bool) : RecordBatch :=
  indexed withRowIndex (projected t.batch ((widened (some p) projection).or projection))

omit [Casts] in
theorem numRows_base (t : SnapshotTable) (p : RowPredicate) (projection : Option (List String))
    (withRowIndex : Bool) : (t.base p projection withRowIndex).numRows = t.batch.numRows :=
  numRows_indexed withRowIndex _

/-- The columns of the result, for all rows of the table. -/
def resultColumns (t : SnapshotTable) (p : RowPredicate) (projection : Option (List String))
    (withRowIndex : Bool) : RecordBatch :=
  if (widened (some p) projection).isSome then
    (t.base p projection withRowIndex).project fun name =>
      decide (name ∈ projection.getD []) || (withRowIndex && name == "row_index")
  else t.base p projection withRowIndex

variable {rowSelection : Option RangeList}

omit [Casts] in
/-- With a column left to read, the selected rows are read. -/
theorem readTable_eq {names : Option (List String)} (hc : (projected t.batch names).columns ≠ [])
    (hsl : ∀ sel ∈ rowSelection, sel.stop ≤ t.batch.numRows) :
    readTable t.batch names rowSelection =
      .ok ((projected t.batch names).take (rowIndexes t.batch.numRows rowSelection)) := by
  cases rowSelection with
  | none =>
    simp only [readTable, rowIndexes, Option.elim_none]
    exact congrArg _ (take_range_numRows (projected t.batch names)).symm
  | some sel =>
    have hs := hsl sel rfl
    simp only [readTable, rowIndexes, Option.elim_some]
    split
    · rename_i hn
      exact absurd hn hc
    · rw [ensure_of_true (by simpa using hs)]
      rfl

omit [Casts] in
theorem rowIndexes_lt (hs : ∀ sel ∈ rowSelection, sel.stop ≤ n) :
    ∀ i ∈ rowIndexes n rowSelection, i < n := by
  intro i hi
  cases rowSelection with
  | none => exact mem_range.mp hi
  | some sel =>
    exact (RangeList.below_of_stop_le (hs sel rfl)).lt (RangeList.mem_indexes.mp hi)

omit [Casts] in
theorem readBatch_eq {names : Option (List String)} (hc : (projected t.batch names).columns ≠ [])
    (hs : ∀ sel ∈ rowSelection, sel.stop ≤ t.batch.numRows) :
    t.readBatch names rowSelection withRowIndex =
      .ok ((indexed withRowIndex (projected t.batch names)).take
        (rowIndexes t.batch.numRows rowSelection)) := by
  have hl : rowIndexes ((projected t.batch names).take
      (rowIndexes t.batch.numRows rowSelection)).numRows rowSelection =
        rowIndexes t.batch.numRows rowSelection := by
    cases rowSelection with
    | none => simp [rowIndexes, RecordBatch.take]
    | some => rfl
  unfold readBatch
  rw [readTable_eq hc hs]
  cases withRowIndex with
  | false => rfl
  | true =>
    simp only [bind, Except.bind, if_true, hl]
    exact addRowIndex_take (rowIndexes_lt hs)

omit [Casts] in
theorem rowIndexes_ascending (n : Nat) (rowSelection : Option RangeList) :
    (rowIndexes n rowSelection).Pairwise (· < ·) := by
  cases rowSelection with
  | none => exact pairwise_lt_range
  | some sel => exact sel.indexes_ascending

/-- What is read are the selected rows that the predicate holds of when they are read together. -/
theorem readSelected_eq
    (hcl : (projected t.batch ((widened (some p) projection).or projection)).columns ≠ [])
    (hsl : ∀ sel ∈ rowSelection, sel.stop ≤ t.batch.numRows) :
    t.readSelected (some p) projection rowSelection withRowIndex =
      (p.evaluate ((t.base p projection withRowIndex).take [])).map fun _ =>
        [(t.resultColumns p projection withRowIndex).take
          ((rowIndexes t.batch.numRows rowSelection).filter fun r =>
            p.entryAmong (t.base p projection withRowIndex)
              (rowIndexes t.batch.numRows rowSelection) r = some true)] := by
  have hst : t.readSelected (some p) projection rowSelection withRowIndex =
      applyPredicate p projection (widened (some p) projection).isSome withRowIndex
        ((t.base p projection withRowIndex).take (rowIndexes t.batch.numRows rowSelection)) := by
    unfold readSelected
    simp only []
    rw [readBatch_eq hcl hsl]
    rfl
  have hnd : (rowIndexes t.batch.numRows rowSelection).Nodup :=
    (rowIndexes_ascending _ _).imp fun h => h.ne
  rw [hst, applyPredicate, RowPredicate.evaluate_take _ hnd]
  cases p.evaluate ((t.base p projection withRowIndex).take []) with
  | error => rfl
  | ok =>
    simp only [Except.map, bind, Except.bind, pure, Except.pure, resultColumns]
    split
    · rw [project_take, filter_take_map]
    · rw [filter_take_map]

omit [Casts] in
theorem getColumnStats_eq_ok {found : Option ColumnStats} (h : t.getColumnStats name = .ok found) :
    found = t.stats name ∧ ∃ c, t.batch.columnByName name = some c := by
  unfold getColumnStats at h
  split at h
  · cases h
  · rename_i c hc
    cases h
    exact ⟨rfl, c, hc⟩

omit [Casts] in
theorem statsBelow (hvalid : t.Valid) :
    RowPredicate.StatsBelow t.getColumnStats t.batch.numRows := by
  intro name stats h
  obtain ⟨hf, c, hc⟩ := getColumnStats_eq_ok h
  have hs := hvalid.1 name stats hf.symm c hc
  rw [← t.batch.lengths c (mem_of_find?_eq_some hc)]
  exact hs.below

omit [Casts] in
/-- Projecting and indexing do not change the columns that are left. -/
theorem columnByName_base {c : Column} (hi : withRowIndex = true → name ≠ "row_index")
    (h : (t.base p projection withRowIndex).columnByName name = some c) :
    t.batch.columnByName name = some c := by
  have hp : (projected t.batch ((widened (some p) projection).or projection)).columnByName
      name = some c := by
    cases withRowIndex with
    | false => exact h
    | true =>
      have hne : ("row_index" == name) = false := beq_eq_false_iff_ne.mpr (hi rfl).symm
      simpa [base, indexed, RecordBatch.columnByName, rowIndexColumn, find?_cons, hne] using h
  have hk := (find?_filter ..).symm.trans hp
  obtain ⟨hn, before, rest, hs, hb⟩ := find?_eq_some_iff_append.mp hk
  simp only [beq_iff_eq, decide_eq_true_eq] at hn
  refine find?_eq_some_iff_append.mpr ⟨by simpa using hn.2, before, rest, hs, ?_⟩
  intro a ha
  have hnot := hb a ha
  by_contra hsm
  have han : a.name = name := by simpa using hsm
  simp [han, ← hn.2, hn.1] at hnot

omit [Casts] in
theorem validStats_base (hvalid : t.Valid)
    (hin : withRowIndex = true → ∀ c ∈ t.batch.columns, c.name ≠ "row_index") :
    ValidStats (t.base p projection withRowIndex) t.getColumnStats := by
  intro name stats h c hc
  obtain ⟨hf, c', hc'⟩ := getColumnStats_eq_ok h
  refine hvalid.1 name stats hf.symm c (columnByName_base (fun hi => ?_) hc)
  have hn := find?_some hc'
  simp only [beq_iff_eq] at hn
  exact hn ▸ hin hi c' (mem_of_find?_eq_some hc')

end SnapshotTable

variable {found : Option RangeList}

namespace RowPredicate

variable [Casts] {rowStats rowStats' : RowStats}

theorem evaluateStatsAnd_none {ps : List RowPredicate} {selection : Option RangeList}
    (h : ∀ p ∈ ps, ∀ found, p.evaluateStats rowStats = .ok found →
      p.evaluateStats rowStats' = .ok none)
    (hp : evaluateStatsAnd ps rowStats selection = .ok found) :
    evaluateStatsAnd ps rowStats' none = .ok none := by
  induction ps generalizing selection with
  | nil => rfl
  | cons p ps ih =>
    have hr := fun q hq => h q (mem_cons_of_mem p hq)
    rw [evaluateStatsAnd] at hp ⊢
    split at hp
    · rename_i hc
      obtain ⟨first, hf, hp⟩ := bind_eq_ok.mp hp
      rw [if_pos hc, h p mem_cons_self first hf]
      cases first with
      | none => exact ih hr hp
      | some => exact ih hr hp
    · rename_i hc
      rw [if_neg hc]
      exact ih hr hp

/-- Without statistics there is no answer. -/
theorem evaluateStats_none
    (h : ∀ name found, rowStats name = .ok found → rowStats' name = .ok none) (p : RowPredicate)
    (hp : p.evaluateStats rowStats = .ok found) : p.evaluateStats rowStats' = .ok none := by
  induction p using RowPredicate.induction generalizing found with
  | column name =>
    rw [evaluateStats] at hp ⊢
    obtain ⟨found, hf, _⟩ := bind_eq_ok.mp hp
    rw [h name found hf]
    rfl
  | and _ ih =>
    rw [evaluateStats] at hp ⊢
    exact evaluateStatsAnd_none (fun p hp found hf => ih p hp hf) hp
  | or ps ih =>
    rw [evaluateStats] at hp ⊢
    cases ps with
    | nil => rfl
    | cons p ps =>
      rw [evaluateStatsOr] at hp ⊢
      split at hp
      · rename_i hc
        obtain ⟨first, hfr, hp⟩ := bind_eq_ok.mp hp
        rw [if_pos hc, ih p mem_cons_self hfr]
        rfl
      · rename_i hc
        rw [if_neg hc]

end RowPredicate

namespace SnapshotTable

variable [Casts] {t : SnapshotTable} {p : RowPredicate} {projection : Option (List String)}
  {rowSelection : Option RangeList} {withRowIndex : Bool}

theorem narrowed_withoutStats (h : p.evaluateStats t.getColumnStats = .ok found) :
    t.withoutStats.narrowed (some p) rowSelection = .ok rowSelection := by
  simp only [narrowed]
  split
  · rw [RowPredicate.evaluateStats_none ?_ p h]
    · rfl
    · intro name found hn
      obtain ⟨_, _, hc⟩ := getColumnStats_eq_ok hn
      simp only [getColumnStats, withoutStats, hc]
  · rfl

variable {ranges : RangeList}

omit [Casts] in
/-- The narrowed selection keeps the rows in the ranges. -/
theorem rowIndexes_narrowed (h : Below n ranges.ranges) :
    rowIndexes n (some (rowSelection.elim ranges (·.intersection ranges))) =
      (rowIndexes n rowSelection).filter (· ∈ ranges) := by
  cases rowSelection with
  | none => exact RangeList.indexes_below h
  | some sel => exact RangeList.indexes_intersection sel ranges

/-- An answer of the statistics leaves a column to read. -/
theorem projected_ne_nil (h : p.evaluateStats t.getColumnStats = .ok (some ranges)) :
    (projected t.batch ((widened (some p) projection).or projection)).columns ≠ [] := by
  obtain ⟨_, hn, _, hs⟩ := RowPredicate.exists_stats p h
  obtain ⟨_, c, hc⟩ := getColumnStats_eq_ok hs
  have hcn := find?_some hc
  simp only [beq_iff_eq] at hcn
  refine ne_nil_of_mem (mem_filter.mpr ⟨mem_of_find?_eq_some hc, ?_⟩)
  rw [hcn]
  exact widened_keeps hn

omit [Casts] in
theorem narrowed_stop_le (h : Below n ranges.ranges) (rowSelection : Option RangeList) :
    ∀ sel ∈ some (rowSelection.elim ranges (·.intersection ranges)), sel.stop ≤ n := by
  intro sel hs
  cases hs
  cases rowSelection with
  | none => exact RangeList.stop_le_of_below h
  | some => exact RangeList.stop_le_of_below (RangeList.intersection_below h)

/-- The rows that are left after narrowing. -/
def prunedRows (t : SnapshotTable) (rowSelection : Option RangeList) (ranges : RangeList) :
    List Nat :=
  (rowIndexes t.batch.numRows rowSelection).filter (· ∈ ranges)

/-- Of every row that is left after narrowing, the predicate says the same among the rows that are
left and among all selected ones. Only the bytes that Bloom filters are compared with can tell them
apart. -/
def Unmoved (t : SnapshotTable) (p : RowPredicate) (projection : Option (List String))
    (rowSelection : Option RangeList) (withRowIndex : Bool) : Prop :=
  p.canEvaluateStats = true → ∀ ranges, p.evaluateStats t.getColumnStats = .ok (some ranges) →
    ∀ mask, p.evaluate (t.base p projection withRowIndex) = .ok mask →
      ∀ r ∈ t.prunedRows rowSelection ranges,
        (p.entryAmong (t.base p projection withRowIndex) (t.prunedRows rowSelection ranges) r =
            some true ↔
          p.entryAmong (t.base p projection withRowIndex)
            (rowIndexes t.batch.numRows rowSelection) r =
            some true)

/-- Where Bloom filters read their items where they are, nothing is moved. -/
theorem unmoved_of_rowWise (hs : ∀ c ∈ t.batch.columns, Sized c.dataType c.values)
    (hp : p.rowWise = true) : t.Unmoved p projection rowSelection withRowIndex := by
  intro _ ranges _ _ _ r hr
  have hcS : ∀ c ∈ (t.base p projection withRowIndex).columns, Sized c.dataType c.values := by
    intro c hc
    cases withRowIndex with
    | false => exact hs c (mem_of_mem_filter hc)
    | true =>
      rcases mem_cons.mp hc with rfl | hc
      · intro size hsz
        cases hsz
      · exact hs c (mem_of_mem_filter hc)
  rw [RowPredicate.entryAmong_of_rowWise hcS hr (mem_of_mem_filter hr) p hp]

/-- A row that the predicate holds of among all selected rows is left after narrowing. -/
theorem mem_ranges_of_entryAmong (hvalid : t.Valid)
    (hi : withRowIndex = true → ∀ c ∈ t.batch.columns, c.name ≠ "row_index")
    (h : p.evaluateStats t.getColumnStats = .ok (some ranges)) {empty : BooleanArray}
    (hev : p.evaluate ((t.base p projection withRowIndex).take []) = .ok empty) {rows : List Nat}
    (hnd : rows.Nodup) {r : Nat} (hr : r ∈ rows) (hlt : r < t.batch.numRows)
    (hset : p.entryAmong (t.base p projection withRowIndex) rows r = some true) : r ∈ ranges := by
  have hmask := p.evaluate_take (t.base p projection withRowIndex) hnd
  rw [hev] at hmask
  refine RowPredicate.mem_evaluateStats (j := rows.idxOf r) ?_ p hmask h ?_
  · intro name stats hst c hc _
    rw [RowPredicate.columnByName_take] at hc
    obtain ⟨c, hc', rfl⟩ := Option.map_eq_some_iff.mp hc
    have hlen := (t.base p projection withRowIndex).lengths c (mem_of_find?_eq_some hc')
    rw [numRows_base] at hlen
    obtain ⟨w, range, hw, hhas, hb⟩ :=
      (validStats_base hvalid hi).validAt r name stats hst c hc' (by omega)
    refine ⟨w, range, hw, hhas, hb.minType, hb.maxType, hb.minLength, hb.maxLength, fun v hv => ?_⟩
    refine hb.bounds v ?_
    simp only [Column.take, getElem?_map, getElem?_idxOf hr, Option.map_some] at hv
    rwa [getD_eq_getElem _ _ (by omega), ← getElem?_eq_getElem (by omega)] at hv
  · rw [IsSet, getElem?_map, getElem?_idxOf hr]
    exact congrArg some hset

omit [Casts] in
/-- The rows of a result with the row index are known from it. -/
theorem take_resultColumns_inj {rows rows' : List Nat} (hr : ∀ i ∈ rows, i < t.batch.numRows)
    (hr' : ∀ i ∈ rows', i < t.batch.numRows)
    (h : (t.resultColumns p projection true).take rows =
      (t.resultColumns p projection true).take rows') :
    rows = rows' := by
  obtain ⟨rest, hrest⟩ : ∃ rest, (t.resultColumns p projection true).columns =
      rowIndexColumn (List.range t.batch.numRows) :: rest := by
    unfold resultColumns
    split
    · simp only [RecordBatch.project, base, indexed, if_true]
      exact ⟨_, filter_cons_of_pos (by simp [rowIndexColumn])⟩
    · exact ⟨_, rfl⟩
  have hcol := congrArg (fun b : RecordBatch => b.columns.head?) h
  simp only [RecordBatch.take, hrest, map_cons, head?_cons, Option.some.injEq,
    take_rowIndexColumn hr, take_rowIndexColumn hr'] at hcol
  have hval : rows.map (fun i : Nat => Value.int i) = rows'.map fun i : Nat => Value.int i :=
    congrArg (fun c : Column => c.values) hcol
  exact map_injective_iff.mpr (fun a b hab => by simpa using hab) hval

/-- Narrowing the selection keeps the result if the predicate says the same of the rows that are
left, and only then if the result has the row index. -/
theorem readSelected_narrowed (hvalid : t.Valid)
    (hi : withRowIndex = true → ∀ c ∈ t.batch.columns, c.name ≠ "row_index")
    (hs : ∀ sel ∈ rowSelection, sel.stop ≤ t.batch.numRows) (hcan : p.canEvaluateStats = true)
    (h : p.evaluateStats t.getColumnStats = .ok (some ranges)) :
    (t.Unmoved p projection rowSelection withRowIndex →
      t.readSelected (some p) projection (some (rowSelection.elim ranges (·.intersection ranges)))
        withRowIndex = t.readSelected (some p) projection rowSelection withRowIndex) ∧
    (withRowIndex = true →
      t.readSelected (some p) projection (some (rowSelection.elim ranges (·.intersection ranges)))
        withRowIndex = t.readSelected (some p) projection rowSelection withRowIndex →
      t.Unmoved p projection rowSelection withRowIndex) := by
  have hb := RowPredicate.evaluateStats_below (statsBelow hvalid) p h
  have hc := @projected_ne_nil _ t p projection ranges h
  have hn := narrowed_stop_le hb rowSelection
  have hlt := rowIndexes_lt hs
  have hnd : (rowIndexes t.batch.numRows rowSelection).Nodup :=
    (rowIndexes_ascending _ _).imp fun h => h.ne
  have hpr : rowIndexes t.batch.numRows (some (rowSelection.elim ranges (·.intersection ranges))) =
      t.prunedRows rowSelection ranges := rowIndexes_narrowed hb
  rw [readSelected_eq hc hn, readSelected_eq hc hs, hpr]
  cases hev : p.evaluate ((t.base p projection withRowIndex).take []) with
  | error =>
    refine ⟨fun _ => rfl, fun _ _ _ _ _ mask hm => ?_⟩
    rw [p.evaluate_all, hev] at hm
    cases hm
  | ok =>
    have hkeep : ∀ r ∈ rowIndexes t.batch.numRows rowSelection,
        decide (p.entryAmong (t.base p projection withRowIndex)
          (rowIndexes t.batch.numRows rowSelection) r = some true) = true →
        decide (r ∈ ranges) = true := fun r hr hset =>
      decide_eq_true (mem_ranges_of_entryAmong hvalid hi h hev hnd hr (hlt r hr)
        (of_decide_eq_true hset))
    have hsame := filter_filter_eq_iff (fun r => p.entryAmong (t.base p projection withRowIndex)
      (t.prunedRows rowSelection ranges) r = some true) hkeep
    simp only [decide_eq_true_eq] at hsame
    change (t.prunedRows rowSelection ranges).filter _ = _ ↔ _ at hsame
    constructor
    · intro hu
      have hm := p.evaluate_all (t.base p projection withRowIndex)
      rw [hev] at hm
      simp only [Except.map]
      rw [hsame.mpr (hu hcan ranges h _ hm)]
    · rintro rfl heq _ ranges' hr mask _
      obtain rfl : ranges = ranges' := Option.some.inj (Except.ok.inj (h.symm.trans hr))
      refine hsame.mp (take_resultColumns_inj (fun i hi => hlt i ?_) (fun i hi => hlt i ?_)
        (cons.inj (Except.ok.inj heq)).1)
      · exact mem_of_mem_filter (mem_of_mem_filter hi)
      · exact mem_of_mem_filter hi

/-- Reading with the statistics gives what reading without them gives. -/
theorem read_withoutStats (hvalid : t.Valid)
    (hi : withRowIndex = true → ∀ c ∈ t.batch.columns, c.name ≠ "row_index")
    (hs : ∀ sel ∈ rowSelection, sel.stop ≤ t.batch.numRows)
    (h : p.evaluateStats t.getColumnStats = .ok found) (defaultNullColumns : Option (List String)) :
    (t.Unmoved p projection rowSelection withRowIndex →
      t.read (some p) projection rowSelection withRowIndex defaultNullColumns =
        t.withoutStats.read (some p) projection rowSelection withRowIndex defaultNullColumns) ∧
    (withRowIndex = true →
      t.read (some p) projection rowSelection withRowIndex defaultNullColumns =
        t.withoutStats.read (some p) projection rowSelection withRowIndex defaultNullColumns →
      t.Unmoved p projection rowSelection withRowIndex) := by
  unfold read
  rw [narrowed_withoutStats h]
  simp only [narrowed]
  split
  · rename_i hcan
    rw [h]
    cases found with
    | none =>
      refine ⟨fun _ => rfl, fun _ _ _ ranges hr => ?_⟩
      cases h.symm.trans hr
    | some => exact readSelected_narrowed hvalid hi hs hcan h
  · rename_i hcan
    exact ⟨fun _ => rfl, fun _ _ h => absurd h hcan⟩

end SnapshotTable

section Sample

local instance noCasts : Casts where
  castWithOptions := fun _ _ => .error (.text "cast is not supported")

def byteType : IntType := { signed := false, width := .w8 }

/-- Three rows in two windows, and a filter that only the last row matches. -/
def bloomTable : SnapshotTable where
  batch :=
    { columns :=
        [{ name := "program", dataType := .int byteType, values := [.int 1, .int 1, .int 2] },
         { name := "bloom", dataType := .fixedSizeBinary 2,
           values := [.bytes [0, 0], .bytes [0, 0], .bytes [1, 0]] }]
      numRows := 3
      lengths := by decide }
  stats := fun name =>
    if name = "program" then
      some
        { offsets := { offsets := [0, 2, 3], ascending := by decide }
          min := { dataType := .int byteType, values := [.int 1, .int 2] }
          max := { dataType := .int byteType, values := [.int 1, .int 2] } }
    else none

theorem bloomTable_valid : bloomTable.Valid := by
  constructor
  · intro name stats hs c hc
    have hn : name = "program" := by
      by_contra hne
      simp [bloomTable, hne] at hs
    subst hn
    cases hs
    cases hc
    refine ⟨rfl, rfl, rfl, rfl, by decide, by unfold Below; decide, ?_⟩
    intro w r hw i v hi hv _
    have hwn : (w = 0 ∧ r = ⟨0, 2⟩) ∨ (w = 1 ∧ r = ⟨2, 3⟩) := by
      match w, hw with
      | 0, hw => exact .inl ⟨rfl, by cases hw; rfl⟩
      | 1, hw => exact .inr ⟨rfl, by cases hw; rfl⟩
    rcases hwn with ⟨rfl, rfl⟩ | ⟨rfl, rfl⟩
    · match i, hi, hv with
      | 0, _, hv => cases hv; exact ⟨_, _, rfl, rfl, by decide, by decide⟩
      | 1, _, hv => cases hv; exact ⟨_, _, rfl, rfl, by decide, by decide⟩
    · match i, hi, hv with
      | 2, _, hv => cases hv; exact ⟨_, _, rfl, rfl, by decide, by decide⟩
  · simp [bloomTable, Sized]

def programTwo : RowPredicate := colEq "program" { dataType := .int byteType, value := .int 2 }

end Sample

end Query
