import SqdData.Query.DefaultNulls
import SqdData.Query.ParquetStats

/-!
# Pruning by the statistics of a parquet file

Where the statistics of the columns of a predicate can be relied on, the row groups and the rows
that are left by both stages of pruning have every row that satisfies the predicate. Where they
cannot, rows are lost.
-/

namespace Query

open List

open Arrow Storage Primitives

section Stats

variable [ArrayCasts] {f : ParquetData} {name : String} {g : RowGroup} {i k : Nat}

variable [Casts] {j : Nat} {mask : BooleanArray}

variable {p : RowPredicate}

omit [ArrayCasts] in
/-- A selection that has the position of a row keeps it where the statistics are valid for the
row. -/
theorem prune_keeps {batch : RecordBatch} {stats : RowStats} (hvalid : ValidAt batch j stats i)
    (hms : p.evaluate batch = .ok mask) (hs : IsSet mask j) {selection pruned : Option (List Range)}
    (ho : ∀ ranges ∈ selection, Ordered ranges)
    (h : ParquetFile.prune stats p selection = .ok pruned) :
    (∀ ranges ∈ pruned, Ordered ranges) ∧
      ((∀ ranges ∈ selection, Within i ranges) → ∀ ranges ∈ pruned, Within i ranges) := by
  unfold ParquetFile.prune at h
  obtain ⟨found, hf, h⟩ := bind_eq_ok.mp h
  cases found with
  | none =>
    obtain rfl := Except.ok.inj h
    exact ⟨ho, id⟩
  | some ranges =>
    obtain rfl := Except.ok.inj h
    have hin := RowPredicate.mem_evaluateStats hvalid p hms hf hs
    cases selection with
    | none =>
      constructor
      · intro _ hmm
        cases hmm
        exact ranges.ordered
      · intro _ _ hmm
        cases hmm
        exact hin
    | some before =>
      have hm := intersection_meets (ho before rfl) ranges.ordered
      constructor
      · intro _ hmm
        cases hmm
        exact hm.ordered
      · intro hb _ hmm
        cases hmm
        exact (hm.within i).mpr ⟨hb before rfl, hin⟩

/-- The statistics of some columns. -/
def restricted (names : List String) (stats : RowStats) : RowStats := fun name =>
  if name ∈ names then stats name else .ok none

omit [ArrayCasts] in
/-- A predicate looks at the statistics of its columns only. -/
theorem prune_restricted (stats : RowStats) (p : RowPredicate) (selection : Option (List Range)) :
    ParquetFile.prune stats p selection =
      ParquetFile.prune (restricted p.projection stats) p selection := by
  have hcongr : p.evaluateStats stats = p.evaluateStats (restricted p.projection stats) :=
    RowPredicate.evaluateStats_congr p fun name hn => (if_pos hn).symm
  unfold ParquetFile.prune
  rw [hcongr]

variable {names : List String}

omit [ArrayCasts] [Casts] in
theorem restricted_eq {stats : RowStats} {name : String} {found : ColumnStats}
    (h : restricted names stats name = .ok (some found)) :
    name ∈ names ∧ stats name = .ok (some found) := by
  unfold restricted at h
  split at h
  · rename_i hn
    exact ⟨hn, h⟩
  · cases h

omit [Casts] in
theorem validAt_groups (hd : f.Described) (hs : ∀ name ∈ names, f.Sure name)
    (hg : f.rowGroups[i]? = some g) :
    ValidAt g.batch j (restricted names f.toFile.rowGroupStats) (f.groupStart i + j) := by
  intro name stats hf c hc hj
  obtain ⟨hn, hf⟩ := restricted_eq hf
  have hbl : f.buildGroupStats name = some stats :=
    (Option.ite_none_right_eq_some.mp (Except.ok.inj hf)).2
  obtain ⟨-, -, hb⟩ := (hs name hn).describesGroups hd hbl
  obtain ⟨hw, hb⟩ := hb i g hg
  have hl : c.values.length = g.batch.numRows := g.batch.lengths c (mem_of_find?_eq_some hc)
  refine ⟨i, ⟨f.groupStart i, f.groupStart i + g.batch.numRows⟩, hw, ⟨?_, ?_⟩, hb c hc j⟩
  · exact Nat.le_add_right _ _
  · exact Nat.add_lt_add_left (hl ▸ hj) _

omit [Casts] in
theorem validAt_pages (hd : f.Described) (hs : ∀ name ∈ names, f.Sure name)
    (hg : f.rowGroups[i]? = some g) :
    ValidAt g.batch j (restricted names (f.toFile.pageStats i)) j := by
  refine ValidStats.validAt ?_ j
  intro name stats hf c hc
  obtain ⟨hn, hf⟩ := restricted_eq hf
  have hb : f.buildPageStats i name = some stats :=
    (Option.ite_none_right_eq_some.mp (Except.ok.inj hf)).2
  exact ((hs name hn).describesPages hd hg hb).2 c hc

variable {groups : List (Nat × Option (List Range))}

omit [Casts] in
/-- The row groups of a selection have the selected rows. -/
theorem selectRowGroups_keeps {selection : Option (List Range)}
    (ho : ∀ ranges ∈ selection, Ordered ranges) (hg : f.rowGroups[i]? = some g)
    (hj : j < g.batch.numRows) (hin : ∀ ranges ∈ selection, Within (f.groupStart i + j) ranges)
    (h : f.toFile.selectRowGroups selection = .ok groups) :
    (∃ sel, (i, sel) ∈ groups ∧ ∀ ranges ∈ sel, Within j ranges) ∧
      ∀ group ∈ groups, ∀ ranges ∈ group.2, Ordered ranges := by
  have hlt : i < f.rowGroups.length := (List.getElem?_eq_some_iff.mp hg).1
  cases selection with
  | none =>
    obtain rfl := Except.ok.inj h
    constructor
    · refine ⟨none, mem_map.mpr ⟨i, mem_range.mpr ?_, rfl⟩, by rintro _ ⟨⟩⟩
      simpa [ParquetData.toFile] using hlt
    · intro group hgr
      obtain ⟨_, -, rfl⟩ := mem_map.mp hgr
      rintro _ ⟨⟩
  | some ranges =>
    unfold ParquetFile.selectRowGroups at h
    have hof : f.toFile.rowGroupOffsets = f.groupOffsets := by
      simp only [ParquetFile.rowGroupOffsets, ParquetData.toFile, map_map, ParquetData.groupOffsets]
      rfl
    rw [hof] at h
    dsimp only at h
    cases hp : paginate 0 (windowsOf f.groupOffsets) ranges with
    | none =>
      rw [hp] at h
      cases h
    | some =>
      rw [hp] at h
      obtain rfl := Except.ok.inj h
      have hpa := ordered_windowsOf (ParquetData.isChain_scanl
        (f.rowGroups.map fun g => g.batch.numRows) 0)
      have hpg := paginate_paged hpa (ho ranges rfl) hp
      obtain ⟨sel, hs, hw⟩ := (hpg.selects (windows_groupOffsets hg)
        ⟨Nat.le_add_right _ _, Nat.add_lt_add_left hj _⟩).mp (hin ranges rfl)
      rw [Nat.zero_add] at hs
      rw [Nat.add_sub_cancel_left] at hw
      refine ⟨⟨sel, hs, hw⟩, fun group hgr included hi => ?_⟩
      obtain ⟨_, _, -, -, -, hpr⟩ := hpg.parts group hgr
      exact (hpr included hi).2.ordered

/-- The loop over the pages keeps a row that satisfies the predicate. -/
theorem prunePages_keeps
    (hvalid : ValidAt g.batch j (restricted p.projection (f.toFile.pageStats i)) j)
    (hm : p.evaluate g.batch = .ok mask) (hst : IsSet mask j)
    {pruned : List (Nat × Option (List Range))}
    (ho : ∀ group ∈ groups, ∀ ranges ∈ group.2, Ordered ranges)
    (h : f.toFile.prunePages p groups = .ok pruned) {sel : Option (List Range)}
    (hs : (i, sel) ∈ groups) (hin : ∀ ranges ∈ sel, Within j ranges) :
    ∃ sel', (i, sel') ∈ pruned ∧ ∀ ranges ∈ sel', Within j ranges := by
  induction groups generalizing pruned with
  | nil => cases hs
  | cons group _ ih =>
    obtain ⟨_, _⟩ := group
    rw [ParquetFile.prunePages] at h
    obtain ⟨first, hf, h⟩ := bind_eq_ok.mp h
    obtain ⟨rest, hr, h⟩ := bind_eq_ok.mp h
    obtain rfl := Except.ok.inj h
    rcases mem_cons.mp hs with heq | hl
    · obtain ⟨rfl, rfl⟩ := Prod.mk.inj heq
      rw [prune_restricted] at hf
      have hk := prune_keeps hvalid hm hst (ho _ mem_cons_self) hf
      exact ⟨first, mem_cons_self, hk.2 hin⟩
    · obtain ⟨sel', hmm, hw⟩ := ih (fun group hg => ho group (mem_cons_of_mem _ hg)) hr hl
      exact ⟨sel', mem_cons_of_mem _ hmm, hw⟩

/-- A row that satisfies the predicate is among the rows that are read. -/
theorem rowGroupsToRead_keeps (hd : f.Described) (hsr : ∀ name ∈ p.projection, f.Sure name)
    {selection : Option RangeList}
    (h : f.toFile.rowGroupsToRead (some p) (selection.map RangeList.ranges) = .ok groups)
    (hg : f.rowGroups[i]? = some g) (hj : j < g.batch.numRows) (hm : p.evaluate g.batch = .ok mask)
    (hst : IsSet mask j) (hin : ∀ ranges ∈ selection, f.groupStart i + j ∈ ranges) :
    ∃ sel, (i, sel) ∈ groups ∧ ∀ ranges ∈ sel, Within j ranges := by
  have hs : ∀ ranges ∈ selection.map RangeList.ranges,
      Ordered ranges ∧ Within (f.groupStart i + j) ranges := by
    intro ranges hrn
    obtain ⟨list, hl, rfl⟩ := Option.map_eq_some_iff.mp hrn
    exact ⟨list.ordered, hin list hl⟩
  dsimp only [ParquetFile.rowGroupsToRead] at h
  split at h
  · obtain ⟨first, hf, h⟩ := bind_eq_ok.mp h
    obtain ⟨found, hfn, h⟩ := bind_eq_ok.mp h
    obtain ⟨_, hp, h⟩ := bind_eq_ok.mp h
    obtain rfl := Except.ok.inj h
    rw [prune_restricted] at hf
    obtain ⟨ho, hk⟩ := prune_keeps (validAt_groups hd hsr hg) hm hst
      (fun ranges hrn => (hs ranges hrn).1) hf
    obtain ⟨⟨_, hsl, hw⟩, ho⟩ := selectRowGroups_keeps ho hg hj
      (hk fun ranges hrn => (hs ranges hrn).2) hfn
    obtain ⟨sel', hmm, hw⟩ := prunePages_keeps (validAt_pages hd hsr hg) hm hst ho hp hsl hw
    refine ⟨sel', mem_filter.mpr ⟨hmm, ?_⟩, hw⟩
    cases sel' with
    | none => rfl
    | some ranges =>
      obtain ⟨_, hr, -⟩ := hw ranges rfl
      simpa using ne_nil_of_mem hr
  · exact (selectRowGroups_keeps (fun ranges hrn => (hs ranges hrn).1) hg hj
      (fun ranges hrn => (hs ranges hrn).2) h).1

end Stats

section Sample

local instance unsupportedCasts : Casts where
  castWithOptions := fun _ _ => .error (.text "cast is not supported")

local instance unsupportedArrayCasts : ArrayCasts where
  castValue := fun _ _ => none
  castValue_null := nofun

def smallInt : DataType := .int ⟨true, .w32⟩

def valueGroup (statistics : Statistics) (index : PageIndex) (value : Value)
    (h : ∀ kind indexes, index.minMax = some (kind, indexes) → indexes.length = 1) : RowGroup where
  batch :=
    { columns := [{ name := "value", dataType := smallInt, values := [value] }]
      numRows := 1
      lengths := by simp }
  chunks := [⟨some statistics, [0], index⟩]
  paged := by
    intro c hc
    rw [mem_singleton.mp hc]
    exact ⟨by simp, rfl, h⟩

def valuesFile : ParquetData where
  tableName := "values"
  root := [.primitive "value" smallInt]
  rowGroups :=
    [valueGroup (.int32 (some 5) (some 5)) (.int32 [(some 5, some 5)]) (.int 5) (by
        intro kind indexes h
        obtain ⟨rfl, rfl⟩ := Prod.mk.inj (Option.some.inj h)
        rfl),
      valueGroup (.int32 (some 7) (some 8)) .none (.int 7) nofun]
  hasOffsetIndex := true
  hasColumnIndex := true
  typed := by
    intro g hg
    simp only [mem_cons, not_mem_nil, or_false] at hg
    rcases hg with rfl | rfl
    · rfl
    · rfl
  complete := by
    intro g hg
    simp only [mem_cons, not_mem_nil, or_false] at hg
    rcases hg with rfl | rfl
    · rfl
    · rfl

theorem bounds_singleton {lo hi i : Int}
    (hlo : plainValue smallInt .int32 (.int lo) = some (.int lo))
    (hhi : plainValue smallInt .int32 (.int hi) = some (.int hi)) (h : lo ≤ i ∧ i ≤ hi) :
    Bounds smallInt .int32 (.int lo) (.int hi) [.int i] := by
  intro a b ha hb v hv _
  cases hlo.symm.trans ha
  cases hhi.symm.trans hb
  rw [mem_singleton.mp hv]
  exact h

theorem mem_valuesFile (h : g ∈ valuesFile.rowGroups) :
    g = valuesFile.rowGroups[0] ∨ g = valuesFile.rowGroups[1] := by
  simpa [valuesFile] using h

theorem valuesFile_described : valuesFile.Described := by
  constructor
  · intro g hg k c leaf hc hl s hs kind min max hp values hv
    cases k with
    | succ => cases hl
    | zero =>
      cases hl
      rcases mem_valuesFile hg with rfl | rfl
      · cases hc
        obtain rfl := Option.some.inj hs
        cases hp
        obtain rfl := Option.some.inj hv
        exact bounds_singleton rfl rfl (by decide)
      · obtain rfl := Option.some.inj hc
        obtain rfl := Option.some.inj hs
        cases hp
        obtain rfl := Option.some.inj hv
        exact bounds_singleton rfl rfl (by decide)
  · intro g hg k c leaf hc hl kind indexes hi w r min max hw he values hv
    cases k with
    | succ => cases hl
    | zero =>
      cases hl
      rcases mem_valuesFile hg with rfl | rfl
      · cases hc
        cases hi
        cases w with
        | zero =>
          cases hw
          cases he
          cases hv
          exact bounds_singleton rfl rfl (by decide)
        | succ => cases he
      · cases hc
        cases hi

theorem valuesFile_direct : Direct valuesFile.root "value" := ⟨[], smallInt, [], rfl, nofun⟩

theorem valuesFile_sure : valuesFile.Sure "value" := by
  constructor
  · intro k kind dataType cast hu g hg min max hp c _
    cases hu.found
    cases hu.fieldType
    rcases mem_valuesFile hg with rfl | rfl
    · cases hp
      exact Or.inl ⟨valuesFile_direct, rfl, rfl⟩
    · cases hp
      exact Or.inl ⟨valuesFile_direct, rfl, rfl⟩
  · intro g hg k kind dataType cast chunk indexes hu w r min max hw he c _
    cases hu.found
    cases hu.fieldType
    have hid := hu.index
    rcases mem_valuesFile hg with rfl | rfl
    · cases hu.stored
      cases hid
      cases w with
      | zero =>
        cases he
        exact Or.inl ⟨valuesFile_direct, rfl, rfl⟩
      | succ => cases he
    · cases hu.stored
      cases hid

def valueIs (i : Int) : RowPredicate := colEq "value" { dataType := smallInt, value := .int i }

/-- A column with a struct before it that has a field of the same name. -/
def nestedFile : ParquetData where
  tableName := "values"
  root := [.group "call" [.primitive "value" smallInt], .primitive "value" smallInt]
  rowGroups :=
    [{ batch :=
        { columns :=
            [{ name := "call", dataType := .struct [("value", smallInt)],
               values := [.struct [.int 1]] },
             { name := "value", dataType := smallInt, values := [.int 5] }]
          numRows := 1
          lengths := by decide }
       chunks :=
        [⟨some (.int32 (some 1) (some 1)), [0], .none⟩,
          ⟨some (.int32 (some 5) (some 5)), [0], .none⟩]
       paged := by
        intro c hc
        simp only [mem_cons, not_mem_nil, or_false] at hc
        rcases hc with rfl | rfl
        · exact ⟨by decide, rfl, nofun⟩
        · exact ⟨by decide, rfl, nofun⟩ }]
  hasOffsetIndex := false
  hasColumnIndex := false
  typed := by
    intro g hg
    rw [mem_singleton.mp hg]
    rfl
  complete := by
    intro g hg
    rw [mem_singleton.mp hg]
    rfl

/-- A column without a minimum and a maximum. -/
def bareFile : ParquetData where
  tableName := "values"
  root := [.primitive "value" smallInt]
  rowGroups := [valueGroup (.int32 none none) .none (.int 5) nofun]
  hasOffsetIndex := false
  hasColumnIndex := false
  typed := by
    intro g hg
    rw [mem_singleton.mp hg]
    rfl
  complete := by
    intro g hg
    rw [mem_singleton.mp hg]
    rfl

theorem nestedFile_described : nestedFile.Described := by
  constructor
  · intro g hg k c leaf hc hl s hs kind min max hp values hv
    obtain rfl := mem_singleton.mp hg
    match k with
    | 0 =>
      cases hc
      cases hl
      cases hs
      cases hp
      cases hv
      exact bounds_singleton rfl rfl (by decide)
    | 1 =>
      cases hc
      cases hl
      cases hs
      cases hp
      cases hv
      exact bounds_singleton rfl rfl (by decide)
    | k + 2 => cases hc
  · intro g hg k c leaf hc hl kind indexes hi
    obtain rfl := mem_singleton.mp hg
    match k with
    | 0 =>
      cases hc
      cases hi
    | 1 =>
      cases hc
      cases hi
    | k + 2 => cases hc

theorem bareFile_described : bareFile.Described := by
  constructor
  · intro g hg k c leaf hc hl s hs kind min max hp
    obtain rfl := mem_singleton.mp hg
    cases k with
    | zero =>
      cases hc
      cases hs
      cases hp
    | succ => cases hc
  · intro g hg k c leaf hc hl kind indexes hi
    obtain rfl := mem_singleton.mp hg
    cases k with
    | zero =>
      cases hc
      cases hi
    | succ => cases hc

end Sample

end Query
