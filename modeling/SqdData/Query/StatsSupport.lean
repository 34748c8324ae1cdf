import SqdData.Query.SnapshotReader

/-!
# Support for statistics

A predicate that says it supports statistics should not fail on them. Conjunctions and disjunctions
of rows ask each part before they use it. A conjunction of array predicates says it supports
statistics if any of its parts does, and then uses all of them. So a scan that succeeds without
statistics succeeds with them exactly if all the array predicates that are looked at are made of
comparisons.
-/

namespace Query

open Arrow Storage Primitives

def Succeeds {α : Type} (x : Except Error α) : Prop := ∃ a, x = .ok a

theorem succeeds_map {α β : Type} {x : Except Error α} {f : α → β} :
    Succeeds (x.map f) ↔ Succeeds x := by
  cases x <;> simp [Succeeds, Except.map]

theorem succeeds_bind {α β : Type} {x : Except Error α} {f : α → Except Error β} :
    Succeeds (x >>= f) ↔ ∃ a, x = .ok a ∧ Succeeds (f a) := by
  cases x <;> simp [Succeeds, bind, Except.bind]

/-- Two results in a row, the second one not depending on the first. -/
theorem succeeds_pair {α β γ : Type} {x : Except Error α} {y : Except Error β} {f : α → β → γ} :
    Succeeds (do
      let a ← x
      let b ← y
      return f a b) ↔ Succeeds x ∧ Succeeds y := by
  cases x <;> cases y <;> simp [Succeeds, bind, Except.bind, pure, Except.pure]

section Support

variable [Casts]

namespace ArrayPredicate

mutual

/-- The types of arrays that the predicate can be evaluated on. -/
def Accepts (dataType : DataType) : ArrayPredicate → Prop
  | .and predicates => AcceptsAll dataType predicates
  | .or predicates => AcceptsAll dataType predicates
  | .eq value => Succeeds (castScalar value dataType)
  | .gtEq value => Succeeds (castScalar value dataType)
  | .ltEq value => Succeeds (castScalar value dataType)
  | .inList _ => True
  | .bloomFilter value => dataType = .fixedSizeBinary value.length ∧ value.length ≠ 0
  | .primitiveListContainsAny type _ => dataType = .list (.int type)
  | .stringListContainsAny _ => dataType = .list .utf8

def AcceptsAll (dataType : DataType) : List ArrayPredicate → Prop
  | [] => True
  | p :: ps => p.Accepts dataType ∧ AcceptsAll dataType ps

end

variable {arr : ArrayRef}

omit [Casts] in
theorem succeeds_evaluateBloom {value : List Byte} :
    Succeeds (evaluateBloom value arr) ↔
      arr.dataType = .fixedSizeBinary value.length ∧ value.length ≠ 0 := by
  unfold evaluateBloom
  cases arr.dataType with
  | fixedSizeBinary size =>
    by_cases hs : size = value.length
    · by_cases hzero : value.length = 0 <;> simp [hs, hzero, Succeeds]
    · simp [hs, Succeeds]
  | _ => simp [Succeeds]

omit [Casts] in
theorem succeeds_evaluatePrimitiveList {type : IntType} {values : List Int} :
    Succeeds (evaluatePrimitiveList type values arr) ↔ arr.dataType = .list (.int type) := by
  unfold evaluatePrimitiveList
  cases arr.dataType with
  | list item => by_cases hi : item = .int type <;> simp [hi, Succeeds]
  | _ => simp [Succeeds]

omit [Casts] in
theorem succeeds_evaluateStringList {values : List String} :
    Succeeds (evaluateStringList values arr) ↔ arr.dataType = .list .utf8 := by
  unfold evaluateStringList
  cases arr.dataType with
  | list item => by_cases hi : item = .utf8 <;> simp [hi, Succeeds]
  | _ => simp [Succeeds]

mutual

theorem succeeds_evaluate {arr : ArrayRef} : ∀ p : ArrayPredicate,
    Succeeds (p.evaluate arr) ↔ p.Accepts arr.dataType
  | .and predicates => by
    rw [evaluate, Accepts, succeeds_map, succeeds_evaluateAll]
  | .or predicates => by
    rw [evaluate, Accepts, succeeds_map, succeeds_evaluateAll]
  | .eq value => by rw [evaluate, Accepts, withScalar, succeeds_map]
  | .gtEq value => by rw [evaluate, Accepts, withScalar, succeeds_map]
  | .ltEq value => by rw [evaluate, Accepts, withScalar, succeeds_map]
  | .inList list => by simp [evaluate, Accepts, Succeeds]
  | .bloomFilter value => by rw [evaluate, Accepts, succeeds_evaluateBloom]
  | .primitiveListContainsAny type values => by
    rw [evaluate, Accepts, succeeds_evaluatePrimitiveList]
  | .stringListContainsAny values => by rw [evaluate, Accepts, succeeds_evaluateStringList]

theorem succeeds_evaluateAll {arr : ArrayRef} : ∀ ps : List ArrayPredicate,
    Succeeds (evaluateAll ps arr) ↔ AcceptsAll arr.dataType ps
  | [] => by simp [evaluateAll, AcceptsAll, Succeeds]
  | p :: ps => by
    rw [evaluateAll, AcceptsAll, succeeds_pair, succeeds_evaluate p, succeeds_evaluateAll ps]

end

mutual

/-- All the leaves support statistics. -/
def Supported : ArrayPredicate → Prop
  | .and predicates => SupportedAll predicates
  | .or predicates => SupportedAll predicates
  | .eq _ => True
  | .gtEq _ => True
  | .ltEq _ => True
  | _ => False

def SupportedAll : List ArrayPredicate → Prop
  | [] => True
  | p :: ps => p.Supported ∧ SupportedAll ps

end

mutual

theorem succeeds_evaluateStats {stats : ArrayStats}
    (ht : stats.max.dataType = stats.min.dataType) : ∀ p : ArrayPredicate,
      p.Accepts stats.min.dataType → (Succeeds (p.evaluateStats stats) ↔ p.Supported)
  | .and predicates, ha => by
    rw [Accepts] at ha
    rw [evaluateStats, Supported, succeeds_map]
    exact succeeds_evaluateStatsAll ht predicates ha
  | .or predicates, ha => by
    rw [Accepts] at ha
    rw [evaluateStats, Supported, succeeds_map]
    exact succeeds_evaluateStatsAll ht predicates ha
  | .eq value, ha => by
    rw [Accepts] at ha
    rw [evaluateStats, Supported, withScalar, succeeds_map, iff_true_right trivial]
    exact ha
  | .gtEq value, ha => by
    rw [Accepts] at ha
    rw [evaluateStats, Supported, withScalar, succeeds_map, iff_true_right trivial]
    exact ha
  | .ltEq value, ha => by
    rw [Accepts] at ha
    rw [evaluateStats, Supported, withScalar, succeeds_map, iff_true_right trivial, ht]
    exact ha
  | .inList _, _ => by simp [evaluateStats, Supported, statsNotSupported, Succeeds]
  | .bloomFilter _, _ => by simp [evaluateStats, Supported, statsNotSupported, Succeeds]
  | .primitiveListContainsAny _ _, _ => by
    simp [evaluateStats, Supported, statsNotSupported, Succeeds]
  | .stringListContainsAny _, _ => by simp [evaluateStats, Supported, statsNotSupported, Succeeds]

theorem succeeds_evaluateStatsAll {stats : ArrayStats}
    (ht : stats.max.dataType = stats.min.dataType) : ∀ ps : List ArrayPredicate,
      AcceptsAll stats.min.dataType ps → (Succeeds (evaluateStatsAll ps stats) ↔ SupportedAll ps)
  | [], _ => by simp [evaluateStatsAll, SupportedAll, Succeeds]
  | p :: ps, ha => by
    rw [AcceptsAll] at ha
    rw [evaluateStatsAll, SupportedAll, succeeds_pair, succeeds_evaluateStats ht p ha.1,
      succeeds_evaluateStatsAll ht ps ha.2]

end

end ArrayPredicate

def typeOf (batch : RecordBatch) (name : String) : Option DataType :=
  (batch.columnByName name).map fun c => c.dataType

/-- The statistics of a column of a known type have that type. -/
def StatsTyped (types : String → Option DataType) (rowStats : RowStats) (name : String) : Prop :=
  ∀ dataType, types name = some dataType → ∀ stats, rowStats name = .ok (some stats) →
    stats.min.dataType = dataType ∧ stats.max.dataType = dataType

namespace RowPredicate

mutual

def Accepts (types : String → Option DataType) : RowPredicate → Prop
  | .column name predicate => ∃ dataType, types name = some dataType ∧ predicate.Accepts dataType
  | .and predicates => AcceptsAll types predicates
  | .or predicates => AcceptsAll types predicates

def AcceptsAll (types : String → Option DataType) : List RowPredicate → Prop
  | [] => True
  | p :: ps => p.Accepts types ∧ AcceptsAll types ps

end

mutual

theorem succeeds_evaluate {batch : RecordBatch} : ∀ p : RowPredicate,
    Succeeds (p.evaluate batch) ↔ p.Accepts (typeOf batch)
  | .column name predicate => by
    rw [evaluate, Accepts, typeOf]
    cases batch.columnByName name with
    | none => simp [Succeeds]
    | some => simp [ArrayPredicate.succeeds_evaluate]
  | .and predicates => by rw [evaluate, Accepts, succeeds_map, succeeds_evaluateAll]
  | .or predicates => by rw [evaluate, Accepts, succeeds_map, succeeds_evaluateAll]

theorem succeeds_evaluateAll {batch : RecordBatch} : ∀ ps : List RowPredicate,
    Succeeds (evaluateAll ps batch) ↔ AcceptsAll (typeOf batch) ps
  | [] => by simp [evaluateAll, AcceptsAll, Succeeds]
  | p :: ps => by
    rw [evaluateAll, AcceptsAll, succeeds_pair, succeeds_evaluate p, succeeds_evaluateAll ps]

end

mutual

/-- The columns have the statistics that an answer takes. -/
def Answers (rowStats : RowStats) : RowPredicate → Prop
  | .column name _ => ∃ stats, rowStats name = .ok (some stats)
  | .and predicates => AnswersAny rowStats predicates
  | .or predicates => predicates ≠ [] ∧ AnswersAll rowStats predicates

def AnswersAny (rowStats : RowStats) : List RowPredicate → Prop
  | [] => False
  | p :: ps => p.canEvaluateStats = true ∧ p.Answers rowStats ∨ AnswersAny rowStats ps

def AnswersAll (rowStats : RowStats) : List RowPredicate → Prop
  | [] => True
  | p :: ps => p.canEvaluateStats = true ∧ p.Answers rowStats ∧ AnswersAll rowStats ps

end

mutual

/-- The array predicates that are looked at support statistics: those of all parts of a conjunction
that say so, and those of the parts of a disjunction up to the first one without an answer. -/
def Honest (rowStats : RowStats) : RowPredicate → Prop
  | .column name predicate => ∃ found, rowStats name = .ok found ∧
      (found.isSome = true → predicate.Supported)
  | .and predicates => HonestAnd rowStats predicates
  | .or predicates => HonestOr rowStats predicates

def HonestAnd (rowStats : RowStats) : List RowPredicate → Prop
  | [] => True
  | p :: ps => (p.canEvaluateStats = true → p.Honest rowStats) ∧ HonestAnd rowStats ps

def HonestOr (rowStats : RowStats) : List RowPredicate → Prop
  | [] => True
  | p :: ps => p.canEvaluateStats = true →
      p.Honest rowStats ∧ (p.Answers rowStats → HonestOr rowStats ps)

end

variable {types : String → Option DataType} {rowStats : RowStats} {ps : List RowPredicate}

theorem acceptsAll_iff : AcceptsAll types ps ↔ ∀ p ∈ ps, p.Accepts types := by
  induction ps with
  | nil => simp [AcceptsAll]
  | cons _ _ ih => simp [AcceptsAll, ih]

/-- A predicate is evaluated if it is honest, and then it answers if its columns have statistics. -/
structure Evaluates (rowStats : RowStats) (p : RowPredicate) : Prop where
  succeeds : Succeeds (p.evaluateStats rowStats) ↔ p.Honest rowStats
  answers : ∀ found, p.evaluateStats rowStats = .ok found →
    (found.isSome = true ↔ p.Answers rowStats)

theorem evaluateStatsAnd_iff (h : ∀ p ∈ ps, p.Evaluates rowStats) (selection : Option RangeList) :
    (Succeeds (evaluateStatsAnd ps rowStats selection) ↔ HonestAnd rowStats ps) ∧
      ∀ found, evaluateStatsAnd ps rowStats selection = .ok found →
        (found.isSome = true ↔ selection.isSome = true ∨ AnswersAny rowStats ps) := by
  induction ps generalizing selection with
  | nil =>
    refine ⟨by simp [evaluateStatsAnd, HonestAnd, Succeeds], fun found hf => ?_⟩
    cases hf
    simp [AnswersAny]
  | cons p ps ih =>
    have hr := ih fun q hq => h q (List.mem_cons_of_mem p hq)
    obtain ⟨hs, ha⟩ := h p List.mem_cons_self
    rw [evaluateStatsAnd, HonestAnd, AnswersAny]
    split
    · rename_i hc
      cases he : p.evaluateStats rowStats with
      | error =>
        have hn : ¬ p.Honest rowStats := by
          rw [← hs, he]
          rintro ⟨_, ⟨⟩⟩
        refine ⟨⟨?_, fun hh => absurd (hh.1 hc) hn⟩, fun found hf => ?_⟩
        · rintro ⟨_, ⟨⟩⟩
        · cases hf
      | ok answer =>
        have hh : p.Honest rowStats := hs.mp ⟨answer, he⟩
        have hans := ha answer he
        cases answer with
        | none =>
          have hno : ¬ p.Answers rowStats := fun h => absurd (hans.mpr h) (by simp)
          refine ⟨(hr selection).1.trans (by simp [hc, hh]), fun found hf => ?_⟩
          rw [(hr selection).2 found hf]
          simp [hno]
        | some sel =>
          have hyes : p.Answers rowStats := hans.mp rfl
          refine ⟨(hr _).1.trans (by simp [hc, hh]), fun found hf => ?_⟩
          rw [(hr _).2 found hf]
          simp [hc, hyes]
    · rename_i hc
      refine ⟨(hr selection).1.trans (by simp [hc]), fun found hf => ?_⟩
      rw [(hr selection).2 found hf]
      simp [hc]

theorem evaluateStatsOr_iff (h : ∀ p ∈ ps, p.Evaluates rowStats) (selection : Option RangeList) :
    (Succeeds (evaluateStatsOr ps rowStats selection) ↔ HonestOr rowStats ps) ∧
      ∀ found, evaluateStatsOr ps rowStats selection = .ok found →
        (found.isSome = true ↔ (ps = [] → selection.isSome = true) ∧ AnswersAll rowStats ps) := by
  induction ps generalizing selection with
  | nil =>
    refine ⟨by simp [evaluateStatsOr, HonestOr, Succeeds], fun found hf => ?_⟩
    cases hf
    simp [AnswersAll]
  | cons p ps ih =>
    have hr := ih fun q hq => h q (List.mem_cons_of_mem p hq)
    obtain ⟨hs, ha⟩ := h p List.mem_cons_self
    rw [evaluateStatsOr, HonestOr, AnswersAll]
    split
    · rename_i hc
      cases he : p.evaluateStats rowStats with
      | error =>
        have hn : ¬ p.Honest rowStats := by
          rw [← hs, he]
          rintro ⟨_, ⟨⟩⟩
        refine ⟨⟨?_, fun hh => absurd (hh hc).1 hn⟩, fun found hf => ?_⟩
        · rintro ⟨_, ⟨⟩⟩
        · cases hf
      | ok answer =>
        have hh : p.Honest rowStats := hs.mp ⟨answer, he⟩
        have hans := ha answer he
        cases answer with
        | none =>
          have hno : ¬ p.Answers rowStats := fun h => absurd (hans.mpr h) (by simp)
          refine ⟨⟨fun _ _ => ⟨hh, fun h => absurd h hno⟩, fun _ => ⟨none, rfl⟩⟩,
            fun found hf => ?_⟩
          cases hf
          simp [hno]
        | some sel =>
          have hyes : p.Answers rowStats := hans.mp rfl
          refine ⟨(hr _).1.trans (by simp [hc, hh, hyes]), fun found hf => ?_⟩
          rw [(hr _).2 found hf]
          simp [hc, hyes]
    · rename_i hc
      refine ⟨⟨fun _ h => absurd h hc, fun _ => ⟨none, rfl⟩⟩, fun found hf => ?_⟩
      cases hf
      simp [hc]

theorem evaluates (p : RowPredicate) (ht : ∀ name ∈ p.projection, StatsTyped types rowStats name)
    (ha : p.Accepts types) : p.Evaluates rowStats := by
  induction p using RowPredicate.induction with
  | column name predicate =>
    rw [Accepts] at ha
    obtain ⟨dataType, hty, ha⟩ := ha
    have hst := ht name (by simp [projection]) dataType hty
    cases hf : rowStats name with
    | error => constructor <;> simp [evaluateStats, Honest, Succeeds, hf, bind, Except.bind]
    | ok found =>
      cases found with
      | none =>
        constructor <;> simp [evaluateStats, Honest, Answers, Succeeds, hf, bind, Except.bind]
      | some stats =>
        obtain ⟨hmn, hmx⟩ := hst stats hf
        have hs := @ArrayPredicate.succeeds_evaluateStats _ ⟨stats.min, stats.max⟩
          (hmx.trans hmn.symm) predicate (hmn ▸ ha)
        have he : (column name predicate).evaluateStats rowStats =
            (predicate.evaluateStats ⟨stats.min, stats.max⟩).map fun mask =>
              some (columnRanges stats.offsets mask) := by
          rw [evaluateStats, hf]
          simp only [bind, Except.bind]
          cases predicate.evaluateStats ⟨stats.min, stats.max⟩ <;> rfl
        constructor
        · rw [he, succeeds_map, hs]
          simp [Honest, hf]
        · intro found hfound
          obtain ⟨_, -, rfl⟩ := map_eq_ok (he.symm.trans hfound)
          simp [Answers, hf]
  | and ps ih =>
    rw [Accepts, acceptsAll_iff] at ha
    have h := evaluateStatsAnd_iff (fun p hp => ih p hp (fun name hn =>
      ht name (mem_projection_and.mpr ⟨p, hp, hn⟩)) (ha p hp)) none
    constructor
    · rw [evaluateStats, Honest]
      exact h.1
    · intro found hf
      rw [evaluateStats] at hf
      rw [h.2 found hf, Answers]
      simp
  | or ps ih =>
    rw [Accepts, acceptsAll_iff] at ha
    have h := evaluateStatsOr_iff (fun p hp => ih p hp (fun name hn =>
      ht name (mem_projection_or.mpr ⟨p, hp, hn⟩)) (ha p hp)) none
    constructor
    · rw [evaluateStats, Honest]
      exact h.1
    · intro found hf
      rw [evaluateStats] at hf
      rw [h.2 found hf, Answers]
      simp

end RowPredicate

namespace SnapshotTable

variable {t : SnapshotTable} {p : RowPredicate} {projection : Option (List String)}
  {rowSelection : Option RangeList} {withRowIndex : Bool}

omit [Casts] in
theorem typeOf_take (batch : RecordBatch) (rows : List Nat) :
    typeOf (batch.take rows) = typeOf batch := by
  funext name
  rw [typeOf, typeOf, RowPredicate.columnByName_take, Option.map_map]
  rfl

omit [Casts] in
theorem readTable_types {names : Option (List String)} {batch : RecordBatch}
    (h : readTable t.batch names rowSelection = .ok batch) :
    typeOf batch = typeOf (projected t.batch names) ∧
      ∀ sel ∈ rowSelection, sel.stop ≤ t.batch.numRows := by
  unfold readTable at h
  split at h
  · cases h
    exact ⟨rfl, nofun⟩
  · rename_i ranges
    split at h
    · obtain ⟨_, hs, h⟩ := bind_eq_ok.mp h
      cases h
      refine ⟨rfl, fun sel hsl => ?_⟩
      cases hsl
      exact of_decide_eq_true (ensure_eq_ok.mp hs)
    · obtain ⟨_, hs, h⟩ := bind_eq_ok.mp h
      cases h
      refine ⟨typeOf_take _ _, fun sel hsl => ?_⟩
      cases hsl
      exact of_decide_eq_true (ensure_eq_ok.mp hs)

omit [Casts] in
/-- What is read has the types of the table, and the selection lies within its rows. -/
theorem readBatch_types {names : Option (List String)} {batch : RecordBatch}
    (h : t.readBatch names rowSelection withRowIndex = .ok batch) :
    typeOf batch = typeOf (indexed withRowIndex (projected t.batch names)) ∧
      ∀ sel ∈ rowSelection, sel.stop ≤ t.batch.numRows := by
  unfold readBatch at h
  obtain ⟨_, hr, h⟩ := bind_eq_ok.mp h
  obtain ⟨ht, hs⟩ := readTable_types hr
  refine ⟨?_, hs⟩
  cases withRowIndex with
  | false =>
    cases h
    exact ht
  | true =>
    rw [if_pos rfl, addRowIndex] at h
    split at h
    · cases h
      funext name
      have hn := congrFun ht name
      simp only [typeOf, RecordBatch.columnByName, indexed, if_true, List.find?_cons,
        rowIndexColumn] at hn ⊢
      cases "row_index" == name with
      | true => rfl
      | false => exact hn
    · cases h

/-- Without statistics the selection stays as it is. -/
theorem narrowed_withoutStats_eq {sel : Option RangeList}
    (h : t.withoutStats.narrowed (some p) rowSelection = .ok sel) : sel = rowSelection := by
  simp only [narrowed] at h
  split at h
  · obtain ⟨found, hf, h⟩ := bind_eq_ok.mp h
    cases found with
    | none =>
      cases h
      rfl
    | some =>
      obtain ⟨_, -, _, hs⟩ := RowPredicate.exists_stats p hf
      cases (getColumnStats_eq_ok hs).1
  · cases h
    rfl

/-- The stored statistics have the types of their columns and lie within the rows. -/
def StatsFit (t : SnapshotTable) : Prop :=
  ∀ name, ∀ stats ∈ t.stats name, ∀ c ∈ t.batch.columnByName name,
    stats.min.dataType = c.dataType ∧ stats.max.dataType = c.dataType ∧
      Below t.batch.numRows stats.offsets.windows

/-- A scan that succeeds without statistics succeeds with them if its predicate is honest about
them. -/
theorem succeeds_read_iff (hft : t.StatsFit)
    (hin : withRowIndex = true → t.batch.columnByName "row_index" = none)
    {defaultNullColumns : Option (List String)}
    (h : Succeeds (t.withoutStats.read (some p) projection rowSelection withRowIndex
      defaultNullColumns)) :
    Succeeds (t.read (some p) projection rowSelection withRowIndex defaultNullColumns) ↔
      (p.canEvaluateStats = true → p.Honest t.getColumnStats) := by
  unfold read at h ⊢
  obtain ⟨_, hsl, h⟩ := succeeds_bind.mp h
  cases narrowed_withoutStats_eq hsl
  change Succeeds (t.readSelected (some p) projection rowSelection withRowIndex) at h
  rw [succeeds_bind]
  simp only [narrowed]
  by_cases hcn : p.canEvaluateStats = true
  · rw [if_pos hcn, forall_prop_of_true hcn]
    have hr := h
    unfold readSelected at hr
    obtain ⟨batch, hb, hr⟩ := succeeds_bind.mp hr
    obtain ⟨mask, hm, -⟩ := succeeds_bind.mp hr
    have ht : typeOf batch = typeOf (t.base p projection withRowIndex) := (readBatch_types hb).1
    have ha := (RowPredicate.succeeds_evaluate p).mp ⟨mask, hm⟩
    rw [ht] at ha
    have hty : ∀ name ∈ p.projection,
        StatsTyped (typeOf (t.base p projection withRowIndex)) t.getColumnStats name := by
      intro name hn dataType htp stats hs
      obtain ⟨c, hc, rfl⟩ := Option.map_eq_some_iff.mp htp
      obtain ⟨hst, stored, hstored⟩ := getColumnStats_eq_ok hs
      have hc := columnByName_base (fun hi => ?_) hc
      · exact ⟨(hft name stats hst.symm c hc).1, (hft name stats hst.symm c hc).2.1⟩
      · rintro rfl
        rw [hin hi] at hstored
        cases hstored
    rw [← (RowPredicate.evaluates p hty ha).succeeds]
    constructor
    · rintro ⟨_, hsel, -⟩
      obtain ⟨found, hf, -⟩ := bind_eq_ok.mp hsel
      exact ⟨found, hf⟩
    rintro ⟨found, hf⟩
    cases found with
    | none => exact ⟨rowSelection, by rw [hf]; rfl, h⟩
    | some ranges =>
      refine ⟨_, by rw [hf]; rfl, ?_⟩
      have hbl : Below t.batch.numRows ranges.ranges := by
        refine RowPredicate.evaluateStats_below (fun name stats hs => ?_) p hf
        obtain ⟨hst, c, hc⟩ := getColumnStats_eq_ok hs
        exact (hft name stats hst.symm c hc).2.2
      unfold readSelected
      rw [succeeds_bind]
      refine ⟨_, readBatch_eq (projected_ne_nil hf) (narrowed_stop_le hbl rowSelection), ?_⟩
      simp only [applyPredicate]
      obtain ⟨mask', hm'⟩ := (RowPredicate.succeeds_evaluate p).mpr
        ((typeOf_take (t.base p projection withRowIndex)
          (rowIndexes t.batch.numRows
            (some (rowSelection.elim ranges (·.intersection ranges))))).symm
            ▸ ha)
      exact succeeds_bind.mpr ⟨mask', hm', _, rfl⟩
  · rw [if_neg hcn]
    exact ⟨fun _ h => absurd h hcn, fun _ => ⟨rowSelection, rfl, h⟩⟩

end SnapshotTable

/-- A predicate that says it supports statistics evaluates those of a type it can be evaluated on,
exactly if all the leaves that are looked at support them. The same decides whether a scan that
succeeds without statistics succeeds with them. -/
theorem supported_statistics_are_evaluated :
    (∀ (p : ArrayPredicate) (stats : ArrayStats), stats.max.dataType = stats.min.dataType →
      p.Accepts stats.min.dataType →
      ((p.canEvaluateStats = true → Succeeds (p.evaluateStats stats)) ↔
        (p.canEvaluateStats = true → p.Supported))) ∧
    (∀ (p : RowPredicate) (batch : RecordBatch) (rowStats : RowStats),
      (∀ name ∈ p.projection, StatsTyped (typeOf batch) rowStats name) →
      Succeeds (p.evaluate batch) →
      ((p.canEvaluateStats = true → Succeeds (p.evaluateStats rowStats)) ↔
        (p.canEvaluateStats = true → p.Honest rowStats))) ∧
    ∀ (t : SnapshotTable) (p : RowPredicate) (projection : Option (List String))
      (rowSelection : Option RangeList) (withRowIndex : Bool)
      (defaultNullColumns : Option (List String)), t.StatsFit →
      (withRowIndex = true → t.batch.columnByName "row_index" = none) →
      Succeeds (t.withoutStats.read (some p) projection rowSelection withRowIndex
        defaultNullColumns) →
      (Succeeds (t.read (some p) projection rowSelection withRowIndex defaultNullColumns) ↔
        (p.canEvaluateStats = true → p.Honest t.getColumnStats)) := by
  refine ⟨fun p stats ht ha => ?_, ?_, ?_⟩
  · rw [ArrayPredicate.succeeds_evaluateStats ht p ha]
  · intro p batch rowStats hty h
    rw [(RowPredicate.evaluates p hty ((RowPredicate.succeeds_evaluate p).mp h)).succeeds]
  · intro t p projection rowSelection withRowIndex defaults hf hi h
    exact SnapshotTable.succeeds_read_iff hf hi h

end Support

section Sample

local instance supportCasts : Casts where
  castWithOptions := fun _ _ => .error (.text "cast is not supported")

/-- The program is two, and in a list. -/
def listedTwo : RowPredicate :=
  .column "program" (.and [.eq { dataType := .int byteType, value := .int 2 }, .inList [.int 2]])

theorem bloomTable_fits : bloomTable.StatsFit := by
  intro name stats hs c hc
  have h := bloomTable_valid.1 name stats hs c hc
  exact ⟨h.minType, h.maxType, bloomTable.batch.lengths c (List.mem_of_find?_eq_some hc) ▸ h.below⟩

theorem programTwo_scan_succeeds :
    Succeeds (bloomTable.read (some programTwo) none none false none) :=
  (supported_statistics_are_evaluated.2.2 bloomTable programTwo none none false none bloomTable_fits
    nofun ⟨_, rfl⟩).mpr fun _ => ⟨_, rfl, fun _ => trivial⟩

/-- The conjunction says that it supports statistics and fails on them. -/
theorem statistics_make_scan_fail :
    bloomTable.StatsFit ∧ listedTwo.canEvaluateStats = true ∧
      Succeeds (bloomTable.withoutStats.read (some listedTwo) none none false none) ∧
      ¬ Succeeds (listedTwo.evaluateStats bloomTable.getColumnStats) ∧
      ¬ Succeeds (bloomTable.read (some listedTwo) none none false none) :=
  ⟨bloomTable_fits, rfl, ⟨_, rfl⟩, nofun, nofun⟩

end Sample

end Query
