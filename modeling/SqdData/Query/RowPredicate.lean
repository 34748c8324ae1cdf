import SqdData.Primitives.Paginate
import SqdData.Query.ArrayPredicate

/-!
# Row predicates

Conditions on the rows of a table: a condition on a column, conjunctions and disjunctions. A
predicate is evaluated on a batch of rows, or on the statistics of windows of rows, where it gives
the ranges outside of which no row can satisfy it.
-/

namespace Query

open List

open Arrow Storage Primitives

/-- `OffsetBuffer<u32>`: positions in ascending order. -/
structure OffsetBuffer where
  offsets : List Nat
  ascending : offsets.IsChain (· ≤ ·)

def OffsetBuffer.windows (o : OffsetBuffer) : List Range := windowsOf o.offsets

theorem selected_sublist {α : Type} (mask : BooleanArray) (l : List α) :
    (selected mask l).Sublist l := by
  induction l generalizing mask with
  | nil => simp [selected]
  | cons a l ih =>
    cases mask with
    | nil => simp [selected]
    | cons m mask =>
      have hr := ih mask
      simp only [selected, zip_cons_cons, filterMap_cons] at hr ⊢
      split
      · exact hr.trans (sublist_cons_self a l)
      · rename_i b hb
        split at hb
        · cases hb
          exact hr.cons_cons a
        · cases hb

theorem ordered_of_sublist {l l' : List Range} (h : Ordered l) (hs : l'.Sublist l) :
    Ordered l' := by
  induction hs with
  | slnil => trivial
  | cons _ _ ih => exact ih h.2.2
  | cons_cons _ hsb ih =>
    exact ⟨h.1, fun q hq => h.2.1 q (hsb.subset hq), ih h.2.2⟩

structure ColumnStats where
  offsets : OffsetBuffer
  min : ArrayRef
  max : ArrayRef

/-- `RowStats`: the statistics of a column, if there are any. -/
abbrev RowStats := String → Except Error (Option ColumnStats)

inductive RowPredicate where
  | column (name : String) (predicate : ArrayPredicate)
  | and (predicates : List RowPredicate)
  | or (predicates : List RowPredicate)

namespace RowPredicate

mutual

/-- `projection`: the columns a predicate reads, each one once. -/
def projection : RowPredicate → List String
  | .column name _ => [name]
  | .and predicates => (predicatesProjection predicates).reverse.dedup.reverse
  | .or predicates => (predicatesProjection predicates).reverse.dedup.reverse

def predicatesProjection : List RowPredicate → List String
  | [] => []
  | p :: ps => p.projection ++ predicatesProjection ps

end

section Evaluation

variable [Casts]

mutual

def evaluate : RowPredicate → RecordBatch → Except Error BooleanArray
  | .column name predicate, batch =>
    match batch.columnByName name with
    | some c => predicate.evaluate c.toArrayRef
    | none => .error (.text s!"missing column: {name}")
  | .and predicates, batch =>
    (evaluateAll predicates batch).map
      (combine BooleanArray.and (zeroMask batch.numRows true))
  | .or predicates, batch =>
    (evaluateAll predicates batch).map
      (combine BooleanArray.or (zeroMask batch.numRows false))

def evaluateAll : List RowPredicate → RecordBatch → Except Error (List BooleanArray)
  | [], _ => .ok []
  | p :: ps, batch => do
    let mask ← p.evaluate batch
    let masks ← evaluateAll ps batch
    return mask :: masks

end

mutual

def canEvaluateStats : RowPredicate → Bool
  | .column _ predicate => predicate.canEvaluateStats
  | .and predicates => anyCanEvaluateStats predicates
  | .or predicates => allCanEvaluateStats predicates

def anyCanEvaluateStats : List RowPredicate → Bool
  | [] => false
  | p :: ps => p.canEvaluateStats || anyCanEvaluateStats ps

def allCanEvaluateStats : List RowPredicate → Bool
  | [] => true
  | p :: ps => p.canEvaluateStats && allCanEvaluateStats ps

end

/-- The windows of the column that may hold a row, as ranges. -/
def columnRanges (offsets : OffsetBuffer) (mask : BooleanArray) : RangeList :=
  RangeList.sealed (selected mask offsets.windows)
    (ordered_of_sublist (ordered_windowsOf offsets.ascending) (selected_sublist mask _))

mutual

def evaluateStats : RowPredicate → RowStats → Except Error (Option RangeList)
  | .column name predicate, rowStats => do
    match ← rowStats name with
    | none => .ok none
    | some columnStats =>
      let mask ← predicate.evaluateStats { min := columnStats.min, max := columnStats.max }
      .ok (some (columnRanges columnStats.offsets mask))
  | .and predicates, rowStats => evaluateStatsAnd predicates rowStats none
  | .or predicates, rowStats => evaluateStatsOr predicates rowStats none

/-- The loop of `AndPredicate`: parts without an answer are passed over. -/
def evaluateStatsAnd :
    List RowPredicate → RowStats → Option RangeList → Except Error (Option RangeList)
  | [], _, selection => .ok selection
  | p :: ps, rowStats, selection =>
    if p.canEvaluateStats then do
      match ← p.evaluateStats rowStats with
      | some sel => evaluateStatsAnd ps rowStats (some (selection.elim sel (·.intersection sel)))
      | none => evaluateStatsAnd ps rowStats selection
    else evaluateStatsAnd ps rowStats selection

/-- The loop of `OrPredicate`: one part without an answer leaves the whole without one. -/
def evaluateStatsOr :
    List RowPredicate → RowStats → Option RangeList → Except Error (Option RangeList)
  | [], _, selection => .ok selection
  | p :: ps, rowStats, selection =>
    if p.canEvaluateStats then do
      match ← p.evaluateStats rowStats with
      | some sel => evaluateStatsOr ps rowStats (some (selection.elim sel (·.union sel)))
      | none => .ok none
    else .ok none

end

variable {rowStats : RowStats} {ps : List RowPredicate} {selection found : Option RangeList}

/-- What holds at the start and is kept by every answer holds of the result of the first loop. -/
theorem evaluateStatsAnd_induct {Q : Option RangeList → Prop}
    (h : evaluateStatsAnd ps rowStats selection = .ok found) (hs : Q selection)
    (hst : ∀ p ∈ ps, ∀ sel ranges, p.evaluateStats rowStats = .ok (some ranges) → Q sel →
      Q (some (sel.elim ranges (·.intersection ranges)))) : Q found := by
  induction ps generalizing selection with
  | nil =>
    cases h
    exact hs
  | cons p _ ih =>
    have hr := fun q hq => hst q (mem_cons_of_mem p hq)
    rw [evaluateStatsAnd] at h
    split at h
    · obtain ⟨answer, ha, h⟩ := bind_eq_ok.mp h
      cases answer with
      | none => exact ih h hs hr
      | some => exact ih h (hst p mem_cons_self _ _ ha hs) hr
    · exact ih h hs hr

theorem evaluateStatsOr_induct {Q : Option RangeList → Prop} {result : RangeList}
    (h : evaluateStatsOr ps rowStats selection = .ok (some result)) (hs : Q selection)
    (hst : ∀ p ∈ ps, ∀ sel ranges, p.evaluateStats rowStats = .ok (some ranges) → Q sel →
      Q (some (sel.elim ranges (·.union ranges)))) : Q (some result) := by
  induction ps generalizing selection with
  | nil =>
    cases h
    exact hs
  | cons p _ ih =>
    rw [evaluateStatsOr] at h
    split at h
    · obtain ⟨answer, ha, h⟩ := bind_eq_ok.mp h
      cases answer with
      | none => cases h
      | some =>
        exact ih h (hst p mem_cons_self _ _ ha hs)
          fun q hq => hst q (mem_cons_of_mem p hq)
    · cases h

/-- The second loop gives a result only if every part does, and covers the answers of all parts. -/
theorem evaluateStatsOr_covers {result : RangeList}
    (h : evaluateStatsOr ps rowStats selection = .ok (some result)) :
    (∀ sel ∈ selection, ∀ i ∈ sel, i ∈ result) ∧
      ∀ p ∈ ps, ∃ ranges, p.evaluateStats rowStats = .ok (some ranges) ∧
        ∀ i ∈ ranges, i ∈ result := by
  induction ps generalizing selection with
  | nil =>
    cases h
    exact ⟨fun sel hs i hi => by cases hs; exact hi, nofun⟩
  | cons _ _ ih =>
    rw [evaluateStatsOr] at h
    split at h
    · obtain ⟨answer, ha, h⟩ := bind_eq_ok.mp h
      cases answer with
      | none => cases h
      | some ranges =>
        obtain ⟨hu, hl⟩ := ih h
        have hin : ∀ i ∈ ranges, i ∈ result := by
          refine fun i hi => hu _ rfl i ?_
          cases selection with
          | none => exact hi
          | some => exact RangeList.mem_union_of_mem (Or.inr hi)
        refine ⟨fun sel hs i hi => hu _ rfl i ?_, fun q hq => ?_⟩
        · cases hs
          exact RangeList.mem_union_of_mem (Or.inl hi)
        · rcases mem_cons.mp hq with rfl | hq
          · exact ⟨ranges, ha, hin⟩
          · exact hl q hq
    · cases h

theorem evaluateAll_eq_mapM (ps : List RowPredicate) (batch : RecordBatch) :
    evaluateAll ps batch = ps.mapM fun p => p.evaluate batch := by
  induction ps with
  | nil => rfl
  | cons _ _ ih => rw [evaluateAll, mapM_cons, ih]

end Evaluation

/-- Induction on a predicate, with the parts of a conjunction or disjunction as its parts. -/
@[elab_as_elim]
theorem induction {P : RowPredicate → Prop} (column : ∀ name predicate, P (.column name predicate))
    (and : ∀ ps, (∀ p ∈ ps, P p) → P (.and ps)) (or : ∀ ps, (∀ p ∈ ps, P p) → P (.or ps)) :
    ∀ p, P p
  | .column name predicate => column name predicate
  | .and ps => and ps fun p _ => induction column and or p
  | .or ps => or ps fun p _ => induction column and or p

variable {ps : List RowPredicate}

theorem mem_predicatesProjection {name : String} :
    name ∈ predicatesProjection ps ↔ ∃ p ∈ ps, name ∈ p.projection := by
  induction ps with
  | nil => simp [predicatesProjection]
  | cons _ _ ih => simp [predicatesProjection, ih]

theorem mem_projection_and {name : String} :
    name ∈ (RowPredicate.and ps).projection ↔ ∃ p ∈ ps, name ∈ p.projection := by
  simp [projection, mem_predicatesProjection]

theorem mem_projection_or {name : String} :
    name ∈ (RowPredicate.or ps).projection ↔ ∃ p ∈ ps, name ∈ p.projection := by
  simp [projection, mem_predicatesProjection]

end RowPredicate

def colEq (name : String) (value : Scalar) : RowPredicate := .column name (.eq value)

/-- `col_in_list`, for the values of an array of the given type. -/
def colInList (name : String) (dataType : DataType) (values : List Value) : RowPredicate :=
  match values with
  | [value] => colEq name { dataType, value }
  | _ =>
    if values.length < 10 then
      .column name (.or (values.map fun value => .eq { dataType, value }))
    else .column name (.inList values)

/-- `col_between`: low <= column <= high. -/
def colBetween (name : String) (low high : Scalar) : RowPredicate :=
  .column name (.and [.ltEq low, .gtEq high])

/-- `and`: one predicate stands for itself. -/
def andRows : List RowPredicate → RowPredicate
  | [p] => p
  | predicates => .and predicates

/-- `or`. -/
def orRows : List RowPredicate → RowPredicate
  | [p] => p
  | predicates => .or predicates

structure PredicateBuilder where
  conditions : List RowPredicate
  isNever : Bool

namespace PredicateBuilder

def new : PredicateBuilder := { conditions := [], isNever := false }

def add (b : PredicateBuilder) (condition : RowPredicate) : PredicateBuilder :=
  { b with conditions := b.conditions ++ [condition] }

def markAsNever (b : PredicateBuilder) : PredicateBuilder := { b with isNever := true }

def build (b : PredicateBuilder) : Option RowPredicate :=
  if b.conditions.length > 0 then some (andRows b.conditions) else none

end PredicateBuilder

end Query
