import SqdData.Query.StatsPruning

/-!
# What a predicate says of a row

An entry of a mask depends on its own row and, where a Bloom filter is compared with the bytes of a
buffer, on the position of the row among those that are read with it. It depends on the row alone
except for Bloom filters of more than one machine word, other than those of 64 bytes.
-/

namespace Query

open List

open Arrow Storage Primitives

/-- The values are of the size their type says. -/
def Sized (dataType : DataType) (values : List Value) : Prop :=
  ∀ size, dataType = .fixedSizeBinary size → ∀ bs, Value.bytes bs ∈ values → bs.length = size

variable {dataType : DataType} {values : List Value}

theorem Sized.take (h : Sized dataType values) (rows : List Nat) :
    Sized dataType (rows.map fun i => values.getD i .null) := by
  intro size hs bs hbs
  obtain ⟨i, _, hi⟩ := mem_map.mp hbs
  rw [getD_eq_getElem?_getD] at hi
  cases hv : values[i]? with
  | none =>
    rw [hv] at hi
    cases hi
  | some =>
    rw [hv] at hi
    exact h size hs bs (hi ▸ mem_of_getElem? hv)

/-- Items of one size lie at multiples of the size in their buffer. -/
theorem take_drop_flatMap {size : Nat} {f : Value → List Byte}
    (hf : ∀ v ∈ values, (f v).length = size) {i : Nat} (hi : i < values.length) :
    ((values.flatMap f).drop (i * size)).take size = f values[i] := by
  induction values generalizing i with
  | nil => cases hi
  | cons v _ ih =>
    have hv := hf v mem_cons_self
    cases i with
    | zero => simp [hv]
    | succ i =>
      have hr := ih (fun u hu => hf u (mem_cons_of_mem v hu)) (i := i) (by simpa using hi)
      have hs : (i + 1) * size = (f v).length + i * size := by
        rw [hv, Nat.add_mul, Nat.one_mul, Nat.add_comm]
      simp only [flatMap_cons, getElem_cons_succ]
      rw [hs, ← drop_drop, drop_left, hr]

theorem length_itemBytes {size : Nat} (h : Sized (.fixedSizeBinary size) values) :
    ∀ v ∈ values, (itemBytes size v).length = size := by
  intro v hv
  cases v <;> simp only [itemBytes, length_replicate]
  exact h size rfl _ hv

/-- The bytes that a row is compared with: they begin as many machine words into the buffer as there
are rows before it. -/
def BloomFilter.comparedBytes (size : Nat) (values : List Value) (i : Nat) : List Byte :=
  ((values.flatMap (itemBytes size)).drop (i * bloomStride size)).take size

/-- The same for a column, if its values are of one size. -/
def columnBytes (dataType : DataType) (values : List Value) (i : Nat) : List Byte :=
  match dataType with
  | .fixedSizeBinary size => BloomFilter.comparedBytes size values i
  | _ => []

/-! ## Entries -/

/-- The loop of `And` and `Or` over the entries of one row. -/
def foldEntries (f : Bool → Bool → Bool) (zero : Bool) : List (Option Bool) → Option Bool
  | [] => some zero
  | entry :: entries => entries.foldl (fun a b => a.bind fun x => b.map (f x)) entry

/-- Masks that are made entry by entry are folded entry by entry. -/
theorem combine_mapIdx {α : Type} (f : Bool → Bool → Bool) (zero : Bool) (l : List α)
    (entries : List (Nat → α → Option Bool)) :
    combine (BooleanArray.lift f) (zeroMask l.length zero) (entries.map fun e => l.mapIdx e) =
      l.mapIdx fun i x => foldEntries f zero (entries.map fun e => e i x) := by
  cases entries with
  | nil => simp [combine, foldEntries, zeroMask, mapIdx_eq_zipIdx_map, map_const']
  | cons first entries =>
    simp only [map_cons, combine, foldEntries]
    induction entries generalizing first with
    | nil => rfl
    | cons next entries ih =>
      have hstep : BooleanArray.lift f (l.mapIdx first) (l.mapIdx next) =
          l.mapIdx fun i x => (first i x).bind fun y => (next i x).map (f y) := by
        refine ext_getElem (by simp [BooleanArray.lift]) fun i h₁ h₂ => ?_
        simp [BooleanArray.lift]
      simp only [map_cons, foldl_cons]
      rw [hstep, ih]

theorem combine_map_mapIdx {α β : Type} (f : Bool → Bool → Bool) (zero : Bool) (l : List α)
    (entry : β → Nat → α → Option Bool) (ps : List β) :
    combine (BooleanArray.lift f) (zeroMask l.length zero) (ps.map fun p => l.mapIdx (entry p)) =
      l.mapIdx fun i x => foldEntries f zero (ps.map fun p => entry p i x) := by
  simpa only [map_map, Function.comp_def] using combine_mapIdx f zero l (ps.map entry)

theorem map_eq_mapIdx {α β : Type} (f : α → β) (l : List α) :
    l.map f = l.mapIdx fun _ x => f x := by
  refine ext_getElem (by simp) fun i h₁ h₂ => ?_
  simp

section Evaluation

variable [Casts]

/-- The entry of a comparison with a scalar. -/
def scalarEntry (scalar : Scalar) (dataType : DataType) (less greater : Bool)
    (test : Value → Value → Bool) (x : Value) : Option Bool :=
  match castScalar scalar dataType with
  | .ok .same => if x = .null then none else some (test scalar.value x)
  | .ok (.cast v) => if x = .null then none else some (test v x)
  | .ok .less => some less
  | .ok .greater => some greater
  | .error _ => none

theorem withScalar_eq (dataType : DataType) (values : List Value) (scalar : Scalar)
    (less greater : Bool) (test : Value → Value → Bool) :
    withScalar scalar { dataType, values } less greater (fun v => compareWith (test v) values) =
      (withScalar scalar { dataType, values := [] } less greater
        (fun v => compareWith (test v) [])).map fun _ =>
          values.mapIdx fun _ x => scalarEntry scalar dataType less greater test x := by
  unfold withScalar scalarEntry
  cases castScalar scalar dataType with
  | error => rfl
  | ok c =>
    rw [← map_eq_mapIdx]
    cases c with
    | same | cast => rfl
    | less | greater => simp [Except.map, zeroMask, map_const']

omit [Casts] in
theorem evaluateBloom_eq (dataType : DataType) (values : List Value) (value : List Byte) :
    evaluateBloom value { dataType, values } =
      (evaluateBloom value { dataType, values := [] }).map fun _ => values.mapIdx fun i x =>
        if dataType = .fixedSizeBinary value.length ∧ x ≠ .null then
          some ((value.zip (columnBytes dataType values i)).all fun (v, b) => v &&& b == v)
        else none := by
  unfold evaluateBloom
  cases dataType with
  | fixedSizeBinary size =>
    by_cases hs : size = value.length
    · subst hs
      by_cases hzero : value.length = 0
      · simp [hzero, Except.map]
      · simp [hzero, Except.map, bloomHit, columnBytes, BloomFilter.comparedBytes, ite_not]
    · simp [hs, Except.map]
  | _ => rfl

namespace ArrayPredicate

mutual

/-- The entry of a value, given the bytes its Bloom filters are compared with. -/
def entry (dataType : DataType) (x : Value) (bytes : List Byte) : ArrayPredicate → Option Bool
  | .and predicates => foldEntries Bool.and true (entries dataType x bytes predicates)
  | .or predicates => foldEntries Bool.or false (entries dataType x bytes predicates)
  | .eq value => scalarEntry value dataType false false (fun v x => x = v) x
  | .gtEq value => scalarEntry value dataType false true (fun v x => x.le v) x
  | .ltEq value => scalarEntry value dataType true false (fun v x => v.le x) x
  | .inList list => if x = .null then none else some (decide (x ∈ list))
  | .bloomFilter value =>
    if dataType = .fixedSizeBinary value.length ∧ x ≠ .null then
      some ((value.zip bytes).all fun (v, b) => v &&& b == v)
    else none
  | .primitiveListContainsAny _ values =>
    some (listContains (fun v => values.any (.int · = v)) x)
  | .stringListContainsAny values => some (listContains (fun v => values.any (.str · = v)) x)

def entries (dataType : DataType) (x : Value) (bytes : List Byte) :
    List ArrayPredicate → List (Option Bool)
  | [] => []
  | p :: ps => p.entry dataType x bytes :: entries dataType x bytes ps

end

theorem entries_eq_map (dataType : DataType) (x : Value) (bytes : List Byte)
    (ps : List ArrayPredicate) :
    entries dataType x bytes ps = ps.map fun p => p.entry dataType x bytes := by
  induction ps with
  | nil => rfl
  | cons _ _ ih => rw [entries, ih, map_cons]

mutual

/-- Whether a predicate can be evaluated depends on the type only, and its mask has the entries of
the values. -/
theorem evaluate_eq (dataType : DataType) (values : List Value) : ∀ p : ArrayPredicate,
    p.evaluate { dataType, values } = (p.evaluate { dataType, values := [] }).map fun _ =>
      values.mapIdx fun i x => p.entry dataType x (columnBytes dataType values i)
  | .and predicates => by
    rw [evaluate, evaluate, evaluateAll_eq dataType values predicates]
    cases evaluateAll predicates { dataType, values := [] } with
    | error => rfl
    | ok =>
      refine congrArg Except.ok ?_
      simp only [entry, entries_eq_map]
      exact combine_map_mapIdx Bool.and true values _ predicates
  | .or predicates => by
    rw [evaluate, evaluate, evaluateAll_eq dataType values predicates]
    cases evaluateAll predicates { dataType, values := [] } with
    | error => rfl
    | ok =>
      refine congrArg Except.ok ?_
      simp only [entry, entries_eq_map]
      exact combine_map_mapIdx Bool.or false values _ predicates
  | .eq value => by
    simp only [evaluate, entry]
    exact withScalar_eq dataType values _ _ _ _
  | .gtEq value => by
    simp only [evaluate, entry]
    exact withScalar_eq dataType values _ _ _ _
  | .ltEq value => by
    simp only [evaluate, entry]
    exact withScalar_eq dataType values _ _ _ _
  | .inList list => by
    simp only [evaluate, entry, compareWith, Except.map, map_eq_mapIdx]
  | .bloomFilter value => by
    simp only [evaluate, entry]
    exact evaluateBloom_eq dataType values value
  | .primitiveListContainsAny type list => by
    simp only [evaluate, entry, evaluatePrimitiveList]
    cases dataType with
    | list item => by_cases hi : item = .int type <;> simp [hi, Except.map, map_eq_mapIdx]
    | _ => rfl
  | .stringListContainsAny list => by
    simp only [evaluate, entry, evaluateStringList]
    cases dataType with
    | list item => by_cases hi : item = .utf8 <;> simp [hi, Except.map, map_eq_mapIdx]
    | _ => rfl

theorem evaluateAll_eq (dataType : DataType) (values : List Value) : ∀ ps : List ArrayPredicate,
    evaluateAll ps { dataType, values } = (evaluateAll ps { dataType, values := [] }).map fun _ =>
      ps.map fun p => values.mapIdx fun i x => p.entry dataType x (columnBytes dataType values i)
  | [] => rfl
  | p :: ps => by
    rw [evaluateAll, evaluateAll, evaluate_eq dataType values p, evaluateAll_eq dataType values ps]
    cases p.evaluate { dataType, values := [] } with
    | error => rfl
    | ok =>
      cases evaluateAll ps { dataType, values := [] } with
      | error => rfl
      | ok => rfl

end

mutual

/-- The Bloom filters of the predicate read their items where they are. -/
def rowWise : ArrayPredicate → Bool
  | .and predicates => allRowWise predicates
  | .or predicates => allRowWise predicates
  | .bloomFilter value => bloomStride value.length == value.length
  | .eq _ => true
  | .gtEq _ => true
  | .ltEq _ => true
  | .inList _ => true
  | .primitiveListContainsAny _ _ => true
  | .stringListContainsAny _ => true

def allRowWise : List ArrayPredicate → Bool
  | [] => true
  | p :: ps => p.rowWise && allRowWise ps

end

mutual

/-- Where an item lies where it is read, the bytes are those of the value. -/
theorem entry_of_rowWise {dataType : DataType} {x : Value} {bytes bytes' : List Byte}
    (hb : ∀ size, dataType = .fixedSizeBinary size → bloomStride size = size → bytes = bytes') :
    ∀ p : ArrayPredicate, p.rowWise = true → p.entry dataType x bytes = p.entry dataType x bytes'
  | .and predicates, h => by
    rw [entry, entry, entries_of_rowWise hb predicates h]
  | .or predicates, h => by
    rw [entry, entry, entries_of_rowWise hb predicates h]
  | .bloomFilter value, h => by
    rw [entry, entry]
    by_cases ht : dataType = .fixedSizeBinary value.length
    · rw [hb _ ht (by simpa [rowWise] using h)]
    · rw [if_neg fun h => ht h.1, if_neg fun h => ht h.1]
  | .eq _, _ => rfl
  | .gtEq _, _ => rfl
  | .ltEq _, _ => rfl
  | .inList _, _ => rfl
  | .primitiveListContainsAny _ _, _ => rfl
  | .stringListContainsAny _, _ => rfl

theorem entries_of_rowWise {dataType : DataType} {x : Value} {bytes bytes' : List Byte}
    (hb : ∀ size, dataType = .fixedSizeBinary size → bloomStride size = size → bytes = bytes') :
    ∀ ps : List ArrayPredicate, allRowWise ps = true →
      entries dataType x bytes ps = entries dataType x bytes' ps
  | [], _ => rfl
  | p :: ps, h => by
    rw [allRowWise, Bool.and_eq_true] at h
    rw [entries, entries, entry_of_rowWise hb p h.1, entries_of_rowWise hb ps h.2]

end

end ArrayPredicate

namespace RowPredicate

mutual

/-- What a predicate says of a row, given what its columns say. -/
def entry (answer : String → ArrayPredicate → Option Bool) : RowPredicate → Option Bool
  | .column name predicate => answer name predicate
  | .and predicates => foldEntries Bool.and true (entries answer predicates)
  | .or predicates => foldEntries Bool.or false (entries answer predicates)

def entries (answer : String → ArrayPredicate → Option Bool) :
    List RowPredicate → List (Option Bool)
  | [] => []
  | p :: ps => p.entry answer :: entries answer ps

end

omit [Casts] in
theorem entries_eq_map (answer : String → ArrayPredicate → Option Bool) (ps : List RowPredicate) :
    entries answer ps = ps.map fun p => p.entry answer := by
  induction ps with
  | nil => rfl
  | cons _ _ ih => rw [entries, ih, map_cons]

/-- What a column says of the row `r` of a batch that is read as the `k`-th one of some rows. -/
def answerAt (batch : RecordBatch) (rows : List Nat) (k r : Nat) (name : String)
    (predicate : ArrayPredicate) : Option Bool :=
  (batch.columnByName name).elim none fun c =>
    predicate.entry c.dataType (c.values.getD r .null)
      (columnBytes c.dataType (rows.map fun i => c.values.getD i .null) k)

/-- What a predicate says of a row that is read together with others. -/
def entryAmong (p : RowPredicate) (batch : RecordBatch) (rows : List Nat) (r : Nat) : Option Bool :=
  p.entry (answerAt batch rows (rows.idxOf r) r)

omit [Casts] in
theorem columnByName_take (batch : RecordBatch) (rows : List Nat) (name : String) :
    (batch.take rows).columnByName name = (batch.columnByName name).map fun c => c.take rows := by
  simp only [RecordBatch.columnByName, RecordBatch.take, find?_map]
  rfl

variable {batch : RecordBatch} {rows : List Nat}

theorem evaluateAll_take {ps : List RowPredicate} (h : ∀ p ∈ ps, p.evaluate (batch.take rows) =
      (p.evaluate (batch.take [])).map fun _ =>
        rows.mapIdx fun k r => p.entry (answerAt batch rows k r)) :
    evaluateAll ps (batch.take rows) = (evaluateAll ps (batch.take [])).map fun _ =>
      ps.map fun p => rows.mapIdx fun k r => p.entry (answerAt batch rows k r) := by
  induction ps with
  | nil => rfl
  | cons p ps ih =>
    rw [evaluateAll, evaluateAll, h p mem_cons_self, ih fun q hq => h q (mem_cons_of_mem p hq)]
    cases p.evaluate (batch.take []) with
    | error => rfl
    | ok =>
      cases evaluateAll ps (batch.take []) with
      | error => rfl
      | ok => rfl

theorem evaluate_take_mapIdx (batch : RecordBatch) (rows : List Nat) (p : RowPredicate) :
    p.evaluate (batch.take rows) = (p.evaluate (batch.take [])).map fun _ =>
      rows.mapIdx fun k r => p.entry (answerAt batch rows k r) := by
  induction p using RowPredicate.induction with
  | column name predicate =>
    rw [evaluate, evaluate, columnByName_take, columnByName_take]
    simp only [entry, answerAt]
    cases batch.columnByName name with
    | none => rfl
    | some c =>
      refine (predicate.evaluate_eq c.dataType (rows.map fun i => c.values.getD i .null)).trans ?_
      refine congrArg (fun mask => Except.map (fun _ => mask) _) ?_
      exact ext_getElem (by simp) fun k h₁ h₂ => by simp
  | and ps ih =>
    rw [evaluate, evaluate, evaluateAll_take ih]
    cases evaluateAll ps (batch.take []) with
    | error => rfl
    | ok =>
      refine congrArg Except.ok ?_
      simp only [entry, entries_eq_map]
      exact combine_map_mapIdx Bool.and true rows _ ps
  | or ps ih =>
    rw [evaluate, evaluate, evaluateAll_take ih]
    cases evaluateAll ps (batch.take []) with
    | error => rfl
    | ok =>
      refine congrArg Except.ok ?_
      simp only [entry, entries_eq_map]
      exact combine_map_mapIdx Bool.or false rows _ ps

/-- Whether a predicate can be evaluated depends on the columns only, and its mask has what it says
of each row. -/
theorem evaluate_take (batch : RecordBatch) (hn : rows.Nodup) (p : RowPredicate) :
    p.evaluate (batch.take rows) =
      (p.evaluate (batch.take [])).map fun _ => rows.map (p.entryAmong batch rows) := by
  rw [evaluate_take_mapIdx]
  refine congrArg (fun mask => Except.map (fun _ => mask) _)
    (ext_getElem (by simp) fun k h₁ h₂ => ?_)
  simp only [getElem_mapIdx, getElem_map, entryAmong]
  rw [hn.idxOf_getElem]

mutual

/-- Every Bloom filter of the tree reads its items where they are. -/
def rowWise : RowPredicate → Bool
  | .column _ predicate => predicate.rowWise
  | .and predicates => allRowWise predicates
  | .or predicates => allRowWise predicates

def allRowWise : List RowPredicate → Bool
  | [] => true
  | p :: ps => p.rowWise && allRowWise ps

end

omit [Casts] in
theorem allRowWise_iff {ps : List RowPredicate} :
    allRowWise ps = true ↔ ∀ p ∈ ps, p.rowWise = true := by
  induction ps with
  | nil => simp [allRowWise]
  | cons _ _ ih => simp [allRowWise, ih]

omit [Casts] in
theorem entry_congr {answer answer' : String → ArrayPredicate → Option Bool}
    (h : ∀ name q, q.rowWise = true → answer name q = answer' name q) (p : RowPredicate)
    (hp : p.rowWise = true) : p.entry answer = p.entry answer' := by
  induction p using RowPredicate.induction with
  | column name predicate => exact h name predicate hp
  | and ps ih | or ps ih =>
    rw [entry, entry, entries_eq_map, entries_eq_map]
    exact congrArg _ (map_congr_left fun p hm => ih p hm (allRowWise_iff.mp hp p hm))

/-- A predicate whose Bloom filters read their items where they are says the same of a row, whatever
it is read with. -/
theorem entryAmong_of_rowWise (hs : ∀ c ∈ batch.columns, Sized c.dataType c.values)
    {rows rows' : List Nat} {r : Nat} (hr : r ∈ rows) (hr' : r ∈ rows') (p : RowPredicate)
    (hp : p.rowWise = true) : p.entryAmong batch rows r = p.entryAmong batch rows' r := by
  refine entry_congr (fun name q hq => ?_) p hp
  unfold answerAt
  cases hc : batch.columnByName name with
  | none => rfl
  | some c =>
    have hsc := hs c (mem_of_find?_eq_some hc)
    have hbytes : ∀ {rows : List Nat}, r ∈ rows → ∀ size, c.dataType = .fixedSizeBinary size →
        bloomStride size = size →
        columnBytes c.dataType (rows.map fun i => c.values.getD i .null) (rows.idxOf r) =
          itemBytes size (c.values.getD r .null) := by
      intro rows hr size ht hstride
      rw [ht, columnBytes, BloomFilter.comparedBytes, hstride,
        take_drop_flatMap (length_itemBytes (ht ▸ hsc.take rows))
          (by rw [length_map]; exact idxOf_lt_length_of_mem hr), getElem_map, getElem_idxOf]
    exact ArrayPredicate.entry_of_rowWise (fun size ht hstride =>
      (hbytes hr size ht hstride).trans (hbytes hr' size ht hstride).symm) q hq

variable {rowStats : RowStats} {ranges : RangeList}

/-- An answer of the statistics rests on a column that the predicate reads. -/
theorem exists_stats (p : RowPredicate) (h : p.evaluateStats rowStats = .ok (some ranges)) :
    ∃ name ∈ p.projection, ∃ stats, rowStats name = .ok (some stats) := by
  induction p using RowPredicate.induction generalizing ranges with
  | column name =>
    rw [evaluateStats] at h
    obtain ⟨found, hf, h⟩ := bind_eq_ok.mp h
    cases found with
    | none => cases h
    | some stats => exact ⟨name, by simp [projection], stats, hf⟩
  | and ps ih =>
    rw [evaluateStats] at h
    refine evaluateStatsAnd_induct (Q := fun sel => sel.isSome →
      ∃ name ∈ (RowPredicate.and ps).projection, ∃ stats, rowStats name = .ok (some stats))
      h (by simp) ?_ rfl
    intro p hp sel found hf _ _
    obtain ⟨name, hn, hs⟩ := ih p hp hf
    exact ⟨name, mem_projection_and.mpr ⟨p, hp, hn⟩, hs⟩
  | or ps ih =>
    rw [evaluateStats] at h
    refine evaluateStatsOr_induct (Q := fun sel => sel.isSome →
      ∃ name ∈ (RowPredicate.or ps).projection, ∃ stats, rowStats name = .ok (some stats))
      h (by simp) ?_ rfl
    intro p hp sel found hf _ _
    obtain ⟨name, hn, hs⟩ := ih p hp hf
    exact ⟨name, mem_projection_or.mpr ⟨p, hp, hn⟩, hs⟩

/-- The statistics lie within the rows of the table. -/
def StatsBelow (rowStats : RowStats) (n : Nat) : Prop :=
  ∀ (name : String) (stats : ColumnStats), rowStats name = .ok (some stats) →
    Below n stats.offsets.windows

theorem evaluateStats_below {n : Nat} (hb : StatsBelow rowStats n) (p : RowPredicate)
    (h : p.evaluateStats rowStats = .ok (some ranges)) : Below n ranges.ranges := by
  induction p using RowPredicate.induction generalizing ranges with
  | column name =>
    rw [evaluateStats] at h
    obtain ⟨found, hf, h⟩ := bind_eq_ok.mp h
    cases found with
    | none => cases h
    | some stats =>
      obtain ⟨mask, _, h⟩ := bind_eq_ok.mp h
      cases h
      refine (RangeList.sealed_sealed _).below n ?_
      exact fun r hr => hb name stats hf r ((selected_sublist mask _).subset hr)
  | and _ ih =>
    rw [evaluateStats] at h
    refine evaluateStatsAnd_induct (Q := fun sel => ∀ s ∈ sel, Below n s.ranges) h
      (by simp) ?_ _ rfl
    intro p hp sel found hf _ s hs
    cases hs
    cases sel with
    | none => exact ih p hp hf
    | some => exact RangeList.intersection_below (ih p hp hf)
  | or _ ih =>
    rw [evaluateStats] at h
    refine evaluateStatsOr_induct (Q := fun sel => ∀ s ∈ sel, Below n s.ranges) h (by simp) ?_ _ rfl
    intro p hp sel found hf hsl s hs
    cases hs
    cases sel with
    | none => exact ih p hp hf
    | some prev => exact RangeList.union_below (hsl prev rfl) (ih p hp hf)

end RowPredicate

end Evaluation

end Query
