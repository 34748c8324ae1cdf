import SqdData.Query.ParquetMetadata
import SqdData.Slots

/-!
# Statistics of a parquet file bound its columns

The statistics of row groups and pages are built of the pairs that are stored for a leaf with the
name of the column. They bound the values of the column exactly if a missing pair means that there
are only nulls, and the pairs of a leaf that is not the column happen to bound it: a leaf of a
nested column may have the name of another column, and a row group may come without a minimum and a
maximum.
-/

namespace Query

open List

open Arrow Storage Primitives

/-! ### Casts -/

variable {kind : Physical}

section Casting

variable [ArrayCasts]

omit [ArrayCasts] in
theorem plainValue_same {x v : Value} (h : plainValue kind.dataType kind x = some v) : x = v := by
  cases kind with
  | boolean =>
    cases x with
    | bool => exact Option.some.inj h
    | _ => cases h
  | int32 =>
    cases x with
    | int =>
      obtain ⟨-, h⟩ := Option.ite_none_right_eq_some.mp (show (if _ then _ else _) = _ from h)
      exact Option.some.inj h
    | _ => cases h
  | int64 =>
    cases x with
    | int => exact Option.some.inj h
    | _ => cases h
  | byteArray =>
    cases x with
    | bytes => exact Option.some.inj h
    | _ => cases h

theorem castValue_plain {target : DataType} {f : Value → Value} {x v : Value}
    (hcast : castValue kind.dataType target = some f) (hne : kind.dataType ≠ target)
    (h32 : ¬ (kind.dataType = .int ⟨true, .w32⟩ ∧ target = .int ⟨false, .w32⟩))
    (h64 : ¬ (kind.dataType = .int ⟨true, .w64⟩ ∧ target = .int ⟨false, .w64⟩))
    (h : plainValue target kind x = some v) : f x = v := by
  cases kind with
  | boolean =>
    cases target with
    | boolean => exact absurd rfl hne
    | _ => cases h
  | int32 =>
    cases target with
    | int type =>
      cases x with
      | int =>
        cases hcast
        have hn : type ≠ ⟨false, .w32⟩ := fun heq => h32 ⟨rfl, by rw [heq]⟩
        rw [plainValue, if_neg hn] at h
        obtain ⟨⟨-, hr⟩, h⟩ := Option.ite_none_right_eq_some.mp h
        dsimp only
        rw [if_pos hr]
        exact Option.some.inj h
      | _ => cases h
    | _ => cases h
  | int64 =>
    cases target with
    | int type =>
      cases x with
      | int =>
        have hn6 : type ≠ ⟨false, .w64⟩ := fun heq => h64 ⟨rfl, by rw [heq]⟩
        rw [plainValue, if_neg hn6] at h
        obtain ⟨rfl, -⟩ := Option.ite_none_right_eq_some.mp h
        exact absurd rfl hne
      | _ => cases h
    | _ => cases h
  | byteArray =>
    cases target with
    | binary => exact absurd rfl hne
    | utf8 =>
      cases x with
      | bytes =>
        cases hcast
        obtain ⟨_, ht, rfl⟩ := Option.map_eq_some_iff.mp h
        dsimp only
        rw [ht, Option.elim_some]
      | _ => cases h
    | _ => cases h

/-- `cast_stat_array` for one entry of an array. -/
def castStat (kind : Physical) (target : DataType) : Option (Value → Value) :=
  if kind.dataType = target then some id
  else if kind.dataType = .int ⟨true, .w32⟩ ∧ target = .int ⟨false, .w32⟩ then some (wrapValue 32)
  else if kind.dataType = .int ⟨true, .w64⟩ ∧ target = .int ⟨false, .w64⟩ then some (wrapValue 64)
  else castValue kind.dataType target

theorem castStatArray_eq (values : List Value) (target : DataType) :
    castStatArray ⟨kind.dataType, values⟩ target =
      (castStat kind target).map fun cast => ⟨target, values.map cast⟩ := by
  unfold castStatArray castStat
  split
  · rename_i hs
    simp [← hs]
  · split
    · rfl
    · split <;> rfl

variable {target : DataType} {cast : Value → Value}

/-- A stored value of the target type becomes this value. -/
theorem castStat_plain {x v : Value} (h : castStat kind target = some cast)
    (hv : plainValue target kind x = some v) : cast x = v := by
  unfold castStat at h
  split at h
  · rename_i hs
    cases h
    rw [← hs] at hv
    exact plainValue_same hv
  · rename_i hne
    split at h
    · rename_i hw
      cases h
      cases kind with
      | int32 =>
        rw [hw.2] at hv
        cases x with
        | int => exact Option.some.inj hv
        | _ => cases hv
      | _ => cases hw.1
    · split at h
      · rename_i hw
        cases h
        cases kind with
        | int64 =>
          rw [hw.2] at hv
          cases x with
          | int => exact Option.some.inj hv
          | _ => cases hv
        | _ => cases hw.1
      · rename_i h32 h64
        exact castValue_plain h hne h32 h64 hv

theorem castStat_null (h : castStat kind target = some cast) : cast .null = .null := by
  unfold castStat at h
  split at h
  · cases h
    rfl
  · split at h
    · cases h
      rfl
    · split at h
      · cases h
        rfl
      · unfold castValue at h
        split at h
        · cases h
          rfl
        · cases h
          rfl
        · exact ArrayCasts.castValue_null _ _ _ h

end Casting

/-! ### Leaves -/

variable {fields : List SchemaType}

namespace SchemaType

theorem leavesOf_eq (fields : List SchemaType) : leavesOf fields = fields.flatMap leaves := by
  induction fields with
  | nil => rfl
  | cons _ _ ih => rw [leavesOf, ih, flatMap_cons]

theorem arrowFields_eq (fields : List SchemaType) :
    arrowFields fields = fields.map fun t => (t.name, t.arrowType) := by
  induction fields with
  | nil => rfl
  | cons _ _ ih => rw [arrowFields, ih, map_cons]

mutual

/-- Each leaf has values of its own. -/
theorem length_leafValues : ∀ (t : SchemaType) (values : List Value),
    (t.leafValues values).length = t.leaves.length
  | .primitive _ _, _ => rfl
  | .group _ fields, values => length_fieldValues fields 0 values
  | .list _ element, values => length_leafValues element (values.flatMap itemsOf)

theorem length_fieldValues : ∀ (fields : List SchemaType) (i : Nat) (values : List Value),
    (fieldValues fields i values).length = (leavesOf fields).length
  | [], _, _ => rfl
  | field :: fields, i, values => by
    rw [fieldValues, leavesOf, length_append, length_append, length_leafValues field,
      length_fieldValues fields]

end

end SchemaType

open SchemaType in
theorem rootLeafValues_append {more : List SchemaType} {columns others : List Column}
    (h : columns.length = fields.length) (r : Range) :
    (rootLeafValues fields columns r).length = (leavesOf fields).length ∧
      rootLeafValues (fields ++ more) (columns ++ others) r =
        rootLeafValues fields columns r ++ rootLeafValues more others r := by
  induction fields generalizing columns with
  | nil =>
    obtain rfl := length_eq_zero_iff.mp h
    exact ⟨rfl, rfl⟩
  | cons _ _ ih =>
    cases columns with
    | nil => cases h
    | cons =>
      obtain ⟨hl, ha⟩ := ih (Nat.succ.inj h)
      constructor
      · rw [rootLeafValues, leavesOf, length_append, length_append, length_leafValues, hl]
      · rw [cons_append, cons_append, rootLeafValues, ha, rootLeafValues, append_assoc]

/-- A top-level leaf that no field before it hides: neither a field nor a leaf of a field before it
has its name. -/
def Direct (root : List SchemaType) (name : String) : Prop :=
  ∃ before dataType after, root = before ++ .primitive name dataType :: after ∧
    ∀ field ∈ before, field.name ≠ name ∧ ∀ leaf ∈ field.leaves, leaf.1 ≠ name

/-- The leaf that is found by a name is the column of this name. -/
structure FoundAt (f : ParquetData) (name : String) (k : Nat) (dataType : DataType) : Prop where
  fieldType : f.fieldType name = some dataType
  found : f.findPrimitiveColumn name = some k
  leaf : (SchemaType.leavesOf f.root)[k]? = some (name, dataType)
  column : ∀ g ∈ f.rowGroups, ∃ c, g.batch.columnByName name = some c ∧ c.dataType = dataType ∧
    ∀ r, (rootLeafValues f.root g.batch.columns r)[k]? = some (sliceRange c.values r)

open SchemaType in
theorem Direct.foundAt {f : ParquetData} {name : String} (h : Direct f.root name) :
    ∃ k dataType, FoundAt f name k dataType := by
  obtain ⟨before, dataType, after, hr, hb⟩ := h
  have hfl : arrowFields f.root = arrowFields before ++ (name, dataType) :: arrowFields after := by
    simp only [hr, arrowFields_eq, map_append]
    rfl
  have hl : leavesOf f.root = leavesOf before ++ (name, dataType) :: leavesOf after := by
    simp only [hr, leavesOf_eq, flatMap_append]
    rfl
  have hn : ∀ field ∈ arrowFields before, (field.1 == name) = false := by
    intro field hf
    obtain ⟨t, ht, rfl⟩ := mem_map.mp (arrowFields_eq before ▸ hf)
    exact beq_false_of_ne (hb t ht).1
  have ho : ∀ leaf ∈ leavesOf before, (leaf.1 == name) = false := by
    intro leaf hlf
    obtain ⟨t, ht, hm⟩ := mem_flatMap.mp (leavesOf_eq before ▸ hlf)
    exact beq_false_of_ne ((hb t ht).2 leaf hm)
  refine ⟨(leavesOf before).length, dataType, ?_, ?_, ?_, ?_⟩
  · unfold ParquetData.fieldType
    rw [hfl, find?_append, find?_eq_none.mpr fun field hf => by
      rw [hn field hf]
      exact Bool.false_ne_true]
    simp
  · unfold ParquetData.findPrimitiveColumn
    rw [hl, findIdx?_append, findIdx?_eq_none_iff.mpr ho, findIdx?_cons]
    simp
  · rw [hl, getElem?_append_right le_rfl, Nat.sub_self]
    rfl
  · intro g hg
    have hty := f.typed g hg
    rw [hfl] at hty
    obtain ⟨front, _, hcl, hfr, hrs⟩ := map_eq_append_iff.mp hty
    obtain ⟨c, others, rfl, hc, -⟩ := map_eq_cons_iff.mp hrs
    obtain ⟨hnm, htp⟩ := Prod.mk.inj hc
    have hln : front.length = before.length := by
      have := congrArg length hfr
      rwa [arrowFields_eq, length_map, length_map] at this
    refine ⟨c, ?_, htp, fun r => ?_⟩
    · unfold RecordBatch.columnByName
      rw [hcl, find?_append, find?_eq_none.mpr]
      · simp [hnm]
      · intro d hd
        have hm : (d.name, d.dataType) ∈ arrowFields before := hfr ▸ mem_map.mpr ⟨d, hd, rfl⟩
        rw [hn _ hm]
        exact Bool.false_ne_true
    · obtain ⟨hlen, ha⟩ := @rootLeafValues_append before (.primitive name dataType :: after) front
        (c :: others) hln r
      rw [hr, hcl, ha, getElem?_append_right hlen.le, hlen, Nat.sub_self]
      rfl

/-! ### Windows -/

theorem length_windowsOf (offsets : List Nat) :
    (windowsOf offsets).length = offsets.length - 1 := by
  induction offsets with
  | nil => rfl
  | cons _ rest ih =>
    cases rest with
    | nil => rfl
    | cons =>
      rw [windowsOf, length_cons, ih]
      rfl

/-- The windows of some offsets tile the first `n` rows. -/
def Tiles (offsets : OffsetBuffer) (n : Nat) : Prop :=
  offsets.offsets.head? = some 0 ∧ offsets.offsets.getLast? = some n

theorem Tiles.covers {offsets : OffsetBuffer} {n : Nat} (h : Tiles offsets n) :
    (∀ i < n, Within i offsets.windows) ∧ Below n offsets.windows := by
  obtain ⟨positions, hch⟩ := offsets
  obtain ⟨hh, hlast⟩ := h
  cases positions with
  | nil => cases hh
  | cons =>
    cases hh
    obtain ⟨hc, hb⟩ := tiles_windowsOf hch hlast
    exact ⟨fun i hi => hc i (Nat.zero_le i) hi, hb⟩

def ParquetData.groupStart (f : ParquetData) (i : Nat) : Nat :=
  ((f.rowGroups.take i).map fun g => g.batch.numRows).sum

theorem windowsOf_scanl (l : List Nat) (n i : Nat) {a : Nat} (h : l[i]? = some a) :
    (windowsOf (l.scanl (· + ·) n))[i]? = some ⟨n + (l.take i).sum, n + (l.take i).sum + a⟩ := by
  induction l generalizing n i with
  | nil => cases h
  | cons b l ih =>
    have hw : windowsOf ((b :: l).scanl (· + ·) n) =
        ⟨n, n + b⟩ :: windowsOf (l.scanl (· + ·) (n + b)) := by
      cases l with
      | nil => rfl
      | cons => simp only [scanl_cons, windowsOf]
    rw [hw]
    cases i with
    | zero =>
      cases h
      simp
    | succ i =>
      rw [getElem?_cons_succ, ih (n + b) i h, take_succ_cons, sum_cons, Nat.add_assoc]

/-- The windows of the row groups. -/
theorem windows_groupOffsets {f : ParquetData} {g : RowGroup} {i : Nat}
    (h : f.rowGroups[i]? = some g) :
    (windowsOf f.groupOffsets)[i]? = some ⟨f.groupStart i, f.groupStart i + g.batch.numRows⟩ := by
  have hr : (f.rowGroups.map fun g => g.batch.numRows)[i]? = some g.batch.numRows := by
    rw [getElem?_map, h]
    rfl
  have := windowsOf_scanl _ 0 i hr
  rwa [← map_take, Nat.zero_add] at this

theorem ParquetData.groupOffsets_tile (f : ParquetData) :
    Tiles ⟨f.groupOffsets, isChain_scanl _ 0⟩ (f.groupStart f.rowGroups.length) := by
  constructor
  · unfold groupOffsets
    rw [head?_scanl]
  · unfold groupOffsets
    rw [getLast?_scanl, foldl_eq_apply_foldr, Nat.zero_add, groupStart, take_length]
    rfl

/-! ### What is stored -/

section Stats

variable [ArrayCasts] {f : ParquetData} {name : String} {g : RowGroup} {i k : Nat}
    {dataType : DataType} {cast : Value → Value} {min max : Option Value} {values : List Value}
    {own : Prop}

omit [ArrayCasts] in
theorem mem_sliceRange {r : Range} {v : Value} :
    v ∈ sliceRange values r ↔ ∃ i, r.Has i ∧ values[i]? = some v := by
  constructor
  · intro h
    obtain ⟨n, hn⟩ := getElem?_of_mem h
    rw [sliceRange, getElem?_take, Option.ite_none_right_eq_some, getElem?_drop] at hn
    exact ⟨r.start + n, ⟨Nat.le_add_right _ _, by omega⟩, hn.2⟩
  · rintro ⟨i, ⟨hl, hlt⟩, hv⟩
    refine mem_of_getElem? (i := i - r.start) ?_
    rw [sliceRange, getElem?_take_of_lt (by omega), getElem?_drop, Nat.add_sub_cancel' hl, hv]

/-- What is stored of a leaf is right for some values of a column. If there is no pair, the values
have to be null. A pair of the column itself is right if it is made of stored values of its type.
Any other pair is right if it happens to bound the values. -/
def Right (own : Prop) (kind : Physical) (dataType : DataType) (cast : Value → Value)
    (min max : Option Value) (values : List Value) : Prop :=
  match min, max with
  | some min, some max =>
    (own ∧ (plainValue dataType kind min).isSome ∧ (plainValue dataType kind max).isSome) ∨
      ∀ v ∈ values, v ≠ .null → (cast min).le v ∧ v.le (cast max)
  | _, _ => ∀ v ∈ values, v = .null

/-- What is stored is right exactly if the entries of the arrays bound the values. -/
theorem right_iff (hc : castStat kind dataType = some cast)
    (hown : own → ∀ a ∈ min, ∀ b ∈ max, Bounds dataType kind a b values) :
    Right own kind dataType cast min max values ↔
      ∀ v ∈ values, v ≠ .null → (cast (min.getD .null)).le v ∧ v.le (cast (max.getD .null)) := by
  -- a bound that is missing is a null, and a null bounds nothing
  have hmissing : ∀ {a : Value}, (∀ v ∈ values, v ≠ .null → (cast .null).le v ∧ v.le a ∨
      a.le v ∧ v.le (cast .null)) → ∀ v ∈ values, v = .null := by
    intro a h v hv
    by_contra hn
    have hnull := castStat_null hc
    rcases h v hv hn with ⟨hl, -⟩ | ⟨-, hl⟩
    · exact (ne_null_of_le hl).1 hnull
    · exact (ne_null_of_le hl).2 hnull
  cases min with
  | none =>
    exact ⟨fun h v hv hn => absurd (h v hv) hn, fun h => hmissing fun v hv hn => Or.inl (h v hv hn)⟩
  | some a =>
    cases max with
    | none =>
      exact ⟨fun h v hv hn => absurd (h v hv) hn,
        fun h => hmissing fun v hv hn => Or.inr (h v hv hn)⟩
    | some b =>
      refine ⟨?_, Or.inr⟩
      rintro (⟨ho, ha, hb⟩ | h)
      · obtain ⟨lo, hlo⟩ := Option.isSome_iff_exists.mp ha
        obtain ⟨hi, hhi⟩ := Option.isSome_iff_exists.mp hb
        simp only [Option.getD_some]
        rw [castStat_plain hc hlo, castStat_plain hc hhi]
        exact hown ho a rfl b rfl lo hi hlo hhi
      · exact h

/-! ### Row groups -/

namespace ParquetData

omit [ArrayCasts] in
/-- The column of a name has the type that is found in the schema. -/
theorem fieldType_column {c : Column} (hg : g ∈ f.rowGroups)
    (hc : g.batch.columnByName name = some c) : f.fieldType name = some c.dataType := by
  unfold fieldType
  rw [← f.typed g hg, find?_map]
  have hfn : g.batch.columns.find? ((fun field : String × DataType => field.1 == name) ∘
      fun c => (c.name, c.dataType)) = some c := hc
  rw [hfn]
  rfl

/-- The pair that is stored for a leaf in a row group. -/
def storedPair (g : RowGroup) (k : Nat) : Option (Physical × Option Value × Option Value) :=
  ((g.chunks[k]?).bind ColumnChunk.statistics).bind Statistics.minMax

def storedMin (g : RowGroup) (k : Nat) : Value := ((storedPair g k).bind fun p => p.2.1).getD .null

def storedMax (g : RowGroup) (k : Nat) : Value := ((storedPair g k).bind fun p => p.2.2).getD .null

/-- Statistics of a physical type, with a minimum and a maximum or without both. -/
def HasEntry (g : RowGroup) (k : Nat) (kind : Physical) : Prop :=
  ∃ min max, storedPair g k = some (kind, min, max) ∧ min.isSome = max.isSome

/-- The statistics of the row groups are built for the column: a leaf of its name is found, there is
a row group, all of them have statistics of one physical type, and these can be cast. -/
structure GroupsUsed (f : ParquetData) (name : String) (k : Nat) (kind : Physical)
    (dataType : DataType) (cast : Value → Value) : Prop where
  fieldType : f.fieldType name = some dataType
  found : f.findPrimitiveColumn name = some k
  nonempty : f.rowGroups ≠ []
  entries : ∀ g ∈ f.rowGroups, HasEntry g k kind
  castable : castStat kind dataType = some cast

omit [ArrayCasts] in
/-- What is appended for a row group. -/
theorem groupEntry_eq_some {e : Physical × Value × Value} :
    groupEntry ((g.chunks[k]?).bind ColumnChunk.statistics) = some e ↔
      HasEntry g k e.1 ∧ e = (e.1, storedMin g k, storedMax g k) := by
  unfold groupEntry HasEntry storedMin storedMax storedPair
  obtain ⟨kind, a, b⟩ := e
  cases (g.chunks[k]?).bind ColumnChunk.statistics with
  | none => simp
  | some s =>
    simp only [Option.bind_eq_bind, Option.bind_some]
    cases s.minMax with
    | none => simp
    | some p =>
      obtain ⟨kind', min, max⟩ := p
      cases min with
      | none =>
        cases max with
        | none =>
          constructor
          · rintro ⟨⟩
            exact ⟨⟨none, none, rfl, rfl⟩, rfl⟩
          · rintro ⟨⟨_, _, ⟨⟩, -⟩, he⟩
            exact congrArg some he.symm
        | some => simp
      | some =>
        cases max with
        | none => simp
        | some =>
          constructor
          · intro h
            cases Option.some.inj h
            exact ⟨⟨some a, some b, rfl, rfl⟩, rfl⟩
          · rintro ⟨⟨_, _, ⟨⟩, -⟩, he⟩
            exact congrArg some he.symm

omit [ArrayCasts] in
/-- The loop over the row groups, where it ends with entries of one physical type. -/
theorem mapM_groupEntry {groups : List RowGroup} {entries : List (Physical × Value × Value)} :
    (groups.mapM (fun g => groupEntry ((g.chunks[k]?).bind ColumnChunk.statistics)) =
        some entries ∧ ∀ e ∈ entries, e.1 = kind) ↔
      (∀ g ∈ groups, HasEntry g k kind) ∧
        entries = groups.map fun g => (kind, storedMin g k, storedMax g k) := by
  constructor
  · rintro ⟨h, hk⟩
    have hf := Slots.forall₂_of_mapM h
    clear h
    induction hf with
    | nil => exact ⟨nofun, rfl⟩
    | cons he _ ih =>
      obtain ⟨hfirst, hrest⟩ := forall_mem_cons.mp hk
      obtain ⟨hh, heq⟩ := groupEntry_eq_some.mp he
      obtain ⟨hhs, rfl⟩ := ih hrest
      rw [hfirst] at hh heq
      exact ⟨forall_mem_cons.mpr ⟨hh, hhs⟩, by rw [heq, map_cons]⟩
  · rintro ⟨hh, rfl⟩
    refine ⟨Slots.mapM_eq_some_map fun g hg => groupEntry_eq_some.mpr ⟨hh g hg, rfl⟩, ?_⟩
    intro e he
    obtain ⟨_, -, rfl⟩ := mem_map.mp he
    rfl

omit [ArrayCasts] in
/-- A builder that has an entry for each row group has all entries. -/
theorem completeMinMax_eq_some {entries : List (Physical × Value × Value)}
    {arrays : ArrayRef × ArrayRef} :
    completeMinMax entries entries.length kind = some arrays ↔
      entries ≠ [] ∧ (∀ e ∈ entries, e.1 = kind) ∧
        arrays = (⟨kind.dataType, entries.map fun e => e.2.1⟩,
          ⟨kind.dataType, entries.map fun e => e.2.2⟩) := by
  unfold completeMinMax
  rw [Option.ite_none_right_eq_some]
  have hall : (entries.filter fun e => e.1 = kind).length = entries.length ↔
      ∀ e ∈ entries, e.1 = kind := by simp [length_filter_eq_length_iff]
  constructor
  · rintro ⟨⟨hne, hl⟩, h⟩
    have hk := hall.mp hl
    have hs : entries.filter (fun e => e.1 = kind) = entries :=
      filter_eq_self.mpr (by simpa using hk)
    rw [hs] at hne h
    exact ⟨hne, hk, (Option.some.inj h).symm⟩
  · rintro ⟨hne, hk, rfl⟩
    have hs : entries.filter (fun e => e.1 = kind) = entries :=
      filter_eq_self.mpr (by simpa using hk)
    rw [hs]
    exact ⟨⟨hne, rfl⟩, rfl⟩

omit [ArrayCasts] in
/-- At most one of the builders has an entry for each row group. -/
theorem findSome_completeMinMax {entries : List (Physical × Value × Value)}
    {arrays : ArrayRef × ArrayRef} :
    [Physical.byteArray, .int32, .int64, .boolean].findSome?
        (completeMinMax entries entries.length) = some arrays ↔
      ∃ kind, completeMinMax entries entries.length kind = some arrays := by
  constructor
  · intro h
    obtain ⟨kind, -, hk⟩ := exists_of_findSome?_eq_some h
    exact ⟨kind, hk⟩
  · rintro ⟨kind, hk⟩
    obtain ⟨hne, hks, -⟩ := completeMinMax_eq_some.mp hk
    have hother : ∀ kind' ≠ kind, completeMinMax entries entries.length kind' = none := by
      intro kind' hd
      rw [Option.eq_none_iff_forall_ne_some]
      intro arrays' h'
      obtain ⟨e, he⟩ := exists_mem_of_ne_nil _ hne
      exact hd (((completeMinMax_eq_some.mp h').2.1 e he).symm.trans (hks e he))
    cases kind <;> simp [hother, hk]

/-- The statistics that are built of the pairs of the row groups. -/
theorem buildGroupStats_eq_some {stats : ColumnStats} :
    f.buildGroupStats name = some stats ↔ ∃ k kind dataType cast,
      f.GroupsUsed name k kind dataType cast ∧
      stats = ⟨⟨f.groupOffsets, isChain_scanl _ 0⟩,
        ⟨dataType, f.rowGroups.map fun g => cast (storedMin g k)⟩,
        ⟨dataType, f.rowGroups.map fun g => cast (storedMax g k)⟩⟩ := by
  constructor
  · intro h
    unfold buildGroupStats at h
    obtain ⟨dataType, ht, h⟩ := Option.bind_eq_some_iff.mp h
    obtain ⟨k, hk, h⟩ := Option.bind_eq_some_iff.mp h
    obtain ⟨entries, hen, h⟩ := Option.bind_eq_some_iff.mp h
    obtain ⟨⟨min, max⟩, hmM, h⟩ := Option.bind_eq_some_iff.mp h
    obtain ⟨min', hmn, h⟩ := Option.bind_eq_some_iff.mp h
    obtain ⟨max', hmx, h⟩ := Option.bind_eq_some_iff.mp h
    rw [(Slots.forall₂_of_mapM hen).length_eq, findSome_completeMinMax] at hmM
    obtain ⟨kind, hcm⟩ := hmM
    obtain ⟨hne, hks, harr⟩ := completeMinMax_eq_some.mp hcm
    obtain ⟨rfl, rfl⟩ := Prod.mk.inj harr
    obtain ⟨hhas, rfl⟩ := mapM_groupEntry.mp ⟨hen, hks⟩
    rw [castStatArray_eq] at hmn hmx
    obtain ⟨cast, hc, rfl⟩ := Option.map_eq_some_iff.mp hmn
    rw [hc] at hmx
    cases hmx
    refine ⟨k, kind, dataType, cast, ⟨ht, hk, ?_, hhas, hc⟩, ?_⟩
    · exact fun hn => hne (by rw [hn, map_nil])
    · rw [← Option.some.inj h]
      simp only [map_map, Function.comp_def]
  · rintro ⟨k, kind, dataType, cast, hu, rfl⟩
    obtain ⟨hen, hks⟩ := mapM_groupEntry.mpr ⟨hu.entries, rfl⟩
    have hcm := completeMinMax_eq_some.mpr ⟨?_, hks, rfl⟩
    · have hmM := findSome_completeMinMax.mpr ⟨kind, hcm⟩
      rw [length_map] at hmM
      unfold buildGroupStats
      rw [hu.fieldType, Option.bind_eq_bind, Option.bind_some, hu.found]
      simp only [Option.bind_eq_bind, Option.bind_some, hen, hmM, castStatArray_eq, hu.castable,
        Option.map_some, map_map]
      rfl
    · exact fun hn => hu.nonempty (map_eq_nil_iff.mp hn)

/-- The statistics of the row groups tile the rows of the file, one window for each row group, and
bound the values of the column. -/
def DescribesGroups (f : ParquetData) (name : String) (stats : ColumnStats) : Prop :=
  Tiles stats.offsets (f.groupStart f.rowGroups.length) ∧
    stats.offsets.windows.length = f.rowGroups.length ∧
    ∀ w g, f.rowGroups[w]? = some g →
      stats.offsets.windows[w]? = some ⟨f.groupStart w, f.groupStart w + g.batch.numRows⟩ ∧
      ∀ c ∈ g.batch.columnByName name, ∀ j, BoundsAt c.toArrayRef stats w j

omit [ArrayCasts] in
/-- If the column is the leaf that is found, then the pairs of the row groups bound its values. -/
theorem Described.groups_own (hd : f.Described) (hdir : Direct f.root name)
    (ht : f.fieldType name = some dataType) (hk : f.findPrimitiveColumn name = some k)
    (hg : g ∈ f.rowGroups) {c : Column} (hc : g.batch.columnByName name = some c)
    (hp : storedPair g k = some (kind, min, max)) :
    ∀ a ∈ min, ∀ b ∈ max, Bounds dataType kind a b c.values := by
  rintro a rfl b rfl
  obtain ⟨_, _, hat⟩ := hdir.foundAt
  cases hk.symm.trans hat.found
  cases ht.symm.trans hat.fieldType
  obtain ⟨_, hc', -, hlf⟩ := hat.column g hg
  cases hc.symm.trans hc'
  obtain ⟨s, hst, hp⟩ := Option.bind_eq_some_iff.mp hp
  obtain ⟨chunk, hch, hs⟩ := Option.bind_eq_some_iff.mp hst
  have hl : c.values.length = g.batch.numRows := g.batch.lengths c (mem_of_find?_eq_some hc)
  have hall : sliceRange c.values ⟨0, g.batch.numRows⟩ = c.values := by
    rw [sliceRange, drop_zero, Nat.sub_zero, ← hl, take_length]
  have hv := hlf ⟨0, g.batch.numRows⟩
  rw [hall] at hv
  exact hd.groups g hg k chunk _ hch hat.leaf s hs kind a b hp c.values hv

/-- The statistics that are built of the row groups are right exactly if what is stored is. -/
theorem describesGroups_iff (hd : f.Described) (hu : f.GroupsUsed name k kind dataType cast) :
    f.DescribesGroups name ⟨⟨f.groupOffsets, isChain_scanl _ 0⟩,
        ⟨dataType, f.rowGroups.map fun g => cast (storedMin g k)⟩,
        ⟨dataType, f.rowGroups.map fun g => cast (storedMax g k)⟩⟩ ↔
      ∀ g ∈ f.rowGroups, ∀ min max, storedPair g k = some (kind, min, max) →
        ∀ c ∈ g.batch.columnByName name,
          Right (Direct f.root name) kind dataType cast min max c.values := by
  have hright : ∀ g ∈ f.rowGroups, ∀ c ∈ g.batch.columnByName name, ∀ min max,
      storedPair g k = some (kind, min, max) →
      (Right (Direct f.root name) kind dataType cast min max c.values ↔
        ∀ v ∈ c.values, v ≠ .null →
          (cast (storedMin g k)).le v ∧ v.le (cast (storedMax g k))) := by
    intro g hg c hc min max hp
    rw [right_iff hu.castable fun hdir => hd.groups_own hdir hu.fieldType hu.found hg hc hp,
      storedMin, storedMax, hp]
    rfl
  constructor
  · rintro ⟨-, -, h⟩ g hg min max hp c hc
    rw [hright g hg c hc min max hp]
    intro v hv hn
    obtain ⟨w, hw⟩ := getElem?_of_mem hg
    obtain ⟨j, hj⟩ := getElem?_of_mem hv
    obtain ⟨lo, hi, hlo, hhi, hb⟩ := ((h w g hw).2 c hc j).bounds v hj hn
    simp only [getElem?_map, hw, Option.map_some, Option.some.injEq] at hlo hhi
    rw [hlo, hhi]
    exact hb
  · intro h
    refine ⟨f.groupOffsets_tile, ?_, fun w g hw => ⟨windows_groupOffsets hw, fun c hc j => ?_⟩⟩
    · rw [OffsetBuffer.windows, length_windowsOf]
      simp [groupOffsets]
    · have hg := mem_of_getElem? hw
      have hlt : w < f.rowGroups.length := (List.getElem?_eq_some_iff.mp hw).1
      obtain ⟨min, max, hp, -⟩ := hu.entries g hg
      have hb := (hright g hg c hc min max hp).mp (h g hg min max hp c hc)
      have hty : c.dataType = dataType :=
        Option.some.inj ((fieldType_column hg hc).symm.trans hu.fieldType)
      refine ⟨hty.symm, hty.symm, by simpa using hlt, by simpa using hlt, fun v hv hn => ?_⟩
      refine ⟨_, _, ?_, ?_, hb v (mem_of_getElem? hv) hn⟩
      · simp only [getElem?_map, hw, Option.map_some]
      · simp only [getElem?_map, hw, Option.map_some]

/-! ### Pages -/

/-- The statistics of the pages are built for the column in a row group: the file has the indexes, a
leaf of its name is found, its pages have entries, and these can be cast. -/
structure PagesUsed (f : ParquetData) (g : RowGroup) (name : String) (k : Nat) (kind : Physical)
    (dataType : DataType) (cast : Value → Value) (chunk : ColumnChunk)
    (indexes : List (Option Value × Option Value)) : Prop where
  indexed : f.hasOffsetIndex ∧ f.hasColumnIndex
  fieldType : f.fieldType name = some dataType
  found : f.findPrimitiveColumn name = some k
  stored : g.chunks[k]? = some chunk
  index : chunk.index.minMax = some (kind, indexes)
  castable : castStat kind dataType = some cast

variable {chunk : ColumnChunk} {indexes : List (Option Value × Option Value)} {stats : ColumnStats}

/-- The statistics that are built of the pairs of the pages. -/
theorem buildPageStats_eq_some (hg : f.rowGroups[i]? = some g) :
    f.buildPageStats i name = some stats ↔ ∃ k kind dataType cast chunk indexes,
      f.PagesUsed g name k kind dataType cast chunk indexes ∧
      stats.offsets.offsets = chunk.firstRows ++ [g.batch.numRows] ∧
      stats.min = ⟨dataType, indexes.map fun p => cast (p.1.getD .null)⟩ ∧
      stats.max = ⟨dataType, indexes.map fun p => cast (p.2.getD .null)⟩ := by
  constructor
  · intro h
    unfold buildPageStats at h
    obtain ⟨dataType, hty, h⟩ := Option.bind_eq_some_iff.mp h
    obtain ⟨k, hk, h⟩ := Option.bind_eq_some_iff.mp h
    obtain ⟨_, hg', h⟩ := Option.bind_eq_some_iff.mp h
    cases hg.symm.trans hg'
    obtain ⟨_, hgd, h⟩ := Option.bind_eq_some_iff.mp h
    split at h
    · rename_i hlt
      obtain ⟨⟨_, _⟩, hmM, h⟩ := Option.bind_eq_some_iff.mp h
      obtain ⟨min', hm, h⟩ := Option.bind_eq_some_iff.mp h
      obtain ⟨max', hmx, h⟩ := Option.bind_eq_some_iff.mp h
      cases h
      obtain ⟨⟨kind, indexes⟩, hid, h⟩ := Option.bind_eq_some_iff.mp hmM
      cases h
      rw [castStatArray_eq] at hm hmx
      obtain ⟨cast, hc, rfl⟩ := Option.map_eq_some_iff.mp hm
      rw [hc] at hmx
      cases hmx
      refine ⟨k, kind, dataType, cast, _, indexes,
        ⟨?_, hty, hk, getElem?_eq_getElem hlt, hid, hc⟩, rfl, ?_, ?_⟩
      · by_contra hn
        rw [guard, if_neg hn] at hgd
        cases hgd
      · simp only [map_map, Function.comp_def]
      · simp only [map_map, Function.comp_def]
    · cases h
  · rintro ⟨k, kind, dataType, cast, chunk, indexes, hu, ho, hmin, hmax⟩
    obtain ⟨hlt, hch⟩ := List.getElem?_eq_some_iff.mp hu.stored
    have hid := hu.index
    rw [← hch] at hid ho
    unfold buildPageStats
    simp only [hu.fieldType, hu.found, hg, Option.bind_eq_bind, Option.bind_some, guard,
      if_pos hu.indexed, dif_pos hlt, chunkPageStats, pageArrays, hid, castStatArray_eq,
      hu.castable, Option.map_some, Option.pure_def, map_map]
    obtain ⟨⟨offsets, hasc⟩, min, max⟩ := stats
    dsimp only at ho hmin hmax
    subst ho hmin hmax
    rfl

/-- The statistics of the pages tile the rows of the row group and bound the values of the
column. -/
def DescribesPages (g : RowGroup) (name : String) (stats : ColumnStats) : Prop :=
  Tiles stats.offsets g.batch.numRows ∧
    ∀ c ∈ g.batch.columnByName name, StatsFor c.toArrayRef stats

omit [ArrayCasts] in
/-- If the column is the leaf that is found, then the pairs of the pages bound its values. -/
theorem Described.pages_own (hd : f.Described) (hdir : Direct f.root name)
    (ht : f.fieldType name = some dataType) (hk : f.findPrimitiveColumn name = some k)
    (hg : g ∈ f.rowGroups) {c : Column} (hc : g.batch.columnByName name = some c)
    (hch : g.chunks[k]? = some chunk) (hid : chunk.index.minMax = some (kind, indexes)) {w : Nat}
    {r : Range} (hw : (chunk.windows g.batch.numRows)[w]? = some r)
    (he : indexes[w]? = some (min, max)) :
    ∀ a ∈ min, ∀ b ∈ max, Bounds dataType kind a b (sliceRange c.values r) := by
  rintro a rfl b rfl
  obtain ⟨_, _, hat⟩ := hdir.foundAt
  cases hk.symm.trans hat.found
  cases ht.symm.trans hat.fieldType
  obtain ⟨_, hc', -, hlf⟩ := hat.column g hg
  cases hc.symm.trans hc'
  exact hd.pages g hg k chunk _ hch hat.leaf kind indexes hid w r a b hw he _ (hlf r)

/-- The statistics that are built of the pages are right exactly if what is stored is. -/
theorem describesPages_iff (hd : f.Described) (hg : g ∈ f.rowGroups)
    (hu : f.PagesUsed g name k kind dataType cast chunk indexes)
    (ho : stats.offsets.offsets = chunk.firstRows ++ [g.batch.numRows])
    (hmin : stats.min = ⟨dataType, indexes.map fun p => cast (p.1.getD .null)⟩)
    (hmax : stats.max = ⟨dataType, indexes.map fun p => cast (p.2.getD .null)⟩) :
    DescribesPages g name stats ↔
      ∀ (w : Nat) (r : Range) (min max : Option Value),
        (chunk.windows g.batch.numRows)[w]? = some r → indexes[w]? = some (min, max) →
        ∀ c ∈ g.batch.columnByName name,
          Right (Direct f.root name) kind dataType cast min max (sliceRange c.values r) := by
  have hwin : stats.offsets.windows = chunk.windows g.batch.numRows := by
    rw [OffsetBuffer.windows, ho]
    rfl
  have hright : ∀ c ∈ g.batch.columnByName name, ∀ (w : Nat) (r : Range) (min max : Option Value),
      (chunk.windows g.batch.numRows)[w]? = some r → indexes[w]? = some (min, max) →
      (Right (Direct f.root name) kind dataType cast min max (sliceRange c.values r) ↔
        ∀ v ∈ sliceRange c.values r, v ≠ .null →
          (cast (min.getD .null)).le v ∧ v.le (cast (max.getD .null))) := by
    intro c hc w r min max hw he
    exact right_iff hu.castable fun hdir =>
      hd.pages_own hdir hu.fieldType hu.found hg hc hu.stored hu.index hw he
  constructor
  · rintro ⟨-, h⟩ w r min max hw he c hc
    rw [hright c hc w r min max hw he]
    intro v hv hn
    obtain ⟨j, hj, hvj⟩ := mem_sliceRange.mp hv
    obtain ⟨lo, hi, hlo, hhi, hb⟩ := (h c hc).bounds w r (hwin ▸ hw) j v hj hvj hn
    simp only [hmin, hmax, getElem?_map, he, Option.map_some, Option.some.injEq] at hlo hhi
    rw [hlo, hhi]
    exact hb
  · intro h
    have hp := g.paged chunk (mem_of_getElem? hu.stored)
    have ht : Tiles stats.offsets g.batch.numRows := by
      constructor
      · rw [ho, hp.starts]
      · rw [ho, getLast?_concat]
    have hlen : indexes.length = stats.offsets.windows.length := by
      rw [OffsetBuffer.windows, ho, length_windowsOf, length_append, length_singleton,
        Nat.add_sub_cancel]
      exact hp.entries kind indexes hu.index
    refine ⟨ht, fun c hc => ?_⟩
    have hl : c.values.length = g.batch.numRows := g.batch.lengths c (mem_of_find?_eq_some hc)
    have hty : c.dataType = dataType :=
      Option.some.inj ((fieldType_column hg hc).symm.trans hu.fieldType)
    obtain ⟨hcv, hbl⟩ := ht.covers
    refine ⟨by rw [hmin, hty], by rw [hmax, hty], by rw [hmin, length_map, hlen],
      by rw [hmax, length_map, hlen], fun i hi => hcv i (hi.trans_eq hl),
      fun r hr => (hbl r hr).trans hl.ge, fun w r hw j v hj hvj hn => ?_⟩
    have hlt : w < indexes.length := hlen ▸ (List.getElem?_eq_some_iff.mp hw).1
    obtain ⟨⟨min, max⟩, he⟩ : ∃ p, indexes[w]? = some p := ⟨_, getElem?_eq_getElem hlt⟩
    have hw' : (chunk.windows g.batch.numRows)[w]? = some r := hwin ▸ hw
    have hb := (hright c hc w r min max hw' he).mp (h w r min max hw' he c hc)
    refine ⟨_, _, ?_, ?_, hb v (mem_sliceRange.mpr ⟨j, hj, hvj⟩) hn⟩
    · simp only [hmin, getElem?_map, he, Option.map_some]
    · simp only [hmax, getElem?_map, he, Option.map_some]

/-- The statistics of a column can be relied on: where they are built, what is stored for the row
groups and the pages is right for the column. -/
structure Sure (f : ParquetData) (name : String) : Prop where
  groups : ∀ k kind dataType cast, f.GroupsUsed name k kind dataType cast → ∀ g ∈ f.rowGroups,
    ∀ min max, storedPair g k = some (kind, min, max) → ∀ c ∈ g.batch.columnByName name,
      Right (Direct f.root name) kind dataType cast min max c.values
  pages : ∀ g ∈ f.rowGroups, ∀ k kind dataType cast chunk indexes,
    f.PagesUsed g name k kind dataType cast chunk indexes →
    ∀ (w : Nat) (r : Range) (min max : Option Value),
      (chunk.windows g.batch.numRows)[w]? = some r → indexes[w]? = some (min, max) →
      ∀ c ∈ g.batch.columnByName name,
        Right (Direct f.root name) kind dataType cast min max (sliceRange c.values r)

theorem Sure.describesGroups (h : f.Sure name) (hd : f.Described)
    (hb : f.buildGroupStats name = some stats) : f.DescribesGroups name stats := by
  obtain ⟨k, kind, dataType, cast, hu, rfl⟩ := buildGroupStats_eq_some.mp hb
  exact (describesGroups_iff hd hu).mpr (h.groups k kind dataType cast hu)

theorem Sure.describesPages (h : f.Sure name) (hd : f.Described) (hg : f.rowGroups[i]? = some g)
    (hb : f.buildPageStats i name = some stats) : DescribesPages g name stats := by
  have hm := mem_of_getElem? hg
  obtain ⟨k, kind, dataType, cast, chunk, indexes, hu, ho, hmin, hmax⟩ :=
    (buildPageStats_eq_some hg).mp hb
  exact (describesPages_iff hd hm hu ho hmin hmax).mpr
    (h.pages g hm k kind dataType cast chunk indexes hu)

/-- The statistics of a column are right exactly if they can be relied on. -/
theorem describes_iff_sure (hd : f.Described) :
    ((∀ stats, f.buildGroupStats name = some stats → f.DescribesGroups name stats) ∧
      ∀ i g, f.rowGroups[i]? = some g → ∀ stats, f.buildPageStats i name = some stats →
        DescribesPages g name stats) ↔ f.Sure name := by
  constructor
  · rintro ⟨hgroups, hpages⟩
    constructor
    · intro k kind dataType cast hu
      exact (describesGroups_iff hd hu).mp
        (hgroups _ (buildGroupStats_eq_some.mpr ⟨k, kind, dataType, cast, hu, rfl⟩))
    · intro g hg k kind dataType cast chunk indexes hu
      obtain ⟨i, hi⟩ := getElem?_of_mem hg
      have hp := g.paged chunk (mem_of_getElem? hu.stored)
      have hb : f.buildPageStats i name = some
          ⟨⟨chunk.firstRows ++ [g.batch.numRows], hp.ascending⟩,
            ⟨dataType, indexes.map fun p => cast (p.1.getD .null)⟩,
            ⟨dataType, indexes.map fun p => cast (p.2.getD .null)⟩⟩ :=
        (buildPageStats_eq_some hi).mpr
          ⟨k, kind, dataType, cast, chunk, indexes, hu, rfl, rfl, rfl⟩
      exact (describesPages_iff hd hg hu rfl rfl rfl).mp (hpages i g hi _ hb)
  · intro h
    exact ⟨fun stats hb => h.describesGroups hd hb,
      fun i g hg stats hb => h.describesPages hd hg hb⟩

end ParquetData

end Stats

end Query
