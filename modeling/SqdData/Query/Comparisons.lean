import SqdData.Query.RowWise

/-!
# Comparisons of integers

A scalar of one integer type is compared with a column of another one. The scalar is cast to the
type of the column; where this type does not hold it, the answer is the same for all rows. These
answers do not look at the nulls of the column: a bound that all values satisfy selects the null
rows as well.
-/

namespace Query

open Arrow Storage

/-- What `tower_cast` is for: a number that the type cannot hold lies below or above all its
values. -/
def towerCast (value : Int) (target : IntType) : CastResult :=
  if Holds target value then .cast (.int value)
  else if value > target.greatest then .greater
  else .less

variable {src target : IntType}

/-- The common type holds both types. -/
theorem commonType_holds (hne : src ≠ target) :
    (commonType src target).least ≤ min src.least target.least ∧
      max src.greatest target.greatest <
        (commonType src target).least + 2 ^ (commonType src target).bits := by
  obtain ⟨s, w⟩ := src
  obtain ⟨s', w'⟩ := target
  cases s <;> cases s' <;> cases w <;> cases w' <;> first | exact absurd rfl hne | decide

theorem commonType_wrap (hne : src ≠ target) {x : Int} (hl : min src.least target.least ≤ x)
    (hh : x ≤ max src.greatest target.greatest) : (commonType src target).wrap x = x := by
  obtain ⟨_, _⟩ := commonType_holds hne
  rw [CommonType.wrap, Int.emod_eq_of_lt] <;> omega

theorem least_le_greatest (t : IntType) : t.least ≤ t.greatest := by
  obtain ⟨s, w⟩ := t
  cases s <;> cases w <;> decide

theorem towerCastImpl_of_holds {value : Int} (h : Holds target value) :
    towerCastImpl src target value = some (.cast (.int value)) := if_pos h

/-- Comparing in the common type tells that a number lies above the target type. -/
theorem towerCastImpl_of_greater (hne : src ≠ target) {value : Int} (h : Holds src value)
    (hgt : target.greatest < value) : towerCastImpl src target value = some .greater := by
  have ht := least_le_greatest target
  have hv := @commonType_wrap _ _ hne value (le_trans (min_le_left ..) h.1)
    (le_trans h.2 (le_max_left ..))
  have hg := @commonType_wrap _ _ hne target.greatest
    (le_trans (min_le_right ..) ht) (le_max_right ..)
  have hn : ¬ Holds target value := fun hin => by have := hin.2; omega
  simp only [towerCastImpl, if_neg hn, hv, hg]
  exact if_pos hgt

/-- Nor does the assertion fail for a number below it. -/
theorem towerCastImpl_of_less (hne : src ≠ target) {value : Int} (h : Holds src value)
    (hlt : value < target.least) : towerCastImpl src target value = some .less := by
  have ht := least_le_greatest target
  have hv := @commonType_wrap _ _ hne value (le_trans (min_le_left ..) h.1)
    (le_trans h.2 (le_max_left ..))
  have hg := @commonType_wrap _ _ hne target.greatest
    (le_trans (min_le_right ..) ht) (le_max_right ..)
  have hl := @commonType_wrap _ _ hne target.least (min_le_right ..) (le_trans ht (le_max_right ..))
  have hn : ¬ Holds target value := fun hin => by have := hin.1; omega
  simp only [towerCastImpl, if_neg hn, hv, hg, hl]
  rw [if_neg (by omega), if_pos hlt]

/-- The table of common types is right: the cast answers as if there were no bounds. -/
theorem towerCastImpl_eq (hne : src ≠ target) {value : Int} (h : Holds src value) :
    towerCastImpl src target value = some (towerCast value target) := by
  unfold towerCast
  by_cases hin : Holds target value
  · rw [if_pos hin, towerCastImpl_of_holds hin]
  · rw [if_neg hin]
    by_cases hgt : target.greatest < value
    · rw [if_pos hgt, towerCastImpl_of_greater hne h hgt]
    · have hlt : value < target.least := by
        simp only [Holds] at hin
        omega
      rw [if_neg hgt, towerCastImpl_of_less hne h hlt]

theorem large_byte_is_greater :
    towerCastImpl ⟨false, .w8⟩ ⟨true, .w8⟩ 200 = some (towerCast 200 ⟨true, .w8⟩) :=
  towerCastImpl_eq (by decide) (by decide)

section Selection

variable [Casts]

def intScalar (t : IntType) (x : Int) : Scalar := { dataType := .int t, value := .int x }

def IntColumn (t : IntType) (values : List Value) : Prop :=
  ∀ v ∈ values, v = .null ∨ ∃ x, v = .int x ∧ Holds t x

theorem withScalar_int {src target : IntType} {x : Int} (hx : Holds src x) {values : List Value}
    {less greater : Bool} {f : Value → BooleanArray} :
    withScalar (intScalar src x) { dataType := .int target, values } less greater f =
      .ok (if Holds target x then f (.int x)
        else zeroMask values.length (if target.greatest < x then greater else less)) := by
  by_cases hs : src = target
  · subst hs
    simp only [withScalar, castScalar, intScalar, if_true, Except.map, if_pos hx]
  · have hne : DataType.int src ≠ .int target := by simpa using hs
    have hcast : ∀ result, towerCastImpl src target x = some result →
        castScalar (intScalar src x) (.int target) = .ok result := by
      intro result hr
      simp only [castScalar, intScalar, if_neg hne, hr]
    by_cases hin : Holds target x
    · rw [if_pos hin, withScalar, hcast _ (towerCastImpl_of_holds hin)]
      rfl
    · rw [if_neg hin]
      by_cases ha : target.greatest < x
      · rw [if_pos ha, withScalar, hcast _ (towerCastImpl_of_greater hs hx ha)]
        rfl
      · have hlt : x < target.least := by
          simp only [Holds] at hin
          omega
        rw [if_neg ha, withScalar, hcast _ (towerCastImpl_of_less hs hx hlt)]
        rfl

omit [Casts] in
theorem isSet_zeroMask {n : Nat} {b : Bool} {i : Nat} :
    IsSet (zeroMask n b) i ↔ i < n ∧ b = true := by
  simp [IsSet, zeroMask, List.getElem?_replicate]

/-- A comparison selects the rows that satisfy it, and the null rows if the answer is the same for
all values. -/
theorem isSet_withScalar {src target : IntType} {x : Int} (hx : Holds src x) {values : List Value}
    (hvl : IntColumn target values) {less greater : Bool} {test : Value → Value → Bool}
    {rel : Int → Prop} (ht : ∀ y, test (.int x) (.int y) = true ↔ rel y)
    (hl : x < target.least → ∀ y, Holds target y → (rel y ↔ less = true))
    (hg : target.greatest < x → ∀ y, Holds target y → (rel y ↔ greater = true)) :
    ∃ mask, withScalar (intScalar src x) { dataType := .int target, values } less greater
        (fun v => compareWith (test v) values) = .ok mask ∧
      ∀ i, IsSet mask i ↔ (∃ y, values[i]? = some (.int y) ∧ rel y) ∨
        (values[i]? = some .null ∧
          ((x < target.least ∧ less = true) ∨ (target.greatest < x ∧ greater = true))) := by
  refine ⟨_, withScalar_int hx, fun i => ?_⟩
  by_cases hin : Holds target x
  · rw [if_pos hin, IsSet, getElem?_compareWith]
    simp only [Holds] at hin
    constructor
    · rintro ⟨v, hv, hn, htr⟩
      rcases hvl v (List.mem_of_getElem? hv) with rfl | ⟨y, rfl, -⟩
      · exact absurd rfl hn
      · exact .inl ⟨y, hv, (ht y).mp htr⟩
    · rintro (⟨y, hy, hr⟩ | ⟨-, ho | ho⟩)
      · exact ⟨.int y, hy, by simp, (ht y).mpr hr⟩
      · omega
      · omega
  · rw [if_neg hin, isSet_zeroMask]
    have ho : x < target.least ∨ target.greatest < x := by
      simp only [Holds] at hin
      omega
    have hle := least_le_greatest target
    have hconst : ∀ y, Holds target y →
        (rel y ↔ (if target.greatest < x then greater else less) = true) := by
      intro y hy
      rcases ho with ho | ho
      · rw [if_neg (by omega)]
        exact hl ho y hy
      · rw [if_pos ho]
        exact hg ho y hy
    have ha : (if target.greatest < x then greater else less) = true ↔
        (x < target.least ∧ less = true) ∨ (target.greatest < x ∧ greater = true) := by
      rcases ho with ho | ho
      · simp [ho, show ¬ target.greatest < x by omega]
      · simp [ho, show ¬ x < target.least by omega]
    constructor
    · rintro ⟨hi, hb⟩
      rcases hvl _ (List.getElem_mem hi) with hn | ⟨y, hy, hh⟩
      · exact .inr ⟨by rw [List.getElem?_eq_getElem hi, hn], ha.mp hb⟩
      · exact .inl ⟨y, by rw [List.getElem?_eq_getElem hi, hy], (hconst y hh).mpr hb⟩
    · rintro (⟨y, hy, hr⟩ | ⟨hn, hb⟩)
      · refine ⟨(List.getElem?_eq_some_iff.mp hy).1, (hconst y ?_).mp hr⟩
        rcases hvl _ (List.mem_of_getElem? hy) with hn | ⟨_, hz, hh⟩
        · cases hn
        · cases hz
          exact hh
      · exact ⟨(List.getElem?_eq_some_iff.mp hn).1, ha.mpr hb⟩

section Column

variable {src target : IntType} {x : Int} {values : List Value}

theorem eq_selects (hx : Holds src x) (hv : IntColumn target values) :
    ∃ mask, ArrayPredicate.evaluate (.eq (intScalar src x)) { dataType := .int target, values } =
        .ok mask ∧ ∀ i, IsSet mask i ↔ ∃ y, values[i]? = some (.int y) ∧ y = x := by
  obtain ⟨mask, hm, hs⟩ := @isSet_withScalar _ _ _ _ hx _ hv false false
    (fun v y => y = v) (· = x) (by simp) (fun ho y hy => by have := hy.1; simp; omega)
    (fun ho y hy => by have := hy.2; simp; omega)
  rw [ArrayPredicate.evaluate]
  refine ⟨mask, hm, fun i => (hs i).trans (or_iff_left ?_)⟩
  simp

/-- A bound above all values of the type selects the nulls. -/
theorem gtEq_selects (hx : Holds src x) (hv : IntColumn target values) :
    ∃ mask, ArrayPredicate.evaluate (.gtEq (intScalar src x)) { dataType := .int target, values } =
        .ok mask ∧ ∀ i, IsSet mask i ↔ (∃ y, values[i]? = some (.int y) ∧ y ≤ x) ∨
          (values[i]? = some .null ∧ target.greatest < x) := by
  obtain ⟨mask, hm, hs⟩ := @isSet_withScalar _ _ _ _ hx _ hv false true
    (fun v y => y.le v) (· ≤ x) (fun y => decide_eq_true_iff)
    (fun ho y hy => by have := hy.1; simp; omega) (fun ho y hy => by have := hy.2; simp; omega)
  rw [ArrayPredicate.evaluate]
  exact ⟨mask, hm, fun i => (hs i).trans (by simp)⟩

/-- A bound below all values of the type selects the nulls. -/
theorem ltEq_selects (hx : Holds src x) (hv : IntColumn target values) :
    ∃ mask, ArrayPredicate.evaluate (.ltEq (intScalar src x)) { dataType := .int target, values } =
        .ok mask ∧ ∀ i, IsSet mask i ↔ (∃ y, values[i]? = some (.int y) ∧ x ≤ y) ∨
          (values[i]? = some .null ∧ x < target.least) := by
  obtain ⟨mask, hm, hs⟩ := @isSet_withScalar _ _ _ _ hx _ hv true false
    (fun v y => v.le y) (x ≤ ·) (fun y => decide_eq_true_iff)
    (fun ho y hy => by have := hy.1; simp; omega) (fun ho y hy => by have := hy.2; simp; omega)
  rw [ArrayPredicate.evaluate]
  exact ⟨mask, hm, fun i => (hs i).trans (by simp)⟩

end Column

omit [Casts] in
/-- A mask that may select nulls besides what it should is right if there are none to select. -/
theorem exists_mask_iff {result : Except Error BooleanArray} {mask : BooleanArray}
    {values : List Value} {wanted : Nat → Prop} {outside : Prop} (hm : result = .ok mask)
    (hs : ∀ i, IsSet mask i ↔ wanted i ∨ (values[i]? = some .null ∧ outside))
    (hw : ∀ i, wanted i → values[i]? ≠ some .null) :
    (∃ mask, result = .ok mask ∧ ∀ i, IsSet mask i ↔ wanted i) ↔
      ¬ outside ∨ Value.null ∉ values := by
  constructor
  · rintro ⟨_, hm', hs'⟩
    cases hm.symm.trans hm'
    by_contra hc
    obtain ⟨ho, hn⟩ := not_or.mp hc
    obtain ⟨i, hi⟩ := List.mem_iff_getElem?.mp (not_not.mp hn)
    exact hw i ((hs' i).mp ((hs i).mpr (.inr ⟨hi, not_not.mp ho⟩))) hi
  · intro hbound
    refine ⟨mask, hm, fun i => (hs i).trans (or_iff_left ?_)⟩
    rintro ⟨hi, ho⟩
    rcases hbound with hbound | hbound
    · exact hbound ho
    · exact hbound (List.mem_of_getElem? hi)

/-- Each comparison selects the rows with a value that satisfies it over the integers, if and only
if the column has no nulls or the bounds are not satisfied by all values of the column's type. -/
theorem integer_comparisons_are_exact_iff {src target : IntType} {x : Int} {values : List Value}
    (hx : Holds src x) (hvalues : IntColumn target values) :
    (∃ mask, ArrayPredicate.evaluate (.eq (intScalar src x)) { dataType := .int target, values } =
        .ok mask ∧ ∀ i, IsSet mask i ↔ ∃ y, values[i]? = some (.int y) ∧ y = x) ∧
    ((∃ mask, ArrayPredicate.evaluate (.gtEq (intScalar src x)) { dataType := .int target, values }
        = .ok mask ∧ ∀ i, IsSet mask i ↔ ∃ y, values[i]? = some (.int y) ∧ y ≤ x) ↔
      x ≤ target.greatest ∨ Value.null ∉ values) ∧
    ((∃ mask, ArrayPredicate.evaluate (.ltEq (intScalar src x)) { dataType := .int target, values }
        = .ok mask ∧ ∀ i, IsSet mask i ↔ ∃ y, values[i]? = some (.int y) ∧ x ≤ y) ↔
      target.least ≤ x ∨ Value.null ∉ values) ∧
    ∀ (name : String) (batch : RecordBatch) (c : Column) (src' : IntType) (high : Int),
      batch.columnByName name = some c → c.toArrayRef = { dataType := .int target, values } →
      Holds src' high →
      ((∃ mask, (colBetween name (intScalar src x) (intScalar src' high)).evaluate batch =
          .ok mask ∧ ∀ i, IsSet mask i ↔ ∃ y, values[i]? = some (.int y) ∧ x ≤ y ∧ y ≤ high) ↔
        target.least ≤ x ∨ high ≤ target.greatest ∨ Value.null ∉ values) := by
  have hn : ∀ (p : Int → Prop) (i : Nat), (∃ y, values[i]? = some (.int y) ∧ p y) →
      values[i]? ≠ some .null := by
    rintro p i ⟨y, hy, -⟩ hi
    cases hy.symm.trans hi
  refine ⟨eq_selects hx hvalues, ?_, ?_, ?_⟩
  · obtain ⟨mask, hm, hs⟩ := gtEq_selects hx hvalues
    rw [exists_mask_iff hm hs (hn _), not_lt]
  · obtain ⟨mask, hm, hs⟩ := ltEq_selects hx hvalues
    rw [exists_mask_iff hm hs (hn _), not_lt]
  · intro name batch c src' high hc ha hh
    obtain ⟨low, hl, hlS⟩ := ltEq_selects hx hvalues
    obtain ⟨top, ht, htS⟩ := gtEq_selects hh hvalues
    have hm : (colBetween name (intScalar src x) (intScalar src' high)).evaluate batch =
        .ok (BooleanArray.and low top) := by
      have hb : ArrayPredicate.evaluateAll [.ltEq (intScalar src x), .gtEq (intScalar src' high)]
          c.toArrayRef = .ok [low, top] := by
        simp only [ArrayPredicate.evaluateAll, ha, hl, ht]
        rfl
      simp only [colBetween, RowPredicate.evaluate, hc, ArrayPredicate.evaluate, hb]
      rfl
    -- a null passes both bounds only if all values of the type do
    have hs : ∀ i, IsSet (BooleanArray.and low top) i ↔
        (∃ y, values[i]? = some (.int y) ∧ x ≤ y ∧ y ≤ high) ∨
          (values[i]? = some .null ∧ x < target.least ∧ target.greatest < high) := by
      intro i
      rw [isSet_and, hlS, htS]
      constructor
      · rintro ⟨⟨y, hy, hxy⟩ | ⟨hi, hlo⟩, ⟨_, hz, hzh⟩ | ⟨hi', hhi⟩⟩
        · cases hy.symm.trans hz
          exact .inl ⟨y, hy, hxy, hzh⟩
        · cases hy.symm.trans hi'
        · cases hi.symm.trans hz
        · exact .inr ⟨hi, hlo, hhi⟩
      · rintro (⟨y, hy, hxy, hyh⟩ | ⟨hi, hlo, hhi⟩)
        · exact ⟨.inl ⟨y, hy, hxy⟩, .inl ⟨y, hy, hyh⟩⟩
        · exact ⟨.inr ⟨hi, hlo⟩, .inr ⟨hi, hhi⟩⟩
    rw [exists_mask_iff hm hs (hn _), not_and_or, not_lt, not_lt, or_assoc]

end Selection

section Sample

local instance comparisonCasts : Casts where
  castWithOptions := fun _ _ => .error (.text "cast is not supported")

def u8 : IntType := { signed := false, width := .w8 }

def u16 : IntType := { signed := false, width := .w16 }

theorem large_bound_selects_values :
    ∃ mask, ArrayPredicate.evaluate (.gtEq (intScalar u16 300))
        { dataType := .int u8, values := [.int 7, .int 255] } = .ok mask ∧
      ∀ i, IsSet mask i ↔ ∃ y, [Value.int 7, .int 255][i]? = some (.int y) ∧ y ≤ 300 :=
  (@integer_comparisons_are_exact_iff _ u16 u8 300 [.int 7, .int 255] (by decide) (by
    intro v hv
    simp only [List.mem_cons, List.not_mem_nil, or_false] at hv
    rcases hv with rfl | rfl
    · exact .inr ⟨7, rfl, by decide⟩
    · exact .inr ⟨255, rfl, by decide⟩)).2.1.mpr (.inr (by decide))

/-- The null row of a `UInt8` column is at most 300, and between -1 and 300. -/
theorem large_bound_selects_null :
    (∃ mask, ArrayPredicate.evaluate (.gtEq (intScalar u16 300))
      { dataType := .int u8, values := [.null] } = .ok mask ∧ IsSet mask 0) ∧
    ∃ mask, (colBetween "n" (intScalar { signed := true, width := .w16 } (-1))
      (intScalar { signed := true, width := .w16 } 300)).evaluate
        { columns := [{ name := "n", dataType := .int u8, values := [.null] }]
          numRows := 1, lengths := by decide } = .ok mask ∧ IsSet mask 0 :=
  ⟨⟨_, rfl, by decide⟩, _, rfl, by decide⟩

end Sample

end Query
