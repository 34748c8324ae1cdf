import SqdData.Query.RowPredicate

/-!
# Pruning by statistics is sound

A mask over windows dominates a mask over rows when an entry of a row that is not null has an entry
of its window that is not null and not smaller. The strict kernels keep this, so it carries through
conjunctions and disjunctions of array predicates. For trees of row predicates it follows that the
ranges left by the statistics hold every row that satisfies the predicate.
-/

namespace Query

open List

open Arrow Storage Primitives

/-- The entry of window `w` stands above the entry of row `i`. -/
def Dominates (windows rows : BooleanArray) (w i : Nat) : Prop :=
  ∀ b, rows[i]? = some (some b) → ∃ b', windows[w]? = some (some b') ∧ (b = true → b' = true)

variable {rs rs' ws ws' : BooleanArray}

variable {w i : Nat}

theorem Dominates.lift {f : Bool → Bool → Bool}
    (hf : ∀ a b a' b' : Bool, (a = true → a' = true) → (b = true → b' = true) →
      f a b = true → f a' b' = true)
    (h : Dominates ws rs w i) (h' : Dominates ws' rs' w i) :
    Dominates (BooleanArray.lift f ws ws') (BooleanArray.lift f rs rs') w i := by
  intro b hb
  obtain ⟨x, y, hx, hy, rfl⟩ := BooleanArray.getElem?_lift.mp hb
  obtain ⟨x', hx', hxl⟩ := h x hx
  obtain ⟨y', hy', hyl⟩ := h' y hy
  exact ⟨f x' y', BooleanArray.getElem?_lift.mpr ⟨x', y', hx', hy', rfl⟩, hf x y x' y' hxl hyl⟩

theorem Dominates.and (h : Dominates ws rs w i) (h' : Dominates ws' rs' w i) :
    Dominates (BooleanArray.and ws ws') (BooleanArray.and rs rs') w i :=
  Dominates.lift (by decide) h h'

theorem Dominates.or (h : Dominates ws rs w i) (h' : Dominates ws' rs' w i) :
    Dominates (BooleanArray.or ws ws') (BooleanArray.or rs rs') w i :=
  Dominates.lift (by decide) h h'

theorem dominates_zeroMask {m n : Nat} (b : Bool) (hw : w < m) :
    Dominates (zeroMask m b) (zeroMask n b) w i := by
  intro c hc
  simp only [zeroMask, getElem?_replicate] at hc ⊢
  split at hc
  · cases hc
    exact ⟨b, by rw [if_pos hw], id⟩
  · cases hc

variable {f : BooleanArray → BooleanArray → BooleanArray}

theorem dominates_foldl {wss rss : List BooleanArray}
    (hf : ∀ ws ws' rs rs', Dominates ws rs w i → Dominates ws' rs' w i →
      Dominates (f ws ws') (f rs rs') w i)
    (h : List.Forall₂ (fun ws rs => Dominates ws rs w i) wss rss) (hfr : Dominates ws rs w i) :
    Dominates (wss.foldl f ws) (rss.foldl f rs) w i := by
  induction h generalizing ws rs with
  | nil => exact hfr
  | cons hn _ ih => exact ih (hf _ _ _ _ hfr hn)

/-- Folding masks with a kernel that keeps domination keeps domination. -/
theorem dominates_combine {z z' : BooleanArray} {wss rss : List BooleanArray}
    (hf : ∀ ws ws' rs rs', Dominates ws rs w i → Dominates ws' rs' w i →
      Dominates (f ws ws') (f rs rs') w i)
    (hz : Dominates z' z w i) (h : List.Forall₂ (fun ws rs => Dominates ws rs w i) wss rss) :
    Dominates (combine f z' wss) (combine f z rss) w i := by
  cases h with
  | nil => exact hz
  | cons hfr hr => exact dominates_foldl hf hr hfr

theorem getElem?_compareWith {test : Value → Bool} {values : List Value} {b : Bool} :
    (compareWith test values)[i]? = some (some b) ↔
      ∃ v, values[i]? = some v ∧ v ≠ .null ∧ test v = b := by
  simp only [compareWith, getElem?_map]
  cases values[i]? with
  | none => simp
  | some v => by_cases hv : v = .null <;> simp [hv]

/-- The statistics of a column: each row lies in a window, and the values of a window that are not
null lie between its minimum and its maximum. -/
structure StatsFor (arr : ArrayRef) (stats : ColumnStats) : Prop where
  minType : stats.min.dataType = arr.dataType
  maxType : stats.max.dataType = arr.dataType
  minLength : stats.min.values.length = stats.offsets.windows.length
  maxLength : stats.max.values.length = stats.offsets.windows.length
  covers : ∀ i < arr.values.length, Within i stats.offsets.windows
  below : Below arr.values.length stats.offsets.windows
  bounds : ∀ (w : Nat) (r : Range), stats.offsets.windows[w]? = some r →
    ∀ (i : Nat) (v : Value), r.Has i → arr.values[i]? = some v → v ≠ .null →
      ∃ lo hi : Value, stats.min.values[w]? = some lo ∧ stats.max.values[w]? = some hi ∧
        lo.le v ∧ v.le hi

/-- The window `w` of the statistics bounds the value of row `i`. -/
structure BoundsAt (arr : ArrayRef) (stats : ColumnStats) (w i : Nat) : Prop where
  minType : stats.min.dataType = arr.dataType
  maxType : stats.max.dataType = arr.dataType
  minLength : w < stats.min.values.length
  maxLength : w < stats.max.values.length
  bounds : ∀ v : Value, arr.values[i]? = some v → v ≠ .null →
    ∃ lo hi : Value, stats.min.values[w]? = some lo ∧ stats.max.values[w]? = some hi ∧
      lo.le v ∧ v.le hi

theorem StatsFor.boundsAt {arr : ArrayRef} {stats : ColumnStats} {r : Range}
    (h : StatsFor arr stats) (hw : stats.offsets.windows[w]? = some r) (hi : r.Has i) :
    BoundsAt arr stats w i := by
  have hlen := (List.getElem?_eq_some_iff.mp hw).1
  exact ⟨h.minType, h.maxType, h.minLength ▸ hlen, h.maxLength ▸ hlen,
    fun v hv hn => h.bounds w r hw i v hi hv hn⟩

theorem ne_null_of_le {a b : Value} (h : a.le b) : a ≠ .null ∧ b ≠ .null := by
  cases a <;> cases b <;> first | exact h.elim | exact ⟨by simp, by simp⟩

section Arrays

variable [Casts]

variable {arr : ArrayRef} {i : Nat}

/-- A scalar outside of the domain gives constant masks on both sides. -/
theorem dominates_withScalar {scalar : Scalar} {arr' : ArrayRef} {less greater : Bool}
    {f f' : Value → BooleanArray} {rows windows : BooleanArray} {w : Nat}
    (ht : arr'.dataType = arr.dataType) (hw : w < arr'.values.length)
    (hf : ∀ v, Dominates (f' v) (f v) w i) (h : withScalar scalar arr less greater f = .ok rows)
    (h' : withScalar scalar arr' less greater f' = .ok windows) : Dominates windows rows w i := by
  unfold withScalar at h h'
  rw [ht] at h'
  obtain ⟨c, hc, rfl⟩ := map_eq_ok h
  rw [hc] at h'
  cases h'
  cases c with
  | same => exact hf _
  | cast v => exact hf v
  | less => exact dominates_zeroMask less hw
  | greater => exact dominates_zeroMask greater hw

variable {masks : List BooleanArray}

omit [Casts] in
theorem length_combine {zero : BooleanArray} {n : Nat}
    (hf : ∀ a b : BooleanArray, (f a b).length = min a.length b.length) (hzero : zero.length = n)
    (h : ∀ mask ∈ masks, mask.length = n) : (combine f zero masks).length = n := by
  cases masks with
  | nil => exact hzero
  | cons first masks =>
    have hfr := h first mem_cons_self
    have hl := fun m hm => h m (mem_cons_of_mem first hm)
    simp only [combine]
    clear h
    induction masks generalizing first with
    | nil => exact hfr
    | cons next _ ih =>
      refine ih (f first next) ?_ fun m hm => hl m (mem_cons_of_mem next hm)
      rw [hf, hfr, hl next mem_cons_self, min_self]

variable {mask : BooleanArray}

theorem length_withScalar {scalar : Scalar} {less greater : Bool}
    {f : Value → BooleanArray} (hf : ∀ v, (f v).length = arr.values.length)
    (h : withScalar scalar arr less greater f = .ok mask) : mask.length = arr.values.length := by
  obtain ⟨c, _, rfl⟩ := map_eq_ok h
  cases c with
  | same => exact hf _
  | cast v => exact hf v
  | less => simp [zeroMask]
  | greater => simp [zeroMask]

omit [Casts] in
theorem length_evaluateBloom {value : List Byte}
    (h : evaluateBloom value arr = .ok mask) : mask.length = arr.values.length := by
  unfold evaluateBloom at h
  split at h
  · split at h
    · cases h
    · split at h
      · cases h
      · cases h
        simp
  · cases h

omit [Casts] in
theorem length_evaluatePrimitiveList {type : IntType} {values : List Int}
    (h : evaluatePrimitiveList type values arr = .ok mask) : mask.length = arr.values.length := by
  unfold evaluatePrimitiveList at h
  split at h
  · split at h
    · cases h
      simp
    · cases h
  · cases h

omit [Casts] in
theorem length_evaluateStringList {values : List String}
    (h : evaluateStringList values arr = .ok mask) : mask.length = arr.values.length := by
  unfold evaluateStringList at h
  split at h
  · split at h
    · cases h
      simp
    · cases h
  · cases h

namespace ArrayPredicate

variable {arr : ArrayRef} {stats : ColumnStats} {w i : Nat}

mutual

/-- The mask of the statistics dominates the mask of the values. -/
theorem evaluateStats_dominates (hs : BoundsAt arr stats w i) :
    ∀ (p : ArrayPredicate) {rows windows : BooleanArray}, p.evaluate arr = .ok rows →
      p.evaluateStats { min := stats.min, max := stats.max } = .ok windows →
      Dominates windows rows w i
  | .and predicates, _, _, h, h' => by
    rw [evaluate] at h
    rw [evaluateStats] at h'
    obtain ⟨rss, hr, rfl⟩ := map_eq_ok h
    obtain ⟨wss, hw, rfl⟩ := map_eq_ok h'
    refine dominates_combine (fun _ _ _ _ => Dominates.and) ?_
      (evaluateStatsAll_dominates hs predicates hr hw)
    exact dominates_zeroMask true hs.minLength
  | .or predicates, _, _, h, h' => by
    rw [evaluate] at h
    rw [evaluateStats] at h'
    obtain ⟨_, hr, rfl⟩ := map_eq_ok h
    obtain ⟨wss, hw, rfl⟩ := map_eq_ok h'
    refine dominates_combine (fun _ _ _ _ => Dominates.or) ?_
      (evaluateStatsAll_dominates hs predicates hr hw)
    exact dominates_zeroMask false hs.minLength
  | .eq value, _, _, h, h' => by
    rw [evaluate] at h
    rw [evaluateStats] at h'
    refine dominates_withScalar hs.minType hs.minLength ?_ h h'
    intro v b hb
    obtain ⟨x, hx, hn, rfl⟩ := getElem?_compareWith.mp hb
    obtain ⟨lo, hi', hlo, hhi, hle, hge⟩ := hs.bounds x hx hn
    refine ⟨decide (lo.le v) && decide (v.le hi'), ?_, ?_⟩
    · refine BooleanArray.getElem?_lift.mpr ⟨_, _, getElem?_compareWith.mpr ⟨lo, hlo, ?_, rfl⟩,
        getElem?_compareWith.mpr ⟨hi', hhi, ?_, rfl⟩, rfl⟩
      · exact (ne_null_of_le hle).1
      · exact (ne_null_of_le hge).2
    · intro heq
      have hxv : x = v := of_decide_eq_true heq
      subst hxv
      simp [hle, hge]
  | .gtEq value, _, _, h, h' => by
    rw [evaluate] at h
    rw [evaluateStats] at h'
    refine dominates_withScalar hs.minType hs.minLength ?_ h h'
    intro v b hb
    obtain ⟨x, hx, hn, rfl⟩ := getElem?_compareWith.mp hb
    obtain ⟨lo, hi', hlo, hhi, hle, hge⟩ := hs.bounds x hx hn
    refine ⟨_, getElem?_compareWith.mpr ⟨lo, hlo, (ne_null_of_le hle).1, rfl⟩, ?_⟩
    intro hxv
    exact decide_eq_true (Value.le_of_le_of_le hle (of_decide_eq_true hxv))
  | .ltEq value, _, _, h, h' => by
    rw [evaluate] at h
    rw [evaluateStats] at h'
    refine dominates_withScalar hs.maxType hs.maxLength ?_ h h'
    intro v b hb
    obtain ⟨x, hx, hn, rfl⟩ := getElem?_compareWith.mp hb
    obtain ⟨lo, hi', hlo, hhi, hle, hge⟩ := hs.bounds x hx hn
    refine ⟨_, getElem?_compareWith.mpr ⟨hi', hhi, (ne_null_of_le hge).2, rfl⟩, ?_⟩
    intro hxv
    exact decide_eq_true (Value.le_of_le_of_le (of_decide_eq_true hxv) hge)
  | .inList _, _, _, _, h' => by
    rw [evaluateStats] at h'
    cases h'
  | .bloomFilter _, _, _, _, h' => by
    rw [evaluateStats] at h'
    cases h'
  | .primitiveListContainsAny _ _, _, _, _, h' => by
    rw [evaluateStats] at h'
    cases h'
  | .stringListContainsAny _, _, _, _, h' => by
    rw [evaluateStats] at h'
    cases h'

theorem evaluateStatsAll_dominates (hs : BoundsAt arr stats w i) :
    ∀ (ps : List ArrayPredicate) {rss wss : List BooleanArray}, evaluateAll ps arr = .ok rss →
      evaluateStatsAll ps { min := stats.min, max := stats.max } = .ok wss →
      List.Forall₂ (fun ws rs => Dominates ws rs w i) wss rss
  | [], _, _, h, h' => by
    cases h
    cases h'
    exact .nil
  | p :: ps, _, _, h, h' => by
    rw [evaluateAll] at h
    rw [evaluateStatsAll] at h'
    obtain ⟨_, hrs, h⟩ := bind_eq_ok.mp h
    obtain ⟨rss, hr, h⟩ := bind_eq_ok.mp h
    obtain ⟨_, hws, h'⟩ := bind_eq_ok.mp h'
    obtain ⟨wss, hw, h'⟩ := bind_eq_ok.mp h'
    cases h
    cases h'
    exact .cons (evaluateStats_dominates hs p hrs hws) (evaluateStatsAll_dominates hs ps hr hw)

end

mutual

/-- A mask has an entry for each value. -/
theorem evaluate_length : ∀ {p : ArrayPredicate} {arr : ArrayRef} {mask : BooleanArray},
    p.evaluate arr = .ok mask → mask.length = arr.values.length
  | .and predicates, arr, _, h => by
    rw [evaluate] at h
    obtain ⟨masks, hm, rfl⟩ := map_eq_ok h
    exact length_combine (by simp [BooleanArray.and, BooleanArray.lift]) (by simp [zeroMask])
      (evaluateAll_length hm)
  | .or predicates, arr, _, h => by
    rw [evaluate] at h
    obtain ⟨_, hm, rfl⟩ := map_eq_ok h
    exact length_combine (by simp [BooleanArray.or, BooleanArray.lift]) (by simp [zeroMask])
      (evaluateAll_length hm)
  | .eq value, arr, _, h => by
    rw [evaluate] at h
    exact length_withScalar (by simp [compareWith]) h
  | .gtEq value, arr, _, h => by
    rw [evaluate] at h
    exact length_withScalar (by simp [compareWith]) h
  | .ltEq value, arr, _, h => by
    rw [evaluate] at h
    exact length_withScalar (by simp [compareWith]) h
  | .inList list, arr, _, h => by
    rw [evaluate] at h
    cases h
    simp [compareWith]
  | .bloomFilter value, arr, _, h => by
    rw [evaluate] at h
    exact length_evaluateBloom h
  | .primitiveListContainsAny type values, arr, _, h => by
    rw [evaluate] at h
    exact length_evaluatePrimitiveList h
  | .stringListContainsAny values, arr, _, h => by
    rw [evaluate] at h
    exact length_evaluateStringList h

theorem evaluateAll_length : ∀ {ps : List ArrayPredicate} {arr : ArrayRef}
    {masks : List BooleanArray}, evaluateAll ps arr = .ok masks →
      ∀ mask ∈ masks, mask.length = arr.values.length
  | [], _, _, h => by
    cases h
    intro mask hma
    cases hma
  | p :: ps, arr, _, h => by
    rw [evaluateAll] at h
    obtain ⟨mask, hma, h⟩ := bind_eq_ok.mp h
    obtain ⟨_, hms, h⟩ := bind_eq_ok.mp h
    cases h
    intro m hm
    rcases mem_cons.mp hm with rfl | hm
    · exact evaluate_length hma
    · exact evaluateAll_length hms m hm

end

end ArrayPredicate

/-- The row is set in a mask: neither null nor false. -/
def IsSet (mask : BooleanArray) (i : Nat) : Prop := mask[i]? = some (some true)

instance decidableIsSet (mask : BooleanArray) (i : Nat) : Decidable (IsSet mask i) :=
  inferInstanceAs (Decidable (_ = _))

omit [Casts] in
theorem isSet_and {a b : BooleanArray} :
    IsSet (BooleanArray.and a b) i ↔ IsSet a i ∧ IsSet b i := by
  unfold IsSet BooleanArray.and
  rw [BooleanArray.getElem?_lift]
  constructor
  · rintro ⟨_, _, hx, hy, hxy⟩
    simp only [Bool.and_eq_true] at hxy
    exact ⟨by rw [hx, hxy.1], by rw [hy, hxy.2]⟩
  · rintro ⟨ha, hb⟩
    exact ⟨true, true, ha, hb, rfl⟩

omit [Casts] in
theorem isSet_or {a b : BooleanArray} (h : IsSet (BooleanArray.or a b) i) :
    IsSet a i ∨ IsSet b i := by
  obtain ⟨_, _, hx, hy, hxy⟩ := BooleanArray.getElem?_lift.mp h
  rcases Bool.or_eq_true_iff.mp hxy with rfl | rfl
  · exact Or.inl hx
  · exact Or.inr hy

omit [Casts] in
/-- A row of a conjunction is set in each of its masks. -/
theorem isSet_combine_and {zero : BooleanArray}
    (h : IsSet (combine BooleanArray.and zero masks) i) : ∀ mask ∈ masks, IsSet mask i := by
  cases masks with
  | nil =>
    intro mask hm
    cases hm
  | cons first masks =>
    simp only [combine] at h
    induction masks generalizing first with
    | nil =>
      intro mask hm
      rw [mem_singleton.mp hm]
      exact h
    | cons next _ ih =>
      have hr := ih (BooleanArray.and first next) h
      have hb := isSet_and.mp (hr _ mem_cons_self)
      intro mask hm
      rcases mem_cons.mp hm with rfl | hm
      · exact hb.1
      · rcases mem_cons.mp hm with rfl | hm
        · exact hb.2
        · exact hr mask (mem_cons_of_mem _ hm)

omit [Casts] in
/-- A row of a disjunction is set in one of its masks. -/
theorem isSet_combine_or {n : Nat}
    (h : IsSet (combine BooleanArray.or (zeroMask n false) masks) i) :
    ∃ mask ∈ masks, IsSet mask i := by
  cases masks with
  | nil =>
    simp only [combine, IsSet, zeroMask, getElem?_replicate] at h
    split at h <;> cases h
  | cons first masks =>
    simp only [combine] at h
    induction masks generalizing first with
    | nil => exact ⟨first, mem_singleton_self first, h⟩
    | cons next _ ih =>
      obtain ⟨mask, hm, hs⟩ := ih (BooleanArray.or first next) h
      rcases mem_cons.mp hm with rfl | hm
      · rcases isSet_or hs with hs | hs
        · exact ⟨first, mem_cons_self, hs⟩
        · exact ⟨next, mem_cons_of_mem _ mem_cons_self, hs⟩
      · exact ⟨mask, mem_cons_of_mem _ (mem_cons_of_mem _ hm), hs⟩

omit [Casts] in
theorem mem_selected {α : Type} {l : List α} {a : α} (ha : l[i]? = some a)
    (hs : IsSet mask i) : a ∈ selected mask l := by
  have hz : (l.zip mask)[i]? = some (a, some true) := by
    rw [getElem?_zip_eq_some]
    exact ⟨ha, hs⟩
  exact mem_filterMap.mpr ⟨(a, some true), mem_of_getElem? hz, by simp⟩

/-- The statistics of a table: each column that has any has its own. -/
def ValidStats (batch : RecordBatch) (rowStats : RowStats) : Prop :=
  ∀ (name : String) (stats : ColumnStats), rowStats name = .ok (some stats) →
    ∀ c ∈ batch.columnByName name, StatsFor c.toArrayRef stats

/-- The statistics of each column have a window for the position `i` that bounds its value in row
`j` of the batch. -/
def ValidAt (batch : RecordBatch) (j : Nat) (rowStats : RowStats) (i : Nat) : Prop :=
  ∀ (name : String) (stats : ColumnStats), rowStats name = .ok (some stats) →
    ∀ c ∈ batch.columnByName name, j < c.values.length →
      ∃ w r, stats.offsets.windows[w]? = some r ∧ r.Has i ∧ BoundsAt c.toArrayRef stats w j

omit [Casts] in
theorem ValidStats.validAt {batch : RecordBatch} {rowStats : RowStats}
    (h : ValidStats batch rowStats) (i : Nat) : ValidAt batch i rowStats i := by
  intro name stats hf c hc hi
  have hs := h name stats hf c hc
  obtain ⟨r, hr, hri⟩ := hs.covers i hi
  obtain ⟨w, hw⟩ := getElem?_of_mem hr
  exact ⟨w, r, hw, hri, hs.boundsAt hw hri⟩

namespace RowPredicate

variable {batch : RecordBatch} {rowStats : RowStats} {i j : Nat}

/-- The position of a row that satisfies the predicate lies in the ranges left by the statistics. -/
theorem mem_evaluateStats (hvalid : ValidAt batch j rowStats i) (p : RowPredicate)
    {mask : BooleanArray} {ranges : RangeList} (h : p.evaluate batch = .ok mask)
    (h' : p.evaluateStats rowStats = .ok (some ranges)) (hset : IsSet mask j) : i ∈ ranges := by
  induction p using RowPredicate.induction generalizing mask ranges with
  | column name predicate =>
    rw [evaluate] at h
    split at h
    · rename_i c hc
      rw [evaluateStats] at h'
      obtain ⟨found, hf, h'⟩ := bind_eq_ok.mp h'
      cases found with
      | none => cases h'
      | some stats =>
        obtain ⟨windows, hwn, h'⟩ := bind_eq_ok.mp h'
        cases h'
        have hj : j < c.values.length := by
          by_contra hge
          have hlen := ArrayPredicate.evaluate_length h
          have hn : mask[j]? = none := getElem?_eq_none (by omega)
          rw [IsSet, hn] at hset
          cases hset
        obtain ⟨w, r, hw, hri, hst⟩ := hvalid name stats hf c hc hj
        obtain ⟨b, hb, hle⟩ := ArrayPredicate.evaluateStats_dominates hst predicate h hwn true hset
        have hk : IsSet windows w := by
          rw [IsSet, hb, hle rfl]
        exact RangeList.mem_sealed.mpr ⟨r, mem_selected hw hk, hri⟩
    · cases h
  | and _ ih =>
    rw [evaluate] at h
    rw [evaluateStats] at h'
    obtain ⟨masks, hm, rfl⟩ := map_eq_ok h
    rw [evaluateAll_eq_mapM, mapM_eq_ok] at hm
    have hse := isSet_combine_and hset
    refine evaluateStatsAnd_induct (Q := fun sel => ∀ s ∈ sel, i ∈ s) h' (by simp) ?_ _ rfl
    intro p hp sel found hf hsl s hs
    cases hs
    obtain ⟨mask, hms, heval⟩ := forall₂_left hm p hp
    have hin := ih p hp heval hf (hse mask hms)
    cases sel with
    | none => exact hin
    | some prev => exact RangeList.mem_intersection.mpr ⟨hsl prev rfl, hin⟩
  | or _ ih =>
    rw [evaluate] at h
    rw [evaluateStats] at h'
    obtain ⟨_, hm, rfl⟩ := map_eq_ok h
    rw [evaluateAll_eq_mapM, mapM_eq_ok] at hm
    obtain ⟨mask, hms, hmS⟩ := isSet_combine_or hset
    obtain ⟨p, hp, heval⟩ := forall₂_right hm mask hms
    obtain ⟨_, hf, hcv⟩ := (evaluateStatsOr_covers h').2 p hp
    exact hcv i (ih p hp heval hf hmS)

end RowPredicate

end Arrays

end Query
