import SqdData.Primitives.RangeList

/-!
# Gathering by ranges

The items of a list at the positions of a list of ranges, in the order of the ranges, and the
optional selection of rows that readers are given. Canonical ranges are not empty, ascend and do not
touch.
-/

namespace Primitives

open List

variable {α β : Type}

section Extract

variable {l m : List α} {a b : Nat}

theorem extract_append_left (h : b ≤ l.length) : (l ++ m).extract a b = l.extract a b := by
  simp only [extract_eq_take_drop]
  by_cases ha : a ≤ l.length
  · rw [drop_append_of_le_length ha, take_append_of_le_length]
    rw [length_drop]
    omega
  · have hzero : b - a = 0 := by omega
    simp [hzero]

theorem extract_append_right (h : l.length ≤ a) :
    (l ++ m).extract a b = m.extract (a - l.length) (b - l.length) := by
  simp only [extract_eq_take_drop, drop_append, drop_eq_nil_of_le h, nil_append]
  congr 1
  omega

theorem extract_append (ha : a ≤ l.length) (hb : l.length ≤ b) :
    (l ++ m).extract a b = l.extract a l.length ++ m.extract 0 (b - l.length) := by
  simp only [extract_eq_take_drop, drop_append_of_le_length ha, take_append,
    length_drop, drop_zero, Nat.sub_zero]
  congr 1
  · rw [take_of_length_le (by rw [length_drop]; omega), take_of_length_le (by rw [length_drop])]
  · congr 1
    omega

theorem extract_append_extract {c : Nat} (hab : a ≤ b) (hbc : b ≤ c) :
    l.extract a b ++ l.extract b c = l.extract a c := by
  have hb : l.drop b = (l.drop a).drop (b - a) := by
    rw [drop_drop]
    congr 1
    omega
  simp only [extract_eq_take_drop, hb]
  rw [← take_add]
  congr 1
  omega

theorem extract_eq_self (h : l.length ≤ b) : l.extract 0 b = l := by
  simp [extract_eq_take_drop, take_of_length_le h]

theorem length_extract (h : b ≤ l.length) : (l.extract a b).length = b - a := by
  simp only [extract_eq_take_drop, length_take, length_drop]
  omega

theorem extract_eq_map (h : b ≤ l.length) (d : α) :
    l.extract a b = (List.range' a (b - a)).map fun i => l.getD i d := by
  apply ext_getElem
  · rw [length_extract h]
    simp
  · intro i hi hi'
    rw [length_extract h] at hi
    have hlt : a + i < l.length := by omega
    simp [extract_eq_take_drop, getElem_range', hlt]

theorem map_extract (f : α → β) (l : List α) (a b : Nat) :
    (l.extract a b).map f = (l.map f).extract a b := by
  simp [extract_eq_take_drop]

theorem extract_of_le (h : b ≤ a) : l.extract a b = [] := by
  have hzero : b - a = 0 := by omega
  rw [extract_eq_take_drop, hzero, take_zero]

end Extract

def positions (ranges : List Range) : List Nat :=
  ranges.flatMap fun r => List.range' r.start (r.stop - r.start)

theorem positions_cons (r : Range) (ranges : List Range) :
    positions (r :: ranges) = List.range' r.start (r.stop - r.start) ++ positions ranges := rfl

def gather (ranges : List Range) (items : List α) : List α :=
  ranges.flatMap fun r => items.extract r.start r.stop

theorem gather_cons (r : Range) (ranges : List Range) (items : List α) :
    gather (r :: ranges) items = items.extract r.start r.stop ++ gather ranges items := rfl

variable {ranges : List Range} {items : List α}

theorem gather_eq_map (h : Below items.length ranges) (d : α) :
    gather ranges items = (positions ranges).map fun i => items.getD i d := by
  induction ranges with
  | nil => rfl
  | cons _ _ ih =>
    obtain ⟨hr, hrn⟩ := below_cons.mp h
    rw [gather_cons, ih hrn, extract_eq_map hr d, positions_cons, map_append]

theorem length_gather (h : Below items.length ranges) :
    (gather ranges items).length = (positions ranges).length := by
  cases items with
  | nil =>
    induction ranges with
    | nil => rfl
    | cons r _ ih =>
      obtain ⟨hr, hrn⟩ := below_cons.mp h
      have hzero : r.stop - r.start = 0 := by simp at hr; omega
      rw [gather_cons, length_append, ih hrn, positions_cons]
      simp [hzero]
  | cons a => rw [gather_eq_map h a, length_map]

theorem length_positions (ranges : List Range) :
    (positions ranges).length = (ranges.map fun r => r.stop - r.start).sum := by
  induction ranges with
  | nil => rfl
  | cons _ _ ih =>
    rw [positions_cons, length_append, length_range', ih, map_cons, sum_cons]

variable {n : Nat}

theorem lt_of_mem_positions {i : Nat} (h : Below n ranges) (hi : i ∈ positions ranges) : i < n := by
  obtain ⟨r, hr, hi⟩ := mem_flatMap.mp hi
  have := h r hr
  have := mem_range'_1.mp hi
  omega

theorem gather_map (f : α → β) (ranges : List Range) (items : List α) :
    gather ranges (items.map f) = (gather ranges items).map f := by
  simp [gather, map_flatMap, extract_eq_take_drop]

variable {l l' : List Range}

/-- Sealing merges touching ranges, which gather the same items. -/
theorem gather_sealFrom {head : Range} {rest : List Range} (h : Ordered (head :: rest))
    (hl : sealFrom head rest = some l) (items : List α) :
    gather l items = gather (head :: rest) items := by
  induction rest generalizing head l with
  | nil =>
    injection hl with hl
    rw [← hl]
  | cons next _ ih =>
    obtain ⟨_, ha, hn, hr, ho⟩ := h
    have hle := (above_cons.mp ha).1
    unfold sealFrom at hl
    by_cases hlt : head.stop < next.start
    · rw [if_pos hlt] at hl
      obtain ⟨_, hl', rfl⟩ := Option.map_eq_some_iff.mp hl
      rw [gather_cons, ih ⟨hn, hr, ho⟩ hl', gather_cons head]
    · have heq : head.stop = next.start := by omega
      rw [if_neg hlt, if_pos heq] at hl
      have hm : head.start ≤ next.stop := by omega
      rw [@ih l ⟨head.start, next.stop⟩ ⟨hm, hr, ho⟩ hl]
      simp only [gather_cons]
      rw [← append_assoc, heq, extract_append_extract (by omega) hn]

/-- Ranges that are not empty, ascend and do not touch. -/
def Canonical : List Range → Prop
  | [] => True
  | r :: l => r.start < r.stop ∧ Above (r.stop + 1) l ∧ Canonical l

instance decidableCanonical : (l : List Range) → Decidable (Canonical l)
  | [] => isTrue trivial
  | r :: l =>
    have := decidableCanonical l
    have : Decidable (Above (r.stop + 1) l) :=
      inferInstanceAs (Decidable (∀ s ∈ l, r.stop + 1 ≤ s.start))
    inferInstanceAs (Decidable (_ ∧ _ ∧ _))

theorem Canonical.ordered (h : Canonical l) : Ordered l := by
  induction l with
  | nil => trivial
  | cons _ _ ih => exact ⟨h.1.le, h.2.1.mono (Nat.le_succ _), ih h.2.2⟩

theorem Canonical.nonempty (h : Canonical l) : ∀ r ∈ l, r.start < r.stop := by
  induction l with
  | nil => simp
  | cons _ _ ih =>
    intro s hs
    rcases mem_cons.mp hs with rfl | hs
    · exact h.1
    · exact ih h.2.2 s hs

theorem Ordered.drop (h : Ordered ranges) (k : Nat) : Ordered (ranges.drop k) := by
  induction ranges generalizing k with
  | nil => simpa using h
  | cons _ _ ih =>
    cases k with
    | zero => exact h
    | succ k => exact ih h.2.2 k

theorem gather_sealRanges (h : Ordered l) (hl : sealRanges l = some l')
    (items : List α) : gather l' items = gather l items := by
  cases l with
  | nil =>
    injection hl with hl
    rw [← hl]
  | cons => exact gather_sealFrom h hl items

theorem below_sealRanges (h : Ordered l) (hb : Below n l)
    (hl : sealRanges l = some l') : Below n l' := by
  obtain ⟨_, hl'', hs⟩ := sealRanges_sealed h
  rw [hl''] at hl
  injection hl with hl
  exact hl ▸ hs.below n hb

/-- Sealed ranges do not touch. -/
theorem canonical_sealFrom {head : Range} {rest : List Range} (h : Ordered (head :: rest))
    (hne : ∀ r ∈ head :: rest, r.start < r.stop) (hl : sealFrom head rest = some l) :
    Canonical l := by
  induction rest generalizing head l with
  | nil =>
    injection hl with hl
    rw [← hl]
    exact ⟨hne head (by simp), by simp [Above], trivial⟩
  | cons next rest ih =>
    obtain ⟨_, ha, hn, hrs, ho⟩ := h
    have hle := (above_cons.mp ha).1
    unfold sealFrom at hl
    by_cases hlt : head.stop < next.start
    · rw [if_pos hlt] at hl
      obtain ⟨_, hl', rfl⟩ := Option.map_eq_some_iff.mp hl
      obtain ⟨l'', hl'', hs⟩ := @sealFrom_sealed next rest ⟨hn, hrs, ho⟩
      rw [hl'] at hl''
      injection hl'' with hl''
      subst hl''
      refine ⟨hne head (by simp), hs.above _ ?_, ih ⟨hn, hrs, ho⟩
        (fun r hr => hne r (by simp [mem_cons.mp hr])) hl'⟩
      exact above_cons.mpr ⟨hlt, hrs.mono (by omega)⟩
    · have heq : head.stop = next.start := by omega
      rw [if_neg hlt, if_pos heq] at hl
      have hm : head.start < next.stop := by
        have := hne head (by simp)
        omega
      refine @ih l ⟨head.start, next.stop⟩ ⟨hm.le, hrs, ho⟩ ?_ hl
      intro r hr
      rcases mem_cons.mp hr with rfl | hr
      · exact hm
      · exact hne r (by simp [hr])

theorem canonical_sealRanges (h : Ordered l) (hne : ∀ r ∈ l, r.start < r.stop)
    (hl : sealRanges l = some l') : Canonical l' := by
  cases l with
  | nil =>
    injection hl with hl
    rw [← hl]
    trivial
  | cons => exact canonical_sealFrom h hne hl

theorem Ordered.filter (h : Ordered l) (p : Range → Bool) : Ordered (l.filter p) := by
  induction l with
  | nil => trivial
  | cons r _ ih =>
    by_cases hr : p r = true
    · rw [filter_cons_of_pos hr]
      exact ⟨h.1, fun s hs => h.2.1 s (mem_of_mem_filter hs), ih h.2.2⟩
    · rw [filter_cons_of_neg hr]
      exact ih h.2.2

/-- A monotone map of the bounds keeps the order. -/
theorem Ordered.map {f : Nat → Nat} (h : Ordered l) (hf : ∀ {i j : Nat}, i ≤ j → f i ≤ f j) :
    Ordered (l.map fun r => ⟨f r.start, f r.stop⟩) := by
  induction l with
  | nil => trivial
  | cons _ _ ih =>
    refine ⟨hf h.1, ?_, ih h.2.2⟩
    intro s hs
    obtain ⟨s', hs', rfl⟩ := mem_map.mp hs
    exact hf (h.2.1 s' hs')

theorem Canonical.scale (h : Canonical l) {size : Nat} (hsz : 0 < size) :
    Canonical (l.map fun r => ⟨r.start * size, r.stop * size⟩) := by
  induction l with
  | nil => trivial
  | cons _ _ ih =>
    refine ⟨Nat.mul_lt_mul_of_pos_right h.1 hsz, ?_, ih h.2.2⟩
    intro s hs
    obtain ⟨s', hs', rfl⟩ := mem_map.mp hs
    exact Nat.mul_lt_mul_of_pos_right (h.2.1 s' hs') hsz

/-- Ranges that do not touch stay in order when each gets one position more. -/
theorem Canonical.widen (h : Canonical l) : Ordered (l.map fun r => ⟨r.start, r.stop + 1⟩) := by
  induction l with
  | nil => trivial
  | cons _ _ ih =>
    refine ⟨Nat.le_succ_of_le h.1.le, ?_, ih h.2.2⟩
    intro s hs
    obtain ⟨s', hs', rfl⟩ := mem_map.mp hs
    exact h.2.1 s' hs'

theorem flatten_gather (ranges : List Range) (parts : List (List α)) :
    (gather ranges parts).flatten =
      ranges.flatMap fun r => (parts.extract r.start r.stop).flatten := by
  induction ranges with
  | nil => rfl
  | cons _ _ ih => rw [gather_cons, flatten_append, ih, flatMap_cons]

theorem gather_map_ranges (f : Range → Range) (ranges : List Range) (items : List α) :
    gather (ranges.map f) items = ranges.flatMap fun r => items.extract (f r).start (f r).stop := by
  simp only [gather, flatMap_map]

/-- In order, the ranges gather a sublist. -/
theorem gather_sublist (h : Ordered ranges) (hn : Above n ranges) (items : List α) :
    (gather ranges items).Sublist (items.drop n) := by
  induction ranges generalizing n with
  | nil => exact nil_sublist _
  | cons r _ ih =>
    have hrs := ih h.2.2 h.2.1
    have hr : n ≤ r.start := hn r (by simp)
    have hs : items.drop r.start = items.extract r.start r.stop ++ items.drop r.stop := by
      have := take_append_drop (r.stop - r.start) (items.drop r.start)
      rw [drop_drop, Nat.add_sub_of_le h.1] at this
      rw [extract_eq_take_drop, this]
    rw [gather_cons]
    refine List.Sublist.trans ?_ (drop_sublist_drop_left items hr)
    rw [hs]
    exact List.Sublist.append_left hrs _

/-- An optional selection of rows; all of them without one. -/
def select (sel : Option (List Range)) (items : List α) : List α :=
  sel.elim items fun ranges => gather ranges items

/-- The selection is within the first `n` rows and canonical: its ranges are sorted, not empty and
do not touch. -/
def Fitting (n : Nat) (sel : Option (List Range)) : Prop :=
  ∀ ranges ∈ sel, Canonical ranges ∧ Below n ranges

theorem fitting_none (n : Nat) : Fitting n none := by
  intro ranges h
  cases h

theorem select_map (f : α → β) (sel : Option (List Range)) (items : List α) :
    select sel (items.map f) = (select sel items).map f := by
  cases sel with
  | none => rfl
  | some ranges => exact gather_map f ranges items

/-- The number of rows selected of `n`. -/
def selectedRows (n : Nat) (sel : Option (List Range)) : List Nat :=
  sel.elim (List.range n) positions

variable {sel : Option (List Range)}

theorem select_eq_map (h : Fitting n sel) (hn : items.length = n) (d : α) :
    select sel items = (selectedRows n sel).map fun i => items.getD i d := by
  cases sel with
  | none =>
    have := extract_eq_map (Nat.le_refl items.length) d (a := 0)
    rw [extract_eq_self (Nat.le_refl _), Nat.sub_zero, hn, ← range_eq_range'] at this
    exact this
  | some ranges => exact gather_eq_map (hn ▸ (h ranges rfl).2) d

theorem length_select (h : Fitting n sel) (hn : items.length = n) :
    (select sel items).length = (selectedRows n sel).length := by
  cases sel with
  | none => simp [select, selectedRows, hn]
  | some ranges => exact length_gather (hn ▸ (h ranges rfl).2)

theorem lt_of_mem_selectedRows {i : Nat} (h : Fitting n sel) (hi : i ∈ selectedRows n sel) :
    i < n := by
  cases sel with
  | none => exact mem_range.mp hi
  | some ranges => exact lt_of_mem_positions (h ranges rfl).2 hi

end Primitives
