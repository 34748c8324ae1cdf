import Mathlib

/-!
# Range lists

Half-open ranges of row positions in ascending order, and the operations on them: sealing merges
touching neighbours, intersection and union sweep over two lists at once. The order of the ranges is
part of the type of a range list. A call that would panic has no result.
-/

namespace Primitives

open List

/-- `Range<u32>`. -/
structure Range where
  start : Nat
  stop : Nat
deriving DecidableEq, Repr

def Range.Has (r : Range) (x : Nat) : Prop := r.start ≤ x ∧ x < r.stop

instance decidableHas (r : Range) (x : Nat) : Decidable (r.Has x) :=
  inferInstanceAs (Decidable (_ ∧ _))

def Within (x : Nat) (l : List Range) : Prop := ∃ r ∈ l, r.Has x

instance decidableWithin (x : Nat) (l : List Range) : Decidable (Within x l) :=
  inferInstanceAs (Decidable (∃ r ∈ l, r.Has x))

@[simp]
theorem within_nil (x : Nat) : ¬ Within x [] := by
  rintro ⟨_, hr, _⟩
  cases hr

variable {x : Nat} {r : Range} {l : List Range}

@[simp]
theorem within_cons : Within x (r :: l) ↔ r.Has x ∨ Within x l := by
  simp [Within]

def Above (n : Nat) (l : List Range) : Prop := ∀ r ∈ l, n ≤ r.start

def Below (n : Nat) (l : List Range) : Prop := ∀ r ∈ l, r.stop ≤ n

/-- Ranges in ascending order that do not overlap. -/
def Ordered : List Range → Prop
  | [] => True
  | r :: l => r.start ≤ r.stop ∧ Above r.stop l ∧ Ordered l

variable {n : Nat}

theorem Above.mono {m : Nat} (h : Above n l) (hmn : m ≤ n) : Above m l :=
  fun r hr => hmn.trans (h r hr)

theorem above_cons : Above n (r :: l) ↔ n ≤ r.start ∧ Above n l := by
  simp [Above]

theorem below_cons : Below n (r :: l) ↔ r.stop ≤ n ∧ Below n l := by
  simp [Below]

theorem Above.le (h : Above n l) (hx : Within x l) : n ≤ x := by
  obtain ⟨r, hr, hx⟩ := hx
  exact (h r hr).trans hx.1

theorem Below.lt (h : Below n l) (hx : Within x l) : x < n := by
  obtain ⟨r, hr, hx⟩ := hx
  exact hx.2.trans_le (h r hr)

/-- The loop of `seal`: touching ranges become one. It panics on ranges out of order. -/
def sealFrom (head : Range) : List Range → Option (List Range)
  | [] => some [head]
  | next :: rest =>
    if head.stop < next.start then (sealFrom next rest).map (head :: ·)
    else if head.stop = next.start then sealFrom ⟨head.start, next.stop⟩ rest
    else none

/-- `seal`. -/
def sealRanges : List Range → Option (List Range)
  | [] => some []
  | head :: rest => sealFrom head rest

/-- What sealing keeps of a list in order. -/
structure Sealed (l l' : List Range) : Prop where
  ordered : Ordered l'
  within : ∀ x, Within x l' ↔ Within x l
  above : ∀ n, Above n l → Above n l'
  below : ∀ n, Below n l → Below n l'

theorem sealFrom_sealed {head : Range} {rest : List Range} (h : Ordered (head :: rest)) :
    ∃ l, sealFrom head rest = some l ∧ Sealed (head :: rest) l := by
  induction rest generalizing head with
  | nil => exact ⟨[head], rfl, h, fun _ => Iff.rfl, fun _ h => h, fun _ h => h⟩
  | cons next _ ih =>
    obtain ⟨hh, ha, hnx, hr, ho⟩ := h
    obtain ⟨hle, hla⟩ := above_cons.mp ha
    unfold sealFrom
    by_cases hlt : head.stop < next.start
    · obtain ⟨l, hl, hs⟩ := ih ⟨hnx, hr, ho⟩
      rw [if_pos hlt, hl]
      refine ⟨head :: l, rfl, ⟨hh, hs.above _ ha, hs.ordered⟩, ?_, ?_, ?_⟩
      · intro x
        rw [within_cons, within_cons, hs.within]
      · intro n hn
        obtain ⟨h₁, h₂⟩ := above_cons.mp hn
        exact above_cons.mpr ⟨h₁, hs.above n h₂⟩
      · intro n hn
        obtain ⟨h₁, h₂⟩ := below_cons.mp hn
        exact below_cons.mpr ⟨h₁, hs.below n h₂⟩
    · have heq : head.stop = next.start := by omega
      rw [if_neg hlt, if_pos heq]
      have hm : head.start ≤ next.stop := by omega
      obtain ⟨l, hl, hs⟩ := @ih ⟨head.start, next.stop⟩ ⟨hm, hr, ho⟩
      refine ⟨l, hl, hs.ordered, ?_, ?_, ?_⟩
      · intro x
        rw [hs.within, within_cons, within_cons, within_cons, ← or_assoc]
        refine or_congr_left ?_
        simp only [Range.Has]
        omega
      · intro n hn
        obtain ⟨h₁, h₂⟩ := above_cons.mp hn
        exact hs.above n (above_cons.mpr ⟨h₁, (above_cons.mp h₂).2⟩)
      · intro n hn
        obtain ⟨_, h₂⟩ := below_cons.mp hn
        exact hs.below n (below_cons.mpr ⟨(below_cons.mp h₂).1, (below_cons.mp h₂).2⟩)

theorem sealRanges_sealed (h : Ordered l) : ∃ l', sealRanges l = some l' ∧ Sealed l l' := by
  cases l with
  | nil => exact ⟨[], rfl, trivial, fun _ => Iff.rfl, fun _ h => h, fun _ h => h⟩
  | cons => exact sealFrom_sealed h

def emit (r : Range) (l : List Range) : List Range := if r.start < r.stop then r :: l else l

theorem within_emit : Within x (emit r l) ↔ r.Has x ∨ Within x l := by
  unfold emit
  split
  · exact within_cons
  · simp only [Range.Has]
    constructor
    · exact Or.inr
    · rintro (h | h)
      · omega
      · exact h

theorem Ordered.emit (h : Ordered l) (hr : Above r.stop l) : Ordered (emit r l) := by
  unfold Primitives.emit
  split
  · exact ⟨by omega, hr, h⟩
  · exact h

theorem Above.emit (h : Above n l) (hr : n ≤ r.start) : Above n (emit r l) := by
  unfold Primitives.emit
  split
  · exact above_cons.mpr ⟨hr, h⟩
  · exact h

theorem Below.emit (h : Below n l) (hr : r.stop ≤ n) : Below n (emit r l) := by
  unfold Primitives.emit
  split
  · exact below_cons.mpr ⟨hr, h⟩
  · exact h

/-- The sweep of `intersection` with `h1` at the front of the first list. `f` continues behind
it. -/
def intersectFrom (h1 : Range) (f : List Range → List Range) : List Range → List Range
  | [] => []
  | h2 :: t2 =>
    emit ⟨max h1.start h2.start, min h1.stop h2.stop⟩
      (if h1.stop < h2.stop then f (h2 :: t2)
        else if h1.stop = h2.stop then f t2
        else intersectFrom h1 f t2)

def intersection : List Range → List Range → List Range
  | [] => fun _ => []
  | h1 :: t1 => intersectFrom h1 (intersection t1)

/-- What the sweep leaves of two lists in order. -/
structure Meets (l1 l2 l : List Range) : Prop where
  ordered : Ordered l
  within : ∀ x, Within x l ↔ Within x l1 ∧ Within x l2
  above : ∀ n, Above n l1 ∨ Above n l2 → Above n l
  below : ∀ n, Below n l1 ∨ Below n l2 → Below n l

theorem has_meet {h1 h2 : Range} :
    Range.Has ⟨max h1.start h2.start, min h1.stop h2.stop⟩ x ↔ h1.Has x ∧ h2.Has x := by
  simp only [Range.Has]
  omega

/-- What two ranges share stands in front of what the rest of the sweep leaves. -/
theorem Meets.emit {h1 h2 : Range} {t1 t2 l1 l2 : List Range} (h : Meets l1 l2 l)
    (hs1 : l1 ⊆ h1 :: t1) (hs2 : l2 ⊆ h2 :: t2)
    (ha : Above (min h1.stop h2.stop) l1 ∨ Above (min h1.stop h2.stop) l2)
    (hw : ∀ x, Within x (h1 :: t1) → Within x (h2 :: t2) →
      (h1.Has x ∧ h2.Has x) ∨ (Within x l1 ∧ Within x l2)) :
    Meets (h1 :: t1) (h2 :: t2) (emit ⟨max h1.start h2.start, min h1.stop h2.stop⟩ l) := by
  refine ⟨h.ordered.emit (h.above _ ha), ?_, ?_, ?_⟩
  · intro x
    rw [within_emit, has_meet, h.within]
    constructor
    · rintro (⟨hx1, hx2⟩ | ⟨⟨r1, hr1, hx1⟩, r2, hr2, hx2⟩)
      · exact ⟨within_cons.mpr (Or.inl hx1), within_cons.mpr (Or.inl hx2)⟩
      · exact ⟨⟨r1, hs1 hr1, hx1⟩, r2, hs2 hr2, hx2⟩
    · exact fun hx => hw x hx.1 hx.2
  · intro n hn
    refine (h.above n (hn.imp (fun hn r hr => hn r (hs1 hr)) fun hn r hr => hn r (hs2 hr))).emit ?_
    rcases hn with hn | hn
    · exact (above_cons.mp hn).1.trans (le_max_left _ _)
    · exact (above_cons.mp hn).1.trans (le_max_right _ _)
  · intro n hn
    refine (h.below n (hn.imp (fun hn r hr => hn r (hs1 hr)) fun hn r hr => hn r (hs2 hr))).emit ?_
    rcases hn with hn | hn
    · exact (min_le_left _ _).trans (below_cons.mp hn).1
    · exact (min_le_right _ _).trans (below_cons.mp hn).1

theorem intersectFrom_meets {h1 : Range} {t1 : List Range} {f : List Range → List Range}
    (ho : Ordered (h1 :: t1)) (hf : ∀ l2, Ordered l2 → Meets t1 l2 (f l2)) :
    ∀ l2, Ordered l2 → Meets (h1 :: t1) l2 (intersectFrom h1 f l2) := by
  obtain ⟨_, ha, _⟩ := ho
  intro l2
  induction l2 with
  | nil =>
    intro _
    refine ⟨trivial, ?_, ?_, ?_⟩
    · simp [intersectFrom]
    · intro n _ r hr
      cases hr
    · intro n _ r hr
      cases hr
  | cons h2 t2 ih =>
    rintro ⟨hl, hab, hor⟩
    -- The rest of the sweep starts where the shorter of the two ranges ends.
    have h1s : Above (min h1.stop h2.stop) t1 := ha.mono (min_le_left _ _)
    have h2s : Above (min h1.stop h2.stop) t2 := hab.mono (min_le_right _ _)
    unfold intersectFrom
    by_cases hlt : h1.stop < h2.stop
    · rw [if_pos hlt]
      refine (hf (h2 :: t2) ⟨hl, hab, hor⟩).emit (subset_cons_self _ _) (Subset.refl _)
        (Or.inl h1s) fun x hx1 hx2 => ?_
      rcases within_cons.mp hx1 with hx1 | hx1
      · refine Or.inl ⟨hx1, (within_cons.mp hx2).resolve_right fun hx2 => ?_⟩
        have := hab.le hx2
        have := hx1.2
        omega
      · exact Or.inr ⟨hx1, hx2⟩
    · rw [if_neg hlt]
      by_cases heq : h1.stop = h2.stop
      · rw [if_pos heq]
        refine (hf t2 hor).emit (subset_cons_self _ _) (subset_cons_self _ _) (Or.inl h1s)
          fun x hx1 hx2 => ?_
        rcases within_cons.mp hx1 with hx1 | hx1 <;> rcases within_cons.mp hx2 with hx2 | hx2
        · exact Or.inl ⟨hx1, hx2⟩
        · have := hab.le hx2
          have := hx1.2
          omega
        · have := ha.le hx1
          have := hx2.2
          omega
        · exact Or.inr ⟨hx1, hx2⟩
      · rw [if_neg heq]
        refine (ih hor).emit (Subset.refl _) (subset_cons_self _ _) (Or.inr h2s) fun x hx1 hx2 => ?_
        rcases within_cons.mp hx2 with hx2 | hx2
        · refine Or.inl ⟨(within_cons.mp hx1).resolve_right fun hx1 => ?_, hx2⟩
          have := ha.le hx1
          have := hx2.2
          omega
        · exact Or.inr ⟨hx1, hx2⟩

theorem intersection_meets {l1 l2 : List Range} (h1 : Ordered l1) (h2 : Ordered l2) :
    Meets l1 l2 (intersection l1 l2) := by
  induction l1 generalizing l2 with
  | nil =>
    refine ⟨trivial, ?_, ?_, ?_⟩
    · simp [intersection]
    · intro n _ r hr
      cases hr
    · intro n _ r hr
      cases hr
  | cons _ _ ih => exact intersectFrom_meets h1 (fun l2 hl2 => ih h1.2.2 hl2) l2 h2

/-- The pieces `union` seals, with `h1` at the front of the first list. The front of the second list
is cut off below the piece whether it started there or not. -/
def piecesFrom (f : List Range → List Range) : Range → List Range → List Range
  | h1, [] => h1 :: f []
  | h1, h2 :: t2 =>
    ⟨min h1.start h2.start, min h1.stop h2.stop⟩ ::
      if h1.stop = h2.stop then f t2
      else if h1.stop < h2.stop then f (⟨h1.stop, h2.stop⟩ :: t2)
      else piecesFrom f ⟨if h1.start < h2.stop then h2.stop else h1.start, h1.stop⟩ t2

def pieces : List Range → List Range → List Range
  | [] => fun l2 => l2
  | h1 :: t1 => piecesFrom (pieces t1) h1

/-- What the pieces of two lists in order satisfy. They may also cover gaps. -/
structure Joins (l1 l2 l : List Range) : Prop where
  ordered : Ordered l
  within : ∀ x, Within x l1 ∨ Within x l2 → Within x l
  above : ∀ n, Above n l1 → Above n l2 → Above n l
  below : ∀ n, Below n l1 → Below n l2 → Below n l

/-- A piece in front of the pieces of what is left. -/
theorem Joins.cons {l1 l2 l1' l2' : List Range} {p : Range} (h : Joins l1' l2' l)
    (hp : p.start ≤ p.stop) (h1 : Above p.stop l1') (h2 : Above p.stop l2')
    (hx1 : ∀ x, Within x l1 → p.Has x ∨ Within x l1')
    (hx2 : ∀ x, Within x l2 → p.Has x ∨ Within x l2')
    (ha : ∀ n, Above n l1 → Above n l2 → n ≤ p.start)
    (hb : ∀ n, Below n l1 → Below n l2 → p.stop ≤ n ∧ Below n l1' ∧ Below n l2') :
    Joins l1 l2 (p :: l) where
  ordered := ⟨hp, h.above _ h1 h2, h.ordered⟩
  within := by
    rintro x (hx | hx)
    · exact within_cons.mpr ((hx1 x hx).imp_right fun hx => h.within x (Or.inl hx))
    · exact within_cons.mpr ((hx2 x hx).imp_right fun hx => h.within x (Or.inr hx))
  above := by
    intro n hn1 hn2
    have hn := ha n hn1 hn2
    exact above_cons.mpr ⟨hn, h.above n (h1.mono (hn.trans hp)) (h2.mono (hn.trans hp))⟩
  below := by
    intro n hn1 hn2
    obtain ⟨hn, hn1', hn2'⟩ := hb n hn1 hn2
    exact below_cons.mpr ⟨hn, h.below n hn1' hn2'⟩

theorem piecesFrom_joins {t1 : List Range} {f : List Range → List Range}
    (hf : ∀ l2, Ordered l2 → Joins t1 l2 (f l2)) (h1 : Range) (ho : Ordered (h1 :: t1))
    (l2 : List Range) (h2 : Ordered l2) : Joins (h1 :: t1) l2 (piecesFrom f h1 l2) := by
  induction l2 generalizing h1 with
  | nil =>
    obtain ⟨hl, ha, hod⟩ := ho
    refine (hf [] trivial).cons hl ha (fun r hr => nomatch hr) ?_ ?_ ?_ ?_
    · intro x hx
      exact within_cons.mp hx
    · intro x hx
      exact absurd hx (within_nil x)
    · intro n hn _
      exact (above_cons.mp hn).1
    · intro n hn _
      exact ⟨(below_cons.mp hn).1, (below_cons.mp hn).2, fun r hr => nomatch hr⟩
  | cons h2' t2 ih =>
    obtain ⟨_, ha, hod⟩ := ho
    obtain ⟨hl2, hab, hor⟩ := h2
    have hs : ∀ n, Above n (h1 :: t1) → Above n (h2' :: t2) → n ≤ min h1.start h2'.start :=
      fun n hn1 hn2 => le_min (above_cons.mp hn1).1 (above_cons.mp hn2).1
    unfold piecesFrom
    by_cases heq : h1.stop = h2'.stop
    · rw [if_pos heq]
      refine (hf t2 hor).cons ?_ ?_ ?_ ?_ ?_ hs ?_
      · simp only []
        omega
      · exact ha.mono (min_le_left _ _)
      · exact hab.mono (min_le_right _ _)
      · intro x hx
        refine (within_cons.mp hx).imp_left fun hx => ?_
        simp only [Range.Has] at hx ⊢
        omega
      · intro x hx
        refine (within_cons.mp hx).imp_left fun hx => ?_
        simp only [Range.Has] at hx ⊢
        omega
      · intro n hn1 hn2
        have := (below_cons.mp hn1).1
        exact ⟨by simp only []; omega, (below_cons.mp hn1).2, (below_cons.mp hn2).2⟩
    · by_cases hlt : h1.stop < h2'.stop
      · rw [if_neg heq, if_pos hlt]
        refine (hf (⟨h1.stop, h2'.stop⟩ :: t2) ⟨hlt.le, hab, hor⟩).cons ?_ ?_ ?_ ?_ ?_ hs ?_
        · simp only []
          omega
        · exact ha.mono (min_le_left _ _)
        · refine above_cons.mpr ⟨min_le_left _ _, hab.mono (min_le_right _ _)⟩
        · intro x hx
          refine (within_cons.mp hx).imp_left fun hx => ?_
          simp only [Range.Has] at hx ⊢
          omega
        · intro x hx
          rcases within_cons.mp hx with hx | hx
          · rw [within_cons, ← or_assoc]
            refine Or.inl ?_
            simp only [Range.Has] at hx ⊢
            omega
          · exact Or.inr (within_cons.mpr (Or.inr hx))
        · intro n hn1 hn2
          have := (below_cons.mp hn1).1
          exact ⟨by simp only []; omega, (below_cons.mp hn1).2,
            below_cons.mpr ⟨(below_cons.mp hn2).1, (below_cons.mp hn2).2⟩⟩
      · rw [if_neg heq, if_neg hlt]
        have hc : (if h1.start < h2'.stop then h2'.stop else h1.start) ≤ h1.stop := by
          split <;> omega
        have hge : h2'.stop ≤ if h1.start < h2'.stop then h2'.stop else h1.start := by
          split <;> omega
        have hrs := ih ⟨if h1.start < h2'.stop then h2'.stop else h1.start, h1.stop⟩
          ⟨hc, ha, hod⟩ hor
        refine hrs.cons ?_ ?_ ?_ ?_ ?_ hs ?_
        · simp only []
          omega
        · refine above_cons.mpr ⟨(min_le_right _ _).trans hge, ha.mono (min_le_left _ _)⟩
        · exact hab.mono (min_le_right _ _)
        · intro x hx
          rcases within_cons.mp hx with hx | hx
          · rw [within_cons, ← or_assoc]
            refine Or.inl ?_
            simp only [Range.Has] at hx ⊢
            split <;> omega
          · exact Or.inr (within_cons.mpr (Or.inr hx))
        · intro x hx
          refine (within_cons.mp hx).imp_left fun hx => ?_
          simp only [Range.Has] at hx ⊢
          omega
        · intro n hn1 hn2
          have := (below_cons.mp hn2).1
          exact ⟨by simp only []; omega,
            below_cons.mpr ⟨(below_cons.mp hn1).1, (below_cons.mp hn1).2⟩, (below_cons.mp hn2).2⟩

theorem pieces_joins {l1 l2 : List Range} (h1 : Ordered l1) (h2 : Ordered l2) :
    Joins l1 l2 (pieces l1 l2) := by
  induction l1 generalizing l2 with
  | nil =>
    refine ⟨h2, ?_, fun _ _ h => h, fun _ _ h => h⟩
    rintro x (hx | hx)
    · exact absurd hx (within_nil x)
    · exact hx
  | cons h1' _ ih => exact piecesFrom_joins (fun l2 hl2 => ih h1.2.2 hl2) h1' h1 l2 h2

structure RangeList where
  ranges : List Range
  ordered : Ordered ranges

namespace RangeList

/-- `RangeList::seal`, on ranges in order. -/
def sealed (l : List Range) (h : Ordered l) : RangeList where
  ranges := (sealRanges l).get (by obtain ⟨l', hl', _⟩ := sealRanges_sealed h; simp [hl'])
  ordered := by
    obtain ⟨l', hl', hs⟩ := sealRanges_sealed h
    simp only [hl', Option.get_some]
    exact hs.ordered

theorem sealed_sealed (h : Ordered l) : Sealed l (sealed l h).ranges := by
  obtain ⟨_, hl', hs⟩ := sealRanges_sealed h
  simp only [sealed, hl', Option.get_some]
  exact hs

def intersection (a b : RangeList) : RangeList where
  ranges := Primitives.intersection a.ranges b.ranges
  ordered := (intersection_meets a.ordered b.ordered).ordered

def union (a b : RangeList) : RangeList :=
  sealed (pieces a.ranges b.ranges) (pieces_joins a.ordered b.ordered).ordered

/-- `end`. -/
def stop (a : RangeList) : Nat := a.ranges.getLast?.elim 0 Range.stop

instance : Membership Nat RangeList where
  mem a x := Within x a.ranges

instance (x : Nat) (a : RangeList) : Decidable (x ∈ a) := decidableWithin x a.ranges

theorem mem_sealed {h : Ordered l} : x ∈ sealed l h ↔ Within x l := (sealed_sealed h).within x

variable {a b : RangeList}

theorem mem_intersection : x ∈ a.intersection b ↔ x ∈ a ∧ x ∈ b :=
  (intersection_meets a.ordered b.ordered).within x

theorem mem_union_of_mem (h : x ∈ a ∨ x ∈ b) : x ∈ a.union b :=
  mem_sealed.mpr ((pieces_joins a.ordered b.ordered).within x h)

theorem intersection_below (h : Below n b.ranges) : Below n (a.intersection b).ranges :=
  (intersection_meets a.ordered b.ordered).below n (Or.inr h)

theorem union_below (ha : Below n a.ranges) (hb : Below n b.ranges) :
    Below n (a.union b).ranges := by
  have hp := pieces_joins a.ordered b.ordered
  exact (sealed_sealed hp.ordered).below n (hp.below n ha hb)

def indexes (a : RangeList) : List Nat :=
  a.ranges.flatMap fun r => List.range' r.start (r.stop - r.start)

theorem mem_indexes : x ∈ a.indexes ↔ x ∈ a := by
  simp only [indexes, mem_flatMap, mem_range'_1]
  constructor
  · rintro ⟨r, hr, hx⟩
    refine ⟨r, hr, ?_⟩
    simp only [Range.Has]
    omega
  · rintro ⟨r, hr, hx⟩
    simp only [Range.Has] at hx
    exact ⟨r, hr, by omega⟩

theorem indexes_ascending (a : RangeList) : a.indexes.Pairwise (· < ·) := by
  obtain ⟨ranges, ho⟩ := a
  simp only [indexes]
  induction ranges with
  | nil => exact List.Pairwise.nil
  | cons _ _ ih =>
    rw [flatMap_cons, pairwise_append]
    refine ⟨pairwise_lt_range', ih ho.2.2, ?_⟩
    intro x hx y hy
    obtain ⟨q, hq, hy⟩ := mem_flatMap.mp hy
    have ha := ho.2.1 q hq
    simp only [mem_range'_1] at hx hy
    omega

/-- Two ascending lists with the same members are equal. -/
theorem eq_of_ascending {l l' : List Nat} (h : l.Pairwise (· < ·)) (h' : l'.Pairwise (· < ·))
    (hm : ∀ x, x ∈ l ↔ x ∈ l') : l = l' := by
  have hn : l.Nodup := h.imp Nat.ne_of_lt
  have hn' : l'.Nodup := h'.imp Nat.ne_of_lt
  exact List.Perm.eq_of_pairwise (fun a b _ _ hab hba => absurd hab (Nat.lt_asymm hba)) h h'
    ((perm_ext_iff_of_nodup hn hn').mpr hm)

theorem indexes_intersection (a b : RangeList) :
    (a.intersection b).indexes = a.indexes.filter (· ∈ b) := by
  refine eq_of_ascending (indexes_ascending _) ((indexes_ascending a).filter _) fun x => ?_
  rw [mem_indexes, mem_intersection, mem_filter, mem_indexes, decide_eq_true_iff]

theorem indexes_below (h : Below n a.ranges) : a.indexes = (List.range n).filter (· ∈ a) := by
  refine eq_of_ascending (indexes_ascending a) (pairwise_lt_range.filter _) fun x => ?_
  rw [mem_indexes, mem_filter, mem_range, decide_eq_true_iff]
  exact ⟨fun hx => ⟨h.lt hx, hx⟩, And.right⟩

theorem stop_le_of_below (h : Below n a.ranges) : a.stop ≤ n := by
  unfold stop
  cases hlast : a.ranges.getLast? with
  | none => exact Nat.zero_le n
  | some r => exact h r (mem_of_getLast? hlast)

theorem below_of_stop_le (h : a.stop ≤ n) : Below n a.ranges := by
  obtain ⟨ranges, ho⟩ := a
  simp only [stop] at h
  induction ranges with
  | nil =>
    intro r hr
    cases hr
  | cons _ ranges ih =>
    cases ranges with
    | nil =>
      intro q hq
      rw [mem_singleton.mp hq]
      exact h
    | cons q =>
      rw [getLast?_cons_cons] at h
      have hrs := ih ho.2.2 h
      have hs := ho.2.1 q mem_cons_self
      have hst := hrs q mem_cons_self
      have hle := ho.2.2.1
      exact below_cons.mpr ⟨by omega, hrs⟩

end RangeList

end Primitives
