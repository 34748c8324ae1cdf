import SqdData.Primitives.Gather
import SqdData.Wrapping

/-!
# Canonical range lists

A set of positions has one canonical list. Intersections are canonical and exact, and so are the
ranges of an ascending list of positions, up to the greatest one, whose range ends at zero. A union
is canonical, but where a range of the first list ends in a gap of the second one with more ranges
behind it, the union covers the rest of that gap.
-/

namespace Primitives

open List

variable {l : List Range}

/-- The end of a range is in none of the ranges. -/
theorem Canonical.stop_not_within (h : Canonical l) {r : Range} (hr : r ∈ l) :
    ¬ Within r.stop l := by
  induction l with
  | nil => cases hr
  | cons _ _ ih =>
    obtain ⟨_, hg, hl⟩ := h
    rintro hin
    rcases within_cons.mp hin with hq | ⟨p, hp, hs, hst⟩
    · rcases mem_cons.mp hr with rfl | hr
      · exact absurd hq.2 (lt_irrefl _)
      · have := hg r hr
        have := hl.nonempty r hr
        exact absurd hq.2 (by omega)
    · rcases mem_cons.mp hr with rfl | hr
      · have := hg p hp
        omega
      · exact ih hl hr ⟨p, hp, hs, hst⟩

theorem canonical_of_ordered (h : Ordered l) (hne : ∀ r ∈ l, r.start < r.stop)
    (ha : ∀ r ∈ l, ¬ Within r.stop l) : Canonical l := by
  induction l with
  | nil => trivial
  | cons r _ ih =>
    refine ⟨hne r mem_cons_self, fun q hq => ?_, ih h.2.2
      (fun q hq => hne q (mem_cons_of_mem r hq)) fun q hq hin =>
        ha q (mem_cons_of_mem r hq) (within_cons.mpr (Or.inr hin))⟩
    have hle := h.2.1 q hq
    have hq' := hne q (mem_cons_of_mem r hq)
    refine lt_of_le_of_ne hle fun heq => ha r mem_cons_self ?_
    exact within_cons.mpr (Or.inr ⟨q, hq, heq.ge, by omega⟩)

/-- A set of positions has one canonical list. -/
theorem Canonical.ext {l' : List Range} (h : Canonical l) (h' : Canonical l')
    (hmm : ∀ x, Within x l ↔ Within x l') : l = l' := by
  induction l generalizing l' with
  | nil =>
    cases l' with
    | nil => rfl
    | cons q =>
      exact absurd ((hmm q.start).mpr (within_cons.mpr (Or.inl ⟨le_rfl, h'.1⟩))) (within_nil _)
  | cons r _ ih =>
    cases l' with
    | nil =>
      exact absurd ((hmm r.start).mp (within_cons.mpr (Or.inl ⟨le_rfl, h.1⟩))) (within_nil _)
    | cons q =>
      -- the first ranges start at the least position and end at the first one missing
      have key : ∀ {a b : Range} {m m' : List Range}, Canonical (a :: m) → Canonical (b :: m') →
          (∀ x, Within x (a :: m) → Within x (b :: m')) → b.start ≤ a.start := by
        intro a b m m' ha hb hsb
        rcases within_cons.mp (hsb a.start (within_cons.mpr (Or.inl ⟨le_rfl, ha.1⟩))) with
          hx | ⟨p, hp, hx⟩
        · exact hx.1
        · have := hb.2.1 p hp
          have := hb.1
          exact le_trans (by omega) hx.1
      have hs : r.start = q.start :=
        le_antisymm (key h' h fun x => (hmm x).mpr) (key h h' fun x => (hmm x).mp)
      have key' : ∀ {a b : Range} {m m' : List Range}, Canonical (a :: m) → Canonical (b :: m') →
          a.start = b.start → (∀ x, Within x (b :: m') → Within x (a :: m)) → b.stop ≤ a.stop := by
        intro a b m m' ha hb heq hsb
        by_contra hlt
        exact ha.stop_not_within mem_cons_self
          (hsb a.stop (within_cons.mpr (Or.inl ⟨heq ▸ ha.1.le, by omega⟩)))
      have hst : r.stop = q.stop := le_antisymm (key' h' h hs.symm fun x => (hmm x).mp)
        (key' h h' hs fun x => (hmm x).mpr)
      have hr : r = q := by
        cases r
        cases q
        simp_all
      subst hr
      refine congrArg (r :: ·) (ih h.2.2 h'.2.2 fun x => ?_)
      have hl : ∀ {m : List Range}, Canonical (r :: m) → Within x m → ¬ r.Has x := by
        rintro _ hm ⟨p, hp, hx⟩ hr
        have := hm.2.1 p hp
        have := hx.1
        have := hr.2
        omega
      constructor
      · intro hx
        exact (within_cons.mp ((hmm x).mp (within_cons.mpr (Or.inr hx)))).resolve_left (hl h hx)
      · intro hx
        exact (within_cons.mp ((hmm x).mpr (within_cons.mpr (Or.inr hx)))).resolve_left (hl h' hx)

/-- `RangeList::union`; no result is a panic of the sealing. -/
def union (l1 l2 : List Range) : Option (List Range) := sealRanges (pieces l1 l2)

/-- Where a range of the first list ends, the second list has a position or no more ranges, or one
of its ranges ends there as well. -/
def EndsMet (l1 l2 : List Range) : Prop :=
  ∀ r ∈ l1, Below r.stop l2 ∨ Within r.stop l2 ∨ ∃ q ∈ l2, q.stop = r.stop

/-- The pieces of two lists are not empty, and cover no gaps where the ends are met. -/
structure Exact (l1 l2 l : List Range) : Prop where
  nonempty : ∀ r ∈ l, r.start < r.stop
  within : EndsMet l1 l2 → ∀ x, Within x l → Within x l1 ∨ Within x l2

variable {l1 l2 : List Range}

/-- A piece in front of the pieces of what is left. -/
theorem Exact.cons {l1' l2' : List Range} {p : Range} (h : Exact l1' l2' l)
    (hp : p.start < p.stop) (he : EndsMet l1 l2 → EndsMet l1' l2')
    (hs : EndsMet l1 l2 → ∀ x, p.Has x ∨ Within x l1' ∨ Within x l2' → Within x l1 ∨ Within x l2) :
    Exact l1 l2 (p :: l) where
  nonempty := by
    intro r hr
    rcases mem_cons.mp hr with rfl | hr
    · exact hp
    · exact h.nonempty r hr
  within := fun hm x hx =>
    hs hm x ((within_cons.mp hx).imp_right (h.within (he hm) x))

section Met

variable {x : Nat} {q : Range} {t2 : List Range}

/-- A range that ends below the position is of no use to it. -/
theorem met_tail (h : Below x (q :: t2) ∨ Within x (q :: t2) ∨ ∃ p ∈ q :: t2, p.stop = x)
    (hx : q.stop < x) : Below x t2 ∨ Within x t2 ∨ ∃ p ∈ t2, p.stop = x := by
  rcases h with h | h | ⟨p, hp, hps⟩
  · exact Or.inl (below_cons.mp h).2
  · exact Or.inr (Or.inl ((within_cons.mp h).resolve_left fun hq => (hx.trans hq.2).false))
  · rcases mem_cons.mp hp with rfl | hp
    · omega
    · exact Or.inr (Or.inr ⟨p, hp, hps⟩)

/-- The first range may start anywhere up to the position. -/
theorem met_from {start : Nat}
    (h : Below x (q :: t2) ∨ Within x (q :: t2) ∨ ∃ p ∈ q :: t2, p.stop = x) (hx : start ≤ x) :
    Below x (⟨start, q.stop⟩ :: t2) ∨ Within x (⟨start, q.stop⟩ :: t2) ∨
      ∃ p ∈ (⟨start, q.stop⟩ : Range) :: t2, p.stop = x := by
  rcases h with h | h | ⟨p, hp, hps⟩
  · exact Or.inl (below_cons.mpr ⟨(below_cons.mp h).1, (below_cons.mp h).2⟩)
  · exact Or.inr (Or.inl (within_cons.mpr ((within_cons.mp h).imp_left fun hq => ⟨hx, hq.2⟩)))
  · rcases mem_cons.mp hp with rfl | hp
    · exact Or.inr (Or.inr ⟨_, mem_cons_self, hps⟩)
    · exact Or.inr (Or.inr ⟨p, mem_cons_of_mem _ hp, hps⟩)

/-- There is no gap at a position below the end of the first range. -/
theorem start_le_of_met (h : Below x (q :: t2) ∨ Within x (q :: t2) ∨ ∃ p ∈ q :: t2, p.stop = x)
    (hx : x < q.stop) (ha : Above q.stop t2) (hn : ∀ r ∈ t2, r.start < r.stop) : q.start ≤ x := by
  rcases h with hb | hin | ⟨p, hp, hps⟩
  · have := (below_cons.mp hb).1
    omega
  · rcases within_cons.mp hin with hin | hin
    · exact hin.1
    · have := ha.le hin
      omega
  · rcases mem_cons.mp hp with rfl | hp
    · omega
    · have := ha p hp
      have := hn p hp
      omega

end Met

theorem piecesFrom_exact {t1 : List Range} {f : List Range → List Range}
    (hf : ∀ l2, Ordered l2 → (∀ r ∈ l2, r.start < r.stop) → Exact t1 l2 (f l2)) (h1 : Range)
    (ho : Ordered (h1 :: t1)) (hn1 : h1.start < h1.stop) (hs : ∀ r ∈ t1, h1.stop < r.stop)
    (l2 : List Range) (h2 : Ordered l2) (hn : ∀ r ∈ l2, r.start < r.stop) :
    Exact (h1 :: t1) l2 (piecesFrom f h1 l2) := by
  induction l2 generalizing h1 with
  | nil =>
    refine (hf [] trivial nofun).cons hn1
      (fun hm r hr => hm r (mem_cons_of_mem h1 hr)) fun _ x hx => ?_
    rw [within_cons, or_assoc]
    exact hx
  | cons q t2 ih =>
    obtain ⟨_, hab, hod⟩ := ho
    obtain ⟨hl, ha, hor⟩ := h2
    have hnq := hn q mem_cons_self
    have hn' : ∀ r ∈ t2, r.start < r.stop := fun r hr => hn r (mem_cons_of_mem q hr)
    rw [piecesFrom]
    by_cases heq : h1.stop = q.stop
    · rw [if_pos heq]
      refine (hf t2 hor hn').cons (by simp only []; omega)
        (fun hm r hr => met_tail (hm r (mem_cons_of_mem h1 hr)) (heq ▸ hs r hr)) fun _ x hx => ?_
      rw [within_cons, within_cons]
      rcases hx with hx | hx | hx
      · simp only [Range.Has] at hx ⊢
        omega
      · exact Or.inl (Or.inr hx)
      · exact Or.inr (Or.inr hx)
    by_cases hlt : h1.stop < q.stop
    · rw [if_neg heq, if_pos hlt]
      refine (hf (⟨h1.stop, q.stop⟩ :: t2) ⟨hlt.le, ha, hor⟩ ?_).cons (by simp only []; omega)
        (fun hm r hr => met_from (hm r (mem_cons_of_mem h1 hr)) (hs r hr).le) fun hm x hx => ?_
      · intro r hr
        rcases mem_cons.mp hr with rfl | hr
        · exact hlt
        · exact hn' r hr
      · -- the end of the range is met, so the second list has no gap there
        have hq := start_le_of_met (hm h1 mem_cons_self) hlt ha hn'
        rw [within_cons, within_cons]
        rcases hx with hx | hx | hx
        · simp only [Range.Has] at hx ⊢
          omega
        · exact Or.inl (Or.inr hx)
        · rcases within_cons.mp hx with hx | hx
          · simp only [Range.Has] at hx ⊢
            omega
          · exact Or.inr (Or.inr hx)
    · rw [if_neg heq, if_neg hlt]
      have hc : (if h1.start < q.stop then q.stop else h1.start) < h1.stop := by
        split <;> omega
      have hge : h1.start ≤ if h1.start < q.stop then q.stop else h1.start := by
        split <;> omega
      refine (ih ⟨if h1.start < q.stop then q.stop else h1.start, h1.stop⟩
        ⟨hc.le, hab, hod⟩ hc hs hor hn').cons (by simp only []; omega)
        (fun hm r hr => ?_) fun _ x hx => ?_
      · rcases mem_cons.mp hr with rfl | hr
        · exact met_tail (hm h1 mem_cons_self) (show q.stop < h1.stop by omega)
        · have := hs r hr
          exact met_tail (hm r (mem_cons_of_mem h1 hr)) (by omega)
      · rw [within_cons, within_cons]
        rcases hx with hx | hx | hx
        · simp only [Range.Has] at hx ⊢
          omega
        · refine Or.inl ((within_cons.mp hx).imp_left fun hx => ⟨?_, hx.2⟩)
          exact hge.trans hx.1
        · exact Or.inr (Or.inr hx)

theorem pieces_exact (h1 : Canonical l1) (h2 : Ordered l2) (hn : ∀ r ∈ l2, r.start < r.stop) :
    Exact l1 l2 (pieces l1 l2) := by
  induction l1 generalizing l2 with
  | nil => exact ⟨hn, fun _ x hx => Or.inr hx⟩
  | cons r _ ih =>
    refine piecesFrom_exact (fun l2 h2 hn => ih h1.2.2 h2 hn) r h1.ordered h1.1
      (fun q hq => ?_) l2 h2 hn
    have := h1.2.1 q hq
    have := h1.2.2.nonempty q hq
    omega

theorem piecesFrom_stop {t1 : List Range} {f : List Range → List Range} {r : Range}
    (hj : ∀ l2, Ordered l2 → Joins t1 l2 (f l2))
    (hf : r ∈ t1 → ∀ l2, Ordered l2 → (∀ q ∈ l2, q.stop ≠ r.stop) →
      (∃ q ∈ l2, r.stop < q.stop) → Within r.stop (f l2)) (h1 : Range)
    (hs : ∀ q ∈ t1, h1.stop < q.stop) (hr : r.stop = h1.stop ∨ r ∈ t1) (l2 : List Range)
    (h2 : Ordered l2) (hne : ∀ q ∈ l2, q.stop ≠ r.stop) (hlt : ∃ q ∈ l2, r.stop < q.stop) :
    Within r.stop (piecesFrom f h1 l2) := by
  induction l2 generalizing h1 with
  | nil =>
    obtain ⟨_, hq, -⟩ := hlt
    cases hq
  | cons q t2 ih =>
    obtain ⟨hl, ha, hor⟩ := h2
    have hq := hne q mem_cons_self
    have hne' : ∀ p ∈ t2, p.stop ≠ r.stop := fun p hp => hne p (mem_cons_of_mem q hp)
    have hle : h1.stop ≤ r.stop := by
      rcases hr with hr | hr
      · exact hr.ge
      · exact (hs r hr).le
    have hlt' : q.stop ≤ r.stop → ∃ p ∈ t2, r.stop < p.stop := by
      obtain ⟨p, hp, hps⟩ := hlt
      rintro hle'
      rcases mem_cons.mp hp with rfl | hp
      · omega
      · exact ⟨p, hp, hps⟩
    rw [piecesFrom]
    refine within_cons.mpr (Or.inr ?_)
    by_cases heq : h1.stop = q.stop
    · rw [if_pos heq]
      rcases hr with hr | hr
      · omega
      · exact hf hr t2 hor hne' (hlt' (by omega))
    rw [if_neg heq]
    by_cases hcut : h1.stop < q.stop
    · rw [if_pos hcut]
      have ho : Ordered (⟨h1.stop, q.stop⟩ :: t2) := ⟨hcut.le, ha, hor⟩
      rcases hr with hr | hr
      · -- the range behind is drawn down to the end of this one
        exact (hj _ ho).within _ (Or.inr (within_cons.mpr (Or.inl ⟨hr.ge, hr.trans_lt hcut⟩)))
      · refine hf hr _ ho ?_ ?_
        · intro p hp
          rcases mem_cons.mp hp with rfl | hp
          · exact hq
          · exact hne' p hp
        · obtain ⟨p, hp, hps⟩ := hlt
          rcases mem_cons.mp hp with rfl | hp
          · exact ⟨_, mem_cons_self, hps⟩
          · exact ⟨p, mem_cons_of_mem _ hp, hps⟩
    · rw [if_neg hcut]
      exact ih _ hs hr hor hne' (hlt' (by omega))

/-- The end of a range of the first list is covered if the second list goes on and none of its
ranges ends there. -/
theorem pieces_stop {r : Range} (h1 : Canonical l1) (h2 : Ordered l2) (hr : r ∈ l1)
    (hne : ∀ q ∈ l2, q.stop ≠ r.stop) (hlt : ∃ q ∈ l2, r.stop < q.stop) :
    Within r.stop (pieces l1 l2) := by
  induction l1 generalizing l2 with
  | nil => cases hr
  | cons q _ ih =>
    refine piecesFrom_stop (fun l2 h => pieces_joins h1.2.2.ordered h)
      (fun hr l2 h2 hne hlt => ih h1.2.2 h2 hr hne hlt) q ?_ ?_ l2 h2 hne hlt
    · intro p hp
      have := h1.2.1 p hp
      have := h1.2.2.nonempty p hp
      omega
    · rcases mem_cons.mp hr with rfl | hr
      · exact Or.inl rfl
      · exact Or.inr hr

theorem union_spec (h1 : Canonical l1) (h2 : Canonical l2) :
    ∃ l, union l1 l2 = some l ∧ Canonical l ∧
      (∀ x, Within x l1 ∨ Within x l2 → Within x l) ∧
      ((∀ x, Within x l → Within x l1 ∨ Within x l2) ↔ EndsMet l1 l2) := by
  have hj := pieces_joins h1.ordered h2.ordered
  have he := pieces_exact h1 h2.ordered h2.nonempty
  obtain ⟨l, hl, hs⟩ := sealRanges_sealed hj.ordered
  refine ⟨l, hl, canonical_sealRanges hj.ordered he.nonempty hl,
    fun x hx => (hs.within x).mpr (hj.within x hx), ?_,
    fun hm x hx => he.within hm x ((hs.within x).mp hx)⟩
  intro hex r hr
  by_contra hc
  simp only [not_or, not_exists, not_and, Below, not_forall, not_le] at hc
  obtain ⟨⟨q, hq, hlt⟩, hnw, hne⟩ := hc
  have hw := pieces_stop h1 h2.ordered hr hne ⟨q, hq, hlt⟩
  rcases hex r.stop ((hs.within _).mpr hw) with hin | hin
  · exact h1.stop_not_within hr hin
  · exact hnw hin

/-- Canonical lists have a canonical union that covers both. It covers nothing else if and only if
the ends of the first list are met in the second one, and then it is the union in the other order if
and only if this holds the other way around as well. -/
theorem union_is_exact_iff {l1 l2 : List Range} (h1 : Canonical l1) (h2 : Canonical l2) :
    ∃ l, union l1 l2 = some l ∧ Canonical l ∧
      (∀ x, Within x l1 ∨ Within x l2 → Within x l) ∧
      ((∀ x, Within x l ↔ Within x l1 ∨ Within x l2) ↔ EndsMet l1 l2) ∧
      (EndsMet l1 l2 → (union l2 l1 = some l ↔ EndsMet l2 l1)) := by
  obtain ⟨l, hl, hc, hcv, he⟩ := union_spec h1 h2
  obtain ⟨l', hl', hc', hcv', he'⟩ := union_spec h2 h1
  refine ⟨l, hl, hc, hcv, ⟨fun hx => he.mp fun x => (hx x).mp,
    fun hm x => ⟨he.mpr hm x, hcv x⟩⟩, fun hm => ⟨fun heq => ?_, fun hm' => ?_⟩⟩
  · obtain rfl := Option.some.inj (hl'.symm.trans heq)
    exact he'.mp fun x hx => (he.mpr hm x hx).symm
  · have heq : l' = l := hc'.ext hc fun x =>
      ⟨fun hx => hcv x (he'.mpr hm' x hx).symm, fun hx => hcv' x (he.mpr hm x hx).symm⟩
    rw [hl', heq]

theorem overlapping_union_is_exact :
    ∃ l, union [⟨0, 4⟩] [⟨2, 6⟩] = some l ∧ Canonical l ∧
      ∀ x, Within x l ↔ Within x [⟨0, 4⟩] ∨ Within x [⟨2, 6⟩] := by
  have hmet : EndsMet [⟨0, 4⟩] [⟨2, 6⟩] := by
    intro r hr
    rw [mem_singleton.mp hr]
    exact Or.inr (Or.inl (by decide))
  obtain ⟨l, hl, hc, -, hx, -⟩ := @union_is_exact_iff [⟨0, 4⟩] [⟨2, 6⟩]
    ⟨by decide, nofun, trivial⟩ ⟨by decide, nofun, trivial⟩
  exact ⟨l, hl, hc, hx.mpr hmet⟩

/-- The gap between the two ranges is covered, and only in this order. -/
theorem union_covers_gap : Canonical [⟨0, 2⟩] ∧ Canonical [⟨5, 8⟩] ∧
    union [⟨0, 2⟩] [⟨5, 8⟩] = some [⟨0, 8⟩] ∧ ¬ (Within 3 [⟨0, 2⟩] ∨ Within 3 [⟨5, 8⟩]) ∧
    Within 3 [⟨0, 8⟩] ∧ union [⟨5, 8⟩] [⟨0, 2⟩] = some [⟨0, 2⟩, ⟨5, 8⟩] :=
  ⟨⟨by decide, nofun, trivial⟩, ⟨by decide, nofun, trivial⟩, by decide, by decide, by decide,
    by decide⟩

theorem mem_emit {p r : Range} (h : r ∈ emit p l) : (r = p ∧ r.start < r.stop) ∨ r ∈ l := by
  unfold emit at h
  split_ifs at h with hp
  · rcases mem_cons.mp h with rfl | h
    · exact Or.inl ⟨rfl, hp⟩
    · exact Or.inr h
  · exact Or.inr h

/-- A range of the intersection ends where a range of one of the lists does. -/
def EndsWith (l1 l2 : List Range) (r : Range) : Prop :=
  r.start < r.stop ∧ ∃ q, (q ∈ l1 ∨ q ∈ l2) ∧ r.stop = q.stop

theorem EndsWith.mono {l1' l2' : List Range} {r : Range} (h : EndsWith l1 l2 r) (h1 : l1 ⊆ l1')
    (h2 : l2 ⊆ l2') : EndsWith l1' l2' r := by
  obtain ⟨hne, q, hq, hs⟩ := h
  exact ⟨hne, q, hq.imp (fun h => h1 h) (fun h => h2 h), hs⟩

theorem intersection_endsWith {r : Range} (h : r ∈ intersection l1 l2) : EndsWith l1 l2 r := by
  induction l1 generalizing l2 with
  | nil => cases h
  | cons h1 t1 ih =>
    have hs : t1 ⊆ h1 :: t1 := subset_cons_self h1 t1
    change r ∈ intersectFrom h1 (intersection t1) l2 at h
    induction l2 with
    | nil => cases h
    | cons h2 t2 ih2 =>
      have hsb : t2 ⊆ h2 :: t2 := subset_cons_self h2 t2
      rw [intersectFrom] at h
      rcases mem_emit h with ⟨rfl, hne⟩ | h
      · refine ⟨hne, ?_⟩
        rcases le_total h1.stop h2.stop with hle | hle
        · exact ⟨h1, Or.inl mem_cons_self, min_eq_left hle⟩
        · exact ⟨h2, Or.inr mem_cons_self, min_eq_right hle⟩
      · split_ifs at h
        · exact (ih h).mono hs (List.Subset.refl _)
        · exact (ih h).mono hs hsb
        · exact (ih2 h).mono (List.Subset.refl _) hsb

theorem intersection_canonical (h1 : Canonical l1) (h2 : Canonical l2) :
    Canonical (intersection l1 l2) := by
  have hm := intersection_meets h1.ordered h2.ordered
  refine canonical_of_ordered hm.ordered (fun r hr => (intersection_endsWith hr).1)
    fun r hr hin => ?_
  obtain ⟨hi, hi2⟩ := (hm.within _).mp hin
  obtain ⟨-, q, hq | hq, hs⟩ := intersection_endsWith hr
  · exact h1.stop_not_within hq (hs ▸ hi)
  · exact h2.stop_not_within hq (hs ▸ hi2)

/-- The loop of `from_sorted_indexes`. It panics on an index out of order. Indexes have 32 bits. -/
def indexRanges (beg stop : Nat) : List Nat → Option (List Range)
  | [] => some [⟨beg, stop⟩]
  | idx :: rest =>
    if stop < idx then (indexRanges idx (Wrapping.succ 32 idx) rest).map (⟨beg, stop⟩ :: ·)
    else if stop = idx then indexRanges beg (Wrapping.succ 32 idx) rest
    else none

def fromSortedIndexes : List Nat → Option (List Range)
  | [] => some []
  | idx :: rest => indexRanges idx (Wrapping.succ 32 idx) rest

theorem indexRanges_spec {beg stop : Nat} {rest : List Nat} (hlt : beg < stop)
    (hs : ∀ x ∈ rest, stop ≤ x) (hrs : rest.Pairwise (· < ·)) (hb : ∀ x ∈ rest, x + 1 < 2 ^ 32) :
    ∃ l, indexRanges beg stop rest = some l ∧ Canonical l ∧ Above beg l ∧
      ∀ x, Within x l ↔ (beg ≤ x ∧ x < stop) ∨ x ∈ rest := by
  induction rest generalizing beg stop with
  | nil =>
    refine ⟨[⟨beg, stop⟩], rfl, ⟨hlt, nofun, trivial⟩, ?_, fun x => ?_⟩
    · intro r hr
      rw [mem_singleton.mp hr]
    · simp [Range.Has]
  | cons idx _ ih =>
    obtain ⟨hf, hrs⟩ := pairwise_cons.mp hrs
    have hle := hs idx mem_cons_self
    have hb' := fun x hx => hb x (mem_cons_of_mem idx hx)
    rw [indexRanges, Wrapping.succ_of_lt (hb idx mem_cons_self)]
    by_cases hg : stop < idx
    · obtain ⟨l, hl, hc, ha, hw⟩ := ih (Nat.lt_succ_self idx) (fun x hx => hf x hx) hrs hb'
      rw [if_pos hg, hl]
      refine ⟨⟨beg, stop⟩ :: l, rfl, ⟨hlt, fun q hq => ?_, hc⟩, ?_, fun x => ?_⟩
      · exact hg.trans_le (ha q hq)
      · refine above_cons.mpr ⟨le_rfl, ha.mono ?_⟩
        omega
      · rw [within_cons, hw, mem_cons]
        refine or_congr Iff.rfl (or_congr_left ?_)
        omega
    · have heq : stop = idx := by omega
      obtain ⟨l, hl, hc, ha, hw⟩ := @ih beg (idx + 1) (by omega) (fun x hx => hf x hx) hrs hb'
      rw [if_neg hg, if_pos heq]
      refine ⟨l, hl, hc, ha, fun x => ?_⟩
      rw [hw, mem_cons, ← or_assoc]
      refine or_congr_left ?_
      omega

/-- Intersections of canonical lists, and the ranges of an ascending list of positions below the
greatest one, are the canonical lists of their positions. -/
theorem intersection_and_indexes_are_exact :
    (∀ l1 l2, Canonical l1 → Canonical l2 → Canonical (intersection l1 l2) ∧
      ∀ x, Within x (intersection l1 l2) ↔ Within x l1 ∧ Within x l2) ∧
    ∀ indexes : List Nat, indexes.Pairwise (· < ·) → (∀ x ∈ indexes, x < 2 ^ 32 - 1) →
      ∃ l, fromSortedIndexes indexes = some l ∧ Canonical l ∧ ∀ x, Within x l ↔ x ∈ indexes := by
  constructor
  · intro l1 l2 h1 h2
    exact ⟨intersection_canonical h1 h2, (intersection_meets h1.ordered h2.ordered).within⟩
  · intro indexes h hbound
    have hb : ∀ x ∈ indexes, x + 1 < 2 ^ 32 := by
      intro x hx
      have := hbound x hx
      omega
    cases indexes with
    | nil => exact ⟨[], rfl, trivial, by simp⟩
    | cons idx =>
      obtain ⟨hf, hr⟩ := pairwise_cons.mp h
      obtain ⟨l, hl, hc, -, hw⟩ := indexRanges_spec (Nat.lt_succ_self idx) hf hr
        fun x hx => hb x (mem_cons_of_mem idx hx)
      rw [fromSortedIndexes, Wrapping.succ_of_lt (hb idx mem_cons_self)]
      refine ⟨l, hl, hc, fun x => ?_⟩
      rw [hw, mem_cons]
      refine or_congr_left ?_
      omega

theorem sample_is_exact : Canonical (intersection [⟨0, 4⟩] [⟨2, 6⟩]) ∧
    (∃ l, fromSortedIndexes [1, 2, 5] = some l ∧ Canonical l ∧ ∀ x, Within x l ↔ x ∈ [1, 2, 5]) :=
  ⟨(intersection_and_indexes_are_exact.1 [⟨0, 4⟩] [⟨2, 6⟩] ⟨by decide, nofun, trivial⟩
    ⟨by decide, nofun, trivial⟩).1, intersection_and_indexes_are_exact.2 _ (by decide) (by decide)⟩

/-- The range of the greatest index ends at zero and holds nothing. -/
theorem greatest_index_is_lost :
    [2 ^ 32 - 1].Pairwise (· < ·) ∧ fromSortedIndexes [2 ^ 32 - 1] = some [⟨2 ^ 32 - 1, 0⟩] ∧
      ¬ Within (2 ^ 32 - 1) [⟨2 ^ 32 - 1, 0⟩] :=
  ⟨pairwise_singleton _ _, by decide, by decide⟩

end Primitives
