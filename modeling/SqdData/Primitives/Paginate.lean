import SqdData.Primitives.RangeList

/-!
# Pagination of a range list

The sweep that cuts a selection at the borders of pages. The range at the front stays there until a
page reaches its end, so that one range may cover several pages, and the sweep stops with the last
range. The pages it yields partition the selected positions.
-/

namespace Primitives

open List

def windowsOf : List Nat → List Range
  | a :: b :: rest => ⟨a, b⟩ :: windowsOf (b :: rest)
  | _ => []

theorem above_windowsOf {a : Nat} {rest : List Nat} (h : (a :: rest).IsChain (· ≤ ·)) :
    Above a (windowsOf (a :: rest)) := by
  induction rest generalizing a with
  | nil =>
    intro r hr
    cases hr
  | cons _ _ ih =>
    obtain ⟨hab, hrs⟩ := isChain_cons_cons.mp h
    exact above_cons.mpr ⟨le_rfl, (ih hrs).mono hab⟩

theorem ordered_windowsOf {offsets : List Nat} (h : offsets.IsChain (· ≤ ·)) :
    Ordered (windowsOf offsets) := by
  induction offsets with
  | nil => trivial
  | cons _ rest ih =>
    cases rest with
    | nil => trivial
    | cons =>
      obtain ⟨hab, hr⟩ := isChain_cons_cons.mp h
      exact ⟨hab, above_windowsOf hr, ih hr⟩

/-- Windows between ascending offsets tile the positions from the first offset to the last one. -/
theorem tiles_windowsOf {a n : Nat} {rest : List Nat} (h : (a :: rest).IsChain (· ≤ ·))
    (hlast : (a :: rest).getLast? = some n) :
    (∀ i, a ≤ i → i < n → Within i (windowsOf (a :: rest))) ∧ Below n (windowsOf (a :: rest)) := by
  induction rest generalizing a with
  | nil =>
    rw [getLast?_singleton, Option.some.injEq] at hlast
    exact ⟨fun i hl hh => by omega, nofun⟩
  | cons b rest ih =>
    obtain ⟨_, hr⟩ := isChain_cons_cons.mp h
    rw [getLast?_cons_cons] at hlast
    obtain ⟨hc, hb⟩ := ih hr hlast
    constructor
    · intro i hl hh
      rw [windowsOf, within_cons]
      rcases Nat.lt_or_ge i b with hlt | hge
      · exact Or.inl ⟨hl, hlt⟩
      · exact Or.inr (hc i hge hh)
    · have hle : b ≤ n := by
        have hm : n ∈ b :: rest := mem_of_getLast? hlast
        rcases mem_cons.mp hm with rfl | hm
        · exact le_rfl
        · exact rel_of_pairwise_cons (isChain_iff_pairwise.mp hr) hm
      exact below_cons.mpr ⟨hle, hb⟩

theorem windowsOf_nonempty {offsets : List Nat} (h : offsets.Pairwise (· < ·)) :
    ∀ p ∈ windowsOf offsets, p.start < p.stop := by
  induction offsets with
  | nil => nofun
  | cons _ rest ih =>
    cases rest with
    | nil => nofun
    | cons b =>
      obtain ⟨hab, hr⟩ := pairwise_cons.mp h
      intro p hp
      rcases mem_cons.mp hp with rfl | hp
      · exact hab b mem_cons_self
      · exact ih hr p hp

def tryFrom (ranges : List Range) : Except String (List Range) :=
  if ranges.any fun r => r.stop ≤ r.start then
    .error "range list can only contain non-empty ranges"
  else if (ranges.zip (ranges.drop 1)).any fun p => p.1.stop > p.2.start then
    .error "found unordered or overlapping ranges"
  else .ok ranges

variable {ranges l pages : List Range} {page : Range} {i : Nat}

theorem tryFrom_ordered (h : tryFrom ranges = .ok l) : Ordered l := by
  unfold tryFrom at h
  split_ifs at h with he hl
  cases h
  induction ranges with
  | nil => trivial
  | cons _ ranges ih =>
    simp only [any_cons, Bool.or_eq_true, decide_eq_true_eq, not_or, not_le] at he
    cases ranges with
    | nil => exact ⟨he.1.le, nofun, trivial⟩
    | cons q ranges =>
      simp only [drop_succ_cons, drop_zero, zip_cons_cons, any_cons,
        Bool.or_eq_true, decide_eq_true_eq, not_or, not_lt, gt_iff_lt] at hl
      have hr : Ordered (q :: ranges) := ih he.2 (by simpa using hl.2)
      exact ⟨he.1.le, above_cons.mpr ⟨hl.1, hr.2.1.mono (hl.1.trans hr.1)⟩, hr⟩

/-- What the inner loop of `paginate` finds for a page: it is covered by one range, it is cut by
some ranges, or there are no ranges left. -/
inductive PageCut where
  | whole (rest : List Range)
  | part (included rest : List Range)
  | exhausted (included : List Range)

/-- The inner loop of `paginate`. A range that ends before the page does is done with. -/
def cutPage (page : Range) : List Range → List Range → PageCut
  | included, [] => .exhausted included
  | included, range :: ranges =>
    let common : Range := ⟨max page.start range.start, min page.stop range.stop⟩
    let extended :=
      if common.stop > common.start then
        included ++ [⟨common.start - page.start, common.stop - page.start⟩]
      else included
    if common = page then .whole (range :: ranges)
    else if page.stop = common.stop then
      .part extended (if common.stop = range.stop then ranges else range :: ranges)
    else cutPage page extended ranges

/-- `paginate`: the selected part of each page, `none` for a whole page. -/
def paginate (i : Nat) : List Range → List Range → Option (List (Nat × Option (List Range)))
  | [], _ => some []
  | page :: pages, ranges =>
    if page.stop ≤ page.start then none
    else
      match cutPage page [] ranges with
      | .whole rest => (paginate (i + 1) pages rest).map ((i, none) :: ·)
      | .part [] rest => paginate (i + 1) pages rest
      | .part included rest => (paginate (i + 1) pages rest).map ((i, some included) :: ·)
      | .exhausted [] => some []
      | .exhausted included => some [(i, some included)]

theorem within_append {x : Nat} {l' : List Range} :
    Within x (l ++ l') ↔ Within x l ∨ Within x l' := by
  simp only [Within, mem_append]
  constructor
  · rintro ⟨r, hr | hr, hx⟩
    · exact Or.inl ⟨r, hr, hx⟩
    · exact Or.inr ⟨r, hr, hx⟩
  · rintro (⟨r, hr, hx⟩ | ⟨r, hr, hx⟩)
    · exact ⟨r, Or.inl hr, hx⟩
    · exact ⟨r, Or.inr hr, hx⟩

theorem ordered_concat {r : Range} (h : Ordered l) (hr : r.start ≤ r.stop)
    (hb : Below r.start l) : Ordered (l ++ [r]) := by
  induction l with
  | nil => exact ⟨hr, nofun, trivial⟩
  | cons _ _ ih =>
    obtain ⟨hq, ha, hl⟩ := h
    obtain ⟨hs, hb⟩ := below_cons.mp hb
    refine ⟨hq, ?_, ih hl hb⟩
    intro p hp
    rcases mem_append.mp hp with hp | hp
    · exact ha p hp
    · rw [mem_singleton.mp hp]
      exact hs

def PageCut.rest : PageCut → List Range
  | .whole rest => rest
  | .part _ rest => rest
  | .exhausted _ => []

def PageCut.included : PageCut → List Range
  | .whole _ => []
  | .part included _ => included
  | .exhausted included => included

/-- The positions of the page that the loop selects. -/
def PageCut.Selects (page : Range) : PageCut → Nat → Prop
  | .whole _, _ => True
  | .part included _, x => Within (x - page.start) included
  | .exhausted included, x => Within (x - page.start) included

/-- Ranges of a page, in order and relative to its start. -/
structure Inside (page : Range) (included : List Range) : Prop where
  ordered : Ordered included
  bounds : ∀ q ∈ included, q.start < q.stop ∧ q.stop ≤ page.stop - page.start

/-- What the inner loop makes of a page: it selects the positions of the ranges, and keeps those
behind the page. -/
structure Cuts (page : Range) (included ranges : List Range) (cut : PageCut) : Prop where
  selects : ∀ x, page.Has x →
    (cut.Selects page x ↔ Within x ranges ∨ Within (x - page.start) included)
  behind : ∀ x, page.stop ≤ x → (Within x cut.rest ↔ Within x ranges)
  ordered : Ordered cut.rest
  inside : Inside page cut.included

section Extended

variable {included : List Range} {range : Range}

/-- The ranges with the part of one more range that lies in the page. -/
def extendedBy (page range : Range) (included : List Range) : List Range :=
  if min page.stop range.stop > max page.start range.start then
    included ++ [⟨max page.start range.start - page.start, min page.stop range.stop - page.start⟩]
  else included

theorem within_extended {x : Nat} (hx : page.Has x) :
    Within (x - page.start) (extendedBy page range included) ↔
      range.Has x ∨ Within (x - page.start) included := by
  rw [extendedBy, or_comm]
  split
  · rw [within_append, within_cons]
    refine or_congr Iff.rfl ((or_iff_left (within_nil _)).trans ?_)
    simp only [Range.Has] at hx ⊢
    omega
  · rename_i hem
    refine (or_iff_left fun hr => hem ?_).symm
    simp only [Range.Has] at hx hr
    omega

theorem inside_extended (hi : Inside page included)
    (hb : ∀ q ∈ included, page.start + q.stop ≤ range.start) :
    Inside page (extendedBy page range included) := by
  rw [extendedBy]
  split
  · rename_i hsm
    refine ⟨ordered_concat hi.ordered ?_ fun q hq => ?_, fun q hq => ?_⟩
    · simp only []
      omega
    · have := hb q hq
      simp only []
      omega
    · rcases mem_append.mp hq with hq | hq
      · exact hi.bounds q hq
      · rw [mem_singleton.mp hq]
        simp only []
        omega
  · exact hi

theorem extended_le {n : Nat} (hb : ∀ q ∈ included, page.start + q.stop ≤ n)
    (hr : range.stop ≤ n) : ∀ q ∈ extendedBy page range included, page.start + q.stop ≤ n := by
  intro q hq
  rw [extendedBy] at hq
  split at hq
  · rcases mem_append.mp hq with hq | hq
    · exact hb q hq
    · rw [mem_singleton.mp hq]
      simp only []
      omega
  · exact hb q hq

end Extended

theorem cutPage_cuts (ho : Ordered ranges) :
    ∀ included, Inside page included →
      (∀ q ∈ included, ∀ r ∈ ranges, page.start + q.stop ≤ r.start) →
      Cuts page included ranges (cutPage page included ranges) := by
  induction ranges with
  | nil =>
    intro included hi _
    exact ⟨fun x _ => (or_iff_right (within_nil x)).symm, fun x _ => Iff.rfl, trivial, hi⟩
  | cons range ranges ih =>
    intro included hi hb
    obtain ⟨hle, ha, hrs⟩ := ho
    have he := inside_extended hi fun q hq => hb q hq range mem_cons_self
    rw [cutPage]
    split
    · rename_i hw
      refine ⟨fun x hx => iff_of_true trivial (Or.inl (within_cons.mpr (Or.inl ?_))),
        fun x _ => Iff.rfl, ⟨hle, ha, hrs⟩, ⟨trivial, fun q hq => absurd hq not_mem_nil⟩⟩
      have hs := congrArg Range.start hw
      have hst := congrArg Range.stop hw
      simp only [Range.Has] at hs hst hx ⊢
      omega
    · split
      · rename_i hen
        refine ⟨fun x hx => (within_extended hx).trans (or_congr_left ?_), fun x hx => ?_, ?_, he⟩
        · rw [within_cons]
          refine (or_iff_left fun hl => ?_).symm
          have := ha.le hl
          simp only [Range.Has] at hx hen
          omega
        · dsimp only [PageCut.rest]
          split
          · rw [within_cons]
            refine (or_iff_right fun hr => ?_).symm
            simp only [Range.Has] at hr
            omega
          · exact Iff.rfl
        · dsimp only [PageCut.rest]
          split
          · exact hrs
          · exact ⟨hle, ha, hrs⟩
      · rename_i hen
        have hst : range.stop < page.stop := by
          dsimp only at hen
          omega
        have hct := ih hrs (extendedBy page range included) he fun q hq r hr =>
          extended_le (fun q hq => hb q hq r (mem_cons_of_mem _ hr)) (ha r hr) q hq
        refine ⟨fun x hx => ?_, fun x hx => ?_, hct.ordered, hct.inside⟩
        · rw [within_cons, or_assoc, or_left_comm, ← within_extended hx]
          exact hct.selects x hx
        · refine (hct.behind x hx).trans ?_
          rw [within_cons]
          refine (or_iff_right fun hr => ?_).symm
          simp only [Range.Has] at hr
          omega

/-- The group that is yielded for a page. -/
def PageCut.group (i : Nat) : PageCut → List (Nat × Option (List Range))
  | .whole _ => [(i, none)]
  | cut => if cut.included = [] then [] else [(i, some cut.included)]

/-- The selection of a page: the whole page or some ranges inside it. -/
def PartOf (page : Range) (sel : Option (List Range)) : Prop :=
  ∀ included ∈ sel, included ≠ [] ∧ Inside page included

/-- What the groups are for: their indexes ascend, each selects a part of its page, and together
they select the positions of the ranges. -/
structure Paged (i : Nat) (pages ranges : List Range)
    (groups : List (Nat × Option (List Range))) : Prop where
  ascending : (groups.map Prod.fst).Pairwise (· < ·)
  parts : ∀ g ∈ groups, ∃ k page, g.1 = i + k ∧ pages[k]? = some page ∧ page.start < page.stop ∧
    PartOf page g.2
  selects : ∀ {k : Nat} {page : Range} {x : Nat}, pages[k]? = some page → page.Has x →
    (Within x ranges ↔ ∃ sel, (i + k, sel) ∈ groups ∧
      ∀ included ∈ sel, Within (x - page.start) included)

variable {cut : PageCut}

theorem mem_group {g : Nat × Option (List Range)} (h : g ∈ cut.group i) : g.1 = i ∧
      ((∃ rest, cut = .whole rest ∧ g.2 = none) ∨
        (g.2 = some cut.included ∧ cut.included ≠ [])) := by
  unfold PageCut.group at h
  split at h
  · rw [mem_singleton.mp h]
    exact ⟨rfl, Or.inl ⟨_, rfl, rfl⟩⟩
  · split_ifs at h with hne
    · cases h
    · rw [mem_singleton.mp h]
      exact ⟨rfl, Or.inr ⟨rfl, hne⟩⟩

theorem selects_iff_group {x : Nat} :
    cut.Selects page x ↔ ∃ sel, (i, sel) ∈ cut.group i ∧
      ∀ included ∈ sel, Within (x - page.start) included := by
  have key : ∀ included : List Range, Within (x - page.start) included ↔
      ∃ sel, (i, sel) ∈ (if included = [] then [] else [(i, some included)]) ∧
        ∀ included ∈ sel, Within (x - page.start) included := by
    intro included
    by_cases hne : included = []
    · subst hne
      simp
    · simp [hne]
  cases cut with
  | whole => simp [PageCut.Selects, PageCut.group]
  | part included => exact key included
  | exhausted included => exact key included

theorem paged_nil : Paged i pages [] [] where
  ascending := List.Pairwise.nil
  parts := nofun
  selects := by simp

/-- The groups of one page in front of those of the pages behind it. -/
theorem Paged.cons {later : List (Nat × Option (List Range))} (hpg : page.start < page.stop)
    (hab : Above page.stop pages) (hc : Cuts page [] ranges cut)
    (hl : Paged (i + 1) pages cut.rest later) :
    Paged i (page :: pages) ranges (cut.group i ++ later) where
  ascending := by
    rw [map_append, pairwise_append]
    refine ⟨?_, hl.ascending, ?_⟩
    · unfold PageCut.group
      split
      · exact pairwise_singleton ..
      · split_ifs <;> simp
    · intro a ha b hb
      obtain ⟨g, hg, rfl⟩ := mem_map.mp ha
      obtain ⟨g', hg', rfl⟩ := mem_map.mp hb
      obtain ⟨k, _, hk, -⟩ := hl.parts g' hg'
      have := (mem_group hg).1
      omega
  parts := by
    intro g hg
    rcases mem_append.mp hg with hg | hg
    · obtain ⟨hi, hsl⟩ := mem_group hg
      refine ⟨0, page, hi, rfl, hpg, fun included hin => ?_⟩
      rcases hsl with ⟨_, -, hn⟩ | ⟨hs, hne⟩
      · rw [hn] at hin
        cases hin
      · rw [hs] at hin
        cases hin
        exact ⟨hne, hc.inside⟩
    · obtain ⟨k, p, hk, hp, hpr⟩ := hl.parts g hg
      exact ⟨k + 1, p, by omega, hp, hpr⟩
  selects := by
    intro k p x hk hx
    cases k with
    | zero =>
      cases hk
      rw [← (hc.selects x hx).trans (or_iff_left (within_nil _)), selects_iff_group (i := i)]
      refine exists_congr fun sel => and_congr_left fun _ => ?_
      rw [mem_append]
      refine (or_iff_left fun h => ?_).symm
      obtain ⟨_, _, hk, -⟩ := hl.parts _ h
      omega
    | succ =>
      have hbh := (hab p (mem_of_getElem? hk)).trans hx.1
      rw [← hc.behind x hbh, hl.selects hk hx, Nat.add_right_comm, Nat.add_assoc i]
      refine exists_congr fun sel => and_congr_left fun _ => ?_
      rw [mem_append]
      refine (or_iff_right fun h => ?_).symm
      have := (mem_group h).1
      omega

theorem paginate_paged (hp : Ordered pages) (ho : Ordered ranges)
    {groups : List (Nat × Option (List Range))}
    (h : paginate i pages ranges = some groups) : Paged i pages ranges groups := by
  induction pages generalizing i ranges groups with
  | nil =>
    cases h
    exact ⟨List.Pairwise.nil, nofun, nofun⟩
  | cons page pages ih =>
    rw [paginate] at h
    split_ifs at h with hpg
    have hct := @cutPage_cuts _ page ho [] ⟨trivial, nofun⟩ nofun
    have hc : ∀ later, Paged (i + 1) pages (cutPage page [] ranges).rest later →
        Paged i (page :: pages) ranges ((cutPage page [] ranges).group i ++ later) :=
      fun later hl => hl.cons (not_le.mp hpg) hp.2.1 hct
    cases hcu : cutPage page [] ranges with
    | whole =>
      rw [hcu] at h hc hct
      obtain ⟨later, hl, rfl⟩ := Option.map_eq_some_iff.mp h
      exact hc later (ih hp.2.2 hct.ordered hl)
    | part included =>
      rw [hcu] at h hc hct
      cases included with
      | nil => exact hc groups (ih hp.2.2 hct.ordered h)
      | cons =>
        obtain ⟨later, hl, rfl⟩ := Option.map_eq_some_iff.mp h
        exact hc later (ih hp.2.2 hct.ordered hl)
    | exhausted included =>
      rw [hcu] at h hc
      cases included with
      | nil =>
        cases h
        exact hc [] paged_nil
      | cons =>
        cases h
        exact hc [] paged_nil

/-- The sweep panics on an empty page only. -/
theorem exists_paginate (hpg : ∀ p ∈ pages, p.start < p.stop) (i : Nat)
    (ranges : List Range) : ∃ groups, paginate i pages ranges = some groups := by
  induction pages generalizing i ranges with
  | nil => exact ⟨[], rfl⟩
  | cons page _ ih =>
    have hpa := hpg page mem_cons_self
    have hr := fun i ranges => ih (fun p hp => hpg p (mem_cons_of_mem page hp)) i ranges
    rw [paginate, if_neg (not_le.mpr hpa)]
    split
    · obtain ⟨later, hl⟩ := hr (i + 1) _
      exact ⟨_, by rw [hl, Option.map_some]⟩
    · exact hr (i + 1) _
    · obtain ⟨_, hl⟩ := hr (i + 1) _
      exact ⟨_, by rw [hl, Option.map_some]⟩
    · exact ⟨_, rfl⟩
    · exact ⟨_, rfl⟩

theorem Ordered.getElem?_le (h : Ordered l) {j : Nat} {p q : Range}
    (hi : l[i]? = some p) (hj : l[j]? = some q) (hij : i < j) : p.stop ≤ q.start := by
  induction l generalizing i j with
  | nil => cases hi
  | cons _ _ ih =>
    obtain ⟨k, rfl⟩ := Nat.exists_eq_add_of_lt hij
    cases i with
    | zero =>
      cases hi
      exact h.2.1 q (mem_of_getElem? hj)
    | succ i => exact @ih i h.2.2 (i + k + 1) hi (by simpa [Nat.add_right_comm] using hj) (by omega)

/-- The selected positions of a group, one after the other. -/
def groupPositions (pages : List Range) (g : Nat × Option (List Range)) : List Nat :=
  match pages[g.1]? with
  | none => []
  | some page =>
    ((g.2.getD [⟨0, page.stop - page.start⟩]).flatMap fun r =>
      List.range' r.start (r.stop - r.start)).map (page.start + ·)

theorem PartOf.inside {sel : Option (List Range)} (h : PartOf page sel)
    (hp : page.start < page.stop) :
    sel.getD [⟨0, page.stop - page.start⟩] ≠ [] ∧
      Inside page (sel.getD [⟨0, page.stop - page.start⟩]) := by
  cases sel with
  | some included => exact h included rfl
  | none =>
    refine ⟨nofun, ⟨Nat.zero_le _, nofun, trivial⟩, fun q hq => ?_⟩
    rw [mem_singleton.mp hq]
    exact ⟨by simp only []; omega, le_rfl⟩

section Groups
variable {pages : List Range} {g : Nat × Option (List Range)} {page : Range}

theorem mem_groupPositions (hp : pages[g.1]? = some page) (hlt : page.start < page.stop)
    (hpr : PartOf page g.2) {x : Nat} : x ∈ groupPositions pages g ↔
      page.Has x ∧ ∀ included ∈ g.2, Within (x - page.start) included := by
  have hi := (hpr.inside hlt).2
  simp only [groupPositions, hp, mem_map]
  constructor
  · rintro ⟨y, hy, rfl⟩
    have hy : Within y (g.2.getD _) := (@RangeList.mem_indexes y ⟨_, hi.ordered⟩).mp hy
    obtain ⟨r, hr, hs, hst⟩ := hy
    have := (hi.bounds r hr).2
    refine ⟨⟨Nat.le_add_right .., by omega⟩, fun included hic => ?_⟩
    rw [Nat.add_sub_cancel_left]
    rw [Option.mem_def.mp hic] at hr
    exact ⟨r, hr, hs, hst⟩
  · rintro ⟨hx, hsl⟩
    have hin : Within (x - page.start) (g.2.getD [⟨0, page.stop - page.start⟩]) := by
      cases hg : g.2 with
      | none => exact ⟨_, mem_singleton_self _, Nat.zero_le _, Nat.sub_lt_sub_right hx.1 hx.2⟩
      | some included => exact hsl included hg
    exact ⟨x - page.start, (@RangeList.mem_indexes _ ⟨_, hi.ordered⟩).mpr hin,
      Nat.add_sub_cancel' hx.1⟩

theorem groupPositions_ascending (hp : pages[g.1]? = some page)
    (hlt : page.start < page.stop) (hpr : PartOf page g.2) :
    (groupPositions pages g).Pairwise (· < ·) ∧ groupPositions pages g ≠ [] := by
  obtain ⟨hne, hi⟩ := hpr.inside hlt
  constructor
  · simp only [groupPositions, hp]
    refine (RangeList.indexes_ascending ⟨_, hi.ordered⟩).map _ fun a b hab => ?_
    omega
  · obtain ⟨r, hr⟩ := exists_mem_of_ne_nil _ hne
    refine ne_nil_of_mem (a := page.start + r.start) ?_
    simp only [groupPositions, hp]
    exact mem_map_of_mem ((@RangeList.mem_indexes _ ⟨_, hi.ordered⟩).mpr
      ⟨r, hr, le_rfl, (hi.bounds r hr).1⟩)

end Groups

/-- Between ascending offsets the sweep does not panic. It yields pages in order, none of them with
no positions, and their positions are those of the ranges between the first offset and the last
one, each of them once and in order. -/
theorem paginate_partitions {first last : Nat} {rest : List Nat} {ranges l : List Range}
    (hoffsets : (first :: rest).Pairwise (· < ·)) (hlast : (first :: rest).getLast? = some last)
    (haccepted : tryFrom ranges = .ok l) :
    ∃ groups, paginate 0 (windowsOf (first :: rest)) l = some groups ∧
      (groups.map Prod.fst).Pairwise (· < ·) ∧
      (∀ g ∈ groups, groupPositions (windowsOf (first :: rest)) g ≠ []) ∧
      (groups.flatMap (groupPositions (windowsOf (first :: rest)))).Pairwise (· < ·) ∧
      ∀ x, x ∈ groups.flatMap (groupPositions (windowsOf (first :: rest))) ↔
        Within x l ∧ first ≤ x ∧ x < last := by
  have hc : (first :: rest).IsChain (· ≤ ·) := (hoffsets.imp le_of_lt).isChain
  obtain ⟨hcv, hb⟩ := tiles_windowsOf hc hlast
  have hpg := ordered_windowsOf hc
  obtain ⟨groups, hgr⟩ := exists_paginate (windowsOf_nonempty hoffsets) 0 l
  have hp := paginate_paged hpg (tryFrom_ordered haccepted) hgr
  have hpr : ∀ g ∈ groups, ∃ page, (windowsOf (first :: rest))[g.1]? = some page ∧
      page.start < page.stop ∧ PartOf page g.2 := by
    intro g hg
    obtain ⟨k, page, hk, hpa⟩ := hp.parts g hg
    exact ⟨page, by rwa [hk, Nat.zero_add]⟩
  refine ⟨groups, hgr, hp.ascending, fun g hg => ?_, ?_, fun x => ?_⟩
  · obtain ⟨page, hpa, hlt, hg⟩ := hpr g hg
    exact (groupPositions_ascending hpa hlt hg).2
  · rw [pairwise_flatMap]
    refine ⟨fun g hg => ?_, (pairwise_map.mp hp.ascending).imp_of_mem ?_⟩
    · obtain ⟨page, hpa, hlt, hg⟩ := hpr g hg
      exact (groupPositions_ascending hpa hlt hg).1
    · intro g g' hg hg' hgg x hx y hy
      obtain ⟨page, hpa, hlt, hg⟩ := hpr g hg
      obtain ⟨page', hpa', hlt', hg'⟩ := hpr g' hg'
      have hx := ((mem_groupPositions hpa hlt hg).mp hx).1
      have hy := ((mem_groupPositions hpa' hlt' hg').mp hy).1
      exact hx.2.trans_le ((hpg.getElem?_le hpa hpa' hgg).trans hy.1)
  · rw [mem_flatMap]
    constructor
    · rintro ⟨g, hg, hx⟩
      obtain ⟨page, hpa, hlt, hs⟩ := hpr g hg
      obtain ⟨hx, hw⟩ := (mem_groupPositions hpa hlt hs).mp hx
      have hin : Within x (windowsOf (first :: rest)) := ⟨page, mem_of_getElem? hpa, hx⟩
      refine ⟨(hp.selects hpa hx).mpr ⟨g.2, ?_, hw⟩, (above_windowsOf hc).le hin,
        hb.lt hin⟩
      rwa [Nat.zero_add]
    · rintro ⟨hx, hl, hh⟩
      obtain ⟨page, hpa, hin⟩ := hcv x hl hh
      obtain ⟨_, hk⟩ := getElem?_of_mem hpa
      obtain ⟨sel, hs, hw⟩ := (hp.selects hk hin).mp hx
      rw [Nat.zero_add] at hs
      obtain ⟨_, hpa', hlt, hpr⟩ := hpr _ hs
      cases hk.symm.trans hpa'
      exact ⟨_, hs, (mem_groupPositions hk hlt hpr).mpr ⟨hin, hw⟩⟩

theorem two_pages_are_partitioned :
    ∃ groups, paginate 0 (windowsOf [0, 4, 9]) [⟨2, 6⟩] = some groups ∧
      (groups.map Prod.fst).Pairwise (· < ·) ∧
      (∀ g ∈ groups, groupPositions (windowsOf [0, 4, 9]) g ≠ []) ∧
      (groups.flatMap (groupPositions (windowsOf [0, 4, 9]))).Pairwise (· < ·) ∧
      ∀ x, x ∈ groups.flatMap (groupPositions (windowsOf [0, 4, 9])) ↔
        Within x [⟨2, 6⟩] ∧ 0 ≤ x ∧ x < 9 :=
  @paginate_partitions 0 9 [4, 9] [⟨2, 6⟩] [⟨2, 6⟩] (by decide) rfl rfl

end Primitives
