import SqdData.Bds.Cassandra

/-!
# Finalization in the block table

`finalize` walks down from a final block: it lists the partitions of a range from the highest one to
the lowest, marks each row that is the expected block, expects its parent next, and deletes every
other row. The batch of a partition is executed when the partition is done.

The only protection is a check that the expected number has gone below the top of the range. It
stops the call if the final block itself is missing. An ancestor that is missing further down goes
unnoticed, and everything below it is deleted.
-/

namespace Bds

open List

open Storage (BlockRef Hash Error)
open Block

variable {size first start stop : Nat} {row row' : BlockRow} {expected : BlockRef}
  {range : Nat × Nat} {ranges : List (Nat × Nat)} {t : BlockTable} {rows table : List BlockRow}

/-! ### Ancestors -/

/-- The parent of a stored block, which has a lower number. So a block 0 has none. -/
def ParentOf (rows : List BlockRow) (block parent : BlockRef) : Prop :=
  ∃ row ∈ rows, ptr row = block ∧ parentPtr row = parent ∧ parent.number < block.number

/-- A block or one of its ancestors, as far as the stored blocks tell. -/
def Ancestor (rows : List BlockRow) : BlockRef → BlockRef → Prop :=
  Relation.ReflTransGen (ParentOf rows)

theorem Ancestor.eq_or_lt {block ancestor : BlockRef} (h : Ancestor rows block ancestor) :
    ancestor = block ∨ ancestor.number < block.number := by
  induction h with
  | refl => exact Or.inl rfl
  | tail _ hp ih =>
    obtain ⟨_, -, -, -, hlt⟩ := hp
    rcases ih with rfl | hlt'
    · exact Or.inr hlt
    · exact Or.inr (hlt.trans hlt')

/-- Of two ancestors of a block one is an ancestor of the other. -/
theorem Ancestor.total (hk : (rows.map ptr).Nodup) {block a b : BlockRef}
    (ha : Ancestor rows block a) (hb : Ancestor rows block b) :
    Ancestor rows a b ∨ Ancestor rows b a := by
  refine Relation.ReflTransGen.total_of_right_unique ?_ ha hb
  rintro _ _ _ ⟨row, hr, hp, rfl, -⟩ ⟨row', hr', hp', rfl, -⟩
  rw [inj_on_of_nodup_map hk hr hr' (hp.trans hp'.symm)]

/-- A proper ancestor of a stored row is its parent or an ancestor of the parent. -/
theorem Ancestor.parent (hk : (table.map ptr).Nodup) (hr : row ∈ table) {ancestor : BlockRef}
    (h : Ancestor table (ptr row) ancestor) (hne : ancestor ≠ ptr row) :
    row.parentNumber < row.number ∧ Ancestor table (parentPtr row) ancestor := by
  rcases Relation.ReflTransGen.cases_head h with heq | ⟨_, ⟨row', hr', hp, rfl, hlt⟩, hrest⟩
  · exact absurd heq.symm hne
  · obtain rfl := inj_on_of_nodup_map hk hr' hr hp
    exact ⟨hlt, hrest⟩

theorem Ancestor.head (hr : row ∈ table) (hlt : row.parentNumber < row.number)
    {ancestor : BlockRef} (h : Ancestor table (parentPtr row) ancestor) :
    Ancestor table (ptr row) ancestor :=
  Relation.ReflTransGen.head ⟨row, hr, rfl, rfl, hlt⟩ h

/-- A block with a proper ancestor is stored. -/
theorem Ancestor.stored {block ancestor : BlockRef} (h : Ancestor rows block ancestor)
    (hne : ancestor ≠ block) : ∃ row ∈ rows, ptr row = block := by
  rcases Relation.ReflTransGen.cases_head h with heq | ⟨_, ⟨row, hr, hp, -⟩, -⟩
  · exact absurd heq.symm hne
  · exact ⟨row, hr, hp⟩

/-- Above a missing ancestor every row of the chain has a parent with a lower number. -/
theorem Ancestor.lower_of_missing (hk : (table.map ptr).Nodup) {block missing : BlockRef}
    (hm : Ancestor table block missing) (hnot : missing ∉ table.map ptr) (hr : row ∈ table)
    (h : Ancestor table block (ptr row)) : row.parentNumber < row.number := by
  have hne : missing ≠ ptr row := fun heq => hnot (heq ▸ mem_map_of_mem hr)
  rcases h.total hk hm with hdown | hup
  · exact (hdown.parent hk hr hne).1
  · obtain ⟨stored, hs, rfl⟩ := hup.stored hne.symm
    exact absurd (mem_map_of_mem hs) hnot

/-! ### The walk down a listing -/

def chainRows : BlockRef → List BlockRow → List BlockRow
  | _, [] => []
  | expected, row :: rows =>
    if ptr row = expected then row :: chainRows (parentPtr row) rows else chainRows expected rows

def chainEnd : BlockRef → List BlockRow → BlockRef
  | expected, [] => expected
  | expected, row :: rows =>
    if ptr row = expected then chainEnd (parentPtr row) rows else chainEnd expected rows

theorem checkRows_fst (partition : Nat) (expected : BlockRef) (rows : List BlockRow) :
    (checkRows partition expected rows).1 = chainEnd expected rows := by
  induction rows generalizing expected with
  | nil => rfl
  | cons _ _ ih =>
    unfold checkRows chainEnd
    split
    · exact ih _
    · exact ih _

theorem chainRows_append (expected : BlockRef) (rows rows' : List BlockRow) :
    chainRows expected (rows ++ rows') =
      chainRows expected rows ++ chainRows (chainEnd expected rows) rows' := by
  induction rows generalizing expected with
  | nil => rfl
  | cons _ _ ih =>
    rw [cons_append, chainRows, chainRows, chainEnd]
    split
    · rw [ih, cons_append]
    · exact ih _

theorem chainRows_sublist (expected : BlockRef) (rows : List BlockRow) :
    (chainRows expected rows).Sublist rows := by
  induction rows generalizing expected with
  | nil => exact .slnil
  | cons _ _ ih =>
    unfold chainRows
    split
    · exact (ih _).cons_cons _
    · exact (ih _).cons _

theorem Listing.tail (h : Listing table first (row :: rows)) : Listing table first rows := by
  obtain ⟨hh, hd⟩ := pairwise_cons.mp h.descending
  refine ⟨hd, (nodup_cons.mp h.keys).2,
    fun r hr => h.stored r (mem_cons_of_mem _ hr), fun r hr below hb hlt hf => ?_⟩
  rcases mem_cons.mp (h.closed r (mem_cons_of_mem _ hr) below hb hlt hf) with
    rfl | hm
  · exact absurd (hh r hr) (not_le.mpr hlt)
  · exact hm

theorem chainRows_of_not_mem (hnot : expected ∉ rows.map ptr) : chainRows expected rows = [] := by
  induction rows with
  | nil => rfl
  | cons _ _ ih =>
    rw [map_cons, mem_cons, not_or] at hnot
    rw [chainRows, if_neg fun heq => hnot.1 heq.symm]
    exact ih hnot.2

theorem chainEnd_of_not_mem (hnot : expected ∉ rows.map ptr) :
    chainEnd expected rows = expected := by
  induction rows with
  | nil => rfl
  | cons _ _ ih =>
    rw [map_cons, mem_cons, not_or] at hnot
    rw [chainEnd, if_neg fun heq => hnot.1 heq.symm]
    exact ih hnot.2

theorem chainEnd_of_mem (hm : expected ∈ rows.map ptr) :
    ∃ row ∈ chainRows expected rows, chainEnd expected rows = parentPtr row := by
  induction rows generalizing expected with
  | nil => cases hm
  | cons row rows ih =>
    rw [chainRows, chainEnd]
    split
    · by_cases hp : parentPtr row ∈ rows.map ptr
      · obtain ⟨last, hl, he⟩ := ih hp
        exact ⟨last, mem_cons_of_mem _ hl, he⟩
      · exact ⟨row, mem_cons_self, chainEnd_of_not_mem hp⟩
    · rename_i hne
      exact ih ((mem_cons.mp hm).resolve_left fun heq => hne heq.symm)

/-- The block that is expected and its ancestors are found. -/
theorem mem_chainRows_of_ancestor (hk : (table.map ptr).Nodup) (h : Listing table first rows)
    (he : ∀ row ∈ table, ptr row = expected → first ≤ row.number → row ∈ rows)
    (hm : row ∈ rows) (ha : Ancestor table expected (ptr row)) : row ∈ chainRows expected rows := by
  induction rows generalizing expected with
  | nil => cases hm
  | cons top rows ih =>
    obtain ⟨hh, -⟩ := pairwise_cons.mp h.descending
    obtain ⟨hn, -⟩ := nodup_cons.mp h.keys
    obtain ⟨ht, _⟩ := h.stored top mem_cons_self
    unfold chainRows
    split
    · rename_i heq
      subst heq
      rcases mem_cons.mp hm with rfl | hm
      · exact mem_cons_self
      · have hne : ptr row ≠ ptr top := fun heq => hn (heq ▸ mem_map_of_mem hm)
        obtain ⟨hlt, ha⟩ := ha.parent hk ht hne
        refine mem_cons_of_mem _ (ih h.tail (fun r hr hpt hf => ?_) hm ha)
        have hnr : r.number = top.parentNumber := congrArg BlockRef.number hpt
        rcases mem_cons.mp (h.closed top mem_cons_self r hr (by omega) hf) with rfl | hmr
        · omega
        · exact hmr
    · rename_i hne
      have hrs : ∀ r ∈ table, ptr r = expected → first ≤ r.number → r ∈ rows := by
        intro r hr hpt hf
        rcases mem_cons.mp (he r hr hpt hf) with rfl | hmr
        · exact absurd hpt hne
        · exact hmr
      refine ih h.tail hrs ((mem_cons.mp hm).resolve_left ?_) ha
      -- a row above the expected one is not below it
      rintro rfl
      have hlt := ha.eq_or_lt.resolve_left hne
      obtain ⟨above, hab, rfl⟩ := ha.stored hne
      change row.number < above.number at hlt
      exact absurd (hh above (hrs above hab rfl (by omega))) (not_le.mpr hlt)

/-- Nothing else is found, if no row of the chain that has no parent with a lower number comes
before the block it names as its parent. -/
theorem ancestor_of_mem_chainRows (hs : ∀ row ∈ rows, row ∈ table)
    (hroot : ∀ row ∈ rows, Ancestor table expected (ptr row) → row.number ≤ row.parentNumber →
      ∀ parent, [row, parent].Sublist rows → ptr parent ≠ parentPtr row)
    (hm : row ∈ chainRows expected rows) : Ancestor table expected (ptr row) := by
  induction rows generalizing expected with
  | nil => cases hm
  | cons top rows ih =>
    obtain ⟨ht, hs⟩ := forall_mem_cons.mp hs
    unfold chainRows at hm
    split at hm
    · rename_i heq
      subst heq
      rcases mem_cons.mp hm with rfl | hm
      · exact .refl
      · rcases Nat.lt_or_ge top.parentNumber top.number with hlt | hge
        · refine Ancestor.head ht hlt (ih hs (fun r hr ha hle parent hp => ?_) hm)
          exact hroot r (mem_cons_of_mem _ hr) (Ancestor.head ht hlt ha) hle parent (hp.cons _)
        · have hnot : parentPtr top ∉ rows.map ptr := by
            intro hp
            obtain ⟨parent, hpm, heq⟩ := mem_map.mp hp
            exact hroot top mem_cons_self .refl hge parent
              ((singleton_sublist.mpr hpm).cons_cons top) heq
          rw [chainRows_of_not_mem hnot] at hm
          cases hm
    · exact ih hs (fun r hr ha hle parent hp =>
        hroot r (mem_cons_of_mem _ hr) ha hle parent (hp.cons _)) hm

theorem self_mem_chainRows (hk : (rows.map ptr).Nodup) (hm : row ∈ rows) :
    row ∈ chainRows (ptr row) rows := by
  induction rows with
  | nil => cases hm
  | cons top rows ih =>
    unfold chainRows
    split
    · rename_i heq
      rw [inj_on_of_nodup_map hk mem_cons_self hm heq]
      exact mem_cons_self
    · rename_i hne
      refine ih (nodup_cons.mp hk).2 ((mem_cons.mp hm).resolve_left ?_)
      rintro rfl
      exact hne rfl

/-- A row that comes after a marked one and is named as its parent is marked. -/
theorem parent_mem_chainRows (hk : (rows.map ptr).Nodup) {parent : BlockRow}
    (hm : row ∈ chainRows expected rows) (hp : [row, parent].Sublist rows)
    (heq : ptr parent = parentPtr row) : parent ∈ chainRows expected rows := by
  induction rows generalizing expected with
  | nil => cases hm
  | cons top rows ih =>
    obtain ⟨hn, hkr⟩ := nodup_cons.mp hk
    have hrest : row ≠ top → [row, parent].Sublist rows := fun hne => by
      cases hp with
      | cons _ hp => exact hp
      | cons_cons => exact absurd rfl hne
    have hout : ∀ {e}, row ∈ chainRows e rows → row ≠ top := fun hmr heq =>
      hn (mem_map.mpr ⟨row, (chainRows_sublist _ _).subset hmr, congrArg ptr heq⟩)
    unfold chainRows at hm ⊢
    split
    · rename_i htop
      rw [if_pos htop] at hm
      rcases mem_cons.mp hm with rfl | hm
      · have hpr : parent ∈ rows := singleton_sublist.mp (cons_sublist_cons.mp hp)
        exact mem_cons_of_mem _ (heq ▸ self_mem_chainRows hkr hpr)
      · exact mem_cons_of_mem _ (ih hkr hm (hrest (hout hm)))
    · rename_i htop
      rw [if_neg htop] at hm
      exact ih hkr hm (hrest (hout hm))

/-- Behind the last row of the chain its parent stays expected. -/
theorem chainEnd_eq_parent (hm : row ∈ chainRows expected rows)
    (hp : ∀ parent, [row, parent].Sublist rows → ptr parent ≠ parentPtr row) :
    chainEnd expected rows = parentPtr row := by
  induction rows generalizing expected with
  | nil => cases hm
  | cons top rows ih =>
    have hrest : ∀ parent, [row, parent].Sublist rows → ptr parent ≠ parentPtr row :=
      fun parent h => hp parent (h.cons _)
    unfold chainRows at hm
    unfold chainEnd
    split
    · rename_i htop
      rw [if_pos htop] at hm
      rcases mem_cons.mp hm with rfl | hm
      · refine chainEnd_of_not_mem fun hmem => ?_
        obtain ⟨parent, hpm, heq⟩ := mem_map.mp hmem
        exact hp parent ((singleton_sublist.mpr hpm).cons_cons row) heq
      · exact ih hm hrest
    · rename_i htop
      rw [if_neg htop] at hm
      exact ih hm hrest

/-! ### The effect of a batch -/

theorem actAll_cons (size : Nat) (statement : Statement) (batch : List Statement)
    (row : BlockRow) : actAll size (statement :: batch) row =
      (statement.act size row).bind (actAll size batch) := rfl

variable {partition : Nat}

theorem act_finalize_self (h : getPartition size row.number = partition) :
    (Statement.finalize partition row.number row.hash).act size row =
      some { row with isFinal := true } := if_pos ⟨h, rfl, rfl⟩

theorem act_delete_self (h : getPartition size row.number = partition) :
    (Statement.delete partition row.number row.hash).act size row = none :=
  if_pos ⟨h, rfl, rfl⟩

theorem act_other {top : BlockRow} (h : ptr row ≠ ptr top) (partition : Nat) :
    (Statement.finalize partition top.number top.hash).act size row = some row ∧
      (Statement.delete partition top.number top.hash).act size row = some row := by
  have ho : ¬ (getPartition size row.number = partition ∧
      row.number = top.number ∧ row.hash = top.hash) := by
    rintro ⟨-, hn, hh⟩
    exact h (congrArg₂ BlockRef.mk hn hh)
  exact ⟨if_neg ho, if_neg ho⟩

theorem actAll_other (hnot : ptr row ∉ rows.map ptr) :
    actAll size (checkRows partition expected rows).2 row = some row := by
  induction rows generalizing expected with
  | nil => rfl
  | cons _ _ ih =>
    rw [map_cons, mem_cons, not_or] at hnot
    obtain ⟨hf, hd⟩ := @act_other size _ _ hnot.1 partition
    unfold checkRows
    split
    · rw [actAll_cons, hf]
      exact ih hnot.2
    · rw [actAll_cons, hd]
      exact ih hnot.2

/-- Of the rows of a page those on the chain are marked and the others go. -/
theorem actAll_row (hk : (rows.map ptr).Nodup)
    (hp : ∀ r ∈ rows, getPartition size r.number = partition) (hrw : row ∈ rows) :
    actAll size (checkRows partition expected rows).2 row = some row' ↔
      row ∈ chainRows expected rows ∧ row' = { row with isFinal := true } := by
  induction rows generalizing expected with
  | nil => cases hrw
  | cons top rows ih =>
    obtain ⟨hn, hrs⟩ := nodup_cons.mp hk
    have hpr : ∀ r ∈ rows, getPartition size r.number = partition := fun r hr =>
      hp r (mem_cons_of_mem _ hr)
    rcases mem_cons.mp hrw with rfl | hm
    · have hs := hp row mem_cons_self
      have hg : ∀ e, row ∉ chainRows e rows := fun e hm =>
        hn (mem_map_of_mem ((chainRows_sublist e rows).subset hm))
      unfold checkRows chainRows
      split
      · have ha : actAll size (checkRows partition (parentPtr row) rows).2
            { row with isFinal := true } = some { row with isFinal := true } := actAll_other hn
        rw [actAll_cons, act_finalize_self hs, Option.bind_some, ha]
        simp [eq_comm]
      · rw [actAll_cons, act_delete_self hs]
        simp [hg]
    · have hne : ptr row ≠ ptr top := fun hpt => hn (hpt ▸ mem_map_of_mem hm)
      have hne' : row ≠ top := fun heq => hne (heq ▸ rfl)
      obtain ⟨hf, hd⟩ := @act_other size _ _ hne partition
      unfold checkRows chainRows
      split
      · rw [actAll_cons, hf, mem_cons, or_iff_right hne']
        exact ih hrs hpr hm
      · rw [actAll_cons, hd]
        exact ih hrs hpr hm

theorem mem_execute_select (hrn : InPartition size range) (hlt : range.2 < 2 ^ 63) :
    row ∈ (t.execute size (checkRows (getPartition size range.1) expected
        (t.select size range)).2).rows ↔
      (row ∈ t.rows ∧ ¬ (range.1 ≤ row.number ∧ row.number ≤ range.2)) ∨
        ∃ old ∈ chainRows expected (t.select size range), row = { old with isFinal := true } := by
  have hsel : ∀ {r}, r ∈ t.select size range ↔
      r ∈ t.rows ∧ range.1 ≤ r.number ∧ r.number ≤ range.2 := mem_select_of_lt hrn hlt
  have hp : ∀ r ∈ t.select size range, getPartition size r.number = getPartition size range.1 := by
    intro r hr
    obtain ⟨-, hl, hh⟩ := hsel.mp hr
    exact hrn.2 _ hl hh
  have ho : ∀ r ∈ t.rows, ¬ (range.1 ≤ r.number ∧ r.number ≤ range.2) →
      ptr r ∉ (t.select size range).map ptr := by
    intro r hr hot hm
    obtain ⟨_, hr', hpt⟩ := mem_map.mp hm
    obtain ⟨ht, hb⟩ := hsel.mp hr'
    exact hot (inj_on_of_nodup_map t.keys ht hr hpt ▸ hb)
  change row ∈ t.rows.filterMap _ ↔ _
  rw [mem_filterMap]
  constructor
  · rintro ⟨old, hold, ha⟩
    by_cases hin : range.1 ≤ old.number ∧ old.number ≤ range.2
    · obtain ⟨hc, rfl⟩ := (actAll_row (select_keys t size range) hp (hsel.mpr ⟨hold, hin⟩)).mp ha
      exact Or.inr ⟨old, hc, rfl⟩
    · rw [actAll_other (ho old hold hin)] at ha
      cases ha
      exact Or.inl ⟨hold, hin⟩
  · rintro (⟨hrw, hot⟩ | ⟨old, hc, rfl⟩)
    · exact ⟨row, hrw, actAll_other (ho row hrw hot)⟩
    · have hpg := (chainRows_sublist _ _).subset hc
      refine ⟨old, (hsel.mp hpg).1, ?_⟩
      exact (actAll_row (select_keys t size range) hp hpg).mpr ⟨hc, rfl⟩

/-- After each page the expected number is below the top. -/
def StaysBelow (top : Nat) : BlockRef → List (List BlockRow) → Prop
  | _, [] => True
  | expected, page :: pages =>
    (chainEnd expected page).number < top ∧ StaysBelow top (chainEnd expected page) pages

theorem staysBelow_of_chain {top : Nat} {pages : List (List BlockRow)}
    (h : ∀ row ∈ chainRows expected pages.flatten, row.parentNumber < top)
    (he : expected.number < top ∨ ∀ page ∈ pages.head?, expected ∈ page.map ptr) :
    StaysBelow top expected pages := by
  induction pages generalizing expected with
  | nil => trivial
  | cons page pages ih =>
    rw [flatten_cons, chainRows_append] at h
    have hlt : (chainEnd expected page).number < top := by
      by_cases hm : expected ∈ page.map ptr
      · obtain ⟨row, hr, heq⟩ := chainEnd_of_mem hm
        rw [heq]
        exact h row (mem_append_left _ hr)
      · rw [chainEnd_of_not_mem hm]
        exact he.resolve_right fun hhead => hm (hhead page rfl)
    exact ⟨hlt, ih (fun row hr => h row (mem_append_right _ hr)) (Or.inl hlt)⟩

theorem not_staysBelow {top : Nat} {pages : List (List BlockRow)}
    (hm : row ∈ chainRows expected pages.flatten) (hge : top ≤ row.parentNumber)
    (hp : ∀ parent, [row, parent].Sublist pages.flatten → ptr parent ≠ parentPtr row) :
    ¬ StaysBelow top expected pages := by
  induction pages generalizing expected with
  | nil => cases hm
  | cons page pages ih =>
    rw [flatten_cons] at hm hp
    rw [chainRows_append] at hm
    rintro ⟨hlt, hrest⟩
    rcases mem_append.mp hm with hm | hm
    · have heq := chainEnd_eq_parent hm fun parent h =>
        hp parent (h.trans (sublist_append_left _ _))
      rw [heq] at hlt
      exact absurd hlt (not_lt.mpr hge)
    · exact ih hm (fun parent h => hp parent (h.trans (sublist_append_right _ _))) hrest

/-- Rows that fit are all read. -/
theorem page_eq (hfit : ∀ row ∈ t.rows, row.Fits) :
    t.page size range = .ok (t.select size range) := by
  refine (rowBatch_eq_ok fun row hr => stored_of_mem_select hr).mpr ⟨rfl, fun row hr => ?_⟩
  exact hfit row (stored_of_mem_select hr)

section Round

variable {top : Nat}
  (hra : ∀ r ∈ range :: ranges, InPartition size r ∧ r.2 ≤ top) (htop : top < 2 ^ 63)

include hra htop

theorem mem_select_range {r : Nat × Nat} (hr : r ∈ range :: ranges) :
    row ∈ t.select size r ↔ row ∈ t.rows ∧ r.1 ≤ row.number ∧ row.number ≤ r.2 := by
  obtain ⟨hin, hle⟩ := hra r hr
  exact mem_select_of_lt hin (by omega)

/-- The pages below are read as they were. -/
theorem select_execute_below (hlw : ∀ r ∈ ranges, r.2 < range.1) :
    ∀ r ∈ ranges, (t.execute size
      (checkRows (getPartition size range.1) expected (t.select size range)).2).select size r =
        t.select size r := by
  intro r hr
  refine select_execute fun row hrow => actAll_other fun hrM => ?_
  obtain ⟨row', hrw', hpt⟩ := mem_map.mp hrM
  have hb := ((mem_select_range hra htop mem_cons_self).mp hrw').2
  have hb' := ((mem_select_range hra htop (mem_cons_of_mem _ hr)).mp hrow).2
  have : row'.number = row.number := congrArg BlockRef.number hpt
  have := hlw r hr
  omega

theorem fits_execute (hfit : ∀ row ∈ t.rows, row.Fits) :
    ∀ row ∈ (t.execute size
      (checkRows (getPartition size range.1) expected (t.select size range)).2).rows, row.Fits := by
  obtain ⟨hrn, hrt⟩ := hra range mem_cons_self
  intro row hrw
  rcases (mem_execute_select hrn (by omega)).mp hrw with ⟨hrw, -⟩ | ⟨old, hold, rfl⟩
  · exact hfit row hrw
  · have hsl := (chainRows_sublist _ _).subset hold
    exact hfit old ((mem_select_range hra htop mem_cons_self).mp hsl).1

end Round

/-- The fold runs to its end if the expected number stays below the top. Then it marks the rows of
the chain and deletes the other rows of the ranges. -/
theorem finalizeLoop_spec {top : Nat}
    (hra : ∀ range ∈ ranges, InPartition size range ∧ range.2 ≤ top) (htop : top < 2 ^ 63)
    (hd : ranges.Pairwise fun range range' => range'.2 < range.1)
    (hfit : ∀ row ∈ t.rows, row.Fits) :
    ∃ t' result, finalizeLoop size top ranges expected t = (t', result) ∧
      (result = .ok () ↔ StaysBelow top expected (ranges.map (t.select size))) ∧
      (result = .ok () → ∀ row, row ∈ t'.rows ↔
        (row ∈ t.rows ∧ ∀ range ∈ ranges, ¬ (range.1 ≤ row.number ∧ row.number ≤ range.2)) ∨
          ∃ old ∈ chainRows expected (ranges.flatMap (t.select size)),
            row = { old with isFinal := true }) := by
  induction ranges generalizing expected t with
  | nil => exact ⟨t, .ok (), rfl, iff_of_true rfl trivial, fun _ row => by simp [chainRows]⟩
  | cons range ranges ih =>
    obtain ⟨hlw, hd⟩ := pairwise_cons.mp hd
    obtain ⟨hrn, hrt⟩ := hra range mem_cons_self
    have hrs : ∀ r ∈ ranges, InPartition size r ∧ r.2 ≤ top := fun r hr =>
      hra r (mem_cons_of_mem _ hr)
    rw [finalizeLoop, page_eq hfit]
    simp only [checkRows_fst]
    -- the part begins below the top, so only the second comparison decides
    have hguard : (getPartition size range.1 ≤ (chainEnd expected (t.select size range)).number ∧
        top ≤ (chainEnd expected (t.select size range)).number) ↔
        top ≤ (chainEnd expected (t.select size range)).number := by
      have := @getPartition_le size range.1
      have := hrn.1
      omega
    by_cases hge : top ≤ (chainEnd expected (t.select size range)).number
    · rw [if_pos (hguard.mpr hge)]
      refine ⟨t, _, rfl, ⟨nofun, fun h => ?_⟩, nofun⟩
      exact absurd h.1 (not_lt.mpr hge)
    rw [if_neg fun h => hge (hguard.mp h)]
    have hp : ∀ r ∈ ranges, (t.execute size
        (checkRows (getPartition size range.1) expected (t.select size range)).2).select size r =
          t.select size r := select_execute_below hra htop hlw
    obtain ⟨t', result, hl, hok, hs⟩ := ih hrs hd (fits_execute hra htop hfit)
    refine ⟨t', result, hl, ?_, fun hres row => ?_⟩
    · rw [hok, map_congr_left hp, map_cons, StaysBelow, and_iff_right (not_le.mp hge)]
    rw [hs hres, mem_execute_select hrn (by omega), flatMap_congr hp, flatMap_cons,
      chainRows_append]
    constructor
    · rintro (⟨⟨hrw, hot⟩ | ⟨old, hold, rfl⟩, ho⟩ | ⟨old, hold, rfl⟩)
      · exact Or.inl ⟨hrw, forall_mem_cons.mpr ⟨hot, ho⟩⟩
      · exact Or.inr ⟨old, mem_append_left _ hold, rfl⟩
      · exact Or.inr ⟨old, mem_append_right _ hold, rfl⟩
    · rintro (⟨hrw, ho⟩ | ⟨old, hold, rfl⟩)
      · obtain ⟨hot, ho⟩ := forall_mem_cons.mp ho
        exact Or.inl ⟨Or.inl ⟨hrw, hot⟩, ho⟩
      · rcases mem_append.mp hold with hold | hold
        · refine Or.inl ⟨Or.inr ⟨old, hold, rfl⟩, fun r hr hb => ?_⟩
          have hsl := (chainRows_sublist _ _).subset hold
          have hb' := ((mem_select_range hra htop mem_cons_self).mp hsl).2
          have := hlw r hr
          change r.1 ≤ old.number ∧ old.number ≤ r.2 at hb
          omega
        · exact Or.inr ⟨old, hold, rfl⟩

/-! ### Rows of one number -/

section Pairs

variable {α : Type} {a b : α} {l : List α}

theorem pair_sublist_or (ha : a ∈ l) (hb : b ∈ l) (hne : a ≠ b) :
    [a, b].Sublist l ∨ [b, a].Sublist l := by
  obtain ⟨before, after, rfl⟩ := mem_iff_append.mp ha
  rcases mem_append.mp hb with hb | hb
  · exact Or.inr ((singleton_sublist.mpr hb).append (singleton_sublist.mpr mem_cons_self))
  · have hb := (mem_cons.mp hb).resolve_left hne.symm
    exact Or.inl (((singleton_sublist.mpr hb).cons_cons a).trans (sublist_append_right _ _))

theorem not_pair_sublist (hn : l.Nodup) (h : [a, b].Sublist l) : ¬ [b, a].Sublist l := by
  induction l with
  | nil => cases h
  | cons c l ih =>
    obtain ⟨hc, hn⟩ := nodup_cons.mp hn
    intro h'
    cases h with
    | cons _ h =>
      cases h' with
      | cons _ h' => exact ih hn h h'
      | cons_cons _ _ => exact hc (h.subset (by simp))
    | cons_cons _ _ =>
      cases h' with
      | cons _ h' => exact hc (h'.subset (by simp))
      | cons_cons _ h' => exact hc (h'.subset (by simp))

end Pairs

/-- Rows of one number are listed in the order of the table. -/
theorem pair_sublist_selected {a b : BlockRow} (hc : Cover size start stop ranges)
    (hstop : stop ≤ 2 ^ 63) (hl : start ≤ a.number) (hh : a.number < stop)
    (heq : b.number = a.number) (h : [a, b].Sublist t.rows) :
    [a, b].Sublist (ranges.flatMap (t.select size)) := by
  obtain ⟨range, hr, hb⟩ := hc.complete a.number hl hh
  obtain ⟨hin, -, hst⟩ := hc.inside range hr
  have hsel : ∀ row ∈ [a, b], row ∈ t.select size range := by
    intro row hrow
    refine (mem_select_of_lt hin (by omega)).mpr ⟨h.subset hrow, ?_⟩
    rcases mem_cons.mp hrow with rfl | hrow
    · exact hb
    · rw [mem_singleton.mp hrow, heq]
      exact hb
  have hpair : [a, b].Sublist (t.select size range) := by
    have hf := h.filter fun row : BlockRow =>
      asI64 (getPartition size row.number) = asI64 (getPartition size range.1) ∧
        asI64 range.1 ≤ asI64 row.number ∧ asI64 row.number ≤ asI64 range.2
    rw [filter_eq_self.mpr fun row hrow =>
      (mem_filter.mp ((mem_insertionSort _).mp (hsel row hrow))).2] at hf
    exact pair_sublist_insertionSort (by rw [heq]) hf
  exact hpair.trans (sublist_flatten_of_mem (mem_map_of_mem hr))

theorem pair_sublist_table {a b : BlockRow} (hc : Cover size start stop ranges)
    (hstop : stop ≤ 2 ^ 63) (heq : b.number = a.number)
    (h : [a, b].Sublist (ranges.flatMap (t.select size))) : [a, b].Sublist t.rows := by
  have hn : (ranges.flatMap (t.select size)).Nodup :=
    (selected_descending hc (by omega)).2.of_map
  obtain ⟨ha, hl, hh⟩ := (mem_selected hc hstop).mp (h.subset mem_cons_self)
  obtain ⟨hb, -⟩ := (mem_selected hc hstop).mp (h.subset (mem_cons_of_mem _ mem_cons_self))
  have hne : a ≠ b := by simpa using hn.sublist h
  refine (pair_sublist_or ha hb hne).resolve_right fun hba => ?_
  exact not_pair_sublist hn h (pair_sublist_selected hc hstop (by omega) (by omega) heq.symm hba)

/-! ### Whole calls -/

/-- All ancestors of a block from `first` on are stored. -/
def Complete (rows : List BlockRow) (first : Nat) (toBlock : BlockRef) : Prop :=
  ∀ block, Ancestor rows toBlock block → first ≤ block.number → block ∈ rows.map ptr

/-- What `finalize` is for. A complete chain is marked and the other blocks of the range are
deleted. If an ancestor is missing, the call fails and deletes no block below it. -/
structure BlockTable.KeepsFinalChain (t : BlockTable) (size first : Nat) (toBlock : BlockRef) :
    Prop where
  complete : Complete t.rows first toBlock → ∃ t', t.finalize size first toBlock = (t', .ok ()) ∧
    ∀ row, row ∈ t'.rows ↔
      (row ∈ t.rows ∧ ¬ (first ≤ row.number ∧ row.number ≤ toBlock.number)) ∨
      ∃ old ∈ t.rows, (first ≤ old.number ∧ old.number ≤ toBlock.number) ∧
        Ancestor t.rows toBlock (ptr old) ∧ row = { old with isFinal := true }
  missing : ∀ block, Ancestor t.rows toBlock block → first ≤ block.number →
    block ∉ t.rows.map ptr → ∃ t' error, t.finalize size first toBlock = (t', .error error) ∧
      ∀ row ∈ t.rows, row.number < block.number → ptr row ∈ t'.rows.map ptr

/-- The parents that the rows of the chain name have numbers below the final block, and none of them
is a block of the same number that is listed later. -/
def Rooted (rows : List BlockRow) (first : Nat) (toBlock : BlockRef) : Prop :=
  ∀ row ∈ rows, Ancestor rows toBlock (ptr row) → first ≤ row.number →
    row.parentNumber < toBlock.number ∧
      ∀ parent, [row, parent].Sublist rows → ptr parent = parentPtr row →
        parent.number ≠ row.number

section Calls

variable {toBlock : BlockRef} (hsize : 0 < size) (hfirst : first ≤ toBlock.number)
  (hfit : ∀ row ∈ t.rows, row.Fits)

include hsize hfirst hfit

/-- If the final block is not stored, the call fails and nothing is deleted. -/
theorem finalize_of_not_mem (hlt : toBlock.number + 1 < 2 ^ 64) (hm : toBlock ∉ t.rows.map ptr) :
    t.finalize size first toBlock =
      (t, .error (.text s!"block {display toBlock} is missing")) := by
  obtain ⟨start, _, hs⟩ := @splitIntoPartitions_head size first _ hfirst hlt
  have hin : InPartition size (start, toBlock.number) :=
    ((splitIntoPartitions_cover hsize hlt).inside _ (hs ▸ mem_cons_self)).1
  have hk : chainEnd toBlock (t.select size (start, toBlock.number)) = toBlock := by
    refine chainEnd_of_not_mem fun hmm => hm ?_
    obtain ⟨row, hrw, hpt⟩ := mem_map.mp hmm
    exact mem_map.mpr ⟨row, ((mem_select hin (by omega)).mp hrw).1, hpt⟩
  have hf : getPartition size start ≤ toBlock.number ∧ toBlock.number ≤ toBlock.number :=
    ⟨(getPartition_le start).trans hin.1, le_rfl⟩
  rw [BlockTable.finalize, hs, finalizeLoop, page_eq hfit]
  simp only [checkRows_fst, hk, if_pos hf]

/-- The pages that a call reads, and their rows. -/
theorem finalize_spec (hlt : toBlock.number < 2 ^ 63) :
    ∃ pages, Listing t.rows first pages.flatten ∧
      (∀ row, row ∈ pages.flatten ↔
        row ∈ t.rows ∧ first ≤ row.number ∧ row.number ≤ toBlock.number) ∧
      (∀ a b : BlockRow, b.number = a.number → first ≤ a.number → a.number ≤ toBlock.number →
        ([a, b].Sublist pages.flatten ↔ [a, b].Sublist t.rows)) ∧
      (toBlock ∈ t.rows.map ptr → ∀ page ∈ pages.head?, toBlock ∈ page.map ptr) ∧
      ∃ t' result, t.finalize size first toBlock = (t', result) ∧
        (result = .ok () ↔ StaysBelow toBlock.number toBlock pages) ∧
        (result = .ok () → ∀ row, row ∈ t'.rows ↔
          (row ∈ t.rows ∧ ¬ (first ≤ row.number ∧ row.number ≤ toBlock.number)) ∨
            ∃ old ∈ chainRows toBlock pages.flatten, row = { old with isFinal := true }) := by
  have hc := @splitIntoPartitions_cover size first hsize toBlock.number (by omega)
  have hstop : toBlock.number + 1 ≤ 2 ^ 63 := by omega
  set ranges := splitIntoPartitions true size first toBlock.number with hranges
  have hflat : (ranges.map (t.select size)).flatten = ranges.flatMap (t.select size) := rfl
  refine ⟨ranges.map (t.select size), hflat ▸ selected_listing hc hstop, fun row => ?_,
    fun a b heq hl hh => ⟨?_, ?_⟩, fun hm page hp => ?_, ?_⟩
  · rw [hflat, mem_selected hc hstop, Nat.lt_succ_iff]
  · exact pair_sublist_table hc hstop heq
  · exact pair_sublist_selected hc hstop hl (by omega) heq
  · obtain ⟨start, _, hs⟩ := @splitIntoPartitions_head size first _ hfirst (by omega)
    rw [hranges, hs] at hp
    cases hp
    obtain ⟨top, htop, heq⟩ := mem_map.mp hm
    have hin := (hc.inside (start, toBlock.number) (by rw [hranges, hs]; exact mem_cons_self)).1
    have hn : top.number = toBlock.number := congrArg BlockRef.number heq
    refine mem_map.mpr ⟨top, (mem_select_of_lt hin hlt).mpr ⟨htop, ?_, hn.le⟩, heq⟩
    exact hn ▸ hin.1
  · obtain ⟨t', result, hfin, hok, hrows⟩ := @finalizeLoop_spec size toBlock ranges t
      toBlock.number (fun range hr => ⟨(hc.inside range hr).1, by
        have := (hc.inside range hr).2.2
        omega⟩) hlt hc.disjoint hfit
    refine ⟨t', result, hfin, hok, fun hres row => ?_⟩
    rw [hrows hres, hflat]
    refine or_congr_left (and_congr_right fun _ => ⟨fun ho hb => ?_, fun ho range hr hin => ?_⟩)
    · obtain ⟨range, hr, hin⟩ := hc.complete row.number hb.1 (by omega)
      exact ho range hr hin
    · obtain ⟨-, hlw, hhg⟩ := hc.inside range hr
      omega

omit hsize in
/-- Up to the greatest number nothing is listed, and the call succeeds. -/
theorem BlockTable.KeepsFinalChain.number_ne (h : t.KeepsFinalChain size first toBlock) :
    toBlock.number ≠ 2 ^ 64 - 1 := by
  intro hmax
  have hnot : toBlock ∉ t.rows.map ptr := by
    intro hm
    obtain ⟨row, hr, heq⟩ := mem_map.mp hm
    have : row.number = toBlock.number := congrArg BlockRef.number heq
    have := (hfit row hr).1
    omega
  obtain ⟨t', error, hfin, -⟩ := h.missing toBlock .refl hfirst hnot
  have hnone : splitIntoPartitions true size first toBlock.number = [] := by
    rw [splitIntoPartitions, hmax]
    cases (2 ^ 64 - 1 + 1 - first) <;> rfl
  rw [BlockTable.finalize, hnone] at hfin
  cases hfin

omit hsize hfirst in
theorem number_lt_of_stored (hs : toBlock ∈ t.rows.map ptr) : toBlock.number < 2 ^ 63 := by
  obtain ⟨row, hr, rfl⟩ := mem_map.mp hs
  exact (hfit row hr).1

/-- A call that finds the final block and misses an ancestor succeeds. -/
theorem BlockTable.KeepsFinalChain.complete_of_stored (h : t.KeepsFinalChain size first toBlock)
    (hs : toBlock ∈ t.rows.map ptr) : Complete t.rows first toBlock := by
  have hlt := number_lt_of_stored hfit hs
  obtain ⟨pages, -, hmem, -, hhead, t', result, hfin, hok, -⟩ :=
    finalize_spec hsize hfirst hfit hlt
  intro block ha hf
  by_contra hnot
  have hlower : ∀ row ∈ t.rows, Ancestor t.rows toBlock (ptr row) →
      row.parentNumber < row.number := fun row hr hrow =>
    ha.lower_of_missing t.keys hnot hr hrow
  have hbelow : StaysBelow toBlock.number toBlock pages := by
    refine staysBelow_of_chain (fun row hrow => ?_) (Or.inr (hhead hs))
    obtain ⟨hr, -, hle⟩ := (hmem row).mp ((chainRows_sublist _ _).subset hrow)
    have hanc : Ancestor t.rows toBlock (ptr row) := by
      refine ancestor_of_mem_chainRows (fun r hr => ((hmem r).mp hr).1) ?_ hrow
      intro r hr hra hge
      exact absurd (hlower r ((hmem r).mp hr).1 hra) (not_lt.mpr hge)
    have := hlower row hr hanc
    omega
  obtain ⟨_, error, herr, -⟩ := h.missing block ha hf hnot
  rw [hfin, hok.mpr hbelow] at herr
  cases herr

/-- A call that marks or misses what a row without a lower parent names does not keep the chain. -/
theorem BlockTable.KeepsFinalChain.rooted (h : t.KeepsFinalChain size first toBlock)
    (hs : toBlock ∈ t.rows.map ptr) (hc : Complete t.rows first toBlock) :
    Rooted t.rows first toBlock := by
  have hlt := number_lt_of_stored hfit hs
  obtain ⟨pages, hlist, hmem, hpair, -, t', result, hfin, hok, hrows⟩ :=
    finalize_spec hsize hfirst hfit hlt
  obtain ⟨_, heq, hspec⟩ := h.complete hc
  obtain ⟨rfl, rfl⟩ := Prod.mk.inj (heq.symm.trans hfin)
  intro row hr ha hf
  have hle : row.number ≤ toBlock.number := by
    rcases ha.eq_or_lt with heq | hlt
    · exact (congrArg BlockRef.number heq).le
    · exact hlt.le
  have hmark : row ∈ chainRows toBlock pages.flatten :=
    mem_chainRows_of_ancestor t.keys hlist (fun r hr hpt hlow =>
      (hmem r).mpr ⟨hr, hlow, (congrArg BlockRef.number hpt).le⟩) ((hmem row).mpr ⟨hr, hf, hle⟩) ha
  have hlater : ∀ parent, [row, parent].Sublist t.rows → ptr parent = parentPtr row →
      parent.number ≠ row.number := by
    intro parent hp hpt hn
    have hmarked := parent_mem_chainRows hlist.keys hmark ((hpair row parent hn hf hle).mpr hp) hpt
    rcases (hspec _).mp ((hrows rfl _).mpr (Or.inr ⟨parent, hmarked, rfl⟩)) with
      ⟨-, hout⟩ | ⟨old, -, -, hanc, hold⟩
    · exact hout ⟨hn ▸ hf, hn ▸ hle⟩
    · -- the parent would be an ancestor of the same number
      have hptr : ptr parent = ptr old := by
        injection hold with hheader
        exact ptr_eq_of_header hheader
      rw [← hptr] at hanc
      have hsame : ptr row = ptr parent := by
        rcases ha.total t.keys hanc with hdown | hup
        · exact (hdown.eq_or_lt.resolve_right fun hlt => absurd hlt (not_lt.mpr hn.ge)).symm
        · exact hup.eq_or_lt.resolve_right fun hlt => absurd hlt (not_lt.mpr hn.le)
      obtain rfl := inj_on_of_nodup_map t.keys hr (hp.subset (by simp)) hsame
      exact not_pair_sublist t.keys.of_map hp hp
  refine ⟨?_, hlater⟩
  by_contra hge
  refine not_staysBelow hmark (not_lt.mp hge) (fun parent hp hpt => ?_) (hok.mp rfl)
  have hdesc : parent.number ≤ row.number := by
    simpa using hlist.descending.sublist hp
  have hn : parent.number = row.parentNumber := congrArg BlockRef.number hpt
  have hsame : parent.number = row.number := by omega
  exact hlater parent ((hpair row parent hsame hf hle).mp hp) hpt hsame

/-- A complete chain is marked if the parents it names are below the final block. -/
theorem keeps_of_rooted (hc : Complete t.rows first toBlock) (hroot : Rooted t.rows first toBlock) :
    ∃ t', t.finalize size first toBlock = (t', .ok ()) ∧ ∀ row, row ∈ t'.rows ↔
      (row ∈ t.rows ∧ ¬ (first ≤ row.number ∧ row.number ≤ toBlock.number)) ∨
      ∃ old ∈ t.rows, (first ≤ old.number ∧ old.number ≤ toBlock.number) ∧
        Ancestor t.rows toBlock (ptr old) ∧ row = { old with isFinal := true } := by
  have hs := hc toBlock .refl hfirst
  have hlt := number_lt_of_stored hfit hs
  obtain ⟨pages, hlist, hmem, hpair, hhead, t', result, hfin, hok, hrows⟩ :=
    finalize_spec hsize hfirst hfit hlt
  have hchain : ∀ row, row ∈ chainRows toBlock pages.flatten ↔
      (row ∈ t.rows ∧ first ≤ row.number ∧ row.number ≤ toBlock.number) ∧
        Ancestor t.rows toBlock (ptr row) := by
    intro row
    constructor
    · intro hm
      refine ⟨(hmem row).mp ((chainRows_sublist _ _).subset hm), ?_⟩
      refine ancestor_of_mem_chainRows (fun r hr => ((hmem r).mp hr).1) ?_ hm
      intro r hr ha hge parent hp hpt
      obtain ⟨hrt, hlow, hhigh⟩ := (hmem r).mp hr
      have hdesc : parent.number ≤ r.number := by
        simpa using hlist.descending.sublist hp
      have hn : parent.number = r.parentNumber := congrArg BlockRef.number hpt
      have hsame : parent.number = r.number := by omega
      exact (hroot r hrt ha hlow).2 parent ((hpair r parent hsame hlow hhigh).mp hp) hpt hsame
    · rintro ⟨hm, ha⟩
      refine mem_chainRows_of_ancestor t.keys hlist (fun r hr hpt hlow => ?_)
        ((hmem row).mpr hm) ha
      exact (hmem r).mpr ⟨hr, hlow, (congrArg BlockRef.number hpt).le⟩
  have hbelow : StaysBelow toBlock.number toBlock pages := by
    refine staysBelow_of_chain (fun row hrow => ?_) (Or.inr (hhead hs))
    obtain ⟨⟨hr, hlow, -⟩, ha⟩ := (hchain row).mp hrow
    exact (hroot row hr ha hlow).1
  obtain rfl := hok.mpr hbelow
  refine ⟨t', hfin, fun row => ?_⟩
  rw [hrows rfl]
  refine or_congr_right ⟨?_, ?_⟩
  · rintro ⟨old, hold, rfl⟩
    obtain ⟨⟨hm, hb⟩, ha⟩ := (hchain old).mp hold
    exact ⟨old, hm, hb, ha, rfl⟩
  · rintro ⟨old, hm, hb, ha, rfl⟩
    exact ⟨old, (hchain old).mpr ⟨⟨hm, hb⟩, ha⟩, rfl⟩

end Calls

/-- The call keeps the final chain exactly if the final block does not have the greatest number and
is missing itself, or all its ancestors in the range are stored and the parents that they name are
below it. -/
theorem finalize_keeps_final_chain {size first : Nat} {toBlock : BlockRef} {t : BlockTable}
    (hsize : 0 < size) (hfirst : first ≤ toBlock.number) (hto : toBlock.number < 2 ^ 64)
    (hfit : ∀ row ∈ t.rows, row.Fits) :
    t.KeepsFinalChain size first toBlock ↔ toBlock.number ≠ 2 ^ 64 - 1 ∧
      (toBlock ∉ t.rows.map ptr ∨
        Complete t.rows first toBlock ∧ Rooted t.rows first toBlock) := by
  constructor
  · intro h
    have hmax := h.number_ne hfirst hfit
    refine ⟨hmax, or_iff_not_imp_left.mpr fun hs => ?_⟩
    rw [not_not] at hs
    have hc := h.complete_of_stored hsize hfirst hfit hs
    exact ⟨hc, h.rooted hsize hfirst hfit hs hc⟩
  · rintro ⟨hmax, hnot | ⟨hc, hr⟩⟩
    · have hfin := finalize_of_not_mem hsize hfirst hfit (by omega) hnot
      refine ⟨fun hc => absurd (hc toBlock .refl hfirst) hnot, fun block ha _ _ => ?_⟩
      exact ⟨t, _, hfin, fun row hrow _ => mem_map_of_mem hrow⟩
    · refine ⟨fun _ => keeps_of_rooted hsize hfirst hfit hc hr, fun block ha hf hm => ?_⟩
      exact absurd (hc block ha hf) hm

section Sample

def storedRow (number : Nat) (hash : Hash) (parentNumber : Nat) (parentHash : Hash) : BlockRow :=
  { number, hash, parentNumber, parentHash, isFinal := false }

/-- Beside the chain there is a block 2 that names a parent above it. -/
def forkTable : BlockTable where
  rows := [storedRow 1 "1" 0 "0", storedRow 2 "2" 1 "1", storedRow 2 "2x" 5 "5"]
  keys := by decide
  bounded := by decide

theorem Ancestor.mem_closed {blocks : List BlockRef} {block ancestor : BlockRef}
    (hb : block ∈ blocks) (hc : ∀ row ∈ rows, ptr row ∈ blocks → parentPtr row ∈ blocks)
    (h : Ancestor rows block ancestor) : ancestor ∈ blocks := by
  induction h with
  | refl => exact hb
  | tail _ hp ih =>
    obtain ⟨row, hr, rfl, rfl, -⟩ := hp
    exact hc row hr ih

theorem forkTable_ancestors {block : BlockRef} (h : Ancestor forkTable.rows ⟨2, "2"⟩ block) :
    block ∈ [⟨2, "2"⟩, ⟨1, "1"⟩, (⟨0, "0"⟩ : BlockRef)] :=
  h.mem_closed (by decide) (by decide)

theorem fork_is_deleted : ∃ t', forkTable.finalize 10 1 ⟨2, "2"⟩ = (t', .ok ()) ∧
    storedRow 2 "2x" 5 "5" ∉ t'.rows ∧
    { storedRow 1 "1" 0 "0" with isFinal := true } ∈ t'.rows := by
  have hfit : ∀ row ∈ forkTable.rows, row.Fits := by
    unfold BlockRow.Fits
    decide
  have hc : Complete forkTable.rows 1 ⟨2, "2"⟩ := fun block ha =>
    (by decide : ∀ b ∈ [⟨2, "2"⟩, ⟨1, "1"⟩, (⟨0, "0"⟩ : BlockRef)],
      1 ≤ b.number → b ∈ forkTable.rows.map ptr) block (forkTable_ancestors ha)
  have hroot : Rooted forkTable.rows 1 ⟨2, "2"⟩ := by
    intro row hr ha _
    have hlow : ∀ row ∈ forkTable.rows, ptr row ∈ [⟨2, "2"⟩, ⟨1, "1"⟩, (⟨0, "0"⟩ : BlockRef)] →
        row.parentNumber < 2 ∧ row.parentNumber < row.number := by decide
    obtain ⟨htop, hlt⟩ := hlow row hr (forkTable_ancestors ha)
    refine ⟨htop, fun parent _ hpt hn => ?_⟩
    have : parent.number = row.parentNumber := congrArg BlockRef.number hpt
    omega
  have hp : Ancestor forkTable.rows ⟨2, "2"⟩ ⟨1, "1"⟩ :=
    .single ⟨storedRow 2 "2" 1 "1", by decide, rfl, rfl, by decide⟩
  have hkeeps := (@finalize_keeps_final_chain 10 1 ⟨2, "2"⟩ forkTable (by decide) (by decide)
    (by decide) hfit).mpr ⟨by decide, Or.inr ⟨hc, hroot⟩⟩
  obtain ⟨t', hf, hr⟩ := hkeeps.complete hc
  refine ⟨t', hf, fun hm => ?_, (hr _).mpr (Or.inr ?_)⟩
  · rcases (hr _).mp hm with ⟨-, ho⟩ | ⟨_, -, -, -, heq⟩
    · exact ho (by decide)
    · cases congrArg BlockRow.isFinal heq
  · exact ⟨storedRow 1 "1" 0 "0", by decide, by decide, hp, rfl⟩

def gapTable : BlockTable where
  rows := [storedRow 1 "1" 0 "0", storedRow 3 "3" 2 "2"]
  keys := by decide
  bounded := by decide

/-- The call succeeds and deletes block 1, which is below the ancestor that is missing. -/
theorem missing_ancestor_unnoticed :
    Ancestor gapTable.rows ⟨3, "3"⟩ ⟨2, "2"⟩ ∧ (⟨2, "2"⟩ : BlockRef) ∉ gapTable.rows.map ptr ∧
    storedRow 1 "1" 0 "0" ∈ gapTable.rows ∧
    (gapTable.finalize 10 1 ⟨3, "3"⟩).2 = .ok () ∧
    (gapTable.finalize 10 1 ⟨3, "3"⟩).1.rows = [{ storedRow 3 "3" 2 "2" with isFinal := true }] :=
  ⟨.single ⟨storedRow 3 "3" 2 "2", by decide, rfl, rfl, by decide⟩, by decide, by decide,
    by decide +kernel, by decide +kernel⟩

end Sample

end Bds
