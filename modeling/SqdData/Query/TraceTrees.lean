import SqdData.Query.Relations

/-!
# Rows above and below selected rows

In the order of their addresses, a row is followed by all rows below it. So one pass that remembers
the last selected row finds the rows below selected rows, and one that keeps a stack of the rows
above the current one finds the rows above them. A relation between two tables first looks for the
rows of the output table that have the address of a selected row.
-/

namespace Query

open List

open Arrow Storage

/-! ## Addresses -/

/-- What lies between a list and an extension of it is an extension, too. -/
theorem extends_of_between {α : Type} [LinearOrder α] {a x y : List α} (hax : a ≤ x) (hxy : x ≤ y)
    (h : a <+: y) : a <+: x := by
  induction a generalizing x y with
  | nil => exact nil_prefix
  | cons i a ih =>
    obtain ⟨_, rfl⟩ := h
    cases x with
    | nil => exact absurd hax (not_le_of_gt (nil_lt_cons i a))
    | cons k =>
      rw [cons_append] at hxy
      rw [← not_lt, cons_lt_cons_iff, not_or, not_and, not_lt, not_lt] at hax hxy
      obtain rfl : i = k := le_antisymm hax.1 hxy.1
      exact (prefix_cons_inj i).mpr (ih (hax.2 rfl) (hxy.2 rfl) ( prefix_append _ _))

variable {a b c : Address}

theorem isParentAddress_iff : isParentAddress a b = true ↔ a <+: b ∧ a ≠ b := by
  rw [isParentAddress, Bool.and_eq_true, decide_eq_true_eq, decide_eq_true_eq, prefix_iff_eq_take]
  constructor
  · rintro ⟨hlt, heq⟩
    refine ⟨heq, ?_⟩
    rintro rfl
    exact lt_irrefl _ hlt
  · rintro ⟨heq, hne⟩
    refine ⟨lt_of_le_of_ne (prefix_iff_eq_take.mpr heq).length_le fun hlen => ?_, heq⟩
    rw [hlen, take_length] at heq
    exact hne heq

theorem lt_of_isParentAddress (h : isParentAddress a b = true) : a < b := by
  obtain ⟨hp, hne⟩ := isParentAddress_iff.mp h
  exact lt_of_le_of_ne (not_lt.mp (List.not_lt.mpr hp.le)) hne

theorem isParentAddress_trans (hab : isParentAddress a b = true)
    (hbc : isParentAddress b c = true) : isParentAddress a c = true := by
  have hlt := (lt_of_isParentAddress hab).trans (lt_of_isParentAddress hbc)
  rw [isParentAddress_iff] at hab hbc ⊢
  exact ⟨hab.1.trans hbc.1, hlt.ne⟩

/-- A row between a row and one below it is below it or beside it. -/
theorem isParentAddress_of_between (hab : a ≤ b) (hbc : b ≤ c) (h : isParentAddress a c = true)
    (hne : a ≠ b) : isParentAddress a b = true :=
  isParentAddress_iff.mpr ⟨extends_of_between hab hbc (isParentAddress_iff.mp h).1, hne⟩

/-! ## The passes -/

section Passes

variable {nodes : List StackRow} {P : Nat → Bool} {row : Nat}

theorem sortRows_sorted (nodes : List StackRow) :
    (sortRows nodes).Pairwise (·.address ≤ ·.address) := by
  have : Std.Total fun a b : StackRow => a.address ≤ b.address := ⟨fun _ _ => le_total _ _⟩
  have : IsTrans StackRow fun a b => a.address ≤ b.address := ⟨fun _ _ _ => le_trans⟩
  exact pairwise_insertionSort _ nodes

variable {node : StackRow} {rest : List StackRow} {includeParent : Bool} {current : Option Address}

/-- The parent that is remembered stands before the rows, and rows beside it are parents as well. -/
def Leads (P : Nat → Bool) (current : Option Address) (nodes : List StackRow) : Prop :=
  ∀ a ∈ current, ∀ n ∈ nodes, a ≤ n.address ∧ (a = n.address → P n.row = true)

theorem findChildrenFrom_step (hle : ∀ n ∈ rest, node.address ≤ n.address)
    (he : ∀ n ∈ rest, node.address = n.address → P node.row = P n.row)
    (hc : Leads P current (node :: rest)) :
    ∃ next, findChildrenFrom P includeParent current (node :: rest) =
        (if current.any (isParentAddress · node.address) || (includeParent && P node.row)
          then [node.row] else []) ++ findChildrenFrom P includeParent next rest ∧
      Leads P next rest ∧ ∀ n ∈ rest, (next.any (isParentAddress · n.address) = true ↔
        current.any (isParentAddress · n.address) = true ∨
          P node.row = true ∧ isParentAddress node.address n.address = true) := by
  rw [findChildrenFrom]
  by_cases hcr : current.any (isParentAddress · node.address) = true
  · refine ⟨current, by simp [hcr], fun a ha n hn => hc a ha n (mem_cons_of_mem _ hn),
      fun n hn => (or_iff_left_of_imp ?_).symm⟩
    rintro ⟨-, h⟩
    cases current with
    | none => cases hcr
    | some => exact isParentAddress_trans hcr h
  -- below the last parent there is only what is below the row, if the two are side by side
  have hlast : ∀ n ∈ rest, current.any (isParentAddress · n.address) = true →
      P node.row = true ∧ isParentAddress node.address n.address = true := by
    intro n hn h
    cases current with
    | none => cases h
    | some a =>
      obtain ⟨ha, hp⟩ := hc a rfl node mem_cons_self
      obtain rfl : a = node.address := by
        by_contra hne
        exact hcr (isParentAddress_of_between ha (hle n hn) h hne)
      exact ⟨hp rfl, h⟩
  by_cases hp : P node.row = true
  · refine ⟨some node.address, ?_, ?_, fun n hn => ?_⟩
    · simp [hcr, hp]
    · rintro _ ⟨⟩ n hn
      exact ⟨hle n hn, fun heq => (he n hn heq).symm.trans hp⟩
    · exact ⟨fun h => Or.inr ⟨hp, h⟩, fun h => (h.elim (hlast n hn) id).2⟩
  · refine ⟨none, by simp [hcr, hp], by rintro _ ⟨⟩, fun n hn => ?_⟩
    exact ⟨fun h => (by cases h), fun h => absurd (h.elim (hlast n hn) id).1 hp⟩

/-- The rows below the last parent, the parents if they are asked for, and the rows below them. -/
theorem mem_findChildrenFrom (hs : nodes.Pairwise (·.address ≤ ·.address))
    (he : nodes.Pairwise fun m n => m.address = n.address → P m.row = P n.row)
    (hc : Leads P current nodes) :
    row ∈ findChildrenFrom P includeParent current nodes ↔ ∃ n ∈ nodes, n.row = row ∧
      (current.any (isParentAddress · n.address) = true ∨ (includeParent = true ∧ P n.row = true) ∨
        ∃ p ∈ nodes, P p.row = true ∧ isParentAddress p.address n.address = true) := by
  induction nodes generalizing current with
  | nil => simp [findChildrenFrom]
  | cons node rest ih =>
    obtain ⟨hle, hs⟩ := pairwise_cons.mp hs
    obtain ⟨hn, he⟩ := pairwise_cons.mp he
    obtain ⟨_, heq, hnx, hi⟩ := @findChildrenFrom_step P _ _ includeParent _ hle hn hc
    -- nothing that comes later is above the row, and the row is not above itself
    have hsl : ¬ ∃ p ∈ node :: rest, P p.row = true ∧
        isParentAddress p.address node.address = true := by
      rintro ⟨p, hp, -, h⟩
      have hlt := lt_of_isParentAddress h
      rcases mem_cons.mp hp with rfl | hp
      · exact lt_irrefl _ hlt
      · exact not_le_of_gt hlt (hle p hp)
    rw [heq, mem_append, ih hs he hnx, exists_mem_cons_iff]
    refine or_congr ?_ (exists_congr fun n => and_congr_right fun hn => and_congr_right fun _ => ?_)
    · rw [or_iff_left hsl, ← Bool.and_eq_true, ← Bool.or_eq_true]
      split <;> simp [*, eq_comm]
    · rw [hi n hn, exists_mem_cons_iff, or_assoc, or_left_comm (a := P node.row = true ∧ _)]

/-- The last one of the rows with its address. -/
def LastAt : List StackRow → StackRow → Prop
  | [], _ => False
  | n :: nodes, m => (m = n ∧ ∀ x ∈ nodes, m.address ≠ x.address) ∨ LastAt nodes m

theorem LastAt.mem {m : StackRow} (h : LastAt nodes m) : m ∈ nodes := by
  induction nodes with
  | nil => exact h.elim
  | cons n _ ih =>
    rcases h with ⟨rfl, -⟩ | h
    · exact mem_cons_self
    · exact mem_cons_of_mem n (ih h)

theorem LastAt.eq {m m' : StackRow} (h : LastAt nodes m) (h' : LastAt nodes m')
    (heq : m.address = m'.address) : m = m' := by
  induction nodes with
  | nil => exact h.elim
  | cons _ _ ih =>
    rcases h with ⟨rfl, hne⟩ | h
    · rcases h' with ⟨rfl, -⟩ | h'
      · rfl
      · exact absurd heq (hne m' h'.mem)
    · rcases h' with ⟨rfl, hne⟩ | h'
      · exact absurd heq.symm (hne m h.mem)
      · exact ih h h'

theorem lastAt_of_unique {m : StackRow} (hn : nodes.Nodup) (hm : m ∈ nodes)
    (hu : ∀ x ∈ nodes, m.address = x.address → x = m) : LastAt nodes m := by
  induction nodes with
  | nil => cases hm
  | cons _ _ ih =>
    obtain ⟨hnot, hn⟩ := nodup_cons.mp hn
    rcases mem_cons.mp hm with rfl | hm
    · refine Or.inl ⟨rfl, fun x hx heq => hnot ?_⟩
      rwa [← hu x (mem_cons_of_mem _ hx) heq]
    · exact Or.inr (ih hn hm fun x hx => hu x (mem_cons_of_mem _ hx))

/-- The stack holds rows that come before, each one below the next one. -/
def Stacked (stack nodes : List StackRow) : Prop :=
  stack.Pairwise (fun top m => isParentAddress m.address top.address = true) ∧
    ∀ m ∈ stack, ∀ n ∈ nodes, m.address ≤ n.address

/-- The rows above a row that is asked for are those on the stack and the last ones at their
addresses. -/
theorem mem_findParentsFrom {stack : List StackRow} (hs : nodes.Pairwise (·.address ≤ ·.address))
    (hst : Stacked stack nodes) :
    row ∈ findParentsFrom P stack nodes ↔ ∃ q ∈ nodes, P q.row = true ∧ ∃ m, m.row = row ∧
      (m = q ∨ isParentAddress m.address q.address = true ∧
        (LastAt nodes m ∨ m ∈ stack ∧ ∀ x ∈ nodes, m.address ≠ x.address)) := by
  induction nodes generalizing stack with
  | nil => simp [findParentsFrom]
  | cons node rest ih =>
    obtain ⟨hle, hs⟩ := pairwise_cons.mp hs
    obtain ⟨hc, hb⟩ := hst
    have hd : (stack.dropWhile fun top => !isParentAddress top.address node.address) =
        stack.filter fun top => isParentAddress top.address node.address := by
      have hp : stack.Pairwise fun top m => (!isParentAddress m.address node.address) = true →
          (!isParentAddress top.address node.address) = true := by
        refine hc.imp fun {top m} hmt hm => ?_
        by_contra ht
        simp [isParentAddress_trans hmt (by simpa using ht)] at hm
      have hsp := filter_append_filter_not_of_pairwise hp
      rw [← takeWhile_eq_filter_of_pairwise hp] at hsp
      simpa using append_cancel_left (takeWhile_append_dropWhile.trans hsp.symm)
    have hk : Stacked (node :: stack.filter fun top =>
        isParentAddress top.address node.address) rest := by
      refine ⟨pairwise_cons.mpr ⟨fun m hm => (mem_filter.mp hm).2, hc.filter _⟩, ?_⟩
      refine forall_mem_cons.mpr ⟨hle, fun m hm n hn => ?_⟩
      exact hb m (mem_filter.mp hm).1 n (mem_cons_of_mem _ hn)
    rw [findParentsFrom, hd, mem_append, ih hs hk, exists_mem_cons_iff]
    refine or_congr ?_ (exists_congr fun q => and_congr_right fun hq => and_congr_right fun _ =>
      exists_congr fun m => and_congr_right fun _ => or_congr_right (and_congr_right fun hmq => ?_))
    · have hmm : ∀ m, isParentAddress m.address node.address = true →
          (m ∈ stack ↔ LastAt (node :: rest) m ∨
            m ∈ stack ∧ ∀ x ∈ node :: rest, m.address ≠ x.address) := by
        intro m hm
        have hlt := lt_of_isParentAddress hm
        have hlast : ¬ LastAt (node :: rest) m := fun h => by
          rcases mem_cons.mp h.mem with rfl | hmm
          · exact lt_irrefl _ hlt
          · exact not_le_of_gt hlt (hle m hmm)
        rw [or_iff_right hlast, iff_self_and]
        exact fun _ => forall_mem_cons.mpr ⟨hlt.ne, fun x hx => (hlt.trans_le (hle x hx)).ne⟩
      split
      · rename_i hp
        rw [mem_map, and_iff_right hp]
        simp only [mem_cons, mem_filter] at hmm ⊢
        refine exists_congr fun m => and_comm.trans (and_congr_right fun _ => or_congr_right ?_)
        exact and_comm.trans (and_congr_right (hmm m))
      · rename_i hp
        simp [hp]
    · have hsd : m ∈ stack →
          (isParentAddress m.address node.address = true ↔ m.address ≠ node.address) := by
        refine fun hm => ⟨fun h => (lt_of_isParentAddress h).ne, fun hne => ?_⟩
        exact isParentAddress_of_between (hb m hm node mem_cons_self) (hle q hq) hmq hne
      rw [forall_mem_cons, LastAt, mem_cons, mem_filter]
      tauto

end Passes

/-! ## Groups of rows -/

section Groups

variable {items : List Nat} {group : Nat → List Value} {value : Nat → Value} {g : List Value}
  {P : Nat → Bool} {row : Nat}

theorem mem_group {n : StackRow} : n ∈ sortRows (groupRows items group value g) ↔
    ∃ row ∈ items, group row = g ∧ n = ⟨addressOf (value row), row⟩ := by
  rw [mem_sortRows, groupRows]
  simp only [mem_map, mem_filter, decide_eq_true_eq, and_assoc, eq_comm (a := n)]

theorem mem_children {includeParent : Bool} (hP : ∀ a ∈ items, ∀ b ∈ items, group a = group b →
      addressOf (value a) = addressOf (value b) → P a = P b) :
    row ∈ findChildrenFrom P includeParent none (sortRows (groupRows items group value g)) ↔
      row ∈ items ∧ group row = g ∧ ((includeParent = true ∧ P row = true) ∨
        ∃ p ∈ items, group p = g ∧ P p = true ∧
          isParentAddress (addressOf (value p)) (addressOf (value row)) = true) := by
  rw [mem_findChildrenFrom (sortRows_sorted _) ?_ (by intro a ha; cases ha)]
  · simp only [mem_group, Option.any_none, Bool.false_eq_true, false_or]
    constructor
    · rintro ⟨_, ⟨_, hr, hg, rfl⟩, rfl, hs | ⟨_, ⟨p, hp, hgp, rfl⟩, h⟩⟩
      · exact ⟨hr, hg, Or.inl hs⟩
      · exact ⟨hr, hg, Or.inr ⟨p, hp, hgp, h⟩⟩
    · rintro ⟨hr, hg, hs | ⟨p, hp, hgp, h⟩⟩
      · exact ⟨_, ⟨row, hr, hg, rfl⟩, rfl, Or.inl hs⟩
      · exact ⟨_, ⟨row, hr, hg, rfl⟩, rfl, Or.inr ⟨_, ⟨p, hp, hgp, rfl⟩, h⟩⟩
  · refine pairwise_of_forall_mem_list fun m hm n hn heq => ?_
    obtain ⟨a, ha, hga, rfl⟩ := mem_group.mp hm
    obtain ⟨b, hb, hgb, rfl⟩ := mem_group.mp hn
    exact hP a ha b hb (hga.trans hgb.symm) heq

theorem mem_parents :
    row ∈ findParentsFrom P [] (sortRows (groupRows items group value g)) ↔
      row ∈ items ∧ group row = g ∧ ∃ q ∈ items, group q = g ∧ P q = true ∧
        (row = q ∨ isParentAddress (addressOf (value row)) (addressOf (value q)) = true ∧
          LastAt (sortRows (groupRows items group value g)) ⟨addressOf (value row), row⟩) := by
  rw [mem_findParentsFrom (sortRows_sorted _) ⟨.nil, nofun⟩]
  simp only [not_mem_nil, false_and, or_false]
  constructor
  · rintro ⟨_, hm, hP, _, rfl, h⟩
    obtain ⟨q, hq, hgq, rfl⟩ := mem_group.mp hm
    rcases h with rfl | ⟨h, hlast⟩
    · exact ⟨hq, hgq, q, hq, hgq, hP, Or.inl rfl⟩
    · obtain ⟨_, hr, hgr, rfl⟩ := mem_group.mp hlast.mem
      exact ⟨hr, hgr, q, hq, hgq, hP, Or.inr ⟨h, hlast⟩⟩
  · rintro ⟨_, _, q, hq, hgq, hP, h⟩
    refine ⟨_, mem_group.mpr ⟨q, hq, hgq, rfl⟩, hP, ⟨addressOf (value row), row⟩, rfl, ?_⟩
    exact h.imp_left fun h => by rw [h]

/-- A row with an address of its own is the last one there. -/
theorem lastAt_of_alone (hi : items.Nodup) (hr : row ∈ items) (hg : group row = g)
    (hu : ∀ r ∈ items, group r = g → addressOf (value r) = addressOf (value row) → r = row) :
    LastAt (sortRows (groupRows items group value g)) ⟨addressOf (value row), row⟩ := by
  refine lastAt_of_unique ?_ (mem_group.mpr ⟨row, hr, hg, rfl⟩) fun n hn heq => ?_
  · refine (perm_insertionSort _ _).nodup_iff.mpr (Nodup.map_on ?_ (hi.filter _))
    intro a _ b _ heq
    exact (StackRow.mk.inj heq).2
  · obtain ⟨r, hr, hgr, rfl⟩ := mem_group.mp hn
    rw [hu r hr hgr heq.symm]

end Groups

/-! ## All rows of a table -/

section AllRows

variable {chunk : Chunk} {batch : RecordBatch} {table : String} {key : List String} {row : Nat}
  {rows : List Nat}

/-- The group key of a row has no null, so that a join finds it. -/
def HasGroup (batch : RecordBatch) (key : List String) (row : Nat) : Prop :=
  ∃ groupColumns addressColumn, keyColumns batch key = .ok (groupColumns ++ [addressColumn]) ∧
    .null ∉ rowKey groupColumns row

/-- There is a row properly above it in its group. -/
def HasAncestor (batch : RecordBatch) (key : List String) (row : Nat) : Prop :=
  ∃ groupColumns addressColumn, keyColumns batch key = .ok (groupColumns ++ [addressColumn]) ∧
    .null ∉ rowKey groupColumns row ∧ ∃ p < batch.numRows,
      rowKey groupColumns p = rowKey groupColumns row ∧
        isParentAddress (addressOf (addressColumn.values.getD p .null))
          (addressOf (addressColumn.values.getD row .null)) = true

theorem exists_of_selectStack {input : Finset Nat} {stack : Stack}
    (hb : chunk.scanTable table = .ok batch) (h : selectStack chunk table key input = .ok stack) :
    ∃ groupColumns addressColumn, keyColumns batch key = .ok (groupColumns ++ [addressColumn]) ∧
      stack.groups = (((((range batch.numRows).filter (· ∈ input)).map
        (rowKey groupColumns)).dedup).filter (.null ∉ ·)).map (groupRows (range batch.numRows)
          (rowKey groupColumns) fun row => addressColumn.values.getD row .null) := by
  unfold selectStack at h
  simp only [hb] at h
  obtain ⟨_, hs, h⟩ := bind_eq_ok.mp h
  cases hs
  obtain ⟨columns, hc, h⟩ := bind_eq_ok.mp h
  obtain ⟨⟨groupColumns, addressColumn⟩, hk, h⟩ := bind_eq_ok.mp h
  obtain ⟨_, -, h⟩ := bind_eq_ok.mp h
  cases h
  refine ⟨groupColumns, addressColumn, ?_, rfl⟩
  unfold splitKey at hk
  split at hk <;> cases hk
  rename_i hl
  rw [hc, dropLast_append_getLast? _ hl]

/-- Of all rows, all groups but those with a null are looked at. -/
theorem mem_groups_of_all {stack : Stack} {groupColumns : List Column} {addressColumn : Column}
    (hs : stack.groups = (((((range batch.numRows).filter (· ∈ Finset.range batch.numRows)).map
        (rowKey groupColumns)).dedup).filter (.null ∉ ·)).map (groupRows (range batch.numRows)
          (rowKey groupColumns) fun row => addressColumn.values.getD row .null))
    {F : List StackRow → List Nat} {Q : Prop}
    (hF : ∀ g, row ∈ F (groupRows (range batch.numRows) (rowKey groupColumns)
      (fun row => addressColumn.values.getD row .null) g) ↔
        row < batch.numRows ∧ rowKey groupColumns row = g ∧ Q) :
    row ∈ stack.groups.flatMap F ↔
      row < batch.numRows ∧ .null ∉ rowKey groupColumns row ∧ Q := by
  rw [hs]
  simp only [mem_flatMap, mem_map, exists_exists_and_eq_and, hF, mem_filter, mem_dedup,
    decide_eq_true_eq]
  constructor
  · rintro ⟨g, ⟨-, hn⟩, hr, rfl, hq⟩
    exact ⟨hr, hn, hq⟩
  · rintro ⟨hr, hn, hq⟩
    exact ⟨_, ⟨⟨row, ⟨mem_range.mpr hr, Finset.mem_range.mpr hr⟩, rfl⟩, hn⟩, hr, rfl, hq⟩

/-- The children of all rows are the rows that have an ancestor. -/
theorem evalChildren_all (hb : chunk.scanTable table = .ok batch)
    (h : evalChildren chunk (Finset.range batch.numRows) table key = .ok rows) :
    row ∈ rows ↔ row < batch.numRows ∧ HasAncestor batch key row := by
  obtain ⟨stack, hs, h⟩ := bind_eq_ok.mp h
  obtain ⟨_, -, h⟩ := bind_eq_ok.mp h
  cases h
  obtain ⟨groupColumns, addressColumn, hc, hg⟩ := exists_of_selectStack hb hs
  have hF : ∀ P : Nat → Bool, (∀ r < batch.numRows, P r = true) → ∀ g,
      row ∈ findChildrenFrom P false none (sortRows (groupRows (range batch.numRows)
        (rowKey groupColumns) (fun row => addressColumn.values.getD row .null) g)) ↔
      row < batch.numRows ∧ rowKey groupColumns row = g ∧ ∃ p < batch.numRows,
        rowKey groupColumns p = rowKey groupColumns row ∧
          isParentAddress (addressOf (addressColumn.values.getD p .null))
            (addressOf (addressColumn.values.getD row .null)) = true := by
    intro P hP g
    rw [mem_children fun a ha b hb _ _ =>
      (hP a (mem_range.mp ha)).trans (hP b (mem_range.mp hb)).symm]
    simp only [mem_range, Bool.false_eq_true, false_and, false_or]
    refine and_congr_right fun _ => and_congr_right fun hr => ?_
    rw [hr]
    exact exists_congr fun p => and_congr_right fun hp => by rw [and_iff_right (hP p hp)]
  refine (mem_groups_of_all hg (hF _ fun r hr => by simp [hr])).trans
    (and_congr_right fun _ => ⟨fun h => ⟨_, _, hc, h⟩, ?_⟩)
  rintro ⟨_, _, hc', h⟩
  rw [hc, Except.ok.injEq] at hc'
  obtain ⟨rfl, hl⟩ := append_inj' hc' rfl
  cases hl
  exact h

/-- The parents of all rows are the rows that have a group. -/
theorem evalParents_all (hb : chunk.scanTable table = .ok batch)
    (h : evalParents chunk (Finset.range batch.numRows) table key = .ok rows) :
    row ∈ rows ↔ row < batch.numRows ∧ HasGroup batch key row := by
  obtain ⟨stack, hs, h⟩ := bind_eq_ok.mp h
  obtain ⟨_, -, h⟩ := bind_eq_ok.mp h
  cases h
  obtain ⟨groupColumns, addressColumn, hc, hg⟩ := exists_of_selectStack hb hs
  have hF : ∀ P : Nat → Bool, (∀ r < batch.numRows, P r = true) → ∀ g,
      row ∈ findParentsFrom P [] (sortRows (groupRows (range batch.numRows)
        (rowKey groupColumns) (fun row => addressColumn.values.getD row .null) g)) ↔
      row < batch.numRows ∧ rowKey groupColumns row = g ∧ True := by
    intro P hP g
    rw [mem_parents]
    simp only [mem_range]
    refine and_congr_right fun hr => and_congr_right fun hg => iff_of_true ?_ trivial
    exact ⟨row, hr, hg, hP row hr, Or.inl rfl⟩
  refine (mem_groups_of_all hg (hF _ fun r hr => by simp [hr])).trans
    (and_congr_right fun _ => ⟨fun h => ⟨_, _, hc, h.1⟩, ?_⟩)
  rintro ⟨_, _, hc', h⟩
  rw [hc, Except.ok.injEq] at hc'
  obtain ⟨rfl, -⟩ := append_inj' hc' rfl
  exact ⟨h, trivial⟩

end AllRows

/-! ## Tables -/

/-- A table whose rows have a group key without nulls and an address. -/
structure Tree (chunk : Chunk) (table : String) (key : List String) where
  batch : RecordBatch
  groupColumns : List Column
  addressColumn : Column
  scan : chunk.scanTable table = .ok batch
  columns : keyColumns batch key = .ok (groupColumns ++ [addressColumn])
  grouped : groupColumns ≠ []
  typed : isAddressType addressColumn.dataType = true
  keyed : ∀ row < batch.numRows, .null ∉ rowKey groupColumns row
  listed : ∀ row < batch.numRows, ∃ items : List Int,
    addressColumn.values.getD row .null = .list (items.map .int)

namespace Tree

variable {chunk : Chunk} {table inputTable outputTable : String}
  {key inputKey outputKey : List String}

def group (t : Tree chunk table key) (row : Nat) : List Value := rowKey t.groupColumns row

def value (t : Tree chunk table key) (row : Nat) : Value := t.addressColumn.values.getD row .null

def address (t : Tree chunk table key) (row : Nat) : Address := addressOf (t.value row)

/-- Rows with one address are one row. -/
def Distinct (t : Tree chunk table key) : Prop :=
  ∀ a < t.batch.numRows, ∀ b < t.batch.numRows, t.group a = t.group b →
    t.address a = t.address b → a = b

variable {t : Tree chunk table key}

theorem value_eq {row : Nat} (h : row < t.batch.numRows) :
    t.value row = .list ((t.address row).map .int) := by
  obtain ⟨_, hi⟩ := t.listed row h
  simp only [value, address, hi, addressOf, map_map]
  simp [Function.comp_def]

variable {row : Nat}

theorem splitKey_columns (t : Tree chunk table key) :
    splitKey (t.groupColumns ++ [t.addressColumn]) = .ok (t.groupColumns, t.addressColumn) := by
  simp [splitKey]

theorem selectStack_eq (t : Tree chunk table key) (input : Finset Nat) :
    selectStack chunk table key input = .ok ⟨t.addressColumn.dataType,
      (((((List.range t.batch.numRows).filter (· ∈ input)).map t.group).dedup).filter
        (.null ∉ ·)).map (groupRows (List.range t.batch.numRows) t.group t.value)⟩ := by
  have hc : checkJoinKeys t.groupColumns t.groupColumns = .ok () := by
    simp [checkJoinKeys, ensure, t.grouped, bind, Except.bind]
  simp only [selectStack, t.scan, t.columns, t.splitKey_columns, hc, bind, Except.bind]
  rfl

variable {input : Finset Nat}

/-- The groups that are looked at are those of the selected rows. -/
theorem selectStack_runs (hin : ∀ r ∈ input, r < t.batch.numRows) {F : List StackRow → List Nat}
    {Q : Nat → Prop} (hF : ∀ row g, row ∈ F (sortRows (groupRows (List.range t.batch.numRows)
      t.group t.value g)) ↔ row < t.batch.numRows ∧ t.group row = g ∧ Q row)
    (hQ : ∀ row, Q row → ∃ p ∈ input, t.group p = t.group row) :
    ∃ rows, (do
      let stack ← selectStack chunk table key input
      ensure (isAddressType stack.addressType) (.text "invalid address type")
      return stack.groups.flatMap fun group => F (sortRows group)) = .ok rows ∧
      ∀ row, row ∈ rows ↔ row < t.batch.numRows ∧ Q row := by
  rw [t.selectStack_eq]
  refine ⟨_, by simp only [bind, Except.bind, t.typed, ensure_of_true]; rfl, fun row => ?_⟩
  simp only [mem_flatMap, mem_map, exists_exists_and_eq_and, hF]
  constructor
  · rintro ⟨_, -, hr, -, h⟩
    exact ⟨hr, h⟩
  · rintro ⟨hr, h⟩
    obtain ⟨p, hp, heq⟩ := hQ row h
    refine ⟨t.group row, mem_filter.mpr ⟨mem_dedup.mpr (mem_map.mpr ⟨p, ?_, heq⟩), ?_⟩, hr, rfl, h⟩
    · simp [hp, hin p hp]
    · exact decide_eq_true (t.keyed row hr)

/-- `Children` selects the rows properly below a selected row. -/
theorem eval_children (hd : t.Distinct) (hin : ∀ r ∈ input, r < t.batch.numRows) :
    ∃ rows, (Rel.children table key).eval chunk input = .ok rows ∧ ∀ row, row ∈ rows ↔
      row < t.batch.numRows ∧ ∃ p ∈ input, t.group p = t.group row ∧
        t.address p <+: t.address row ∧ t.address p ≠ t.address row := by
  refine selectStack_runs hin (fun row g => ?_) fun row ⟨p, hp, hg, _⟩ => ⟨p, hp, hg⟩
  rw [mem_children fun a ha b hb hg heq => ?_]
  · simp only [Bool.false_eq_true, false_and, false_or, mem_range, decide_eq_true_eq,
      isParentAddress_iff]
    refine and_congr_right fun _ => and_congr_right fun hg => ?_
    constructor
    · rintro ⟨p, -, hgp, hp, h⟩
      exact ⟨p, hp, hgp.trans hg.symm, h⟩
    · rintro ⟨p, hp, hgp, h⟩
      exact ⟨p, hin p hp, hgp.trans hg, hp, h⟩
  · rw [hd a (mem_range.mp ha) b (mem_range.mp hb) hg heq]

/-- `Parents` selects the selected rows and those above them. -/
theorem eval_parents (hd : t.Distinct) (hin : ∀ r ∈ input, r < t.batch.numRows) :
    ∃ rows, (Rel.parents table key).eval chunk input = .ok rows ∧ ∀ row, row ∈ rows ↔
      row < t.batch.numRows ∧ ∃ p ∈ input, t.group p = t.group row ∧
        t.address row <+: t.address p := by
  refine selectStack_runs hin (fun row g => ?_) fun row ⟨p, hp, hg, _⟩ => ⟨p, hp, hg⟩
  rw [mem_parents]
  simp only [mem_range, decide_eq_true_eq]
  refine and_congr_right fun hr => and_congr_right fun hg => ?_
  constructor
  · rintro ⟨q, -, hgq, hq, rfl | ⟨h, -⟩⟩
    · exact ⟨row, hq, rfl, prefix_rfl⟩
    · exact ⟨q, hq, hgq.trans hg.symm, (isParentAddress_iff.mp h).1⟩
  · rintro ⟨p, hp, hgp, h⟩
    refine ⟨p, hin p hp, hgp.trans hg, hp, ?_⟩
    by_cases heq : t.address row = t.address p
    · exact Or.inl (hd row hr p (hin p hp) hgp.symm heq)
    · refine Or.inr ⟨isParentAddress_iff.mpr ⟨h, heq⟩, ?_⟩
      refine lastAt_of_alone nodup_range (mem_range.mpr hr) hg fun r hr' hgr heq => ?_
      exact hd r (mem_range.mp hr') row hr (hgr.trans hg.symm) heq

/-! ## Relations between tables -/

section Foreign

variable (i : Tree chunk inputTable inputKey) (o : Tree chunk outputTable outputKey)
  (selected : Finset Nat)

/-- A row of the output table that has the address of a selected row. -/
def Hit (row : Nat) : Prop :=
  ∃ p ∈ selected, i.group p = o.group row ∧ i.address p = o.address row

/-- Rows of the output table at or below a selected row. -/
def Below (row : Nat) : Prop :=
  row < o.batch.numRows ∧ ∃ p ∈ selected, i.group p = o.group row ∧ i.address p <+: o.address row

/-- Rows of the output table at or above a selected row. -/
def Above (row : Nat) : Prop :=
  row < o.batch.numRows ∧ ∃ p ∈ selected, i.group p = o.group row ∧ o.address row <+: i.address p

/-- The key columns of the two tables have the same types. -/
def SameTypes : Prop :=
  (i.groupColumns ++ [i.addressColumn]).map (·.dataType) =
    (o.groupColumns ++ [o.addressColumn]).map (·.dataType)

variable {i o selected}

theorem Hit.congr {q : Nat} (h : Hit i o selected q) (hg : o.group q = o.group row)
    (ha : o.address q = o.address row) : Hit i o selected row := by
  obtain ⟨p, hp, hgp, heq⟩ := h
  exact ⟨p, hp, hgp.trans hg, heq.trans ha⟩

variable (i o selected)

/-- The output rows that are looked at. -/
def foreignItems : List Nat :=
  semiJoin (List.range o.batch.numRows) o.group
    (((List.range i.batch.numRows).filter (· ∈ selected)).map i.group)

def foreignHits : List Nat :=
  semiJoin (foreignItems i o selected) (rowKey (o.groupColumns ++ [o.addressColumn]))
    (((List.range i.batch.numRows).filter (· ∈ selected)).map
      (rowKey (i.groupColumns ++ [i.addressColumn])))

variable {i o selected}

variable (ht : SameTypes i o) (hin : ∀ r ∈ selected, r < i.batch.numRows)

include hin

theorem mem_foreignItems : row ∈ foreignItems i o selected ↔
    row < o.batch.numRows ∧ ∃ p ∈ selected, i.group p = o.group row := by
  simp only [foreignItems, mem_semiJoin, mem_map, mem_filter, mem_range, decide_eq_true_eq]
  constructor
  · rintro ⟨hr, -, p, ⟨-, hp⟩, h⟩
    exact ⟨hr, p, hp, h⟩
  · rintro ⟨hr, p, hp, h⟩
    exact ⟨hr, o.keyed row hr, p, ⟨hin p hp, hp⟩, h⟩

omit hin in
theorem nodup_foreignItems : (foreignItems i o selected).Nodup := nodup_range.filter _

omit hin in
theorem rowKey_eq (t : Tree chunk table key) (row : Nat) :
    rowKey (t.groupColumns ++ [t.addressColumn]) row = t.group row ++ [t.value row] := by
  simp [rowKey, group, value]

theorem mem_foreignHits (hr : row ∈ foreignItems i o selected) :
    row ∈ foreignHits i o selected ↔ Hit i o selected row := by
  have hlt := ((mem_foreignItems hin).mp hr).1
  have hk : ∀ p ∈ selected, (i.group p ++ [i.value p] = o.group row ++ [o.value row] ↔
      i.group p = o.group row ∧ i.address p = o.address row) := by
    intro p hp
    rw [append_singleton_inj, value_eq (hin p hp), value_eq hlt, Value.list.injEq,
      map_inj_right fun _ _ => Value.int.inj]
  have hn : .null ∉ o.group row ++ [o.value row] := by
    simp [value_eq hlt, o.keyed row hlt, group]
  simp only [foreignHits, mem_semiJoin, rowKey_eq, mem_map, mem_filter, mem_range,
    decide_eq_true_eq]
  constructor
  · rintro ⟨-, -, p, ⟨-, hp⟩, h⟩
    exact ⟨p, hp, (hk p hp).mp h⟩
  · rintro ⟨p, hp, h⟩
    exact ⟨hr, hn, p, ⟨hin p hp, hp⟩, (hk p hp).mpr h⟩

include ht

theorem selectForeignStack_eq :
    selectForeignStack chunk selected inputTable inputKey outputTable outputKey =
      .ok (⟨o.addressColumn.dataType, ((foreignItems i o selected).map o.group).dedup.map
        (groupRows (foreignItems i o selected) o.group o.value)⟩, foreignHits i o selected) := by
  have hlen : i.groupColumns.length = o.groupColumns.length := by simpa using congrArg length ht
  obtain ⟨hg, ha⟩ : i.groupColumns.map (·.dataType) = o.groupColumns.map (·.dataType) ∧
      i.addressColumn.dataType = o.addressColumn.dataType := by
    simpa [SameTypes, append_singleton_inj] using ht
  have hk : outputKey.length = (i.groupColumns ++ [i.addressColumn]).length := by
    rw [(mapM_eq_ok.mp o.columns).length_eq]
    simp [hlen]
  have hr : selectRows i.batch selected = .ok ((range i.batch.numRows).filter (· ∈ selected)) := by
    rw [selectRows, ensure_of_true (by simpa using hin)]
    rfl
  have hc : checkJoinKeys o.groupColumns i.groupColumns = .ok () := by
    simp [checkJoinKeys, ensure, o.grouped, hlen, hg, bind, Except.bind]
  have hc' : checkJoinKeys (i.groupColumns ++ [i.addressColumn])
      (o.groupColumns ++ [o.addressColumn]) = .ok () := by
    simp [checkJoinKeys, ensure, hlen, hg, ha, bind, Except.bind]
  simp only [selectForeignStack, i.scan, i.columns, o.scan, o.columns, o.splitKey_columns, hr,
    hk, take_length, dropLast_concat, hc, hc', bind, Except.bind, le_refl, decide_true,
    ensure_of_true]
  rfl

/-- Both relations go over the groups of the selected rows. -/
theorem selectForeignStack_runs (F : (Nat → Bool) → List StackRow → List Nat) {Q : Nat → Prop}
    (hF : ∀ row g, row ∈ F (· ∈ foreignHits i o selected) (sortRows (groupRows
      (foreignItems i o selected) o.group o.value g)) ↔
        row ∈ foreignItems i o selected ∧ o.group row = g ∧ Q row) :
    ∃ rows, (do
      let (stack, hi) ←
        selectForeignStack chunk selected inputTable inputKey outputTable outputKey
      ensure (isAddressType stack.addressType) (.text "invalid address type")
      return stack.groups.flatMap fun group => F (· ∈ hi) (sortRows group)) = .ok rows ∧
      ∀ row, row ∈ rows ↔ row ∈ foreignItems i o selected ∧ Q row := by
  rw [selectForeignStack_eq ht hin]
  refine ⟨_, by simp only [bind, Except.bind, o.typed, ensure_of_true]; rfl, fun row => ?_⟩
  simp only [mem_flatMap, mem_map, mem_dedup, exists_exists_and_eq_and, hF]
  constructor
  · rintro ⟨_, -, hr, -, h⟩
    exact ⟨hr, h⟩
  · rintro ⟨hr, h⟩
    exact ⟨row, hr, hr, rfl, h⟩

variable (i o selected)

/-- Below each selected row with rows of the output table there is a row that has the address of a
selected one. -/
def ReachesDown : Prop :=
  ∀ row, Below i o selected row → ∃ q < o.batch.numRows, o.group q = o.group row ∧
    Hit i o selected q ∧ o.address q <+: o.address row

/-- A row above a selected one has the address of a selected row, or it is above such a row and has
an address of its own. -/
def ReachesUp : Prop :=
  ∀ row, Above i o selected row → Hit i o selected row ∨
    (∃ q < o.batch.numRows, o.group q = o.group row ∧ Hit i o selected q ∧
      o.address row <+: o.address q) ∧
    ∀ r < o.batch.numRows, o.group r = o.group row → o.address r = o.address row → r = row

variable {i o selected}

omit ht hin in
theorem Below.of_hit {q : Nat} (hr : row < o.batch.numRows) (hg : o.group q = o.group row)
    (h : Hit i o selected q) (ha : o.address q <+: o.address row) : Below i o selected row := by
  obtain ⟨p, hp, hgp, heq⟩ := h
  exact ⟨hr, p, hp, hgp.trans hg, heq ▸ ha⟩

omit ht hin in
theorem Above.of_hit {q : Nat} (hr : row < o.batch.numRows) (hg : o.group q = o.group row)
    (h : Hit i o selected q) (ha : o.address row <+: o.address q) : Above i o selected row := by
  obtain ⟨p, hp, hgp, heq⟩ := h
  exact ⟨hr, p, hp, hgp.trans hg, heq ▸ ha⟩

theorem eval_foreignChildren :
    ∃ rows, (Rel.foreignChildren inputTable inputKey outputTable outputKey).eval chunk selected =
        .ok rows ∧
      ((∀ row, row ∈ rows ↔ Below i o selected row) ↔ ReachesDown i o selected) := by
  have hF : ∀ row g, row ∈ findChildrenFrom (· ∈ foreignHits i o selected) true none (sortRows
      (groupRows (foreignItems i o selected) o.group o.value g)) ↔
      row ∈ foreignItems i o selected ∧ o.group row = g ∧ ∃ q < o.batch.numRows,
        o.group q = o.group row ∧ Hit i o selected q ∧ o.address q <+: o.address row := by
    intro row g
    rw [mem_children fun a ha b hb hg heq => ?_]
    · refine and_congr_right fun hr => and_congr_right fun hg => ?_
      simp only [decide_eq_true_eq, true_and, mem_foreignHits hin hr]
      constructor
      · rintro (h | ⟨q, hq, hgq, hm, h⟩)
        · exact ⟨row, ((mem_foreignItems hin).mp hr).1, rfl, h, prefix_rfl⟩
        · exact ⟨q, ((mem_foreignItems hin).mp hq).1, hgq.trans hg.symm,
            (mem_foreignHits hin hq).mp hm, (isParentAddress_iff.mp h).1⟩
      · rintro ⟨q, hq, hgq, hit, h⟩
        by_cases heq : o.address q = o.address row
        · exact Or.inl (hit.congr hgq heq)
        · obtain ⟨p, hp, hgp, -⟩ := id hit
          have hmm := (mem_foreignItems hin).mpr ⟨hq, p, hp, hgp⟩
          exact Or.inr ⟨q, hmm, hgq.trans hg, (mem_foreignHits hin hmm).mpr hit,
            isParentAddress_iff.mpr ⟨h, heq⟩⟩
    · rw [decide_eq_decide, mem_foreignHits hin ha, mem_foreignHits hin hb]
      exact ⟨fun h => h.congr hg heq, fun h => h.congr hg.symm heq.symm⟩
  obtain ⟨rows, hrn, hrw⟩ := selectForeignStack_runs ht hin (findChildrenFrom · true none) hF
  refine ⟨rows, hrn, ?_⟩
  constructor
  · intro h row hb
    exact ((hrw row).mp ((h row).mpr hb)).2
  · intro hd row
    rw [hrw row]
    constructor
    · rintro ⟨hr, _, -, hg, hit, ha⟩
      exact .of_hit ((mem_foreignItems hin).mp hr).1 hg hit ha
    · intro hb
      obtain ⟨hr, p, hp, hg, -⟩ := id hb
      exact ⟨(mem_foreignItems hin).mpr ⟨hr, p, hp, hg⟩, hd row hb⟩

theorem eval_foreignParents :
    ∃ rows, (Rel.foreignParents inputTable inputKey outputTable outputKey).eval chunk selected =
        .ok rows ∧
      ((∀ row, row ∈ rows ↔ Above i o selected row) ↔ ReachesUp i o selected) := by
  have hF : ∀ row g, row ∈ findParentsFrom (· ∈ foreignHits i o selected) [] (sortRows
      (groupRows (foreignItems i o selected) o.group o.value g)) ↔
      row ∈ foreignItems i o selected ∧ o.group row = g ∧ (Hit i o selected row ∨
        (∃ q < o.batch.numRows, o.group q = o.group row ∧ Hit i o selected q ∧
          isParentAddress (o.address row) (o.address q) = true) ∧
        LastAt (sortRows (groupRows (foreignItems i o selected) o.group o.value (o.group row)))
          ⟨o.address row, row⟩) := by
    intro row g
    rw [mem_parents]
    refine and_congr_right fun hr => and_congr_right fun hg => ?_
    subst hg
    simp only [decide_eq_true_eq]
    constructor
    · rintro ⟨q, hq, hgq, hm, rfl | ⟨h, hlast⟩⟩
      · exact Or.inl ((mem_foreignHits hin hq).mp hm)
      · exact Or.inr ⟨⟨q, ((mem_foreignItems hin).mp hq).1, hgq, (mem_foreignHits hin hq).mp hm, h⟩,
          hlast⟩
    · rintro (hit | ⟨⟨q, hq, hgq, hit, h⟩, hlast⟩)
      · exact ⟨row, hr, rfl, (mem_foreignHits hin hr).mpr hit, Or.inl rfl⟩
      · obtain ⟨p, hp, hgp, -⟩ := id hit
        have hmm := (mem_foreignItems hin).mpr ⟨hq, p, hp, hgp⟩
        exact ⟨q, hmm, hgq, (mem_foreignHits hin hmm).mpr hit, Or.inr ⟨h, hlast⟩⟩
  obtain ⟨rows, hrn, hrw⟩ := selectForeignStack_runs ht hin (findParentsFrom · []) hF
  refine ⟨rows, hrn, ?_⟩
  constructor
  · intro hex row hab
    rcases ((hrw row).mp ((hex row).mpr hab)).2 with hit | ⟨⟨q, hq, hg, hit, h⟩, hlast⟩
    · exact Or.inl hit
    by_cases hit' : Hit i o selected row
    · exact Or.inl hit'
    refine Or.inr ⟨⟨q, hq, hg, hit, (isParentAddress_iff.mp h).1⟩, fun r hr hgr heq => ?_⟩
    -- a row beside it is above the selected row as well, and the pass keeps only one of them
    have har : Above i o selected r := .of_hit hr (hg.trans hgr.symm) hit
      (heq ▸ (isParentAddress_iff.mp h).1)
    rcases ((hrw r).mp ((hex r).mpr har)).2 with hi | ⟨-, hl⟩
    · exact absurd (hi.congr hgr heq) hit'
    · rw [hgr] at hl
      exact (StackRow.mk.inj (hl.eq hlast heq)).2
  · intro hup row
    rw [hrw row]
    constructor
    · rintro ⟨hr, hit | ⟨⟨q, -, hg, hit, h⟩, -⟩⟩
      · exact .of_hit ((mem_foreignItems hin).mp hr).1 rfl hit prefix_rfl
      · exact .of_hit ((mem_foreignItems hin).mp hr).1 hg hit (isParentAddress_iff.mp h).1
    · intro hab
      obtain ⟨hr, p, hp, hgp, -⟩ := id hab
      have hmm := (mem_foreignItems hin).mpr ⟨hr, p, hp, hgp⟩
      refine ⟨hmm, ?_⟩
      by_cases hit' : Hit i o selected row
      · exact Or.inl hit'
      rcases hup row hab with hit | ⟨⟨q, hq, hg, hit, h⟩, ha⟩
      · exact Or.inl hit
      refine Or.inr ⟨⟨q, hq, hg, hit, isParentAddress_iff.mpr ⟨h, fun heq => ?_⟩⟩, ?_⟩
      · exact hit' (hit.congr hg heq.symm)
      · refine lastAt_of_alone nodup_foreignItems hmm rfl fun r hr' hgr heq => ?_
        exact ha r ((mem_foreignItems hin).mp hr').1 hgr heq

end Foreign

/-- In one table the rows above and below the selected ones are found. Between two tables the
selected rows are first taken to the output rows with their addresses, and only what is above and
below those is found. -/
theorem trace_relations_are_exact_iff (t : Tree chunk table key) (hd : t.Distinct)
    (input : Finset Nat) (hin : ∀ r ∈ input, r < t.batch.numRows)
    (i : Tree chunk inputTable inputKey) (o : Tree chunk outputTable outputKey)
    (ht : SameTypes i o) (selected : Finset Nat) (hs : ∀ r ∈ selected, r < i.batch.numRows) :
    (∃ rows, (Rel.children table key).eval chunk input = .ok rows ∧ ∀ row, row ∈ rows ↔
      row < t.batch.numRows ∧ ∃ p ∈ input, t.group p = t.group row ∧
        t.address p <+: t.address row ∧ t.address p ≠ t.address row) ∧
    (∃ rows, (Rel.parents table key).eval chunk input = .ok rows ∧ ∀ row, row ∈ rows ↔
      row < t.batch.numRows ∧ ∃ p ∈ input, t.group p = t.group row ∧
        t.address row <+: t.address p) ∧
    (∃ rows, (Rel.foreignChildren inputTable inputKey outputTable outputKey).eval chunk selected =
        .ok rows ∧
      ((∀ row, row ∈ rows ↔ Below i o selected row) ↔ ReachesDown i o selected)) ∧
    ∃ rows, (Rel.foreignParents inputTable inputKey outputTable outputKey).eval chunk selected =
        .ok rows ∧
      ((∀ row, row ∈ rows ↔ Above i o selected row) ↔ ReachesUp i o selected) :=
  ⟨eval_children hd hin, eval_parents hd hin, eval_foreignChildren ht hs, eval_foreignParents ht hs⟩

section Sample

/-- Rows of one block. -/
def sampleRows (addresses : List Address) : RecordBatch where
  columns := [⟨⟨.int ⟨false, .w64⟩, addresses.map fun _ => .int 1⟩, "block"⟩,
    ⟨⟨.list (.int ⟨false, .w32⟩), addresses.map fun a => .list (a.map .int)⟩, "address"⟩]
  numRows := addresses.length
  lengths := by simp

def sampleCalls (calls events : List Address) : Chunk :=
  ⟨fun name => .ok (sampleRows (if name = "calls" then calls else events))⟩

def sampleTree (calls events : List Address) (table : String) :
    Tree (sampleCalls calls events) table ["block", "address"] where
  batch := sampleRows (if table = "calls" then calls else events)
  groupColumns := [⟨⟨.int ⟨false, .w64⟩,
    (if table = "calls" then calls else events).map fun _ => .int 1⟩, "block"⟩]
  addressColumn := ⟨⟨.list (.int ⟨false, .w32⟩),
    (if table = "calls" then calls else events).map fun a => .list (a.map .int)⟩, "address"⟩
  scan := rfl
  columns := rfl
  grouped := by simp
  typed := rfl
  keyed row hr := by
    simp only [sampleRows] at hr
    simp [rowKey, getD_eq_getElem?_getD, hr]
  listed row hr := by
    simp only [sampleRows] at hr
    exact ⟨_, by simp [getD_eq_getElem?_getD, getElem?_eq_getElem hr]; rfl⟩

/-- The events of a call and of the call below it. -/
theorem events_of_a_call_are_found :
    ∃ rows, (Rel.foreignChildren "calls" ["block", "address"] "events" ["block", "address"]).eval
        (sampleCalls [[0], [0, 0]] [[0, 0], [0]]) {0} = .ok rows ∧
      ∀ row, row ∈ rows ↔ Below (sampleTree [[0], [0, 0]] [[0, 0], [0]] "calls")
        (sampleTree [[0], [0, 0]] [[0, 0], [0]] "events") {0} row := by
  obtain ⟨-, -, ⟨rows, hr, h⟩, -⟩ :=
    trace_relations_are_exact_iff (sampleTree [[0], [0, 0]] [[0, 0], [0]] "calls")
      (by unfold Distinct; decide) {0} (by decide) (sampleTree [[0], [0, 0]] [[0, 0], [0]] "calls")
      (sampleTree [[0], [0, 0]] [[0, 0], [0]] "events") rfl {0} (by decide)
  refine ⟨rows, hr, h.mpr fun row hb => ⟨1, by decide, ?_, ⟨0, by decide, rfl, rfl⟩, ?_⟩⟩
  · match row, hb.1 with
    | 0, _ | 1, _ => rfl
  · match row, hb.1 with
    | 0, _ | 1, _ => decide

/-- A call without events of its own does not reach the events of the call below it, and of two
events of a call above the selected one only one is found. -/
theorem events_below_a_silent_call_are_missed :
    ((Rel.foreignChildren "calls" ["block", "address"] "events" ["block", "address"]).eval
        (sampleCalls [[0], [0, 0]] [[0, 0]]) {0} = .ok [] ∧
      Below (sampleTree [[0], [0, 0]] [[0, 0]] "calls") (sampleTree [[0], [0, 0]] [[0, 0]] "events")
        {0} 0) ∧
    (Rel.foreignParents "calls" ["block", "address"] "events" ["block", "address"]).eval
        (sampleCalls [[0], [0, 0]] [[0], [0], [0, 0]]) {1} = .ok [2, 1] ∧
      Above (sampleTree [[0], [0, 0]] [[0], [0], [0, 0]] "calls")
        (sampleTree [[0], [0, 0]] [[0], [0], [0, 0]] "events") {1} 0 := by
  refine ⟨⟨rfl, ?_⟩, rfl, ?_⟩
  · exact ⟨by decide, 0, by decide, rfl, by decide⟩
  · exact ⟨by decide, 1, by decide, rfl, by decide⟩

end Sample

end Tree

end Query
