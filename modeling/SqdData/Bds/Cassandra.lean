import SqdData.Bds.Chain
import SqdData.Wrapping

/-!
# The block table

The table keeps every block that was saved, with competing blocks of one height side by side. Its
rows are spread over partitions of `partition_size` numbers, and a listing reads one part of a
partition after the other. Numbers are stored with a sign: those in the upper half of the block
numbers are negative, come before all others and are refused when a row is read back.
-/

namespace Bds

open List

open Storage (BlockRef Hash Error mapM_eq_ok)
open Block

/-! ### The table -/

/-- A row of the table `blocks`, without the time and the data of the block. -/
structure BlockRow extends BlockHeader where
  isFinal : Bool
deriving DecidableEq, Repr

instance : Block BlockRow where
  number := fun row => row.number
  hash := fun row => row.hash
  parentNumber := fun row => row.parentNumber
  parentHash := fun row => row.parentHash

/-- The rows in any order, in which those of one number are listed downwards. Number and hash are
the key. -/
structure BlockTable where
  rows : List BlockRow
  keys : (rows.map ptr).Nodup
  bounded : ∀ row ∈ rows, row.number < 2 ^ 64 ∧ row.parentNumber < 2 ^ 64
deriving DecidableEq

def getPartition (partitionSize blockNumber : Nat) : Nat :=
  blockNumber / partitionSize * partitionSize

/-- The iterator of `split_into_partitions` over `start..stop`. -/
def splitLoop (reverse : Bool) (partitionSize : Nat) : Nat → Nat → Nat → List (Nat × Nat)
  | 0, _, _ => []
  | fuel + 1, start, stop =>
    if start < stop then
      if reverse then
        let first := max start (getPartition partitionSize (stop - 1))
        (first, stop - 1) :: splitLoop reverse partitionSize fuel start first
      else
        let next := (getPartition partitionSize start + partitionSize) % 2 ^ 64
        (start, Wrapping.sub 64 next 1) :: splitLoop reverse partitionSize fuel next stop
    else []

def splitIntoPartitions (reverse : Bool) (partitionSize firstBlock lastBlock : Nat) :
    List (Nat × Nat) :=
  splitLoop reverse partitionSize (lastBlock + 1 - firstBlock) firstBlock
    (Wrapping.succ 64 lastBlock)

/-- `as i64`. -/
def asI64 (blockNumber : Nat) : Int := Wrapping.signed 64 blockNumber

/-- The rows that a statement selects of a part of one partition, in descending order. -/
def BlockTable.select (t : BlockTable) (partitionSize : Nat) (range : Nat × Nat) : List BlockRow :=
  (t.rows.filter fun row =>
    asI64 (getPartition partitionSize row.number) = asI64 (getPartition partitionSize range.1) ∧
      asI64 range.1 ≤ asI64 row.number ∧ asI64 row.number ≤ asI64 range.2).insertionSort
    fun a b => asI64 b.number ≤ asI64 a.number

/-- The types rows are read as: `BlockHeader` or `Block`. -/
inductive RowType where
  | header
  | block
deriving DecidableEq, Repr

/-- The columns that the statements for the type select. -/
def RowType.columns : RowType → Nat
  | .header => 6
  | .block => 7

/-- The length of the tuple. A block is a pair of the tuple of its header and its data. -/
def RowType.arity : RowType → Nat
  | .header => 6
  | .block => 2

/-- `convert`, for the columns of the header. -/
def convert (row : BlockRow) : Except Error BlockRow :=
  if asI64 row.number < 0 then .error (.text "got negative block number")
  else if asI64 row.parentNumber < 0 then .error (.text "got negative parent block number")
  else .ok row

/-- `RowBatch::new`. The driver refuses a tuple that is not as long as there are columns. -/
def rowBatch (type : RowType) (rows : List BlockRow) : Except Error (List BlockRow) :=
  if type.arity = type.columns then rows.mapM convert
  else .error (.text "wrong column count in the type of the rows")

def BlockTable.page (t : BlockTable) (partitionSize : Nat) (range : Nat × Nat) :
    Except Error (List BlockRow) :=
  rowBatch .header (t.select partitionSize range)

inductive Statement where
  | finalize (partition number : Nat) (hash : Hash)
  | delete (partition number : Nat) (hash : Hash)
deriving DecidableEq, Repr

def Statement.act (partitionSize : Nat) (row : BlockRow) : Statement → Option BlockRow
  | .finalize partition blockNumber blockHash =>
    if getPartition partitionSize row.number = partition ∧ row.number = blockNumber ∧
      row.hash = blockHash
    then some { row with isFinal := true }
    else some row
  | .delete partition blockNumber blockHash =>
    if getPartition partitionSize row.number = partition ∧ row.number = blockNumber ∧
      row.hash = blockHash
    then none
    else some row

def actAll (partitionSize : Nat) (batch : List Statement) (row : BlockRow) : Option BlockRow :=
  batch.foldlM (Statement.act partitionSize) row

variable {size first start stop : Nat} {row row' : BlockRow} {expected : BlockRef}
  {range : Nat × Nat} {ranges : List (Nat × Nat)} {t : BlockTable}

/-- A statement changes the mark of a row only. -/
theorem Statement.act_header {statement : Statement}
    (h : statement.act size row = some row') : row'.toBlockHeader = row.toBlockHeader := by
  cases statement with
  | finalize =>
    dsimp only [Statement.act] at h
    split at h
    all_goals
      cases h
      rfl
  | delete =>
    dsimp only [Statement.act] at h
    split at h
    · cases h
    · cases h
      rfl

theorem actAll_header {batch : List Statement}
    (h : actAll size batch row = some row') : row'.toBlockHeader = row.toBlockHeader := by
  induction batch generalizing row with
  | nil =>
    cases h
    rfl
  | cons _ _ ih =>
    obtain ⟨_, hn, hr⟩ := Option.bind_eq_some_iff.mp h
    exact (ih hr).trans (Statement.act_header hn)

theorem ptr_eq_of_header (h : row'.toBlockHeader = row.toBlockHeader) : ptr row' = ptr row :=
  congrArg (fun header : BlockHeader => (⟨header.number, header.hash⟩ : BlockRef)) h

theorem map_filterMap_sublist {α β : Type} {f : α → Option α} {g : α → β}
    (h : ∀ a b, f a = some b → g b = g a) (l : List α) :
    ((l.filterMap f).map g).Sublist (l.map g) := by
  induction l with
  | nil => exact .slnil
  | cons a _ ih =>
    cases hf : f a with
    | none =>
      rw [filterMap_cons_none hf]
      exact ih.cons _
    | some b =>
      rw [filterMap_cons_some hf, map_cons, map_cons, h a b hf]
      exact ih.cons_cons _

/-- Every statement acts on single rows, so a batch does. -/
def BlockTable.execute (t : BlockTable) (partitionSize : Nat) (batch : List Statement) :
    BlockTable where
  rows := t.rows.filterMap (actAll partitionSize batch)
  keys := t.keys.sublist
    (map_filterMap_sublist (fun _ _ h => ptr_eq_of_header (actAll_header h)) t.rows)
  bounded := by
    intro row hr
    obtain ⟨old, hold, ha⟩ := mem_filterMap.mp hr
    have hb := t.bounded old hold
    have hh := actAll_header ha
    rwa [← hh] at hb

/-! ### The call -/

/-- The loop over the rows of a page, with the block that is expected next. -/
def checkRows (partition : Nat) : BlockRef → List BlockRow → BlockRef × List Statement
  | expected, [] => (expected, [])
  | expected, row :: rows =>
    if ptr row = expected then
      let (last, batch) := checkRows partition (parentPtr row) rows
      (last, .finalize partition row.number row.hash :: batch)
    else
      let (last, batch) := checkRows partition expected rows
      (last, .delete partition row.number row.hash :: batch)

/-- The fold over the partitions. Batches that were executed before an error stay. -/
def finalizeLoop (partitionSize top : Nat) :
    List (Nat × Nat) → BlockRef → BlockTable → BlockTable × Except Error Unit
  | [], _, t => (t, .ok ())
  | range :: ranges, expected, t =>
    match t.page partitionSize range with
    | .error error => (t, .error error)
    | .ok rows =>
      let partition := getPartition partitionSize range.1
      let (expected, batch) := checkRows partition expected rows
      if partition ≤ expected.number ∧ top ≤ expected.number then
        (t, .error (.text s!"block {display expected} is missing"))
      else finalizeLoop partitionSize top ranges expected (t.execute partitionSize batch)

def BlockTable.finalize (t : BlockTable) (partitionSize first : Nat) (toBlock : BlockRef) :
    BlockTable × Except Error Unit :=
  finalizeLoop partitionSize toBlock.number
    (splitIntoPartitions true partitionSize first toBlock.number) toBlock t

/-! ### Rows that are read -/

/-- Both numbers of a row are in the lower half. -/
def BlockRow.Fits (row : BlockRow) : Prop := row.number < 2 ^ 63 ∧ row.parentNumber < 2 ^ 63

theorem convert_eq_ok (hb : row.number < 2 ^ 64 ∧ row.parentNumber < 2 ^ 64) :
    convert row = .ok row' ↔ row' = row ∧ row.Fits := by
  have hn : asI64 row.number < 0 ↔ 2 ^ 64 ≤ 2 * row.number := Wrapping.signed_neg_iff hb.1
  have hp : asI64 row.parentNumber < 0 ↔ 2 ^ 64 ≤ 2 * row.parentNumber :=
    Wrapping.signed_neg_iff hb.2
  unfold convert BlockRow.Fits
  by_cases hneg : asI64 row.number < 0
  · rw [if_pos hneg]
    simp only [reduceCtorEq, false_iff]
    omega
  · rw [if_neg hneg]
    by_cases hneg' : asI64 row.parentNumber < 0
    · rw [if_pos hneg']
      simp only [reduceCtorEq, false_iff]
      omega
    · rw [if_neg hneg', Except.ok.injEq, eq_comm, iff_self_and]
      omega

/-- Calls that return what they are given, if they succeed. -/
theorem mapM_check_eq_ok {α ε : Type} {f : α → Except ε α} {P : α → Prop} {l m : List α}
    (h : ∀ a ∈ l, ∀ b, f a = .ok b ↔ b = a ∧ P a) :
    l.mapM f = .ok m ↔ m = l ∧ ∀ a ∈ l, P a := by
  rw [mapM_eq_ok]
  induction l generalizing m with
  | nil => simp [forall₂_nil_left_iff]
  | cons a l ih =>
    obtain ⟨ha, hl⟩ := forall_mem_cons.mp h
    rw [forall₂_cons_left_iff]
    constructor
    · rintro ⟨first, rest, hf, hr, rfl⟩
      obtain ⟨rfl, hp⟩ := (ha first).mp hf
      obtain ⟨rfl, hps⟩ := (ih hl).mp hr
      exact ⟨rfl, forall_mem_cons.mpr ⟨hp, hps⟩⟩
    · rintro ⟨rfl, hf⟩
      obtain ⟨hp, hps⟩ := forall_mem_cons.mp hf
      exact ⟨a, l, (ha a).mpr ⟨rfl, hp⟩, (ih hl).mpr ⟨rfl, hps⟩, rfl⟩

/-- Headers are read if they all fit. -/
theorem rowBatch_eq_ok {rows rows' : List BlockRow} (hs : ∀ row ∈ rows, row ∈ t.rows) :
    rowBatch .header rows = .ok rows' ↔ rows' = rows ∧ ∀ row ∈ rows, row.Fits :=
  mapM_check_eq_ok fun row hr _ => convert_eq_ok (t.bounded row (hs row hr))

theorem stored_of_mem_select (h : row ∈ t.select size range) : row ∈ t.rows :=
  (mem_filter.mp ((mem_insertionSort _).mp h)).1

/-! ### Pages -/

def InPartition (partitionSize : Nat) (range : Nat × Nat) : Prop :=
  range.1 ≤ range.2 ∧ ∀ n, range.1 ≤ n → n ≤ range.2 →
    getPartition partitionSize n = getPartition partitionSize range.1

theorem getPartition_le (n : Nat) : getPartition size n ≤ n := Nat.div_mul_le_self _ _

/-- A part that begins in the lower half and ends in the upper one selects nothing. -/
theorem mem_select (hr : InPartition size range) (hlt : range.2 < 2 ^ 64) :
    row ∈ t.select size range ↔
      row ∈ t.rows ∧ (range.1 ≤ row.number ∧ row.number ≤ range.2) ∧
        (range.1 < 2 ^ 63 → range.2 < 2 ^ 63) := by
  have hle := hr.1
  rw [BlockTable.select, mem_insertionSort, mem_filter, decide_eq_true_eq]
  refine and_congr_right fun hm => ?_
  have hn := (t.bounded row hm).1
  have hp := @getPartition_le size row.number
  have hp' := @getPartition_le size range.1
  unfold asI64
  rw [Wrapping.signed_eq_iff (by omega) (by omega), Wrapping.signed_le_iff (by omega) hn,
    Wrapping.signed_le_iff hn hlt]
  constructor
  · rintro ⟨-, hl, hh⟩
    omega
  · rintro ⟨hb, hx⟩
    exact ⟨hr.2 _ hb.1 hb.2, by omega, by omega⟩

theorem mem_select_of_lt (hr : InPartition size range) (hlt : range.2 < 2 ^ 63) :
    row ∈ t.select size range ↔ row ∈ t.rows ∧ range.1 ≤ row.number ∧ row.number ≤ range.2 := by
  rw [mem_select hr (by omega)]
  exact and_congr_right fun _ => and_iff_left fun _ => hlt

theorem select_descending (hr : InPartition size range) (hlt : range.2 < 2 ^ 64) :
    (t.select size range).Pairwise fun a b => b.number ≤ a.number := by
  have hs : (t.select size range).Pairwise fun a b => asI64 b.number ≤ asI64 a.number :=
    pairwise_insertionSort _ _
  refine hs.imp_of_mem fun {a b} ha hb hab => ?_
  obtain ⟨hat, hab', hx⟩ := (mem_select hr hlt).mp ha
  obtain ⟨hbt, hbb, -⟩ := (mem_select hr hlt).mp hb
  have := (Wrapping.signed_le_iff (t.bounded b hbt).1 (t.bounded a hat).1).mp hab
  omega

theorem select_keys (t : BlockTable) (size : Nat) (range : Nat × Nat) :
    ((t.select size range).map ptr).Nodup := by
  refine ((perm_insertionSort _ _).map ptr).nodup_iff.mpr ?_
  exact t.keys.sublist (filter_sublist.map _)

theorem filter_filterMap_eq {α : Type} {p : α → Bool} {f : α → Option α} {l : List α}
    (hp : ∀ a b, f a = some b → p b = p a) (h : ∀ a ∈ l, p a = true → f a = some a) :
    (l.filterMap f).filter p = l.filter p := by
  induction l with
  | nil => rfl
  | cons a l ih =>
    have ih := ih fun b hb => h b (mem_cons_of_mem a hb)
    by_cases hpa : p a = true
    · rw [filterMap_cons_some (h a mem_cons_self hpa), filter_cons_of_pos hpa, ih,
        filter_cons_of_pos hpa]
    · cases hf : f a with
      | none => rw [filterMap_cons_none hf, ih, filter_cons_of_neg hpa]
      | some b =>
        rw [filterMap_cons_some hf, filter_cons_of_neg (hp a b hf ▸ hpa), ih,
          filter_cons_of_neg hpa]

/-- Rows that no statement touches are selected as before. -/
theorem select_execute {batch : List Statement}
    (h : ∀ row ∈ t.select size range, actAll size batch row = some row) :
    (t.execute size batch).select size range = t.select size range := by
  unfold BlockTable.select
  refine congrArg (insertionSort _) (filter_filterMap_eq ?_ fun row hr hsel => h row ?_)
  · intro row row' ha
    have hn : row'.number = row.number := congrArg BlockHeader.number (actAll_header ha)
    rw [hn]
  · exact (mem_insertionSort _).mpr (mem_filter.mpr ⟨hr, hsel⟩)

/-! ### Ranges -/

/-- Ranges that cover `start..stop` from the top down, each inside one partition. -/
structure Cover (partitionSize start stop : Nat) (ranges : List (Nat × Nat)) : Prop where
  inside : ∀ range ∈ ranges, InPartition partitionSize range ∧ start ≤ range.1 ∧ range.2 < stop
  disjoint : ranges.Pairwise fun range range' => range'.2 < range.1
  complete : ∀ n, start ≤ n → n < stop → ∃ range ∈ ranges, range.1 ≤ n ∧ n ≤ range.2

theorem splitLoop_cover (hsz : 0 < size) {fuel : Nat} (hfl : stop - start ≤ fuel) :
    Cover size start stop (splitLoop true size fuel start stop) := by
  induction fuel generalizing stop with
  | zero => exact ⟨nofun, .nil, fun n hl hh => by omega⟩
  | succ fuel ih =>
    unfold splitLoop
    split
    · set first := max start (getPartition size (stop - 1)) with hf
      have hp : getPartition size (stop - 1) ≤ stop - 1 := Nat.div_mul_le_self _ _
      have hs : start ≤ first := le_max_left _ _
      have hst : first ≤ stop - 1 := max_le (by omega) hp
      have hrs : Cover size start first (splitLoop true size fuel start first) := ih (by omega)
      have hsm : ∀ n, first ≤ n → n ≤ stop - 1 → n / size = (stop - 1) / size := by
        intro n hl hh
        refine le_antisymm (Nat.div_le_div_right hh) ?_
        exact (Nat.le_div_iff_mul_le hsz).mpr ((le_max_right _ _).trans hl)
      have ho : InPartition size (first, stop - 1) := by
        refine ⟨hst, fun n hl hh => ?_⟩
        unfold getPartition
        rw [hsm n hl hh, hsm first le_rfl hst]
      refine ⟨?_, ?_, fun n hl hh => ?_⟩
      · intro range hr
        rcases mem_cons.mp hr with rfl | hr
        · exact ⟨ho, hs, by omega⟩
        · obtain ⟨hin, hl, hh⟩ := hrs.inside range hr
          exact ⟨hin, hl, by omega⟩
      · exact pairwise_cons.mpr ⟨fun range hr => (hrs.inside range hr).2.2, hrs.disjoint⟩
      · rcases Nat.lt_or_ge n first with hlt' | hge
        · obtain ⟨range, hr, hb⟩ := hrs.complete n hl hlt'
          exact ⟨range, mem_cons_of_mem _ hr, hb⟩
        · exact ⟨_, mem_cons_self, hge, by omega⟩
    · exact ⟨nofun, .nil, fun n hl hh => by omega⟩

theorem splitIntoPartitions_eq {last : Nat} (reverse : Bool) (h : last + 1 < 2 ^ 64) :
    splitIntoPartitions reverse size first last =
      splitLoop reverse size (last + 1 - first) first (last + 1) := by
  rw [splitIntoPartitions, Wrapping.succ_of_lt h]

theorem splitIntoPartitions_cover (hsz : 0 < size) {last : Nat} (h : last + 1 < 2 ^ 64) :
    Cover size first (last + 1) (splitIntoPartitions true size first last) := by
  rw [splitIntoPartitions_eq true h]
  exact splitLoop_cover hsz le_rfl

/-- The first range that is listed downwards ends at the top. -/
theorem splitIntoPartitions_head {last : Nat} (hf : first ≤ last) (h : last + 1 < 2 ^ 64) :
    ∃ start ranges, splitIntoPartitions true size first last = (start, last) :: ranges := by
  obtain ⟨fuel, hfl⟩ : ∃ fuel, last + 1 - first = fuel + 1 := ⟨last - first, by omega⟩
  rw [splitIntoPartitions_eq true h, hfl, splitLoop, if_pos (by omega)]
  exact ⟨_, _, rfl⟩

/-- A part of a listing of the rows from `first` on, in descending order: it holds every row below
one of its rows. -/
structure Listing (table : List BlockRow) (first : Nat) (rows : List BlockRow) : Prop where
  descending : rows.Pairwise fun a b => b.number ≤ a.number
  keys : (rows.map ptr).Nodup
  stored : ∀ row ∈ rows, row ∈ table ∧ first ≤ row.number
  closed : ∀ row ∈ rows, ∀ below ∈ table, below.number < row.number → first ≤ below.number →
    below ∈ rows

/-- What is selected of a range in the lower half. -/
theorem mem_selected (hc : Cover size start stop ranges) (hstop : stop ≤ 2 ^ 63) :
    row ∈ ranges.flatMap (t.select size) ↔
      row ∈ t.rows ∧ start ≤ row.number ∧ row.number < stop := by
  rw [mem_flatMap]
  constructor
  · rintro ⟨range, hr, hp⟩
    obtain ⟨hin, hs, hst⟩ := hc.inside range hr
    obtain ⟨hrw, hb⟩ := (mem_select_of_lt hin (by omega)).mp hp
    exact ⟨hrw, by omega, by omega⟩
  · rintro ⟨hrw, hl, hh⟩
    obtain ⟨range, hr, hb⟩ := hc.complete row.number hl hh
    obtain ⟨hin, -, hst⟩ := hc.inside range hr
    exact ⟨range, hr, (mem_select_of_lt hin (by omega)).mpr ⟨hrw, hb⟩⟩

/-- The ranges are listed one below the other, each row once. -/
theorem selected_descending (hc : Cover size start stop ranges) (hstop : stop ≤ 2 ^ 64) :
    (ranges.flatMap (t.select size)).Pairwise (fun a b => b.number ≤ a.number) ∧
      ((ranges.flatMap (t.select size)).map ptr).Nodup := by
  have hlt : ∀ range ∈ ranges, range.2 < 2 ^ 64 := fun range hr =>
    (hc.inside range hr).2.2.trans_le hstop
  have hbl : ranges.Pairwise fun range range' => ∀ a ∈ t.select size range,
      ∀ b ∈ t.select size range', b.number < a.number := by
    refine hc.disjoint.imp_of_mem fun {range range'} hr hr' hd a ha b hb => ?_
    have hl := ((mem_select (hc.inside _ hr).1 (hlt _ hr)).mp ha).2.1
    have hh := ((mem_select (hc.inside _ hr').1 (hlt _ hr')).mp hb).2.1
    omega
  constructor
  · refine pairwise_flatMap.mpr ⟨fun range hr =>
      select_descending (hc.inside _ hr).1 (hlt _ hr), ?_⟩
    exact hbl.imp fun h a ha b hb => (h a ha b hb).le
  · rw [map_flatMap]
    refine nodup_flatMap.mpr ⟨fun range _ => select_keys t size range, ?_⟩
    refine hbl.imp fun h r hr hr' => ?_
    obtain ⟨a, ha, rfl⟩ := mem_map.mp hr
    obtain ⟨b, hb, hp⟩ := mem_map.mp hr'
    have : b.number = a.number := congrArg BlockRef.number hp
    have := h a ha b hb
    omega

theorem selected_listing (hc : Cover size start stop ranges) (hstop : stop ≤ 2 ^ 63) :
    Listing t.rows start (ranges.flatMap (t.select size)) := by
  obtain ⟨hd, hk⟩ := @selected_descending size start stop ranges t hc (by omega)
  refine ⟨hd, hk, ?_, ?_⟩
  · intro row hrw
    obtain ⟨ht, hl, -⟩ := (mem_selected hc hstop).mp hrw
    exact ⟨ht, hl⟩
  · intro row hrw below hbl hlt hs
    have hst := ((mem_selected hc hstop).mp hrw).2.2
    exact (mem_selected hc hstop).mpr ⟨hbl, hs, by omega⟩

end Bds
