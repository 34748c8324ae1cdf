import SqdData.Bds.FinalChain

/-!
# Partition ranges

The blocks of a range are listed partition by partition, upwards or downwards. Downwards the range
is cut at its upper end, and every part stays inside. Upwards a part always ends with its partition,
so the last part runs past the range unless the range ends with a partition, and does not come to an
end where the partition does not.

What is read also depends on the signs of the numbers. A part that begins in the lower half of the
numbers and ends in the upper half reads nothing, and a row with a number of the upper half is
refused. Headers with their data are never read, since their type does not have as many parts as
there are columns.
-/

namespace Bds

open List
open Block
open Storage (Error mapM_eq_ok bind_eq_ok)

/-! ### Listings -/

/-- `execute_untyped_block_list`: a page for each part. -/
def BlockTable.executeUntypedBlockList (t : BlockTable) (reverse : Bool) (size first last : Nat) :
    List (List BlockRow) :=
  (splitIntoPartitions reverse size first last).map fun range =>
    if reverse then t.select size range else (t.select size range).reverse

/-- `execute_block_list`, for a whole stream. -/
def BlockTable.executeBlockList (t : BlockTable) (type : RowType) (reverse : Bool)
    (size first last : Nat) : Except Error (List BlockRow) := do
  let pages ← (t.executeUntypedBlockList reverse size first last).mapM (rowBatch type)
  return pages.flatten

def BlockTable.fetchBlocks (t : BlockTable) (size first last : Nat) :
    Except Error (List BlockRow) :=
  t.executeBlockList .block false size first last

def BlockTable.listBlocks (t : BlockTable) (size first last : Nat) : Except Error (List BlockRow) :=
  t.executeBlockList .header false size first last

def BlockTable.listBlocksInReversedOrder (t : BlockTable) (size first last : Nat) :
    Except Error (List BlockRow) :=
  t.executeBlockList .header true size first last

/-- Exactly the stored blocks of a range are read. -/
def BlockTable.Reads (t : BlockTable) (first last : Nat) (result : Except Error (List BlockRow)) :
    Prop :=
  ∃ rows, result = .ok rows ∧
    rows.Perm (t.rows.filter fun row => first ≤ row.number ∧ row.number ≤ last)

/-- Ascending and adjacent ranges, each inside one partition, that cover `first..=last`. -/
structure Exact (size first last : Nat) (ranges : List (Nat × Nat)) : Prop where
  cover : Cover size first (last + 1) ranges.reverse
  adjacent : ranges.IsChain fun a b => a.2 + 1 = b.1

/-- The iterator stops. -/
def Stops (reverse : Bool) (size first last : Nat) : Prop :=
  ∀ fuel, last + 1 - first ≤ fuel → splitLoop reverse size fuel first (Wrapping.succ 64 last) =
    splitIntoPartitions reverse size first last

variable {size : Nat}

theorem lt_getPartition_add (hs : 0 < size) (n : Nat) : n < getPartition size n + size := by
  exact Nat.lt_div_mul_add hs

theorem dvd_getPartition_add (n : Nat) : size ∣ getPartition size n + size :=
  (Dvd.intro_left _ rfl).add dvd_rfl

theorem getPartition_mono {m n : Nat} (h : m ≤ n) : getPartition size m ≤ getPartition size n :=
  Nat.mul_le_mul_right size (Nat.div_le_div_right h)

theorem getPartition_eq (hs : 0 < size) {m n : Nat} (h : getPartition size m ≤ n) (hle : n ≤ m) :
    getPartition size n = getPartition size m :=
  le_antisymm (getPartition_mono hle)
    (Nat.mul_le_mul_right size ((Nat.le_div_iff_mul_le hs).mpr h))

/-- A range that ends with a partition is cut at the start of that partition. -/
theorem getPartition_pred (hs : 0 < size) {stop : Nat} (hd : size ∣ stop) (hp : 0 < stop) :
    getPartition size (stop - 1) = stop - size := by
  obtain ⟨k, rfl⟩ := hd
  obtain ⟨k, rfl⟩ := Nat.exists_eq_succ_of_ne_zero (Nat.pos_of_mul_pos_left hp).ne'
  have hk : size * (k + 1) - 1 = size * k + (size - 1) := by
    rw [Nat.mul_succ]
    omega
  rw [getPartition, hk, Nat.mul_add_div hs, Nat.div_eq_of_lt (by omega), Nat.mul_succ,
    Nat.add_zero, Nat.mul_comm, Nat.add_sub_cancel]

theorem add_getPartition_le {start stop : Nat} (hd : size ∣ stop) (hlt : start < stop) :
    getPartition size start + size ≤ stop := by
  obtain ⟨k, rfl⟩ := hd
  have hk : start / size + 1 ≤ k := Nat.div_lt_of_lt_mul hlt
  calc getPartition size start + size = (start / size + 1) * size := (Nat.succ_mul _ _).symm
    _ ≤ k * size := Nat.mul_le_mul_right size hk
    _ = size * k := Nat.mul_comm _ _

theorem getPartition_of_lt (hs : 0 < size) {m n : Nat} (hle : m ≤ n)
    (hlt : n < getPartition size m + size) : getPartition size n = getPartition size m := by
  have := add_getPartition_le (dvd_getPartition_add m) hlt
  have := @getPartition_le size m
  exact (getPartition_eq hs (by omega) hle).symm

/-! ### Parts -/

theorem splitLoop_of_le (reverse : Bool) (fuel : Nat) {start stop : Nat} (h : stop ≤ start) :
    splitLoop reverse size fuel start stop = [] := by
  cases fuel with
  | zero => rfl
  | succ fuel => exact if_neg (by omega)

variable {fuel fuel' first last start stop n : Nat} {range : Nat × Nat}

/-- A part upwards, where its partition comes to an end. -/
theorem splitLoop_false_succ (hs : 0 < size) (hlt : start < stop)
    (hend : getPartition size start + size < 2 ^ 64) :
    splitLoop false size (fuel + 1) start stop =
      (start, getPartition size start + size - 1) ::
        splitLoop false size fuel (getPartition size start + size) stop := by
  rw [splitLoop, if_pos hlt, if_neg Bool.false_ne_true]
  simp only [Nat.mod_eq_of_lt hend]
  rw [Wrapping.sub_of_le (by omega) hend]

theorem splitLoop_true_fuel (hf : stop - start ≤ fuel) (hf' : stop - start ≤ fuel') :
    splitLoop true size fuel start stop = splitLoop true size fuel' start stop := by
  induction fuel generalizing fuel' stop with
  | zero => exact (splitLoop_of_le true fuel' (by omega)).symm
  | succ fuel ih =>
    by_cases hlt : start < stop
    · obtain ⟨fuel', rfl⟩ : ∃ f, fuel' = f + 1 := ⟨fuel' - 1, by omega⟩
      have hp := @getPartition_le size (stop - 1)
      rw [splitLoop, splitLoop, if_pos hlt, if_pos hlt]
      exact congrArg (cons _) (ih (by omega) (by omega))
    · rw [splitLoop_of_le true _ (by omega), splitLoop_of_le true _ (by omega)]

theorem splitLoop_false_fuel (hs : 0 < size) (hend : getPartition size (stop - 1) + size < 2 ^ 64)
    (hf : stop - start ≤ fuel) (hf' : stop - start ≤ fuel') :
    splitLoop false size fuel start stop = splitLoop false size fuel' start stop := by
  induction fuel generalizing fuel' start with
  | zero => exact (splitLoop_of_le false fuel' (by omega)).symm
  | succ fuel ih =>
    by_cases hlt : start < stop
    · obtain ⟨fuel', rfl⟩ : ∃ f, fuel' = f + 1 := ⟨fuel' - 1, by omega⟩
      have hn := lt_getPartition_add hs start
      have hm : getPartition size start ≤ getPartition size (stop - 1) :=
        getPartition_mono (by omega)
      rw [splitLoop_false_succ hs hlt (by omega), splitLoop_false_succ hs hlt (by omega)]
      exact congrArg (cons _) (ih (by omega) (by omega))
    · rw [splitLoop_of_le false _ (by omega), splitLoop_of_le false _ (by omega)]

/-- The lowest range of a listing downwards is the first one upwards. -/
theorem splitLoop_reverse_concat (hs : 0 < size) (hd : size ∣ stop) (hlt : start < stop)
    (hf : stop - start ≤ fuel) (hf' : stop - (getPartition size start + size) ≤ fuel') :
    splitLoop true size fuel start stop =
      splitLoop true size fuel' (getPartition size start + size) stop ++
        [(start, getPartition size start + size - 1)] := by
  induction fuel generalizing fuel' stop with
  | zero => omega
  | succ fuel ih =>
    have hle := add_getPartition_le hd hlt
    have hst := lt_getPartition_add hs start
    have hp := getPartition_pred hs hd (by omega)
    rw [splitLoop, if_pos hlt, if_pos rfl]
    rcases hle.eq_or_lt with heq | hnext
    · have hm : max start (getPartition size (stop - 1)) = start := by
        have := @getPartition_le size start
        omega
      dsimp only
      rw [hm, heq, splitLoop_of_le true _ le_rfl, splitLoop_of_le true _ le_rfl, nil_append]
    · obtain ⟨fuel', rfl⟩ : ∃ f, fuel' = f + 1 := ⟨fuel' - 1, by omega⟩
      have hd' : size ∣ stop - size := Nat.dvd_sub hd dvd_rfl
      have hle' : getPartition size start + size ≤ stop - size := by
        have := Nat.le_of_dvd (by omega) (Nat.dvd_sub hd (dvd_getPartition_add start))
        omega
      rw [splitLoop, if_pos hnext, if_pos rfl]
      dsimp only
      rw [hp, max_eq_right (by omega), max_eq_right hle', cons_append]
      exact congrArg _ (ih hd' (by omega) (by omega) (by omega))

/-- Over a range that ends with a partition both directions cut alike. -/
theorem splitLoop_reverse (hs : 0 < size) (hd : size ∣ stop) (hstop : stop < 2 ^ 64)
    (hf : stop - start ≤ fuel) (hf' : stop - start ≤ fuel') :
    splitLoop true size fuel start stop = (splitLoop false size fuel' start stop).reverse := by
  induction fuel' generalizing fuel start with
  | zero => exact splitLoop_of_le true _ (by omega)
  | succ fuel' ih =>
    by_cases hlt : start < stop
    · have hst := lt_getPartition_add hs start
      have hle := add_getPartition_le hd hlt
      have hn : stop - (getPartition size start + size) ≤ fuel' := by omega
      rw [splitLoop_reverse_concat hs hd hlt hf hn, ih hn hn,
        splitLoop_false_succ hs hlt (by omega), reverse_cons]
    · rw [splitLoop_of_le true _ (by omega), splitLoop_of_le false _ (by omega), reverse_nil]

theorem splitLoop_adjacent (fuel start stop last : Nat) :
    ((stop, last) :: splitLoop true size fuel start stop).IsChain fun a b => b.2 + 1 = a.1 := by
  induction fuel generalizing stop last with
  | zero => exact .singleton _
  | succ fuel ih =>
    by_cases hlt : start < stop
    · rw [splitLoop, if_pos hlt, if_pos rfl]
      exact .cons_cons (by dsimp only; omega) (ih _ _)
    · rw [splitLoop_of_le true _ (by omega)]
      exact .singleton _

/-- The part downwards that a number lies in. -/
theorem mem_splitLoop_true (hs : 0 < size) (h : range ∈ splitLoop true size fuel start stop)
    (hn : range.1 ≤ n ∧ n ≤ range.2) :
    range = (max start (getPartition size n), min (stop - 1) (getPartition size n + size - 1)) ∧
      n < stop := by
  induction fuel generalizing stop with
  | zero => cases h
  | succ fuel ih =>
    by_cases hlt : start < stop
    · rw [splitLoop, if_pos hlt, if_pos rfl] at h
      have hp := @getPartition_le size (stop - 1)
      have hnp := lt_getPartition_add hs (stop - 1)
      rcases mem_cons.mp h with rfl | h
      · have heq : getPartition size n = getPartition size (stop - 1) :=
          getPartition_eq hs ((le_max_right _ _).trans hn.1) hn.2
        have := hn.2
        dsimp only at this ⊢
        rw [heq, min_eq_left (by omega)]
        exact ⟨rfl, by omega⟩
      · obtain ⟨rfl, hlt'⟩ := ih h
        -- the part above begins with its partition, as there are numbers below it
        have hstart : start ≤ n := (le_max_left _ _).trans hn.1
        have hmax : max start (getPartition size (stop - 1)) = getPartition size (stop - 1) := by
          omega
        rw [hmax] at hlt' ⊢
        have hd : size ∣ getPartition size (stop - 1) := Dvd.intro_left _ rfl
        have hle := add_getPartition_le hd hlt'
        rw [min_eq_right (by omega), min_eq_right (by omega)]
        exact ⟨rfl, by omega⟩
    · rw [splitLoop_of_le true _ (by omega)] at h
      cases h

/-- Upwards every part ends with its partition, or runs past the greatest number. -/
theorem dvd_of_mem_splitLoop (hs : 0 < size) (hsize : size < 2 ^ 64) (hstop : stop ≤ 2 ^ 64)
    (h : range ∈ splitLoop false size fuel start stop) :
    size ∣ range.2 + 1 ∨ range.2 < range.1 := by
  induction fuel generalizing start with
  | zero => cases h
  | succ fuel ih =>
    unfold splitLoop at h
    split at h
    · rw [if_neg Bool.false_ne_true] at h
      rcases mem_cons.mp h with rfl | h
      · have hp := @getPartition_le size start
        have hd := @dvd_getPartition_add size start
        rcases Nat.lt_trichotomy (getPartition size start + size) (2 ^ 64) with hlt | heq | hgt
        · left
          dsimp only
          rw [Nat.mod_eq_of_lt hlt, Wrapping.sub_of_le (by omega) hlt,
            Nat.sub_add_cancel (by omega)]
          exact hd
        · left
          dsimp only
          rw [heq, Nat.mod_self, Wrapping.zero_sub Nat.one_pos (by norm_num),
            Nat.sub_add_cancel (by norm_num), ← heq]
          exact hd
        · right
          have hm : (getPartition size start + size) % 2 ^ 64 =
              getPartition size start + size - 2 ^ 64 := by omega
          dsimp only
          rw [hm, Wrapping.sub_of_le (by omega) (by omega)]
          omega
      · exact ih h
    · cases h

/-- If the last partition does not come to an end, the iterator goes on from below. -/
theorem length_splitLoop_false (hs : 0 < size) (hsize : size < 2 ^ 64)
    (hend : 2 ^ 64 ≤ getPartition size last + size) (hle : start ≤ last) :
    (splitLoop false size fuel start (last + 1)).length = fuel := by
  induction fuel generalizing start with
  | zero => rfl
  | succ fuel ih =>
    rw [splitLoop, if_pos (by omega), if_neg Bool.false_ne_true, length_cons]
    refine congrArg (· + 1) (ih ?_)
    have hp := @getPartition_le size last
    rcases Nat.lt_or_ge (getPartition size start + size) (2 ^ 64) with hlt | hge
    · have hd : size ∣ getPartition size last := Dvd.intro_left _ rfl
      rw [Nat.mod_eq_of_lt hlt]
      by_contra hgt
      have hpl : getPartition size last ≤ start := by
        by_contra hns
        have := add_getPartition_le hd (not_le.mp hns)
        omega
      rw [getPartition_eq hs hpl hle] at hlt
      omega
    · have := @getPartition_le size start
      omega

/-- Upwards the range is listed as if it ended with its last partition. -/
theorem splitLoop_false_roundUp (hs : 0 < size) (hend : getPartition size last + size < 2 ^ 64)
    (h : start ≤ last ∨ size ∣ start) :
    splitLoop false size fuel start (last + 1) =
      splitLoop false size fuel start (getPartition size last + size) := by
  induction fuel generalizing start with
  | zero => rfl
  | succ fuel ih =>
    have hlast := lt_getPartition_add hs last
    by_cases hle : start ≤ last
    · have hm : getPartition size start ≤ getPartition size last := getPartition_mono hle
      rw [splitLoop_false_succ hs (by omega) (by omega),
        splitLoop_false_succ hs (by omega) (by omega), ih (Or.inr (dvd_getPartition_add start))]
    · have hd := h.resolve_left hle
      have hge : getPartition size last + size ≤ start :=
        add_getPartition_le hd (by omega)
      rw [splitLoop_of_le false _ (by omega), splitLoop_of_le false _ hge]

theorem stops_true (hs : last + 1 < 2 ^ 64) : Stops true size first last := by
  intro fuel hf
  rw [splitIntoPartitions, Wrapping.succ_of_lt hs]
  exact splitLoop_true_fuel hf le_rfl

/-- Upwards the iterator stops if the last partition comes to an end. -/
theorem ends_false_iff (hs : 0 < size) (hsize : size < 2 ^ 64) (hle : first ≤ last)
    (hlast : last + 1 < 2 ^ 64) :
    Stops false size first last ↔ getPartition size last + size < 2 ^ 64 := by
  unfold Stops splitIntoPartitions
  rw [Wrapping.succ_of_lt hlast]
  constructor
  · intro h
    by_contra hend
    have hlen := congrArg length (h (last + 1 - first + 1) (by omega))
    rw [length_splitLoop_false hs hsize (by omega) hle,
      length_splitLoop_false hs hsize (by omega) hle] at hlen
    omega
  · exact fun hend fuel hf => splitLoop_false_fuel hs hend hf le_rfl

/-! ### Rows -/

variable {t : BlockTable} {ranges : List (Nat × Nat)} {rows : List BlockRow}

/-- Headers are read if all of them fit. -/
theorem executeBlockList_eq_ok (reverse : Bool) :
    t.executeBlockList .header reverse size first last = .ok rows ↔
      rows = (t.executeUntypedBlockList reverse size first last).flatten ∧
        ∀ row ∈ rows, row.Fits := by
  have hstored : ∀ page ∈ t.executeUntypedBlockList reverse size first last,
      ∀ row ∈ page, row ∈ t.rows := by
    intro page hp row hr
    obtain ⟨range, -, rfl⟩ := mem_map.mp hp
    cases reverse with
    | true => exact stored_of_mem_select hr
    | false => exact stored_of_mem_select (mem_reverse.mp hr)
  unfold BlockTable.executeBlockList
  rw [bind_eq_ok]
  simp only [mapM_check_eq_ok fun page hp _ => rowBatch_eq_ok (hstored page hp)]
  constructor
  · rintro ⟨_, ⟨rfl, hfit⟩, hr⟩
    cases hr
    refine ⟨rfl, fun row hrow => ?_⟩
    obtain ⟨page, hpage, hrow⟩ := mem_flatten.mp hrow
    exact hfit page hpage row hrow
  · rintro ⟨rfl, hfit⟩
    exact ⟨_, ⟨rfl, fun page hp row hr => hfit row (mem_flatten.mpr ⟨page, hp, hr⟩)⟩, rfl⟩

/-- Downwards a row of the range is listed if its part does not reach from the lower half of the
numbers into the upper one. -/
theorem mem_listing_true (hs : 0 < size) (hlast : last + 1 < 2 ^ 64) {row : BlockRow} :
    row ∈ (t.executeUntypedBlockList true size first last).flatten ↔
      row ∈ t.rows ∧ (first ≤ row.number ∧ row.number ≤ last) ∧
        (max first (getPartition size row.number) < 2 ^ 63 →
          min last (getPartition size row.number + size - 1) < 2 ^ 63) := by
  have hc := @splitIntoPartitions_cover size first hs last hlast
  have hpart : ∀ range ∈ splitIntoPartitions true size first last,
      range.1 ≤ row.number ∧ row.number ≤ range.2 →
      range = (max first (getPartition size row.number),
        min last (getPartition size row.number + size - 1)) := by
    intro range hr hin
    rw [splitIntoPartitions_eq true hlast] at hr
    exact (mem_splitLoop_true hs hr hin).1
  change row ∈ (splitIntoPartitions true size first last).flatMap (t.select size) ↔ _
  rw [mem_flatMap]
  constructor
  · rintro ⟨range, hr, hsel⟩
    obtain ⟨hin, hlow, hhigh⟩ := hc.inside range hr
    obtain ⟨hrow, hb, hx⟩ := (mem_select hin (by omega)).mp hsel
    rw [hpart range hr hb] at hx
    exact ⟨hrow, ⟨by omega, by omega⟩, hx⟩
  · rintro ⟨hrow, hb, hx⟩
    obtain ⟨range, hr, hin⟩ := hc.complete row.number hb.1 (by omega)
    refine ⟨range, hr, (mem_select (hc.inside range hr).1 ?_).mpr ⟨hrow, hin, ?_⟩⟩
    · have := (hc.inside range hr).2.2
      omega
    · rw [hpart range hr hin]
      exact hx

theorem listing_true_nodup (hs : 0 < size) (hlast : last + 1 < 2 ^ 64) :
    (t.executeUntypedBlockList true size first last).flatten.Nodup :=
  (selected_descending (splitIntoPartitions_cover hs hlast) (by omega)).2.of_map

/-- Rows that are each listed once are the blocks of the range if they have the same members. -/
theorem perm_filter_iff (hn : rows.Nodup) :
    rows.Perm (t.rows.filter fun row => first ≤ row.number ∧ row.number ≤ last) ↔
      ∀ row, row ∈ rows ↔ row ∈ t.rows ∧ first ≤ row.number ∧ row.number ≤ last := by
  rw [perm_ext_iff_of_nodup hn (t.keys.of_map.filter _)]
  simp only [mem_filter, decide_eq_true_eq]

/-- What is read downwards. -/
theorem reads_reversed_iff (hs : 0 < size) (hlast : last + 1 < 2 ^ 64) :
    t.Reads first last (t.listBlocksInReversedOrder size first last) ↔
      ∀ row ∈ t.rows, first ≤ row.number → row.number ≤ last →
        row.Fits ∧ min last (getPartition size row.number + size - 1) < 2 ^ 63 := by
  unfold BlockTable.Reads BlockTable.listBlocksInReversedOrder
  simp only [executeBlockList_eq_ok]
  constructor
  · rintro ⟨rows, ⟨rfl, hfit⟩, hperm⟩ row hrow hlow hhigh
    have hm := ((perm_filter_iff (listing_true_nodup hs hlast)).mp hperm row).mpr
      ⟨hrow, hlow, hhigh⟩
    have hf := hfit row hm
    have hp := @getPartition_le size row.number
    have := hf.1
    exact ⟨hf, ((mem_listing_true hs hlast).mp hm).2.2 (by omega)⟩
  · intro h
    refine ⟨_, ⟨rfl, fun row hrow => ?_⟩,
      (perm_filter_iff (listing_true_nodup hs hlast)).mpr fun row => ?_⟩
    · obtain ⟨hm, hb, -⟩ := (mem_listing_true hs hlast).mp hrow
      exact (h row hm hb.1 hb.2).1
    · rw [mem_listing_true hs hlast]
      constructor
      · exact fun ⟨hm, hb, _⟩ => ⟨hm, hb⟩
      · exact fun ⟨hm, hb⟩ => ⟨hm, hb, fun _ => (h row hm hb.1 hb.2).2⟩

/-- Upwards the listing is that of the range up to the end of its last partition. -/
theorem listing_false_eq (hs : 0 < size) (hle : first ≤ last)
    (hend : getPartition size last + size < 2 ^ 64) :
    (t.executeUntypedBlockList false size first last).flatten =
      (t.executeUntypedBlockList true size first
        (getPartition size last + size - 1)).flatten.reverse := by
  have hlt := lt_getPartition_add hs last
  have hstop : getPartition size last + size - 1 + 1 = getPartition size last + size := by omega
  have hup : splitIntoPartitions false size first last =
      splitLoop false size (getPartition size last + size - first) first
        (getPartition size last + size) := by
    rw [splitIntoPartitions_eq false (by omega), ← splitLoop_false_roundUp hs hend (Or.inl hle)]
    exact splitLoop_false_fuel hs (by rwa [Nat.add_sub_cancel]) le_rfl (by omega)
  have hrev : splitIntoPartitions true size first (getPartition size last + size - 1) =
      (splitIntoPartitions false size first last).reverse := by
    rw [splitIntoPartitions_eq true (by omega), hstop, hup]
    exact splitLoop_reverse hs (dvd_getPartition_add last) hend le_rfl le_rfl
  change (splitIntoPartitions false size first last).flatMap _ =
    ((splitIntoPartitions true size first _).flatMap _).reverse
  rw [hrev, reverse_flatMap, reverse_reverse]
  rfl

theorem mem_listing_false (hs : 0 < size) (hle : first ≤ last)
    (hend : getPartition size last + size < 2 ^ 64) {row : BlockRow} :
    row ∈ (t.executeUntypedBlockList false size first last).flatten ↔
      row ∈ t.rows ∧ (first ≤ row.number ∧ row.number < getPartition size last + size) ∧
        (max first (getPartition size row.number) < 2 ^ 63 →
          getPartition size row.number + size ≤ 2 ^ 63) := by
  have hlt := lt_getPartition_add hs last
  rw [listing_false_eq hs hle hend, mem_reverse, mem_listing_true hs (by omega)]
  refine and_congr_right fun _ => ?_
  rw [show row.number ≤ getPartition size last + size - 1 ↔
    row.number < getPartition size last + size by omega]
  refine and_congr_right fun hb => ?_
  have hp := add_getPartition_le (dvd_getPartition_add last) hb.2
  rw [min_eq_right (by omega)]
  have : 0 < getPartition size row.number + size := by omega
  omega

/-- What is read upwards. A block above the range that lies in its last partition must not be
stored, unless nothing is read of this partition because it reaches into the upper half of the
numbers. -/
theorem reads_forward_iff (hs : 0 < size) (hle : first ≤ last)
    (hend : getPartition size last + size < 2 ^ 64) :
    t.Reads first last (t.listBlocks size first last) ↔
      (∀ row ∈ t.rows, first ≤ row.number → row.number ≤ last →
        row.Fits ∧ getPartition size row.number + size ≤ 2 ^ 63) ∧
      ∀ row ∈ t.rows, last < row.number → row.number < getPartition size last + size →
        max first (getPartition size last) < 2 ^ 63 ∧ 2 ^ 63 < getPartition size last + size := by
  have hlt := lt_getPartition_add hs last
  have hn : (t.executeUntypedBlockList false size first last).flatten.Nodup := by
    rw [listing_false_eq hs hle hend, nodup_reverse]
    exact listing_true_nodup hs (by omega)
  unfold BlockTable.Reads BlockTable.listBlocks
  simp only [executeBlockList_eq_ok]
  constructor
  · rintro ⟨rows, ⟨rfl, hfit⟩, hperm⟩
    have hmem := (perm_filter_iff hn).mp hperm
    constructor
    · intro row hrow hlow hhigh
      have hm := (hmem row).mpr ⟨hrow, hlow, hhigh⟩
      have hf := hfit row hm
      have hp := @getPartition_le size row.number
      have := hf.1
      exact ⟨hf, ((mem_listing_false hs hle hend).mp hm).2.2 (by omega)⟩
    · intro row hrow hlow hhigh
      have heq := getPartition_of_lt hs hlow.le hhigh
      by_contra hx
      have hm := (mem_listing_false hs hle hend).mpr ⟨hrow, ⟨by omega, hhigh⟩, by
        rw [heq]
        omega⟩
      have := ((hmem row).mp hm).2.2
      omega
  · rintro ⟨hin, hout⟩
    have hmem : ∀ row, row ∈ (t.executeUntypedBlockList false size first last).flatten ↔
        row ∈ t.rows ∧ first ≤ row.number ∧ row.number ≤ last := by
      intro row
      rw [mem_listing_false hs hle hend]
      constructor
      · rintro ⟨hrow, ⟨hlow, hhigh⟩, hx⟩
        refine ⟨hrow, hlow, ?_⟩
        by_contra hgt
        rw [getPartition_of_lt hs (by omega) hhigh] at hx
        have := hout row hrow (by omega) hhigh
        omega
      · rintro ⟨hrow, hlow, hhigh⟩
        exact ⟨hrow, ⟨hlow, by omega⟩, fun _ => (hin row hrow hlow hhigh).2⟩
    refine ⟨_, ⟨rfl, fun row hrow => ?_⟩, (perm_filter_iff hn).mpr hmem⟩
    obtain ⟨hrow, hlow, hhigh⟩ := (hmem row).mp hrow
    exact (hin row hrow hlow hhigh).1

/-- Blocks with their data are never read. -/
theorem not_reads_fetchBlocks (hle : first ≤ last) (hlast : last + 1 < 2 ^ 64) :
    ¬ t.Reads first last (t.fetchBlocks size first last) := by
  obtain ⟨fuel, hfuel⟩ : ∃ fuel, last + 1 - first = fuel + 1 := ⟨last - first, by omega⟩
  rintro ⟨rows, hok, -⟩
  rw [BlockTable.fetchBlocks, BlockTable.executeBlockList, BlockTable.executeUntypedBlockList,
    splitIntoPartitions_eq false hlast, hfuel, splitLoop, if_pos (by omega)] at hok
  cases hok

theorem splitIntoPartitions_true_exact (hs : 0 < size) (hlast : last + 1 < 2 ^ 64) :
    Exact size first last (splitIntoPartitions true size first last).reverse := by
  constructor
  · rw [reverse_reverse]
    exact splitIntoPartitions_cover hs hlast
  · rw [isChain_reverse, splitIntoPartitions_eq true hlast]
    exact (splitLoop_adjacent _ first (last + 1) last).tail

/-- Downwards the ranges are always exact, upwards if and only if the range ends with a partition.
Headers are read exactly where the rows fit and no part reaches from the lower half of the numbers
into the upper one, upwards only if the last partition comes to an end and has no blocks above the
range. Blocks with their data are never read. -/
theorem partition_ranges_are_exact_iff {size first last : Nat} (hpos : 0 < size)
    (hsize : size < 2 ^ 64) (hle : first ≤ last) (hlast : last < 2 ^ 64 - 1) :
    (Exact size first last (splitIntoPartitions true size first last).reverse ∧
      Stops true size first last) ∧
    ((Exact size first last (splitIntoPartitions false size first last) ∧
      Stops false size first last ∧ splitIntoPartitions true size first last =
        (splitIntoPartitions false size first last).reverse) ↔ size ∣ last + 1) ∧
    ∀ t : BlockTable,
      (t.Reads first last (t.listBlocksInReversedOrder size first last) ↔
        ∀ row ∈ t.rows, first ≤ row.number → row.number ≤ last →
          row.Fits ∧ min last (getPartition size row.number + size - 1) < 2 ^ 63) ∧
      (Stops false size first last ∧ t.Reads first last (t.listBlocks size first last) ↔
        getPartition size last + size < 2 ^ 64 ∧
        (∀ row ∈ t.rows, first ≤ row.number → row.number ≤ last →
          row.Fits ∧ getPartition size row.number + size ≤ 2 ^ 63) ∧
        ∀ row ∈ t.rows, last < row.number → row.number < getPartition size last + size →
          max first (getPartition size last) < 2 ^ 63 ∧
            2 ^ 63 < getPartition size last + size) ∧
      ¬ t.Reads first last (t.fetchBlocks size first last) := by
  have hlast : last + 1 < 2 ^ 64 := by omega
  have hrev := @splitIntoPartitions_true_exact size first last hpos hlast
  have hends := @ends_false_iff size first last hpos hsize hle hlast
  refine ⟨⟨hrev, stops_true hlast⟩, ⟨?_, fun hd => ?_⟩, fun t => ⟨?_, ?_, ?_⟩⟩
  · rintro ⟨hex, -⟩
    obtain ⟨range, hr, hb⟩ := hex.cover.complete last hle (by omega)
    obtain ⟨hin, -, hhigh⟩ := hex.cover.inside range hr
    obtain rfl : range.2 = last := by omega
    rw [mem_reverse, splitIntoPartitions_eq false hlast] at hr
    exact (dvd_of_mem_splitLoop hpos hsize hlast.le hr).resolve_right (not_lt.mpr hin.1)
  · have hend : getPartition size last + size < 2 ^ 64 :=
      (add_getPartition_le hd (Nat.lt_succ_self last)).trans_lt hlast
    have heq : splitIntoPartitions true size first last =
        (splitIntoPartitions false size first last).reverse := by
      rw [splitIntoPartitions_eq true hlast, splitIntoPartitions_eq false hlast]
      exact splitLoop_reverse hpos hd hlast le_rfl le_rfl
    rw [heq, reverse_reverse] at hrev
    exact ⟨hrev, hends.mpr hend, heq⟩
  · exact reads_reversed_iff hpos hlast
  · rw [hends]
    exact and_congr_right fun hend => reads_forward_iff hpos hle hend
  · exact not_reads_fetchBlocks hle hlast

def spreadTable : BlockTable where
  rows := [storedRow 5 "5" 4 "4", storedRow 12 "12" 5 "5", storedRow 25 "25" 12 "12",
    storedRow 31 "31" 25 "25"]
  keys := by decide
  bounded := by decide

/-- Blocks 3 to 29 end with a partition of size 10 and lie in three of them. -/
theorem three_partitions_are_exact :
    10 ∣ 29 + 1 ∧ splitIntoPartitions false 10 3 29 = [(3, 9), (10, 19), (20, 29)] ∧
      Exact 10 3 29 (splitIntoPartitions false 10 3 29) ∧
      spreadTable.Reads 3 29 (spreadTable.listBlocks 10 3 29) := by
  have hd : 10 ∣ 29 + 1 := by decide
  have h := @partition_ranges_are_exact_iff 10 3 29 (by decide) (by decide) (by decide) (by decide)
  refine ⟨hd, by decide +kernel, (h.2.1.mpr hd).1, ((h.2.2 spreadTable).2.1.mpr ?_).2⟩
  unfold BlockRow.Fits
  decide

/-- Listing blocks 0 to 1 upwards also yields block 2, listing them downwards does not. -/
theorem list_blocks_reads_past_last :
    splitIntoPartitions false 10 0 1 = [(0, 9)] ∧ splitIntoPartitions true 10 0 1 = [(0, 1)] ∧
    (∃ rows, forkTable.listBlocks 10 0 1 = .ok rows ∧ storedRow 2 "2" 1 "1" ∈ rows) ∧
    ∃ rows, forkTable.listBlocksInReversedOrder 10 0 1 = .ok rows ∧
      storedRow 2 "2" 1 "1" ∉ rows :=
  ⟨by decide +kernel, by decide +kernel, ⟨_, rfl, by decide +kernel⟩, ⟨_, rfl, by decide +kernel⟩⟩

end Bds
