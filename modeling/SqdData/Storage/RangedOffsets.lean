import SqdData.Storage.PageReads

/-!
# Offsets of selected rows, shifted in place

The offsets of all selected ranges are read into one buffer, one more for each range than it has
rows. Each range is moved down by as many places as there are ranges before it, so that its first
offset falls on the last one of the range before. A range is moved after it has been re-based and
before the next one is looked at, and no move reaches into the ranges that follow.
-/

namespace Storage

open List hiding splitLengths flatten_splitLengths length_splitLengths

open Paging Primitives Arrow

section InPlace

variable {α : Type}

def copyWithin (l : List α) (beg stop dest : Nat) : List α :=
  l.take dest ++ l.extract beg stop ++ l.drop (dest + (stop - beg))

/-- A loop over the items of a part of the buffer. -/
def mapWithin (f : α → α) (beg stop : Nat) (l : List α) : List α :=
  l.take beg ++ (l.extract beg stop).map f ++ l.drop stop

def shiftInPlace : List Range → Nat → Nat → Nat → List Nat → List Nat
  | [], _, _, _, offsets => offsets
  | r :: ranges, shift, pos, lastOffset, offsets =>
    let stop := pos + (r.stop - r.start) + 1
    let rOffset := offsets.getD pos 0
    let moved := mapWithin (fun o => o - rOffset + lastOffset) pos stop offsets
    shiftInPlace ranges (shift + 1) stop (moved.getD (stop - 1) 0)
      (copyWithin moved pos stop (pos - shift))

/-- `read_ranged_offsets`, with the offsets shifted in the buffer they were read into. -/
def readRangedOffsetsInPlace (b : PageBuffer (List Int)) (ranges : List Range) :
    Except Error (List Nat × List Range) :=
  if ranges.length = 0 then .ok ([0], [])
  else do
    let offsetRanges ← orPanic "ranges overlap"
      (sealRanges (ranges.map fun r => ⟨r.start, r.stop + 1⟩))
    let offsets ← readNative 0 b (some offsetRanges)
    validateOffsets offsets
    let offsets := offsets.map Int.toNat
    return ((shiftInPlace ranges 0 0 0 offsets).take (offsets.length - (ranges.length - 1)),
      valueRanges (segments ranges offsets))

section Part

variable {l : List α} {f : α → α} {beg stop : Nat}

theorem length_mapped (hs : stop ≤ l.length) :
    ((l.extract beg stop).map f).length = stop - beg := by
  rw [length_map, length_extract hs]

theorem mapWithin_parts (hb : beg ≤ stop) (hs : stop ≤ l.length) :
    (mapWithin f beg stop l).extract beg stop = (l.extract beg stop).map f ∧
      (mapWithin f beg stop l).take beg = l.take beg ∧
      (mapWithin f beg stop l).drop stop = l.drop stop ∧
      (mapWithin f beg stop l).length = l.length := by
  have ht : (l.take beg).length = beg := length_take_of_le (hb.trans hs)
  have hp := @length_mapped _ l f beg stop hs
  refine ⟨?_, ?_, ?_, ?_⟩
  · rw [mapWithin, append_assoc, extract_eq_take_drop, drop_left' ht, take_left' hp]
  · rw [mapWithin, append_assoc, take_left' ht]
  · rw [mapWithin, drop_left']
    rw [length_append, ht, hp]
    omega
  · rw [mapWithin, length_append, length_append, ht, hp, length_drop]
    omega

/-- The part that was worked on is moved to `dest`, and what lies behind it is not touched. -/
theorem copyWithin_parts {dest : Nat} (hd : dest ≤ beg) (hbg : beg ≤ stop) (hs : stop ≤ l.length) :
    (copyWithin (mapWithin f beg stop l) beg stop dest).take (dest + (stop - beg)) =
        l.take dest ++ (l.extract beg stop).map f ∧
      (copyWithin (mapWithin f beg stop l) beg stop dest).drop stop = l.drop stop ∧
      (copyWithin (mapWithin f beg stop l) beg stop dest).length = l.length := by
  obtain ⟨hm, hf, hb, hl⟩ := @mapWithin_parts _ l f _ _ hbg hs
  have hdT : (mapWithin f beg stop l).take dest = l.take dest := by
    have := congrArg (take dest) hf
    rwa [take_take, take_take, min_eq_left hd] at this
  have hlen : (l.take dest ++ (l.extract beg stop).map f).length = dest + (stop - beg) := by
    rw [length_append, length_mapped hs, length_take_of_le (by omega)]
  refine ⟨?_, ?_, ?_⟩
  · rw [copyWithin, hm, hdT, take_left' hlen]
  · rw [copyWithin, hm, hdT, drop_append, drop_eq_nil_of_le (by omega),
      nil_append, hlen, drop_drop, ← hb]
    congr 1
    omega
  · rw [copyWithin, hm, hdT, length_append, hlen, length_drop, hl]
    omega

end Part

/-- The front of the buffer holds what was put out so far, and only its last offset is going to be
overwritten. -/
theorem shiftInPlace_eq {ranges : List Range} {shift pos lastOffset : Nat} {out offsets : List Nat}
    (hs : shift ≤ pos) (ho : offsets.take out.length = out)
    (hlast : out.dropLast.length = pos - shift)
    (hr : (ranges.map fun r => r.stop - r.start + 1).sum + pos = offsets.length) :
    (shiftInPlace ranges shift pos lastOffset offsets).take
        (rebase lastOffset out (segments ranges (offsets.drop pos))).length =
      rebase lastOffset out (segments ranges (offsets.drop pos)) := by
  induction ranges generalizing shift pos lastOffset out offsets with
  | nil => exact ho
  | cons r _ ih =>
    rw [map_cons, sum_cons] at hr
    have hst : pos + (r.stop - r.start) + 1 ≤ offsets.length := by omega
    have hsg : (offsets.drop pos).take (r.stop - r.start + 1) =
        offsets.extract pos (pos + (r.stop - r.start) + 1) := by
      rw [extract_eq_take_drop]
      congr 1
      omega
    have hh : (offsets.extract pos (pos + (r.stop - r.start) + 1)).headD 0 =
        offsets.getD pos 0 := headD_extract (Nat.le_add_right pos _)
    have hfr : offsets.take (pos - shift) = out.dropLast := by
      rw [← hlast, length_dropLast, dropLast_eq_take]
      nth_rewrite 3 [← ho]
      rw [take_take, min_eq_left (Nat.sub_le _ _)]
    set f := fun o => o - offsets.getD pos 0 + lastOffset with hf
    set stop := pos + (r.stop - r.start) + 1 with hsE
    obtain ⟨hm, -, -, _⟩ := @mapWithin_parts _ offsets f pos stop (by omega) hst
    obtain ⟨hfr', hb', hl'⟩ := @copyWithin_parts _ offsets f pos stop (pos - shift)
      (Nat.sub_le _ _) (by omega) hst
    have hmoL : ((offsets.extract pos stop).map f).getLast?.getD 0 =
        (mapWithin f pos stop offsets).getD (stop - 1) 0 := by
      rw [← hm, ← getLastD_eq_getLast?]
      exact getLastD_extract (by omega) (by omega)
    have hmL := @length_mapped _ offsets f pos stop hst
    have hd : (offsets.drop pos).drop (r.stop - r.start + 1) =
        (copyWithin (mapWithin f pos stop offsets) pos stop (pos - shift)).drop stop := by
      rw [hb', drop_drop]
      congr 1
    simp only [segments, rebase, shiftInPlace, hsg, hh]
    rw [hd, hmoL]
    refine ih (by omega) ?_ ?_ (by omega)
    · rw [length_append, hlast, hmL, hfr', hfr]
    · rw [length_dropLast, length_append, hlast, hmL]
      omega

end InPlace

/-- Shifting in place gives the offsets that are put out range by range. -/
theorem readRangedOffsetsInPlace_eq {first : Nat} {lens : List Nat} {b : PageBuffer (List Int)}
    (h : Stored 1 id b ((buildOffsets first lens).map Int.ofNat)) {ranges : List Range}
    (hc : Canonical ranges) (hb : Below lens.length ranges) :
    readRangedOffsetsInPlace b ranges = readRangedOffsets b ranges := by
  by_cases he : ranges.length = 0
  · rw [readRangedOffsetsInPlace, readRangedOffsets, if_pos he, if_pos he]
  have hne : ranges ≠ [] := by simpa using he
  obtain ⟨_, hsl, hrd⟩ := readNative_offsets h hc hb
  set offsets := gather (ranges.map fun r => (⟨r.start, r.stop + 1⟩ : Range))
    (buildOffsets first lens)
    with ho
  have hsum : (ranges.map fun r => r.stop - r.start + 1).sum = offsets.length := by
    have hw : Below (buildOffsets first lens).length
        (ranges.map fun r => (⟨r.start, r.stop + 1⟩ : Range)) := by
      intro r hr
      obtain ⟨r', hr', rfl⟩ := mem_map.mp hr
      simpa using hb r' hr'
    rw [ho, length_gather hw, length_positions, map_map]
    refine congrArg sum (map_congr_left fun r hr => ?_)
    have := hc.nonempty r hr
    simp only [Function.comp_apply]
    omega
  have hs := @shiftInPlace_eq ranges 0 0 0 [] offsets le_rfl rfl rfl hsum
  rw [drop_zero] at hs
  have hrb : rebase 0 [] (segments ranges offsets) = buildOffsets 0 (gather ranges lens) := by
    rw [ho, segments_gather hc.ordered hb, rebase_segments hne]
  have hcn : offsets.length - (ranges.length - 1) =
      (rebase 0 [] (segments ranges offsets)).length := by
    have hp : 0 < ranges.length := Nat.pos_of_ne_zero he
    rw [hrb, length_buildOffsets, length_gather hb, length_positions, ← hsum,
      sum_map_add, map_const', sum_replicate]
    simp only [Nat.nsmul_eq_mul, Nat.mul_one]
    omega
  rw [readRangedOffsetsInPlace, readRangedOffsets, if_neg he, if_neg he, hsl]
  simp only [orPanic, Option.elim_some, bind, Except.bind, hrd, map_toNat_ofNat, hcn]
  rw [hs]

/-- For monotone offsets and a canonical selection of rows, the offsets that are returned start at
zero, and between them the gathered values are those of the selected rows. -/
theorem ranged_offsets_select_rows {all : List Nat} {n : Nat} (hall : all.Pairwise (· ≤ ·))
    (hlength : all.length = n + 1) {b : PageBuffer (List Int)}
    (h : Stored 1 id b (all.map Int.ofNat)) {ranges : List Range}
    (hcanonical : Canonical ranges) (hbelow : Below n ranges) :
    ∃ offsets values, readRangedOffsetsInPlace b ranges = .ok (offsets, values) ∧
      offsets.length = (positions ranges).length + 1 ∧ offsets.head? = some 0 ∧ Canonical values ∧
      ∀ {β : Type} (vals : List β), (∀ o ∈ all, o ≤ vals.length) →
        rowsAt offsets (gather values vals) = gather ranges (rowsAt all vals) := by
  obtain ⟨first, lens, rfl⟩ : ∃ first lens, all = buildOffsets first lens := by
    cases all with
    | nil => cases hlength
    | cons o rest => exact ⟨o, lengthsOf (o :: rest), (buildOffsets_lengthsOf hall).symm⟩
  have hln : lens.length = n := by simpa using hlength
  subst hln
  obtain ⟨values, hr, hf, hg⟩ := readRangedOffsets_spec h hcanonical hbelow
  refine ⟨_, values, (readRangedOffsetsInPlace_eq h hcanonical hbelow).trans hr, ?_, ?_,
    (hf values rfl).1, fun vals hv => ?_⟩
  · rw [length_buildOffsets, length_gather hbelow]
  · cases gather ranges lens <;> rfl
  · have hsum : lens.sum ≤ (vals.drop first).length := by
      have := hv _ (mem_of_getLast? (getLast?_buildOffsets first lens))
      rw [length_drop]
      omega
    have hl : gather ranges lens =
        (gather ranges (splitLengths lens (vals.drop first))).map length := by
      rw [← gather_map, map_length_splitLengths hsum]
    rw [rowsAt_buildOffsets, rowsAt_buildOffsets, drop_zero, hg, hl,
      splitLengths_flatten]

/-- Three rows on two pages; the first and the last one are selected. -/
theorem first_and_last_row_are_read :
    ∃ offsets values, readRangedOffsetsInPlace ⟨[[2, 4], [4, 7]], [0, 2, 4]⟩ [⟨0, 1⟩, ⟨2, 3⟩] =
        .ok (offsets, values) ∧
      offsets.length = 3 ∧ offsets.head? = some 0 ∧ Canonical values ∧
      rowsAt offsets (gather values [9, 8, 7, 6, 5, 4, 3]) = [[7, 6], [5, 4, 3]] := by
  obtain ⟨offsets, values, hr, hl, hh, hc, hrw⟩ :=
    @ranged_offsets_select_rows [2, 4, 4, 7] 3 (by decide) rfl ⟨[[2, 4], [4, 7]], [0, 2, 4]⟩
      ⟨[[2, 4], [4, 7]], ⟨rfl, rfl⟩, rfl, ⟨by decide, by simp⟩⟩ [⟨0, 1⟩, ⟨2, 3⟩] (by decide)
      (by unfold Below; decide)
  exact ⟨offsets, values, hr, hl, hh, hc,
    hrw [9, 8, 7, 6, 5, 4, 3] (by decide)⟩

end Storage
