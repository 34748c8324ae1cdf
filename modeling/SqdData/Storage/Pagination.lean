import SqdData.Paging
import SqdData.Primitives.Gather
import SqdData.Storage.Data

/-!
# Pagination

Which pages of a buffer a row selection touches, and which items of each page. A page read notes the
page, the ranges that meet it and the place of its items in the result. Without a selection every
page is read as a whole.

A failed assertion of the source is an error here.
-/

namespace Storage

open List

open Paging Primitives

structure PageRead where
  pageIndex : Nat
  writeOffset : Nat
  rangesSlice : Range
deriving DecidableEq, Repr

instance : Inhabited PageRead := ⟨⟨0, 0, ⟨0, 0⟩⟩⟩

/-- The state of the loop over the ranges: the ranges left, the position of the first of them, the
end of the slice that was read, and the number of items so far. -/
structure Cut where
  ranges : List Range
  idx : Nat
  sliceEnd : Nat
  writeOffset : Nat

def cutRanges (page : Range) : List Range → Nat → Nat → Nat → Option Cut
  | [], idx, sliceEnd, writeOffset => some ⟨[], idx, sliceEnd, writeOffset⟩
  | r :: ranges, idx, sliceEnd, writeOffset =>
    if r.start ≥ page.stop then some ⟨r :: ranges, idx, sliceEnd, writeOffset⟩
    else
      let beg := max page.start r.start
      let stop := min page.stop r.stop
      if beg < stop then
        if stop = r.stop then
          if stop = page.stop then some ⟨ranges, idx + 1, idx + 1, writeOffset + (stop - beg)⟩
          else cutRanges page ranges (idx + 1) (idx + 1) (writeOffset + (stop - beg))
        else some ⟨r :: ranges, idx, idx + 1, writeOffset + (stop - beg)⟩
      else none

/-- The loop of `build_page_reads` over the pages. It panics if ranges are left at the end. -/
def pageReads : List Nat → Nat → List Range → Nat → Nat → Option (List PageRead)
  | start :: stop :: offsets, pageIndex, ranges, idx, writeOffset =>
    match ranges with
    | [] => some []
    | r :: rest =>
      if r.start < stop then
        (cutRanges ⟨start, stop⟩ (r :: rest) idx (idx + 1) writeOffset).bind fun cut =>
          (pageReads (stop :: offsets) (pageIndex + 1) cut.ranges cut.idx cut.writeOffset).map
            (⟨pageIndex, writeOffset, ⟨idx, cut.sliceEnd⟩⟩ :: ·)
      else pageReads (stop :: offsets) (pageIndex + 1) (r :: rest) idx writeOffset
  | _, _, ranges, _, _ => if ranges = [] then some [] else none

/-- `RangeList::end`. -/
def rangesEnd (ranges : List Range) : Nat := ranges.getLast?.elim 0 Range.stop

/-- A result, or the message of the panic. -/
def orPanic {α : Type} (message : String) (result : Option α) : Except Error α :=
  result.elim (.error (.text message)) .ok

def buildPageReads (pageOffsets : List Nat) (ranges : List Range) :
    Except Error (List PageRead) := do
  let len := pageOffsets.getLast?.getD 0
  ensure (len ≥ rangesEnd ranges)
    (.text s!"range list is out of bounds: {len} < {rangesEnd ranges}")
  orPanic "assertion failed" (pageReads pageOffsets 0 ranges 0 0)

inductive Pagination where
  | ranged (pages : List PageRead) (ranges : List Range) (pageOffsets : List Nat)
  | all (pageOffsets : List Nat) (range : Range)

def pageAt (pageOffsets : List Nat) (i : Nat) : Range :=
  ⟨pageOffsets.getD i 0, pageOffsets.getD (i + 1) 0⟩

def clip (page r : Range) : Range := ⟨r.start - page.start, min r.stop page.stop - page.start⟩

namespace Pagination

def new (pageOffsets : List Nat) : Option (List Range) → Except Error Pagination
  | some ranges => do
    let pages ← buildPageReads pageOffsets ranges
    return .ranged pages ranges pageOffsets
  | none => .ok (.all pageOffsets ⟨pageOffsets.headD 0, pageOffsets.getLast?.getD 0⟩)

def numPages : Pagination → Nat
  | ranged pages _ _ => pages.length
  | all pageOffsets _ => pageOffsets.length - 1

def numItems : Pagination → Nat
  | ranged _ ranges _ => (ranges.map fun r => r.stop - r.start).sum
  | all _ range => range.stop

def pageIndex : Pagination → Nat → Nat
  | ranged pages _ _, seq => (pages.getD seq default).pageIndex
  | all _ _, seq => seq

def pageRange : Pagination → Nat → Range
  | ranged pages _ pageOffsets, seq => pageAt pageOffsets (pages.getD seq default).pageIndex
  | all pageOffsets _, seq => pageAt pageOffsets seq

def pageWriteOffset : Pagination → Nat → Nat
  | ranged pages _ _, seq => (pages.getD seq default).writeOffset
  | all pageOffsets _, seq => pageOffsets.getD seq 0

def iterRanges : Pagination → Nat → List Range
  | ranged pages ranges pageOffsets, seq =>
    let page := pages.getD seq default
    (ranges.extract page.rangesSlice.start page.rangesSlice.stop).map
      (clip (pageAt pageOffsets page.pageIndex))
  | all pageOffsets range, seq => [range].map (clip (pageAt pageOffsets seq))

end Pagination

variable {α : Type}

section Ranged

/-- The items of the ranges among items that start at position `s`. -/
def gatherFrom (s : Nat) (ranges : List Range) (items : List α) : List α :=
  ranges.flatMap fun r => items.extract (r.start - s) (r.stop - s)

/-- Ranges that start after the first page are gathered from the other pages. -/
theorem gatherFrom_append_right {s : Nat} {ranges : List Range} {part rest : List α}
    (h : Above (s + part.length) ranges) :
    gatherFrom s ranges (part ++ rest) = gatherFrom (s + part.length) ranges rest := by
  unfold gatherFrom
  apply flatMap_congr
  intro r hr
  have := h r hr
  rw [extract_append_right (by omega)]
  congr 1 <;> omega

def pageItems (page : Range) (ranges : List Range) (part : List α) : List α :=
  (ranges.map (clip page)).flatMap fun r => part.extract r.start r.stop

/-- The end of the slice is overwritten by the first range that meets the page. -/
theorem cutRanges_sliceEnd {page r : Range} (h : r.start < page.stop) {ranges : List Range}
    {idx writeOffset : Nat} (sliceEnd : Nat) {sliceEnd' : Nat} :
    cutRanges page (r :: ranges) idx sliceEnd writeOffset =
      cutRanges page (r :: ranges) idx sliceEnd' writeOffset := by
  unfold cutRanges
  simp only [ge_iff_le, Nat.not_le.mpr h, if_false]

/-- A page takes the first `taken` ranges, clipped to it, and the ranges from the one at `k` on go
beyond it. -/
structure PageTaken (s : Nat) (part : List α) (ranges : List Range) (taken k : Nat) : Prop where
  beyond : ∀ r ∈ ranges.drop k, s + part.length < r.stop
  clips : ∀ r ∈ ranges.take taken,
    (clip ⟨s, s + part.length⟩ r).start ≤ (clip ⟨s, s + part.length⟩ r).stop
  gathers : ∀ rest : List α, gatherFrom s ranges (part ++ rest) =
    pageItems ⟨s, s + part.length⟩ (ranges.take taken) part ++
      gatherFrom (s + part.length) (ranges.drop k) rest

section PageTaken

variable {s : Nat} {part : List α} {r : Range} {ranges : List Range}

theorem stop_of_above (h : Above (s + part.length) ranges) (hne : ∀ r ∈ ranges, r.start < r.stop) :
    ∀ r ∈ ranges, s + part.length < r.stop :=
  fun r hr => (h r hr).trans_lt (hne r hr)

/-- No range meets the page. -/
theorem pageTaken_above (h : Above (s + part.length) ranges)
    (hne : ∀ r ∈ ranges, r.start < r.stop) :
    PageTaken s part ranges 0 0 where
  beyond := stop_of_above h hne
  clips := by simp
  gathers := by
    intro rest
    rw [take_zero, drop_zero, gatherFrom_append_right h]
    rfl

variable (hr : r.start < r.stop) (hs : s < r.stop) (hm : r.start < s + part.length)

include hr hs hm

theorem length_pageItems_singleton : (pageItems ⟨s, s + part.length⟩ [r] part).length =
    min (s + part.length) r.stop - max s r.start := by
  simp only [pageItems, clip, map_cons, map_nil, flatMap_cons, flatMap_nil, append_nil]
  rw [length_extract (by omega)]
  omega

theorem clip_le : (clip ⟨s, s + part.length⟩ r).start ≤ (clip ⟨s, s + part.length⟩ r).stop := by
  simp only [clip]
  omega

/-- The first range ends in the page. -/
theorem PageTaken.cons {taken k : Nat} (h : PageTaken s part ranges taken k)
    (hin : r.stop ≤ s + part.length) : PageTaken s part (r :: ranges) (taken + 1) (k + 1) where
  beyond := h.beyond
  clips := by
    intro r' hr'
    rcases mem_cons.mp hr' with rfl | hr'
    · exact clip_le hr hs hm
    · exact h.clips r' hr'
  gathers := by
    intro rest
    have hp : (part ++ rest).extract (r.start - s) (r.stop - s) =
        pageItems ⟨s, s + part.length⟩ [r] part := by
      rw [extract_append_left (by omega)]
      simp [pageItems, clip, Nat.min_eq_left hin]
    have hsp : pageItems ⟨s, s + part.length⟩ (r :: ranges.take taken) part =
        pageItems ⟨s, s + part.length⟩ [r] part ++
          pageItems ⟨s, s + part.length⟩ (ranges.take taken) part := by
      simp [pageItems]
    rw [take_succ_cons, drop_succ_cons, hsp, append_assoc, ← h.gathers rest, ← hp]
    rfl

/-- The first range goes on in the next page. -/
theorem pageTaken_through (hin : s + part.length < r.stop) (ha : Above (s + part.length) ranges)
    (hne : ∀ r ∈ ranges, r.start < r.stop) : PageTaken s part (r :: ranges) 1 0 where
  beyond := by
    intro r' hr'
    rcases mem_cons.mp hr' with rfl | hr'
    · exact hin
    · exact stop_of_above ha hne r' hr'
  clips := by simpa using clip_le hr hs hm
  gathers := by
    intro rest
    have hpg : part.extract (r.start - s) part.length =
        pageItems ⟨s, s + part.length⟩ [r] part := by
      simp [pageItems, clip, Nat.min_eq_right hin.le]
    have hn : rest.extract 0 (r.stop - s - part.length) =
        rest.extract (r.start - (s + part.length)) (r.stop - (s + part.length)) := by
      congr 1 <;> omega
    calc gatherFrom s (r :: ranges) (part ++ rest)
      _ = (part ++ rest).extract (r.start - s) (r.stop - s) ++
            gatherFrom s ranges (part ++ rest) := rfl
      _ = part.extract (r.start - s) part.length ++
            (rest.extract 0 (r.stop - s - part.length) ++
              gatherFrom (s + part.length) ranges rest) := by
          rw [extract_append (by omega) (by omega), gatherFrom_append_right ha, append_assoc]
      _ = _ := by
          rw [hpg, hn]
          rfl

end PageTaken

/-- What the loop over the ranges does for a page: it takes the ranges that meet the page and leaves
those that go beyond it. -/
theorem cutRanges_spec {s : Nat} {part : List α} (hpr : part ≠ []) (ranges : List Range)
    (ho : Ordered ranges) (hne : ∀ r ∈ ranges, r.start < r.stop) (hs : ∀ r ∈ ranges, s < r.stop)
    (idx writeOffset : Nat) :
    ∃ taken k, PageTaken s part ranges taken k ∧
      cutRanges ⟨s, s + part.length⟩ ranges idx idx writeOffset =
        some ⟨ranges.drop k, idx + k, idx + taken,
          writeOffset + (pageItems ⟨s, s + part.length⟩ (ranges.take taken) part).length⟩ := by
  have hln : 0 < part.length := length_pos_iff.mpr hpr
  induction ranges generalizing idx writeOffset with
  | nil => exact ⟨0, 0, pageTaken_above (by simp [Above]) (by simp), rfl⟩
  | cons r ranges ih =>
    obtain ⟨_, ha, ho⟩ := ho
    have hne' : ∀ r' ∈ ranges, r'.start < r'.stop := fun r' hr' => hne r' (mem_cons_of_mem _ hr')
    have hr := hne r mem_cons_self
    have hrs := hs r mem_cons_self
    unfold cutRanges
    by_cases hb : r.start ≥ s + part.length
    · rw [if_pos hb]
      have hab := above_cons.mpr ⟨hb, ha.mono (by omega)⟩
      exact ⟨0, 0, pageTaken_above hab hne, by simp [pageItems]⟩
    have hm := Nat.lt_of_not_le hb
    have hi := length_pageItems_singleton hr hrs hm
    have hbg : max s r.start < min (s + part.length) r.stop := by omega
    simp only [if_neg hb, if_pos hbg]
    by_cases hin : r.stop ≤ s + part.length
    · rw [if_pos (by omega)]
      by_cases he : min (s + part.length) r.stop = s + part.length
      · have hc : PageTaken s part ranges 0 0 := pageTaken_above (ha.mono (by omega)) hne'
        rw [if_pos he]
        exact ⟨1, 1, hc.cons hr hrs hm hin, by simp [hi]⟩
      · obtain ⟨taken, k, hc, hct⟩ := ih ho hne' (fun r' hr' => hs r' (mem_cons_of_mem _ hr'))
          (idx + 1) (writeOffset + (min (s + part.length) r.stop - max s r.start))
        refine ⟨taken + 1, k + 1, hc.cons hr hrs hm hin, ?_⟩
        rw [if_neg he, hct]
        simp only [pageItems, drop_succ_cons, take_succ_cons, map_cons, map_nil, flatMap_cons,
          flatMap_nil, append_nil, length_append] at hi ⊢
        congr 2 <;> omega
    · rw [if_neg (by omega)]
      exact ⟨1, 0, pageTaken_through hr hrs hm (by omega) (ha.mono (by omega)) hne', by simp [hi]⟩

def PageRead.items (read : PageRead) (ranges : List Range) (parts : List (List α)) : List α :=
  pageItems (pageAt (buildOffsets 0 (parts.map List.length)) read.pageIndex)
    (ranges.extract read.rangesSlice.start read.rangesSlice.stop) (parts.getD read.pageIndex [])

theorem getD_buildOffsets {parts : List (List α)} {i : Nat} (h : i ≤ parts.length) :
    (buildOffsets 0 (parts.map List.length)).getD i 0 = (parts.take i).flatten.length := by
  rw [getD_eq_getElem?_getD, getElem?_buildOffsets (by simpa using h), length_flatten, map_take]
  simp

theorem pageAt_parts {parts : List (List α)} {i : Nat} (h : i < parts.length) :
    pageAt (buildOffsets 0 (parts.map List.length)) i =
      ⟨(parts.take i).flatten.length,
        (parts.take i).flatten.length + (parts.getD i []).length⟩ := by
  unfold pageAt
  rw [getD_buildOffsets h.le, getD_buildOffsets h, take_succ_eq_append_getElem h,
    getD_eq_getElem _ _ h, flatten_append, length_append, flatten_singleton]

/-- A page read is of an existing page and takes well-formed ranges of it. -/
structure PageRead.Sound (read : PageRead) (ranges : List Range)
    (parts : List (List α)) : Prop where
  page : read.pageIndex < parts.length
  clips : ∀ r ∈ ranges.extract read.rangesSlice.start read.rangesSlice.stop,
    (clip (pageAt (buildOffsets 0 (parts.map List.length)) read.pageIndex) r).start ≤
      (clip (pageAt (buildOffsets 0 (parts.map List.length)) read.pageIndex) r).stop

/-- The reads take the items one after the other and write them from `writeOffset` on. -/
structure ReadsInto (all : List Range) (parts : List (List α)) (writeOffset : Nat)
    (reads : List PageRead) (items : List α) : Prop where
  items : reads.flatMap (fun read => read.items all parts) = items
  sound : ∀ read ∈ reads, read.Sound all parts
  offset : ∀ k (hk : k < reads.length), (reads.get ⟨k, hk⟩).writeOffset =
    writeOffset + ((reads.take k).flatMap fun read => read.items all parts).length

theorem ReadsInto.cons {all : List Range} {parts : List (List α)} {read : PageRead}
    {reads : List PageRead} {items : List α} (hs : read.Sound all parts)
    (h : ReadsInto all parts (read.writeOffset + (read.items all parts).length) reads items) :
    ReadsInto all parts read.writeOffset (read :: reads) (read.items all parts ++ items) where
  items := by rw [flatMap_cons, h.items]
  sound := by
    intro read' hr
    rcases mem_cons.mp hr with rfl | hr
    · exact hs
    · exact h.sound read' hr
  offset := by
    intro k hk
    cases k with
    | zero => simp
    | succ k =>
      have := h.offset k (by simpa using hk)
      simp only [get_eq_getElem, getElem_cons_succ, take_succ_cons, flatMap_cons,
        length_append] at this ⊢
      omega

section Pages

variable {all : List Range} {parts before after : List (List α)} {part : List α}
  (hp : parts = before ++ part :: after)

include hp

theorem pageAt_before : pageAt (buildOffsets 0 (parts.map List.length)) before.length =
    ⟨before.flatten.length, before.flatten.length + part.length⟩ := by
  have hi : before.length < parts.length := by simp [hp]
  have hgt : parts.getD before.length [] = part := by simp [hp]
  rw [pageAt_parts hi, hgt, hp, take_left']
  rfl

variable {ranges : List Range} {idx writeOffset taken : Nat} (hal : ranges = all.drop idx)

include hal

theorem items_before : PageRead.items ⟨before.length, writeOffset, ⟨idx, idx + taken⟩⟩ all parts =
    pageItems ⟨before.flatten.length, before.flatten.length + part.length⟩ (ranges.take taken)
      part := by
  have hgt : parts.getD before.length [] = part := by simp [hp]
  simp only [PageRead.items, pageAt_before hp, hgt, extract_eq_take_drop, ← hal,
    Nat.add_sub_cancel_left]

theorem sound_before {k : Nat} (h : PageTaken before.flatten.length part ranges taken k) :
    PageRead.Sound ⟨before.length, writeOffset, ⟨idx, idx + taken⟩⟩ all parts where
  page := by simp [hp]
  clips := by
    simpa only [pageAt_before hp, extract_eq_take_drop, ← hal, Nat.add_sub_cancel_left] using
      h.clips

end Pages

/-- The outer loop, from the page after `before` on. Only the last page may be empty. -/
theorem pageReads_spec {all : List Range} {parts : List (List α)} (before after : List (List α))
    (hp : parts = before ++ after) (hf : ∀ part ∈ after.dropLast, part ≠ [])
    (ranges : List Range) (idx writeOffset : Nat) (hal : ranges = all.drop idx)
    (hor : Ordered ranges) (hne : ∀ r ∈ ranges, r.start < r.stop)
    (hs : ∀ r ∈ ranges, before.flatten.length < r.stop) (hb : Below parts.flatten.length ranges) :
    ∃ reads, pageReads (buildOffsets before.flatten.length (after.map List.length)) before.length
        ranges idx writeOffset = some reads ∧
      ReadsInto all parts writeOffset reads
        (gatherFrom before.flatten.length ranges after.flatten) := by
  induction after generalizing before ranges idx writeOffset with
  | nil =>
    have hn : ranges = [] := by
      cases ranges with
      | nil => rfl
      | cons r =>
        have := hs r (by simp)
        have := hb r (by simp)
        rw [hp, append_nil] at this
        omega
    subst hn
    exact ⟨[], by simp [buildOffsets, pageReads], by simp [gatherFrom], by simp, by simp⟩
  | cons part after ih =>
    obtain ⟨tail, ht⟩ : ∃ tail, buildOffsets (before.flatten.length + part.length)
        (after.map length) = (before.flatten.length + part.length) :: tail := by
      cases after <;> exact ⟨_, rfl⟩
    have hbf : (before ++ [part]).flatten.length = before.flatten.length + part.length := by
      simp
    have hdl : ∀ part' ∈ after.dropLast, part' ∈ (part :: after).dropLast := by
      cases after <;> simp +contextual [dropLast]
    have hih := ih (before ++ [part]) (by simp [hp]) fun part' hpr => hf part' (hdl part' hpr)
    rw [hbf, ht, length_append, length_singleton] at hih
    rw [map_cons, buildOffsets, ht]
    cases ranges with
    | nil => exact ⟨[], by rw [pageReads], by simp [gatherFrom], by simp, by simp⟩
    | cons r rest =>
      rw [pageReads]
      by_cases hm : r.start < before.flatten.length + part.length
      · -- the page is not empty, for else it is the last one
        have hpr : part ≠ [] := by
          rintro rfl
          cases after with
          | nil =>
            have := hs r (by simp)
            have := hb r (by simp)
            simp only [hp, flatten_append, flatten_cons, flatten_nil, append_nil] at this
            omega
          | cons => exact hf [] (by simp) rfl
        obtain ⟨taken, k, hcut, hct⟩ :=
          cutRanges_spec hpr (r :: rest) hor hne hs idx writeOffset
        rw [← cutRanges_sliceEnd hm (idx + 1)] at hct
        have hit := @items_before _ all _ _ _ _ hp _ _ writeOffset taken hal
        rw [← hit] at hct
        obtain ⟨reads, hr, hrd⟩ := hih ((r :: rest).drop k) (idx + k)
          (writeOffset + (PageRead.items ⟨before.length, writeOffset, ⟨idx, idx + taken⟩⟩
            all parts).length) (by rw [hal, drop_drop]) (Ordered.drop hor k)
          (fun r' hr' => hne r' (mem_of_mem_drop hr')) hcut.beyond
          (fun r' hr' => hb r' (mem_of_mem_drop hr'))
        refine ⟨⟨before.length, writeOffset, ⟨idx, idx + taken⟩⟩ :: reads, ?_, ?_⟩
        · simp only [if_pos hm, hct, Option.bind_some, hr]
          rfl
        · rw [flatten_cons, hcut.gathers, ← hit]
          exact ReadsInto.cons (sound_before hp hal hcut) hrd
      · -- no range starts before the end of the page
        have ha : Above (before.flatten.length + part.length) (r :: rest) :=
          above_cons.mpr ⟨by omega, hor.2.1.mono (by have := hor.1; omega)⟩
        obtain ⟨reads, hr, hrd⟩ := hih (r :: rest) idx writeOffset hal hor hne
          (stop_of_above ha hne) hb
        refine ⟨reads, by rw [if_neg hm, hr], ?_⟩
        rw [flatten_cons, gatherFrom_append_right ha]
        exact hrd

end Ranged

namespace Pagination

/-- The items the pagination takes from its page number `seq`. -/
def piece (p : Pagination) (parts : List (List α)) (seq : Nat) : List α :=
  (p.iterRanges seq).flatMap fun r => (parts.getD (p.pageIndex seq) []).extract r.start r.stop

/-- The pagination reads `items` off the parts: its pages exist and have the lengths it expects, it
takes ranges inside of them, and it knows where their items go. -/
structure Reads (p : Pagination) (parts : List (List α)) (items : List α) : Prop where
  page : ∀ seq < p.numPages, p.pageIndex seq < parts.length
  length : ∀ seq < p.numPages,
    (p.pageRange seq).stop - (p.pageRange seq).start = (parts.getD (p.pageIndex seq) []).length
  bounds : ∀ seq < p.numPages, ∀ r ∈ p.iterRanges seq,
    r.start ≤ r.stop ∧ r.stop ≤ (parts.getD (p.pageIndex seq) []).length
  content : (List.range p.numPages).flatMap (p.piece parts) = items
  offset : ∀ seq < p.numPages,
    p.pageWriteOffset seq = ((List.range seq).flatMap (p.piece parts)).length
  numItems : p.numItems = items.length

end Pagination

theorem take_eq_map_getD {β : Type} (l : List β) (d : β) {n : Nat} (h : n ≤ l.length) :
    l.take n = (List.range n).map fun i => l.getD i d := by
  have := extract_eq_map (a := 0) h d
  simpa [extract_eq_take_drop, range_eq_range'] using this

section All

variable {parts : List (List α)}

/-- Without a selection every page is taken as a whole. -/
theorem piece_all {seq : Nat} (h : seq < parts.length) :
    (Pagination.all (buildOffsets 0 (parts.map List.length))
      ⟨0, parts.flatten.length⟩).iterRanges seq = [⟨0, (parts.getD seq []).length⟩] := by
  have hst : (parts.take seq).flatten.length + (parts.getD seq []).length ≤
      parts.flatten.length := by
    have hs := take_append_drop seq parts
    rw [drop_eq_getElem_cons h] at hs
    have := congrArg (fun l => l.flatten.length) hs
    simp only [flatten_append, flatten_cons, length_append, ← getD_eq_getElem _ [] h] at this
    omega
  simp only [Pagination.iterRanges, map_cons, map_nil, clip, pageAt_parts h,
    Nat.min_eq_right hst, Nat.zero_sub, Nat.add_sub_cancel_left]

theorem reads_all :
    (Pagination.all (buildOffsets 0 (parts.map List.length)) ⟨0, parts.flatten.length⟩).Reads parts
      parts.flatten := by
  have hp : (Pagination.all (buildOffsets 0 (parts.map length))
      ⟨0, parts.flatten.length⟩).numPages = parts.length := by
    simp [Pagination.numPages]
  have hc : ∀ n ≤ parts.length, (range n).flatMap (Pagination.piece
      (.all (buildOffsets 0 (parts.map length)) ⟨0, parts.flatten.length⟩) parts) =
        (parts.take n).flatten := by
    intro n hn
    rw [take_eq_map_getD parts [] hn, ← flatMap_def]
    apply flatMap_congr
    intro seq hs
    have hlt := mem_range.mp hs
    rw [Pagination.piece, piece_all (by omega), flatMap_cons, flatMap_nil, append_nil]
    exact extract_eq_self (Nat.le_refl _)
  constructor
  · intro seq hs
    rwa [hp] at hs
  · intro seq hs
    rw [hp] at hs
    simp [Pagination.pageRange, Pagination.pageIndex, pageAt_parts hs]
  · intro seq hs r hr
    rw [hp] at hs
    rw [piece_all hs, mem_singleton] at hr
    subst hr
    exact ⟨Nat.zero_le _, Nat.le_refl _⟩
  · rw [hp, hc _ (Nat.le_refl _), take_length]
  · intro seq hs
    rw [hp] at hs
    rw [hc seq hs.le, Pagination.pageWriteOffset, getD_buildOffsets hs.le]
  · rfl

end All

theorem rangesEnd_le {ranges : List Range} {n : Nat} (h : Below n ranges) :
    rangesEnd ranges ≤ n := by
  unfold rangesEnd
  cases hlast : ranges.getLast? with
  | none => exact Nat.zero_le n
  | some r => exact h r (mem_of_getLast? hlast)

theorem reads_ranged {parts : List (List α)} {ranges : List Range} {pages : List PageRead}
    (hc : pages.flatMap (fun read => read.items ranges parts) = gather ranges parts.flatten)
    (hs : ∀ read ∈ pages, read.Sound ranges parts)
    (ho : ∀ k (hk : k < pages.length), (pages.get ⟨k, hk⟩).writeOffset =
      ((pages.take k).flatMap fun read => read.items ranges parts).length)
    (hb : Below parts.flatten.length ranges) :
    (Pagination.ranged pages ranges (buildOffsets 0 (parts.map List.length))).Reads parts
      (gather ranges parts.flatten) := by
  have hp : ∀ n ≤ pages.length, (range n).flatMap (Pagination.piece
      (.ranged pages ranges (buildOffsets 0 (parts.map length))) parts) =
        (pages.take n).flatMap fun read => read.items ranges parts := by
    intro n hn
    rw [take_eq_map_getD pages default hn, flatMap_map]
    rfl
  have hm : ∀ seq < pages.length, pages.getD seq default ∈ pages := by
    intro seq hsq
    rw [getD_eq_getElem _ _ hsq]
    exact getElem_mem hsq
  constructor
  · intro seq hsq
    exact (hs _ (hm seq hsq)).page
  · intro seq hsq
    simp only [Pagination.pageRange, Pagination.pageIndex, pageAt_parts (hs _ (hm seq hsq)).page]
    omega
  · intro seq hsq r hr
    have hrd := hs _ (hm seq hsq)
    obtain ⟨r', hr', rfl⟩ := mem_map.mp hr
    refine ⟨hrd.clips r' hr', ?_⟩
    simp only [clip, Pagination.pageIndex, pageAt_parts hrd.page]
    omega
  · rw [Pagination.numPages, hp _ (Nat.le_refl _), take_length, hc]
  · intro seq hsq
    have hlt : seq < pages.length := hsq
    rw [hp seq hlt.le, ← ho seq hlt, Pagination.pageWriteOffset, getD_eq_getElem _ _ hlt]
    rfl
  · rw [Pagination.numItems, length_gather hb, length_positions]

/-- Any selection within the items has a pagination that reads it. -/
theorem pagination_reads {parts : List (List α)} {sel : Option (List Range)}
    (hf : ∀ part ∈ parts.dropLast, part ≠ []) (hsl : Fitting parts.flatten.length sel) :
    ∃ p, Pagination.new (buildOffsets 0 (parts.map List.length)) sel = .ok p ∧
      p.Reads parts (select sel parts.flatten) := by
  have hlast : (buildOffsets 0 (parts.map length)).getLast?.getD 0 = parts.flatten.length := by
    rw [getLast?_buildOffsets, length_flatten]
    simp
  cases sel with
  | none =>
    refine ⟨_, ?_, reads_all⟩
    have hh : (buildOffsets 0 (parts.map length)).headD 0 = 0 := by
      cases parts <;> rfl
    rw [Pagination.new, hlast, hh]
  | some ranges =>
    obtain ⟨hc, hb⟩ := hsl ranges rfl
    obtain ⟨pages, hp, hcn, hs, ho⟩ := @pageReads_spec _ ranges _ [] parts rfl
      hf ranges 0 0 rfl hc.ordered hc.nonempty
      (fun r hr => by have := hc.nonempty r hr; simp; omega) hb
    refine ⟨_, ?_, reads_ranged (by simpa [gatherFrom, gather] using hcn) hs (by simpa using ho) hb⟩
    have hbl : buildPageReads (buildOffsets 0 (parts.map length)) ranges = .ok pages := by
      have hrd : pageReads (buildOffsets 0 (parts.map length)) 0 ranges 0 0 = some pages := hp
      have hft : decide (parts.flatten.length ≥ rangesEnd ranges) = true :=
        decide_eq_true (rangesEnd_le hb)
      simp only [buildPageReads, hlast, ensure_of_true hft, hrd]
      rfl
    simp only [Pagination.new, hbl]
    rfl

end Storage
