import SqdData.Arrow.NewArrays
import SqdData.Bits
import SqdData.Storage.PageWriters
import SqdData.Storage.Pagination

/-!
# Reading paged buffers

The buffers of a table are read back with an optional row selection: natives page by page into a
destination that is split between the two halves of the pages, bits and null masks one page after
the other, and offsets together with the ranges of the values they select.

Positions and lengths of natives are counted in items. The pages are fetched by their index; how a
cursor moves between their keys is not modelled.
-/

namespace Storage

open List hiding splitLengths flatten_splitLengths length_splitLengths

open Arrow Paging Primitives

variable {α : Type}

section ValidateOffsets

variable {ι : Type} [LinearOrder ι]

/-- The loop of `validate_offsets`. -/
def ascending (prev : ι) : List ι → Bool
  | [] => true
  | val :: offsets => decide (prev ≤ val) && ascending val offsets

def validateOffsets [Zero ι] (offsets : List ι) : Except Error Unit := do
  ensure (offsets.length ≠ 0) (.text "offsets slice can't be empty")
  ensure (0 ≤ offsets.headD 0) (.text "found negative offset value")
  ensure (ascending 0 offsets) (.text "offset values are not monotonically increasing")

theorem ascending_of_pairwise {prev : ι} {offsets : List ι} (h : offsets.Pairwise (· ≤ ·))
    (hp : ∀ o ∈ offsets, prev ≤ o) : ascending prev offsets = true := by
  induction offsets generalizing prev with
  | nil => rfl
  | cons o _ ih =>
    obtain ⟨ho, hr⟩ := pairwise_cons.mp h
    simp only [ascending, Bool.and_eq_true, decide_eq_true_eq]
    exact ⟨hp o (by simp), ih hr ho⟩

theorem validateOffsets_ok [Zero ι] {offsets : List ι} (hne : offsets ≠ [])
    (h : offsets.Pairwise (· ≤ ·)) (hn : ∀ o ∈ offsets, 0 ≤ o) :
    validateOffsets offsets = .ok () := by
  have hl : decide (offsets.length ≠ 0) = true := by simpa using hne
  have hh : decide (0 ≤ offsets.headD 0) = true := by
    cases offsets with
    | nil => exact absurd rfl hne
    | cons o _ => simpa using hn o (by simp)
  have ha := ascending_of_pairwise h hn
  simp only [validateOffsets, ensure_of_true hl, ensure_of_true hh, ensure_of_true ha]
  rfl

/-- Offsets that are not negative, as they are stored. -/
theorem validateOffsets_map_ofNat {offsets : List Nat} (hne : offsets ≠ [])
    (h : offsets.Pairwise (· ≤ ·)) : validateOffsets (offsets.map Int.ofNat) = .ok () := by
  apply validateOffsets_ok (by simpa using hne)
  · exact pairwise_map.mpr (h.imp Int.ofNat_le.mpr)
  · intro o ho
    obtain ⟨n, _, rfl⟩ := mem_map.mp ho
    exact Int.natCast_nonneg n

end ValidateOffsets

theorem map_toNat_ofNat (offsets : List Nat) : (offsets.map Int.ofNat).map Int.toNat = offsets := by
  rw [map_map]
  exact map_id offsets

/-- `get_buffer_pages`: the page offsets of a buffer. -/
def bufferPages {δ : Type} (b : PageBuffer δ) : Except Error (List Nat) := do
  validateOffsets b.pageOffsets
  ensure (b.pageOffsets.headD 0 = 0) (.text "Condition failed: `offsets[0] == 0`")
  return b.pageOffsets

theorem bufferPages_buildOffsets {δ : Type} {b : PageBuffer δ} {lengths : List Nat}
    (h : b.pageOffsets = buildOffsets 0 lengths) :
    bufferPages b = .ok (buildOffsets 0 lengths) := by
  have hvalid : validateOffsets b.pageOffsets = .ok () := by
    rw [h]
    exact validateOffsets_ok (buildOffsets_ne_nil _ _) (pairwise_buildOffsets _ _)
      fun o _ => Nat.zero_le o
  have hh : decide (b.pageOffsets.headD 0 = 0) = true := by
    rw [h]
    cases lengths <;> rfl
  rw [h] at hvalid hh
  simp only [bufferPages, h, hvalid, ensure_of_true hh]
  rfl

section Native

/-- `read_native_par_page`: the items of a page are copied to the front of the destination. -/
def readNativeParPage (b : PageBuffer (List α)) (p : Pagination) (seq : Nat) (dest : List α) :
    Except Error (List α) :=
  match b.pages[p.pageIndex seq]? with
  | none => .error (.text s!"page {p.pageIndex seq} was not found")
  | some data => do
    let pageLen := (p.pageRange seq).stop - (p.pageRange seq).start
    ensure (data.length = pageLen)
      (.text s!"expected page {p.pageIndex seq} to contain {pageLen} items, but got {data.length}")
    let written := (p.iterRanges seq).flatMap fun r => data.extract r.start r.stop
    ensure (written.length ≤ dest.length) (.text "range end index out of range")
    return written ++ dest.drop written.length

/-- `read_native_par`: the destination is split where the items of the upper half of the pages
start. -/
def readNativePar (b : PageBuffer (List α)) (p : Pagination) :
    Nat → Nat → Nat → List α → Except Error (List α)
  | 0, _, _, dest => .ok dest
  | fuel + 1, start, n, dest =>
    match n with
    | 0 => .ok dest
    | 1 => readNativeParPage b p start dest
    | n =>
      let mid := n / 2 + n % 2
      let split := p.pageWriteOffset (start + mid) - p.pageWriteOffset start
      do
        ensure (split ≤ dest.length) (.text "mid > len")
        let lower ← readNativePar b p fuel start mid (dest.take split)
        let upper ← readNativePar b p fuel (start + mid) (n - mid) (dest.drop split)
        return lower ++ upper

/-- `read_native`. The destination is zeroed first. -/
def readNative (zero : α) (b : PageBuffer (List α)) (sel : Option (List Range)) :
    Except Error (List α) := do
  let pageOffsets ← bufferPages b
  let p ← Pagination.new pageOffsets sel
  readNativePar b p p.numPages 0 p.numPages (List.replicate p.numItems zero)

variable {b : PageBuffer (List α)} {p : Pagination} {parts : List (List α)} {items : List α}

theorem readNativeParPage_eq (hp : b.pages = parts) (h : p.Reads parts items) {seq : Nat}
    (hs : seq < p.numPages) {dest : List α} (hd : dest.length = (p.piece parts seq).length) :
    readNativeParPage b p seq dest = .ok (p.piece parts seq) := by
  have hi := h.page seq hs
  have hg : b.pages[p.pageIndex seq]? = some (parts.getD (p.pageIndex seq) []) := by
    rw [hp, getElem?_eq_getElem hi, getD_eq_getElem _ _ hi]
  have hl : decide ((parts.getD (p.pageIndex seq) []).length =
      (p.pageRange seq).stop - (p.pageRange seq).start) = true :=
    decide_eq_true (h.length seq hs).symm
  have hf : decide ((p.piece parts seq).length ≤ dest.length) = true := decide_eq_true hd.ge
  have hpc : (p.iterRanges seq).flatMap (fun r =>
      (parts.getD (p.pageIndex seq) []).extract r.start r.stop) = p.piece parts seq := rfl
  unfold readNativeParPage
  have hr : dest.drop (p.piece parts seq).length = [] := drop_eq_nil_of_le hd.le
  simp only [hg, ensure_of_true hl, hpc, ensure_of_true hf, hr, append_nil]
  rfl

/-- The halves are read into their own parts of the destination, so the pieces of the pages follow
one another. -/
theorem readNativePar_eq (hp : b.pages = parts) (h : p.Reads parts items) {fuel start n : Nat}
    (hfl : n ≤ fuel) (hn : start + n ≤ p.numPages) {dest : List α}
    (hd : dest.length = ((List.range' start n).flatMap (p.piece parts)).length) :
    readNativePar b p fuel start n dest = .ok ((List.range' start n).flatMap (p.piece parts)) := by
  induction fuel generalizing start n dest with
  | zero =>
    have hzero : n = 0 := by omega
    subst hzero
    have hnl : dest = [] := length_eq_zero_iff.mp (by simpa using hd)
    simp [readNativePar, hnl]
  | succ _ ih =>
    match n with
    | 0 =>
      have hnl : dest = [] := length_eq_zero_iff.mp (by simpa using hd)
      simp [readNativePar, hnl]
    | 1 =>
      simp only [readNativePar]
      rw [readNativeParPage_eq hp h (by omega) (by simpa using hd)]
      simp
    | n + 2 =>
      obtain ⟨mid, hm⟩ : ∃ mid, (n + 2) / 2 + (n + 2) % 2 = mid := ⟨_, rfl⟩
      have hlt : mid < n + 2 := by omega
      have hps : 0 < mid := by omega
      have hs : (range' start (n + 2)).flatMap (p.piece parts) =
          (range' start mid).flatMap (p.piece parts) ++
            (range' (start + mid) (n + 2 - mid)).flatMap (p.piece parts) := by
        rw [← flatMap_append, range'_append_1]
        congr 2
        omega
      have ho : p.pageWriteOffset (start + mid) - p.pageWriteOffset start =
          ((range' start mid).flatMap (p.piece parts)).length := by
        rw [h.offset _ (by omega), h.offset _ (by omega), range_eq_range',
          range_eq_range', ← range'_append_1, flatMap_append, length_append,
          Nat.zero_add]
        omega
      have hl := @ih start mid (by omega) (by omega)
        (dest.take ((range' start mid).flatMap (p.piece parts)).length)
        (by rw [length_take, hd, hs, length_append]; omega)
      have hup := @ih (start + mid) (n + 2 - mid) (by omega) (by omega)
        (dest.drop ((range' start mid).flatMap (p.piece parts)).length)
        (by rw [length_drop, hd, hs, length_append]; omega)
      have hf : decide (((range' start mid).flatMap (p.piece parts)).length ≤
          dest.length) = true := by
        rw [decide_eq_true_eq, hd, hs, length_append]
        omega
      simp only [readNativePar, hm, ho, ensure_of_true hf, hl, hup, hs]
      rfl

end Native

/-- A stored native buffer reads back as the selected items. -/
theorem readNative_eq {unit : Nat} {b : PageBuffer (List α)} {items : List α}
    (h : Stored unit id b items) {sel : Option (List Range)} (hs : Fitting items.length sel)
    (zero : α) : readNative zero b sel = .ok (select sel items) := by
  obtain ⟨parts, hpg, rfl, hrg⟩ := h
  obtain ⟨p, hp, hr⟩ := pagination_reads
    (fun part hpr => hrg.nonempty part (dropLast_subset _ hpr)) hs
  have hpa : b.pages = parts := by simpa using hpg.pages
  have hd : (replicate p.numItems zero).length =
      ((range' 0 p.numPages).flatMap (p.piece parts)).length := by
    rw [length_replicate, ← range_eq_range', hr.content, hr.numItems]
  have hpar := readNativePar_eq hpa hr (Nat.le_refl _) (by omega) hd
  rw [← range_eq_range', hr.content] at hpar
  simp only [readNative, bufferPages_buildOffsets hpg.offsets, bind, Except.bind, hp, hpar]

variable {bits : List Bool}

section Bitmask

/-- The loop body of `read_bitmask`. -/
def readBitmaskPage (pages : List (List Byte)) (p : Pagination) (seq : Nat) :
    Except Error (List Bool) :=
  match pages[p.pageIndex seq]? with
  | none => .error (.text s!"page {p.pageIndex seq} was not found")
  | some data => do
    let expectedBitLen := (p.pageRange seq).stop - (p.pageRange seq).start
    let expectedByteLen := Bits.ceil expectedBitLen 8
    ensure (expectedByteLen = data.length)
      (.text (s!"expected for page {p.pageIndex seq} to have byte length {expectedByteLen}, " ++
        s!"but got {data.length}"))
    return (p.iterRanges seq).flatMap fun r => Bits.unpack data r.start (r.stop - r.start)

def readBitmask (pages : List (List Byte)) (pageOffsets : List Nat) (sel : Option (List Range)) :
    Except Error (List Bool) := do
  let p ← Pagination.new pageOffsets sel
  let bits ← (List.range p.numPages).mapM (readBitmaskPage pages p)
  return bits.flatten

def readBoolean (b : PageBuffer (List Byte)) (sel : Option (List Range)) :
    Except Error (List Bool) := do
  let pageOffsets ← bufferPages b
  readBitmask b.pages pageOffsets sel

theorem readBitmaskPage_eq {pages : List (List Byte)} {p : Pagination} {parts : List (List Bool)}
    (hp : pages = parts.map Bits.pack) (h : p.Reads parts bits) {seq : Nat}
    (hs : seq < p.numPages) : readBitmaskPage pages p seq = .ok (p.piece parts seq) := by
  have hi := h.page seq hs
  have hg : pages[p.pageIndex seq]? = some (Bits.pack (parts.getD (p.pageIndex seq) [])) := by
    rw [hp, getElem?_map, getElem?_eq_getElem hi, getD_eq_getElem _ _ hi]
    rfl
  have hl : decide (Bits.ceil ((p.pageRange seq).stop - (p.pageRange seq).start) 8 =
      (Bits.pack (parts.getD (p.pageIndex seq) [])).length) = true := by
    rw [decide_eq_true_eq, Bits.length_pack, h.length seq hs]
  have hbt : (p.iterRanges seq).flatMap (fun r => Bits.unpack
      (Bits.pack (parts.getD (p.pageIndex seq) [])) r.start (r.stop - r.start)) =
        p.piece parts seq := by
    apply flatMap_congr
    intro r hr
    have hb := h.bounds seq hs r hr
    rw [Bits.unpack_pack (by omega), extract_eq_take_drop]
  unfold readBitmaskPage
  simp only [hg, ensure_of_true hl, hbt]
  rfl

/-- Pages of packed bits read back as the selected bits. Only the last page may be empty. -/
theorem readBitmask_eq {parts : List (List Bool)} (hf : ∀ part ∈ parts.dropLast, part ≠ [])
    {sel : Option (List Range)} (hs : Fitting parts.flatten.length sel) :
    readBitmask (parts.map Bits.pack) (buildOffsets 0 (parts.map List.length)) sel =
      .ok (select sel parts.flatten) := by
  obtain ⟨p, hp, hr⟩ := pagination_reads hf hs
  have hpg : (range p.numPages).mapM (readBitmaskPage (parts.map Bits.pack) p) =
      .ok ((range p.numPages).map (p.piece parts)) :=
    mapM_eq_ok_map fun seq hsq => readBitmaskPage_eq rfl hr (mem_range.mp hsq)
  simp only [readBitmask, hp, bind, Except.bind, hpg]
  rw [← flatMap_def, hr.content]
  rfl

theorem readBoolean_eq {unit : Nat} {b : PageBuffer (List Byte)}
    (h : Stored unit Bits.pack b bits) {sel : Option (List Range)}
    (hs : Fitting bits.length sel) : readBoolean b sel = .ok (select sel bits) := by
  obtain ⟨_, hp, rfl, hr⟩ := h
  simp only [readBoolean, bufferPages_buildOffsets hp.offsets, bind, Except.bind, hp.pages]
  exact readBitmask_eq (fun part hpr => hr.nonempty part (dropLast_subset _ hpr)) hs

end Bitmask

section Nullmask

/-- `get_nullmask_pages`. -/
def nullmaskPages (b : PageBuffer (List Byte)) : Except Error (List Nat) := do
  let pages ← bufferPages b
  ensure (pages.length ≥ 2) (.text "nullmask offsets should contain at least 2 pages")
  ensure (pages.length ≤ 2 ∨ pages.getD (pages.length - 2) 0 = pages.getD (pages.length - 1) 0)
    (.text "bitmask and nullmask lengths are different")
  return pages

/-- `read_null_mask`. The empty last page is read with the others. -/
def readNullMask (b : PageBuffer (List Byte)) (sel : Option (List Range)) :
    Except Error (Option (List Bool)) := do
  let pageOffsets ← nullmaskPages b
  if pageOffsets.length = 2 then .ok none
  else (readBitmask b.pages pageOffsets sel).map some

theorem select_replicate {n : Nat} {sel : Option (List Range)} (h : Fitting n sel) (a : α) :
    select sel (List.replicate n a) = List.replicate (selectedRows n sel).length a := by
  rw [select_eq_map h (length_replicate) a, eq_replicate_iff]
  refine ⟨by simp, ?_⟩
  intro x hx
  obtain ⟨_, hi, rfl⟩ := mem_map.mp hx
  have := lt_of_mem_selectedRows h hi
  simp [this]

variable {b : PageBuffer (List Byte)}

/-- The page offsets of a null mask pass the checks, and the last one is the number of bits. -/
theorem nullmaskPages_eq (h : StoredNullmask b bits) :
    nullmaskPages b = .ok b.pageOffsets ∧ b.pageOffsets.getLast?.getD 0 = bits.length := by
  cases h with
  | none n =>
    have ho : (⟨[[]], [0, n]⟩ : PageBuffer (List Byte)).pageOffsets = buildOffsets 0 [n] := by
      simp [buildOffsets]
    refine ⟨?_, by simp⟩
    simp only [nullmaskPages, bufferPages_buildOffsets ho, bind, Except.bind]
    simp [ensure, buildOffsets, pure, Except.pure]
  | @some b parts hp hr hb =>
    have ho := hp.offsets
    have hne : 0 < parts.length := by
      cases parts with
      | nil => simp at hb
      | cons => simp
    have hlast : (buildOffsets 0 ((parts ++ [[]]).map length)).getD
        (parts.length + 2 - 2) 0 = parts.flatten.length := by
      rw [Nat.add_sub_cancel, getD_buildOffsets (by simp), take_left']
      rfl
    have he : (buildOffsets 0 ((parts ++ [[]]).map length)).getD
        (parts.length + 2 - 1) 0 = parts.flatten.length := by
      rw [getD_buildOffsets (by simp), take_of_length_le (by simp)]
      simp
    have hl : (buildOffsets 0 ((parts ++ [[]]).map length)).length = parts.length + 2 := by
      simp
    rw [ho]
    constructor
    · simp only [nullmaskPages, bufferPages_buildOffsets ho, bind, Except.bind, hl, hlast, he]
      simp [ensure, pure, Except.pure]
    · rw [getLast?_buildOffsets]
      simp

/-- A stored null mask reads back as a mask for the selected bits. -/
theorem readNullMask_eq (h : StoredNullmask b bits)
    {sel : Option (List Range)} (hsl : Fitting bits.length sel) :
    ∃ mask, readNullMask b sel = .ok mask ∧ IsMask mask (select sel bits) := by
  have hpg := (nullmaskPages_eq h).1
  cases h with
  | none =>
    refine ⟨none, ?_, ?_⟩
    · simp only [readNullMask, hpg, bind, Except.bind]
      rfl
    · rw [length_replicate] at hsl
      rw [IsMask, select_replicate hsl]
      simp
  | @some b parts hp hr hb =>
    have hf : (parts ++ [[]]).flatten = parts.flatten := by simp
    have hl : ¬ b.pageOffsets.length = 2 := by
      have hne : 0 < parts.length := by
        cases parts with
        | nil => simp at hb
        | cons => simp
      rw [hp.offsets, length_buildOffsets, length_map, length_append, length_singleton]
      omega
    refine ⟨some (select sel parts.flatten), ?_, rfl⟩
    have hrd := @readBitmask_eq (parts ++ [[]])
      (fun part hpr => hr.nonempty part (by simpa using hpr)) sel
      (by rw [hf]; exact hsl)
    simp only [readNullMask, hpg, bind, Except.bind, if_neg hl]
    rw [hp.pages, hp.offsets, hrd, hf]
    rfl

end Nullmask

section Offsets

def readAllOffsets (b : PageBuffer (List Int)) : Except Error (List Nat) := do
  let offsets ← readNative 0 b none
  validateOffsets offsets
  return offsets.map Int.toNat

/-- The offsets of each range, one more than the range has rows. -/
def segments : List Range → List Nat → List (List Nat)
  | [], _ => []
  | r :: ranges, offsets =>
    offsets.take (r.stop - r.start + 1) :: segments ranges (offsets.drop (r.stop - r.start + 1))

/-- Touching ranges become one. The last range so far is held back until it does not grow any
more. -/
def mergeRanges (last : Range) : List Range → List Range
  | [] => [last]
  | r :: ranges =>
    if last.stop = r.start then mergeRanges ⟨last.start, r.stop⟩ ranges
    else last :: mergeRanges r ranges

/-- The ranges of values between the first and the last offset of each segment, without the empty
ones. -/
def valueRanges (segs : List (List Nat)) : List Range :=
  let ranges := segs.map fun seg => (⟨seg.headD 0, seg.getLast?.getD 0⟩ : Range)
  match ranges.filter fun r => r.start < r.stop with
  | [] => []
  | head :: rest => mergeRanges head rest

/-- Each segment is moved to the end of the one before, where its first offset overwrites the
last. -/
def rebase (lastOffset : Nat) (out : List Nat) : List (List Nat) → List Nat
  | [] => out
  | seg :: segs =>
    let moved := seg.map fun o => o - seg.headD 0 + lastOffset
    rebase (moved.getLast?.getD 0) (out.dropLast ++ moved) segs

/-- `read_ranged_offsets`: the offsets of the selected rows and the ranges of their values. -/
def readRangedOffsets (b : PageBuffer (List Int)) (ranges : List Range) :
    Except Error (List Nat × List Range) :=
  if ranges.length = 0 then .ok ([0], [])
  else do
    let offsetRanges ← orPanic "ranges overlap"
      (sealRanges (ranges.map fun r => ⟨r.start, r.stop + 1⟩))
    let offsets ← readNative 0 b (some offsetRanges)
    validateOffsets offsets
    let offsets := offsets.map Int.toNat
    return (rebase 0 [] (segments ranges offsets), valueRanges (segments ranges offsets))

def readOffsets (b : PageBuffer (List Int)) :
    Option (List Range) → Except Error (List Nat × Option (List Range))
  | some ranges => (readRangedOffsets b ranges).map fun (offsets, values) => (offsets, some values)
  | none => (readAllOffsets b).map fun offsets => (offsets, none)

variable {lens : List Nat} {first : Nat}

variable {ranges : List Range}

theorem segments_gather (ho : Ordered ranges) (hb : Below lens.length ranges) :
    segments ranges (gather (ranges.map fun r => ⟨r.start, r.stop + 1⟩) (buildOffsets first lens)) =
      ranges.map fun r => buildOffsets (first + offsetAt lens r.start)
        (lens.extract r.start r.stop) := by
  induction ranges with
  | nil => rfl
  | cons r _ ih =>
    obtain ⟨hr, hrn⟩ := below_cons.mp hb
    have hs := extract_buildOffsets_from first ho.1 hr
    have hl : ((buildOffsets first lens).extract r.start (r.stop + 1)).length =
        r.stop - r.start + 1 := by
      rw [length_extract (by simpa using hr)]
      have := ho.1
      omega
    rw [map_cons, gather_cons, segments, take_left' hl, drop_left' hl,
      ih ho.2.2 hrn, hs, map_cons]

theorem rebase_eq (segs : List (Nat × List Nat)) (done : List Nat) :
    rebase done.sum (buildOffsets 0 done) (segs.map fun q => buildOffsets q.1 q.2) =
      buildOffsets 0 (done ++ segs.flatMap Prod.snd) := by
  induction segs generalizing done with
  | nil => simp [rebase]
  | cons q _ ih =>
    have hh : (buildOffsets q.1 q.2).headD 0 = q.1 := by
      cases q.2 <;> rfl
    have hn := ih (done ++ q.2)
    rw [sum_append] at hn
    have ho := dropLast_buildOffsets_append 0 done q.2
    rw [Nat.zero_add] at ho
    simp only [map_cons, rebase, hh, map_buildOffsets, getLast?_buildOffsets,
      Option.getD_some, ho, hn, flatMap_cons, append_assoc]

theorem sealFrom_eq_mergeRanges {last : Range} (h : Ordered (last :: ranges)) :
    sealFrom last ranges = some (mergeRanges last ranges) := by
  induction ranges generalizing last with
  | nil => rfl
  | cons r _ ih =>
    obtain ⟨_, ha, hr, hrs, ho⟩ := h
    have hle := (above_cons.mp ha).1
    unfold sealFrom mergeRanges
    by_cases hlt : last.stop < r.start
    · rw [if_pos hlt, if_neg (by omega), ih ⟨hr, hrs, ho⟩]
      rfl
    · have heq : last.stop = r.start := by omega
      have hm : last.start ≤ r.stop := by omega
      rw [if_neg hlt, if_pos heq, if_pos heq]
      exact @ih ⟨last.start, r.stop⟩ ⟨hm, hrs, ho⟩

theorem gather_filter_nonempty (h : Ordered ranges) (vals : List α) :
    gather ((ranges.filter fun r => r.start < r.stop)) vals = gather ranges vals := by
  induction ranges with
  | nil => rfl
  | cons r _ ih =>
    rw [gather_cons, ← ih h.2.2]
    by_cases hr : r.start < r.stop
    · rw [filter_cons_of_pos (by simpa using hr), gather_cons]
    · have hzero : r.stop - r.start = 0 := by omega
      rw [filter_cons_of_neg (by simpa using hr), extract_eq_take_drop, hzero]
      rfl

/-- The value ranges of ordered offset ranges are canonical, and they gather the same values. -/
theorem valueRanges_spec {segs : List (List Nat)} {n : Nat}
    (hs : segs.map (fun seg => (⟨seg.headD 0, seg.getLast?.getD 0⟩ : Range)) = ranges)
    (ho : Ordered ranges) (hb : Below n ranges) :
    Fitting n (some (valueRanges segs)) ∧
      ∀ {β : Type} (vals : List β), gather (valueRanges segs) vals = gather ranges vals := by
  have hf : Ordered (ranges.filter fun r => r.start < r.stop) := ho.filter _
  have hne : ∀ r ∈ ranges.filter fun r => r.start < r.stop, r.start < r.stop := by
    intro r hr
    simpa using (mem_filter.mp hr).2
  have hfb : Below n (ranges.filter fun r => r.start < r.stop) :=
    fun r hr => hb r (mem_filter.mp hr).1
  have hv : sealRanges (ranges.filter fun r => r.start < r.stop) = some (valueRanges segs) := by
    simp only [valueRanges, hs]
    cases hls : ranges.filter fun r => decide (r.start < r.stop) with
    | nil => rfl
    | cons => exact sealFrom_eq_mergeRanges (hls ▸ hf)
  constructor
  · intro l hl
    cases hl
    exact ⟨canonical_sealRanges hf hne hv, below_sealRanges hf hfb hv⟩
  · intro β vals
    rw [gather_sealRanges hf hv, gather_filter_nonempty ho]

/-- The selected offsets start anew at zero. -/
theorem rebase_segments (hne : ranges ≠ []) :
    rebase 0 [] (ranges.map fun r => buildOffsets (first + offsetAt lens r.start)
      (lens.extract r.start r.stop)) = buildOffsets 0 (gather ranges lens) := by
  have hr := rebase_eq (ranges.map fun r =>
    (first + offsetAt lens r.start, lens.extract r.start r.stop)) []
  rw [map_map, flatMap_map, nil_append] at hr
  cases ranges with
  | nil => exact absurd rfl hne
  | cons => exact hr

/-- The rows of a range have their values between its first and its last offset. -/
theorem bounds_segments (ho : Ordered ranges) :
    (ranges.map fun r => buildOffsets (first + offsetAt lens r.start)
      (lens.extract r.start r.stop)).map (fun seg => (⟨seg.headD 0, seg.getLast?.getD 0⟩ : Range)) =
        ranges.map fun r => ⟨first + offsetAt lens r.start, first + offsetAt lens r.stop⟩ := by
  induction ranges with
  | nil => rfl
  | cons r _ ih =>
    have hm := offsetAt_mono lens ho.1
    have hh : (buildOffsets (first + offsetAt lens r.start)
        (lens.extract r.start r.stop)).headD 0 = first + offsetAt lens r.start := by
      cases lens.extract r.start r.stop <;> rfl
    rw [map_cons, map_cons, ih ho.2.2, map_cons, hh, getLast?_buildOffsets,
      Option.getD_some, sum_extract lens ho.1, Nat.add_assoc, Nat.add_sub_of_le hm]

variable {b : PageBuffer (List Int)}

/-- The offsets of the selected rows as they are read: those of each range with the end of its last
row. -/
theorem readNative_offsets
    (h : Stored 1 id b ((buildOffsets first lens).map Int.ofNat)) (hc : Canonical ranges)
    (hb : Below lens.length ranges) :
    ∃ offsetRanges, sealRanges (ranges.map fun r => ⟨r.start, r.stop + 1⟩) = some offsetRanges ∧
      readNative 0 b (some offsetRanges) =
        .ok ((gather (ranges.map fun r => ⟨r.start, r.stop + 1⟩)
          (buildOffsets first lens)).map Int.ofNat) := by
  have hw := hc.widen
  have hwB : Below ((buildOffsets first lens).map Int.ofNat).length
      (ranges.map fun r => (⟨r.start, r.stop + 1⟩ : Range)) := by
    intro r hr
    obtain ⟨r', hr', rfl⟩ := mem_map.mp hr
    have := hb r' hr'
    simpa using this
  have hwN : ∀ r ∈ ranges.map fun r => (⟨r.start, r.stop + 1⟩ : Range), r.start < r.stop := by
    intro r hr
    obtain ⟨r', hr', rfl⟩ := mem_map.mp hr
    have := hc.nonempty r' hr'
    simp only
    omega
  obtain ⟨offsetRanges, hs, _⟩ := sealRanges_sealed hw
  have hf : Fitting ((buildOffsets first lens).map Int.ofNat).length (some offsetRanges) := by
    intro l hl
    cases hl
    exact ⟨canonical_sealRanges hw hwN hs, below_sealRanges hw hwB hs⟩
  refine ⟨offsetRanges, hs, ?_⟩
  rw [readNative_eq h hf 0, select, Option.elim_some, gather_sealRanges hw hs, gather_map]

theorem readRangedOffsets_eq
    (h : Stored 1 id b ((buildOffsets first lens).map Int.ofNat)) (hne : ranges ≠ [])
    (hc : Canonical ranges) (hb : Below lens.length ranges) :
    readRangedOffsets b ranges = .ok (buildOffsets 0 (gather ranges lens),
      valueRanges (ranges.map fun r => buildOffsets (first + offsetAt lens r.start)
        (lens.extract r.start r.stop))) := by
  obtain ⟨_, hsl, hr⟩ := readNative_offsets h hc hb
  have hsg := @segments_gather lens first _ hc.ordered hb
  have hvalid : validateOffsets ((gather (ranges.map fun r => ⟨r.start, r.stop + 1⟩)
      (buildOffsets first lens)).map Int.ofNat) = .ok () := by
    apply validateOffsets_map_ofNat
    · intro hn
      cases ranges with
      | nil => exact hne rfl
      | cons r ranges =>
        have := congrArg (segments (r :: ranges)) hn
        rw [hsg] at this
        simp [segments, buildOffsets_ne_nil] at this
    · have hs := gather_sublist hc.widen (n := 0) (fun r _ => Nat.zero_le _)
        (buildOffsets first lens)
      exact (pairwise_buildOffsets first lens).sublist hs
  have hl : ¬ ranges.length = 0 := by simpa using hne
  simp only [readRangedOffsets, if_neg hl, hsl, orPanic, Option.elim_some, bind, Except.bind,
    hr, hvalid, map_toNat_ofNat, hsg, rebase_segments hne]
  rfl

/-- The selected offsets start anew, and the value ranges gather the values of the selected rows. -/
theorem readRangedOffsets_spec
    (h : Stored 1 id b ((buildOffsets first lens).map Int.ofNat)) (hc : Canonical ranges)
    (hb : Below lens.length ranges) :
    ∃ values, readRangedOffsets b ranges = .ok (buildOffsets 0 (gather ranges lens), values) ∧
      Fitting (first + lens.sum) (some values) ∧
        ∀ {β : Type} (vals : List β),
          gather values vals = (gather ranges (splitLengths lens (vals.drop first))).flatten := by
  by_cases he : ranges = []
  · subst he
    refine ⟨[], rfl, fun l hl => ?_, fun vals => rfl⟩
    cases hl
    exact ⟨trivial, by simp [Below]⟩
  have hvr : Ordered (ranges.map fun r =>
      (⟨first + offsetAt lens r.start, first + offsetAt lens r.stop⟩ : Range)) :=
    hc.ordered.map fun h => Nat.add_le_add_left (offsetAt_mono lens h) first
  have hv : Below (first + lens.sum) (ranges.map fun r =>
      (⟨first + offsetAt lens r.start, first + offsetAt lens r.stop⟩ : Range)) := by
    intro r hr
    obtain ⟨r', _, rfl⟩ := mem_map.mp hr
    exact Nat.add_le_add_left (offsetAt_le_sum lens r'.stop) first
  obtain ⟨hf, hg⟩ := valueRanges_spec (bounds_segments hc.ordered) hvr hv
  refine ⟨_, readRangedOffsets_eq h he hc hb, hf, fun vals => ?_⟩
  simp only [hg, gather_map_ranges, flatten_gather]
  apply flatMap_congr
  intro r hr
  rw [flatten_extract_splitLengths lens (hc.nonempty r hr).le, extract_eq_take_drop,
    extract_eq_take_drop, drop_drop, Nat.add_sub_add_left]

/-- Stored offsets read back as the offsets of the selected rows, with a selection of the values of
these rows. -/
theorem readOffsets_eq (h : Stored 1 id b ((buildOffsets 0 lens).map Int.ofNat))
    {sel : Option (List Range)} (hs : Fitting lens.length sel) :
    ∃ values, readOffsets b sel = .ok (buildOffsets 0 (select sel lens), values) ∧
      Fitting lens.sum values ∧
        ∀ {β : Type} (vals : List β), vals.length = lens.sum →
          select values vals = (select sel (splitLengths lens vals)).flatten := by
  cases sel with
  | none =>
    have hr := readNative_eq h (fitting_none _) 0
    have hvalid := validateOffsets_map_ofNat (buildOffsets_ne_nil 0 lens)
      (pairwise_buildOffsets 0 lens)
    refine ⟨none, ?_, fitting_none _, ?_⟩
    · simp only [readOffsets, readAllOffsets, hr, select, Option.elim_none, bind, Except.bind,
        hvalid, map_toNat_ofNat]
      rfl
    · intro β vals hv
      simp only [select, Option.elim_none, flatten_splitLengths, ← hv, take_length]
  | some ranges =>
    obtain ⟨hc, hb⟩ := hs ranges rfl
    obtain ⟨values, hr, hf, hg⟩ := readRangedOffsets_spec h hc hb
    rw [Nat.zero_add] at hf
    refine ⟨some values, by rw [readOffsets, hr]; rfl, hf, fun vals _ => ?_⟩
    exact hg vals

end Offsets

end Storage
