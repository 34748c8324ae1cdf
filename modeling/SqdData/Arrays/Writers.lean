import SqdData.Arrays.Contents
import SqdData.Storage.Data

/-!
# Writing arrays

An array is written to a sequence of buffer writers, a range of rows at a time. What a buffer writer
does with the data is left to the writer: it may keep it in memory or store it in pages. All that is
needed of it is that it holds what was written so far.
-/

namespace Arrays

open List hiding splitLengths flatten_splitLengths length_splitLengths

open Arrow Paging Primitives Storage

structure Writer where
  Nullmask : Type
  Bitmask : Type
  Native : Type
  Bytes : Type
  Offset : Type
  nullmaskSlice : Nullmask → List Bool → Nullmask
  nullmaskMany : Nullmask → Bool → Nat → Nullmask
  bitmaskSlice : Bitmask → List Bool → Bitmask
  nativeSlice : Native → List Int → Native
  bytesSlice : Bytes → List Byte → Bytes
  offsetSlice : Offset → List Nat → Offset

/-- What buffer writers hold: each write appends to it. Offsets are appended as the lengths between
them. -/
structure Writer.Laws (W : Writer) where
  HoldsNullmask : W.Nullmask → List Bool → Prop
  HoldsBitmask : W.Bitmask → List Bool → Prop
  HoldsNative : W.Native → List Int → Prop
  HoldsBytes : W.Bytes → List Byte → Prop
  HoldsOffset : W.Offset → List Nat → Prop
  nullmaskSlice : ∀ {w bits} more, HoldsNullmask w bits →
    HoldsNullmask (W.nullmaskSlice w more) (bits ++ more)
  nullmaskMany : ∀ {w bits} val count, HoldsNullmask w bits →
    HoldsNullmask (W.nullmaskMany w val count) (bits ++ List.replicate count val)
  bitmaskSlice : ∀ {w bits} more, HoldsBitmask w bits →
    HoldsBitmask (W.bitmaskSlice w more) (bits ++ more)
  nativeSlice : ∀ {w items} more, HoldsNative w items →
    HoldsNative (W.nativeSlice w more) (items ++ more)
  bytesSlice : ∀ {w items} more, HoldsBytes w items →
    HoldsBytes (W.bytesSlice w more) (items ++ more)
  offsetSlice : ∀ {w lens offsets}, offsets ≠ [] → offsets.Pairwise (· ≤ ·) → HoldsOffset w lens →
    HoldsOffset (W.offsetSlice w offsets) (lens ++ lengthsOf offsets)

inductive AnyWriter (W : Writer) where
  | nullmask (w : W.Nullmask)
  | bitmask (w : W.Bitmask)
  | native (w : W.Native)
  | bytes (w : W.Bytes)
  | offsets (w : W.Offset)

variable {W : Writer}

inductive Holds (L : W.Laws) : AnyWriter W → Content → Prop
  | nullmask {w : W.Nullmask} {bits : List Bool} (h : L.HoldsNullmask w bits) :
      Holds L (.nullmask w) (.nullmask bits)
  | bitmask {w : W.Bitmask} {bits : List Bool} (h : L.HoldsBitmask w bits) :
      Holds L (.bitmask w) (.bitmask bits)
  | native {w : W.Native} {items : List Int} (h : L.HoldsNative w items) :
      Holds L (.native w) (.native items)
  | bytes {w : W.Bytes} {items : List Byte} (h : L.HoldsBytes w items) :
      Holds L (.bytes w) (.bytes items)
  | offsets {w : W.Offset} {lens : List Nat} (h : L.HoldsOffset w lens) :
      Holds L (.offsets w) (.lengths lens)

section WriteRange

def writeNulls (nulls : Option (List Bool)) (s e : Nat) (w : W.Nullmask) : W.Nullmask :=
  if e ≤ s then w
  else
    match nulls with
    | some bits => W.nullmaskSlice w (bits.extract s e)
    | none => W.nullmaskMany w true (e - s)

def writeBits (bits : List Bool) (s e : Nat) (w : W.Bitmask) : W.Bitmask :=
  if e ≤ s then w else W.bitmaskSlice w (bits.extract s e)

mutual

def numBuffers : ArrayData → Nat
  | .boolean _ _ => 2
  | .primitive _ _ => 2
  | .binary _ _ _ => 3
  | .fixedSizeBinary _ _ _ => 2
  | .list _ _ values => 2 + numBuffers values
  | .struct _ _ columns => 1 + numColumnBuffers columns

def numColumnBuffers : List ArrayData → Nat
  | [] => 0
  | column :: columns => numBuffers column + numColumnBuffers columns

end

mutual

/-- The number of entries in the buffers of an array, and of the items that its offsets lead to. -/
def bufferSize : ArrayData → Nat
  | .boolean _ values => 2 * values.length
  | .primitive _ values => 2 * values.length
  | .binary _ offsets values => 2 * (offsets.length - 1) + 2 * values.length
  | .fixedSizeBinary size _ values => values.length / size + values.length
  | .list _ offsets values => 2 * (offsets.length - 1) + values.len + bufferSize values
  | .struct len _ columns => len + columnsSize columns

def columnsSize : List ArrayData → Nat
  | [] => 0
  | column :: columns => bufferSize column + columnsSize columns

end

mutual

/-- `write_range` of a slice: the rows from `s` to `e` go to the first buffers of `dst`. -/
def writeRange (W : Writer) : ArrayData → Nat → Nat → List (AnyWriter W) →
    Except Error (List (AnyWriter W))
  | .boolean nulls values, s, e, .nullmask n :: .bitmask v :: dst =>
    .ok (.nullmask (writeNulls nulls s e n) :: .bitmask (writeBits values s e v) :: dst)
  | .primitive nulls values, s, e, .nullmask n :: .native v :: dst =>
    .ok (.nullmask (writeNulls nulls s e n) ::
      .native (W.nativeSlice v (values.extract s e)) :: dst)
  | .binary nulls offsets values, s, e, .nullmask n :: .offsets o :: .bytes v :: dst =>
    if e ≤ s then .ok (.nullmask n :: .offsets o :: .bytes v :: dst)
    else
      .ok (.nullmask (writeNulls nulls s e n) ::
        .offsets (W.offsetSlice o (offsets.extract s (e + 1))) ::
          .bytes (W.bytesSlice v (values.extract (offsets.getD s 0) (offsets.getD e 0))) :: dst)
  | .fixedSizeBinary size nulls values, s, e, .nullmask n :: .bytes v :: dst =>
    if e ≤ s then .ok (.nullmask n :: .bytes v :: dst)
    else
      .ok (.nullmask (writeNulls nulls s e n) ::
        .bytes (W.bytesSlice v (values.extract (s * size) (e * size))) :: dst)
  | .list nulls offsets values, s, e, .nullmask n :: .offsets o :: dst =>
    if e ≤ s then .ok (.nullmask n :: .offsets o :: dst)
    else
      (writeRange W values (offsets.getD s 0) (offsets.getD e 0) dst).map fun dst =>
        .nullmask (writeNulls nulls s e n) ::
          .offsets (W.offsetSlice o (offsets.extract s (e + 1))) :: dst
  | .struct _ nulls columns, s, e, .nullmask n :: dst =>
    (writeColumns W columns s e dst).map (.nullmask (writeNulls nulls s e n) :: ·)
  | _, _, _, _ => .error (.text "invalid arrow buffer access")

/-- The columns are written one after the other, each to its own buffers. -/
def writeColumns (W : Writer) : List ArrayData → Nat → Nat → List (AnyWriter W) →
    Except Error (List (AnyWriter W))
  | [], _, _, dst => .ok dst
  | column :: columns, s, e, dst => do
    let dst ← writeRange W column s e dst
    let rest ← writeColumns W columns s e (dst.drop (numBuffers column))
    return dst.take (numBuffers column) ++ rest

end

end WriteRange

section Specs

variable {L : W.Laws}

variable {nulls : Option (List Bool)} {len : Nat} {bits : List Bool}

theorem holds_writeNulls {s e : Nat} {w : W.Nullmask} (he : e ≤ len) (h : L.HoldsNullmask w bits) :
    L.HoldsNullmask (writeNulls nulls s e w) (bits ++ (maskBits nulls len).extract s e) := by
  unfold writeNulls
  by_cases hem : e ≤ s
  · rw [if_pos hem, extract_of_le hem, append_nil]
    exact h
  · rw [if_neg hem]
    cases nulls with
    | some => exact L.nullmaskSlice _ h
    | none =>
      have hm : (maskBits none len).extract s e = replicate (e - s) true := by
        simp only [maskBits, Option.getD_none, extract_eq_take_drop, drop_replicate, take_replicate]
        congr 1
        omega
      rw [hm]
      exact L.nullmaskMany true (e - s) h

theorem holds_writeBits {values : List Bool} {s e : Nat} {w : W.Bitmask}
    (h : L.HoldsBitmask w bits) :
    L.HoldsBitmask (writeBits values s e w) (bits ++ values.extract s e) := by
  unfold writeBits
  by_cases he : e ≤ s
  · rw [if_pos he, extract_of_le he, append_nil]
    exact h
  · rw [if_neg he]
    exact L.bitmaskSlice _ h

/-- The values after a write: masks and values are appended alike. -/
theorem applyMask_written {before values : List Value} {n s e : Nat} (hbt : bits.length = n)
    (hb : before.length = n) (hv : values.length = len) :
    applyMask (bits ++ (maskBits nulls len).extract s e) (before ++ values.extract s e) =
      applyMask bits before ++ (masked nulls values).extract s e := by
  rw [applyMask_append (by rw [hbt, hb]), applyMask_extract, masked_eq hv]

theorem length_written {n s e : Nat} (hb : bits.length = n) (hn : MaskFits nulls len)
    (he : e ≤ len) : (bits ++ (maskBits nulls len).extract s e).length = n + (e - s) := by
  rw [length_append, hb, length_extract (by rw [length_maskBits hn]; exact he)]

theorem length_append_extract_le {α : Type} (items values : List α) (s e : Nat) :
    (items ++ values.extract s e).length ≤ items.length + values.length := by
  rw [length_append, extract_eq_take_drop, length_take, length_drop]
  omega

theorem length_written_le {s e : Nat} (bits : List Bool) (hn : MaskFits nulls len) :
    (bits ++ (maskBits nulls len).extract s e).length ≤ bits.length + len := by
  have h := length_append_extract_le bits (maskBits nulls len) s e
  rwa [length_maskBits hn] at h

/-- Rows appended to variable-length values. -/
structure AppendedRows (offsets lens : List Nat) (n s e : Nat) : Prop where
  nonempty : offsets.extract s (e + 1) ≠ []
  ascending : (offsets.extract s (e + 1)).Pairwise (· ≤ ·)
  length : (lens ++ lengthsOf (offsets.extract s (e + 1))).length = n + (e - s)
  sum : (lens ++ lengthsOf (offsets.extract s (e + 1))).sum =
    lens.sum + (offsets.getD e 0 - offsets.getD s 0)
  mono : offsets.getD s 0 ≤ offsets.getD e 0
  rows : ∀ {α : Type} (items values : List α), items.length = lens.sum →
    splitLengths (lens ++ lengthsOf (offsets.extract s (e + 1)))
      (items ++ values.extract (offsets.getD s 0) (offsets.getD e 0)) =
        splitLengths lens items ++ (rowsAt offsets values).extract s e

variable {offsets : List Nat}

theorem appendedRows {lens : List Nat} {n m s e : Nat} (h : ValidOffsets offsets m)
    (hln : lens.length = n) (hse : s ≤ e) (he : e ≤ offsets.length - 1) :
    AppendedRows offsets lens n s e := by
  have hp : 0 < offsets.length := length_pos_iff.mpr h.nonempty
  have hlt : e < offsets.length := by omega
  have hvalid := h.extract hse hlt
  have hh := @headD_extract e s offsets hse
  have hlast := getLastD_extract hse hlt
  obtain ⟨o, rest, hl⟩ : ∃ o rest, offsets.extract s (e + 1) = o :: rest :=
    exists_cons_of_ne_nil hvalid.nonempty
  have hsum := sum_lengthsOf (hl ▸ hvalid.ascending)
  rw [hl] at hh hlast
  rw [headD_cons] at hh
  refine ⟨hvalid.nonempty, hvalid.ascending, ?_, ?_, ?_, ?_⟩
  · rw [length_append, hln, length_lengthsOf, length_extract hlt]
    omega
  · rw [hl, sum_append]
    omega
  · omega
  · intro α items values hi
    have hr := rowsAt_eq hvalid values
    rw [rowsAt_extract hse, headD_extract hse, getLastD_extract hse hlt] at hr
    rw [splitLengths_append hi, ← hr]

mutual

theorem numBuffers_eq : (type : DataType) → {array : ArrayData} → WellFormed type array →
    numBuffers array = getNumBuffers type
  | .null, array, h => by cases array <;> exact h.elim
  | .boolean, array, h | .int _, array, h | .primitive _, array, h | .utf8, array, h
  | .binary, array, h | .fixedSizeBinary _, array, h => by
    cases array <;> first | exact h.elim | rfl
  | .list item, .list _ _ values, h => by
    rw [numBuffers, getNumBuffers, numBuffers_eq item h.2.2]
  | .struct fields, .struct _ _ columns, h => by
    rw [numBuffers, getNumBuffers, numColumnBuffers_eq fields h.2]

theorem numColumnBuffers_eq : (fields : List (String × DataType)) → {len : Nat} →
    {columns : List ArrayData} → WellFormedAll fields len columns →
      numColumnBuffers columns = getNumFieldBuffers fields
  | [], _, [], _ => rfl
  | (_, type) :: fields, _, column :: columns, h => by
    rw [numColumnBuffers, getNumFieldBuffers, numBuffers_eq type h.2.1,
      numColumnBuffers_eq fields h.2.2]

end

/-- Writing a range of rows appends their values to what the buffers hold, which grows by no more
than the array. The buffers after those of the type are left alone. -/
def Writes (L : W.Laws) (type : DataType) (array : ArrayData) : Prop :=
  ∀ {n s e : Nat} {contents : List Content} {values : List Value} {dst : List (AnyWriter W)},
    Decodes type n contents values → List.Forall₂ (Holds L) dst contents → s ≤ e → e ≤ array.len →
    ∀ rest : List (AnyWriter W), ∃ dst' contents',
      writeRange W array s e (dst ++ rest) = .ok (dst' ++ rest) ∧
      List.Forall₂ (Holds L) dst' contents' ∧
        contentsSize contents' ≤ contentsSize contents + bufferSize array ∧
        Decodes type (n + (e - s)) contents' (values ++ array.toValues.extract s e)

def WritesAll (L : W.Laws) (fields : List (String × DataType)) (len : Nat)
    (columns : List ArrayData) : Prop :=
  ∀ {n s e : Nat} {contents : List Content} {values : List (List Value)}
    {dst : List (AnyWriter W)},
    DecodesAll fields n contents values → List.Forall₂ (Holds L) dst contents → s ≤ e → e ≤ len →
    ∀ rest : List (AnyWriter W), ∃ dst' contents',
      writeColumns W columns s e (dst ++ rest) = .ok (dst' ++ rest) ∧
      List.Forall₂ (Holds L) dst' contents' ∧
        contentsSize contents' ≤ contentsSize contents + columnsSize columns ∧
        DecodesAll fields (n + (e - s)) contents'
          (List.zipWith (· ++ ·) values ((toColumns columns).map fun c => c.extract s e))

section Inversion

variable {dst : List (AnyWriter W)} {contents : List Content}

theorem holds_nullmask (h : List.Forall₂ (Holds L) dst (.nullmask bits :: contents)) :
    ∃ w others, dst = .nullmask w :: others ∧ L.HoldsNullmask w bits ∧
      List.Forall₂ (Holds L) others contents := by
  obtain ⟨_, others, hw, ho, rfl⟩ := forall₂_cons_right_iff.mp h
  cases hw with
  | nullmask hw => exact ⟨_, others, rfl, hw, ho⟩

theorem holds_bitmask (h : List.Forall₂ (Holds L) dst (.bitmask bits :: contents)) :
    ∃ w others, dst = .bitmask w :: others ∧ L.HoldsBitmask w bits ∧
      List.Forall₂ (Holds L) others contents := by
  obtain ⟨_, others, hw, ho, rfl⟩ := forall₂_cons_right_iff.mp h
  cases hw with
  | bitmask hw => exact ⟨_, others, rfl, hw, ho⟩

theorem holds_native {items : List Int}
    (h : List.Forall₂ (Holds L) dst (.native items :: contents)) :
    ∃ w others, dst = .native w :: others ∧ L.HoldsNative w items ∧
      List.Forall₂ (Holds L) others contents := by
  obtain ⟨_, others, hw, ho, rfl⟩ := forall₂_cons_right_iff.mp h
  cases hw with
  | native hw => exact ⟨_, others, rfl, hw, ho⟩

theorem holds_bytes {items : List Byte}
    (h : List.Forall₂ (Holds L) dst (.bytes items :: contents)) :
    ∃ w others, dst = .bytes w :: others ∧ L.HoldsBytes w items ∧
      List.Forall₂ (Holds L) others contents := by
  obtain ⟨_, others, hw, ho, rfl⟩ := forall₂_cons_right_iff.mp h
  cases hw with
  | bytes hw => exact ⟨_, others, rfl, hw, ho⟩

theorem holds_lengths {lens : List Nat}
    (h : List.Forall₂ (Holds L) dst (.lengths lens :: contents)) :
    ∃ w others, dst = .offsets w :: others ∧ L.HoldsOffset w lens ∧
      List.Forall₂ (Holds L) others contents := by
  obtain ⟨_, others, hw, ho, rfl⟩ := forall₂_cons_right_iff.mp h
  cases hw with
  | offsets hw => exact ⟨_, others, rfl, hw, ho⟩

end Inversion

/-- Nothing is written for an empty range. -/
theorem written_nothing {type : DataType} {array : ArrayData} {n s e : Nat}
    {contents : List Content}
    {values : List Value} {dst rest : List (AnyWriter W)} (hd : Decodes type n contents values)
    (hh : List.Forall₂ (Holds L) dst contents) (he : e ≤ s)
    (hw : writeRange W array s e (dst ++ rest) = .ok (dst ++ rest)) :
    ∃ dst' contents', writeRange W array s e (dst ++ rest) = .ok (dst' ++ rest) ∧
      List.Forall₂ (Holds L) dst' contents' ∧
        contentsSize contents' ≤ contentsSize contents + bufferSize array ∧
        Decodes type (n + (e - s)) contents' (values ++ array.toValues.extract s e) := by
  refine ⟨dst, contents, hw, hh, Nat.le_add_right _ _, ?_⟩
  rw [extract_of_le he, append_nil, Nat.sub_eq_zero_of_le he, Nat.add_zero]
  exact hd

theorem writes_boolean {values : List Bool} (h : MaskFits nulls values.length) :
    Writes L .boolean (.boolean nulls values) := by
  intro n s e contents before dst hd hh hse he rest
  obtain ⟨bits, items, rfl, hb, hi, rfl⟩ := hd
  obtain ⟨_, _, rfl, hn, hh⟩ := holds_nullmask hh
  obtain ⟨_, _, rfl, hv, hh⟩ := holds_bitmask hh
  cases hh
  refine ⟨_, _, rfl, .cons (.nullmask (holds_writeNulls he hn))
    (.cons (.bitmask (holds_writeBits hv)) .nil), ?_, _, _, rfl, length_written hb h he, ?_, ?_⟩
  · have hm := @length_written_le _ _ s e bits h
    have hl := length_append_extract_le items values s e
    simp only [contentsSize_cons, contentsSize_nil, Content.size, ArrayData.len, bufferSize]
    omega
  · rw [length_append, hi, length_extract he]
  · rw [map_append, map_extract]
    exact (applyMask_written hb (by simpa using hi) (length_map _)).symm

theorem writes_primitive (type : IntType) {values : List Int} (h : MaskFits nulls values.length) :
    Writes L (.int type) (.primitive nulls values) := by
  intro n s e contents before dst hd hh hse he rest
  obtain ⟨bits, items, rfl, hb, hi, rfl⟩ := hd
  obtain ⟨_, _, rfl, hn, hh⟩ := holds_nullmask hh
  obtain ⟨_, _, rfl, hv, hh⟩ := holds_native hh
  cases hh
  refine ⟨_, _, rfl, .cons (.nullmask (holds_writeNulls he hn))
    (.cons (.native (L.nativeSlice _ hv)) .nil), ?_, _, _, rfl, length_written hb h he, ?_, ?_⟩
  · have hm := @length_written_le _ _ s e bits h
    have hl := length_append_extract_le items values s e
    simp only [contentsSize_cons, contentsSize_nil, Content.size, ArrayData.len, bufferSize]
    omega
  · rw [length_append, hi, length_extract he]
  · rw [map_append, map_extract]
    exact (applyMask_written hb (by simpa using hi) (length_map _)).symm

/-- Values of binary and string arrays. -/
theorem writes_binary {values : List Byte} (h : MaskFits nulls (offsets.length - 1))
    (ho : ValidOffsets offsets values.length) :
    Writes L .binary (.binary nulls offsets values) := by
  intro n s e contents before dst hd hh hse he rest
  have hd₀ := hd
  have hh₀ := hh
  obtain ⟨bits, lens, items, rfl, hb, hl, hi, rfl⟩ := hd
  obtain ⟨_, _, rfl, hn, hh⟩ := holds_nullmask hh
  obtain ⟨_, _, rfl, hof, hh⟩ := holds_lengths hh
  obtain ⟨_, _, rfl, hv, hh⟩ := holds_bytes hh
  cases hh
  by_cases hem : e ≤ s
  · exact written_nothing hd₀ hh₀ hem (if_pos hem)
  · have hr := appendedRows ho hl hse he
    have hen := ho.getD_le he
    refine ⟨_, _, by simp only [cons_append, writeRange, if_neg hem]; rfl,
      .cons (.nullmask (holds_writeNulls he hn))
        (.cons (.offsets (L.offsetSlice hr.nonempty hr.ascending hof))
          (.cons (.bytes (L.bytesSlice _ hv)) .nil)),
      ?_, _, _, _, rfl, length_written hb h he, hr.length, ?_, ?_⟩
    · have hm := @length_written_le _ _ s e bits h
      have hz := length_append_extract_le items values (offsets.getD s 0) (offsets.getD e 0)
      have hle : e ≤ offsets.length - 1 := he
      simp only [contentsSize_cons, contentsSize_nil, Content.size, ArrayData.len, hr.length,
        hr.sum, bufferSize]
      omega
    · rw [length_append, hi, length_extract hen, hr.sum]
    · rw [hr.rows items values hi, map_append, map_extract]
      exact (applyMask_written hb (by simpa using hl) (by rw [length_map, length_rowsAt]; rfl)).symm

theorem extract_splitLengths_replicate {α : Type} {size m s e : Nat} {items : List α} (hse : s ≤ e)
    (he : e ≤ m) : (splitLengths (List.replicate m size) items).extract s e =
      splitLengths (List.replicate (e - s) size) (items.extract (s * size) (e * size)) := by
  have hr : (replicate m size).extract s e = replicate (e - s) size := by
    rw [extract_eq_take_drop, drop_replicate, take_replicate, Nat.min_eq_left (by omega)]
  have ho : ∀ i ≤ m, offsetAt (replicate m size) i = i * size := by
    intro i hi
    rw [offsetAt, take_replicate, Nat.min_eq_left hi, sum_replicate_nat]
  rw [extract_splitLengths _ hse, hr, ho s (hse.trans he), ho e he]

theorem writes_fixedSizeBinary {size : Nat} {values : List Byte}
    (hv : values.length = values.length / size * size) (h : MaskFits nulls (values.length / size)) :
    Writes L (.fixedSizeBinary size) (.fixedSizeBinary size nulls values) := by
  intro n s e contents before dst hd hh hse he rest
  have hd₀ := hd
  have hh₀ := hh
  obtain ⟨bits, items, rfl, hb, hi, rfl⟩ := hd
  obtain ⟨_, _, rfl, hn, hh⟩ := holds_nullmask hh
  obtain ⟨_, _, rfl, hvl, hh⟩ := holds_bytes hh
  cases hh
  by_cases hem : e ≤ s
  · exact written_nothing hd₀ hh₀ hem (if_pos hem)
  · have hen : e * size ≤ values.length := by
      rw [hv]
      exact Nat.mul_le_mul_right size he
    refine ⟨_, _, by simp only [cons_append, writeRange, if_neg hem]; rfl,
      .cons (.nullmask (holds_writeNulls he hn)) (.cons (.bytes (L.bytesSlice _ hvl)) .nil),
      ?_, _, _, rfl, length_written hb h he, ?_, ?_⟩
    · have hm := @length_written_le _ _ s e bits h
      have hz := length_append_extract_le items values (s * size) (e * size)
      simp only [contentsSize_cons, contentsSize_nil, Content.size, ArrayData.len, bufferSize]
      omega
    · rw [length_append, hi, length_extract hen, Nat.add_mul, Nat.sub_mul]
    · have hs : splitLengths (replicate (n + (e - s)) size)
          (items ++ values.extract (s * size) (e * size)) = splitLengths (replicate n size) items ++
              (splitLengths (replicate (values.length / size) size) values).extract s e := by
        rw [replicate_add, splitLengths_append (by simpa using hi),
          @extract_splitLengths_replicate _ size (values.length / size) s e values hse he]
      rw [hs, map_append, map_extract]
      exact (applyMask_written hb (by simp) (by simp [ArrayData.len])).symm

theorem writes_list {item : DataType} {values : ArrayData}
    (h : MaskFits nulls (offsets.length - 1)) (ho : ValidOffsets offsets values.len)
    (hv : Writes L item values) : Writes L (.list item) (.list nulls offsets values) := by
  intro n s e contents before dst hd hh hse he rest
  have hd₀ := hd
  have hh₀ := hh
  obtain ⟨bits, _, _, items, rfl, hb, hl, hi, rfl⟩ := hd
  obtain ⟨_, _, rfl, hn, hh⟩ := holds_nullmask hh
  obtain ⟨_, _, rfl, hof, hh⟩ := holds_lengths hh
  by_cases hem : e ≤ s
  · refine written_nothing hd₀ hh₀ hem ?_
    simp only [cons_append, writeRange, if_pos hem]
  · have hr := appendedRows ho hl hse he
    have hen := ho.getD_le he
    obtain ⟨_, _, hw, hh', hz, hd'⟩ := hv hi hh hr.mono hen rest
    rw [← hr.sum] at hd'
    refine ⟨_, _, by simp only [cons_append, writeRange, if_neg hem, hw]; rfl,
      .cons (.nullmask (holds_writeNulls he hn))
        (.cons (.offsets (L.offsetSlice hr.nonempty hr.ascending hof)) hh'),
      ?_, _, _, _, _, rfl, length_written hb h he, hr.length, hd', ?_⟩
    · have hm : (bits ++ (maskBits nulls (ArrayData.list nulls offsets values).len).extract s
          e).length ≤ bits.length + (offsets.length - 1) := length_written_le bits h
      have hle : e ≤ offsets.length - 1 := he
      simp only [contentsSize_cons, Content.size, hr.length, hr.sum, bufferSize]
      omega
    rw [hr.rows items values.toValues hi.length_values, map_append, map_extract]
    exact (applyMask_written hb (by simpa using hl) (by rw [length_map, length_rowsAt]; rfl)).symm

theorem writes_struct {fields : List (String × DataType)} {columns : List ArrayData}
    (h : MaskFits nulls len) (hwf : WellFormedAll fields len columns)
    (hc : WritesAll L fields len columns) :
    Writes L (.struct fields) (.struct len nulls columns) := by
  intro n s e contents before dst hd hh hse he rest
  obtain ⟨bits, _, values, rfl, hb, hi, rfl⟩ := hd
  obtain ⟨_, _, rfl, hn, hh⟩ := holds_nullmask hh
  obtain ⟨_, _, hw, hh', hz, hd'⟩ := hc hi hh hse he rest
  refine ⟨_, _, by simp only [cons_append, writeRange, hw]; rfl,
    .cons (.nullmask (holds_writeNulls he hn)) hh', ?_, _, _, _, rfl,
    length_written hb h he, hd', ?_⟩
  · have hm := @length_written_le _ _ s e bits h
    simp only [contentsSize_cons, Content.size, ArrayData.len, bufferSize]
    omega
  have hcn : values.length = ((toColumns columns).map fun c => c.extract s e).length := by
    rw [length_map, hi.length_columns, hwf.length_columns]
  have hr : structRows (n + (e - s))
      (zipWith (· ++ ·) values ((toColumns columns).map fun c => c.extract s e)) =
        structRows n values ++ (structRows len (toColumns columns)).extract s e := by
    rw [structRows_append hi.lengths hcn, structRows_extract hwf.lengths he]
  rw [hr]
  exact (applyMask_written hb (length_structRows _ _) (length_structRows _ _)).symm

theorem forall₂_append {α β : Type} {R : α → β → Prop} {l : List α} {l₁ l₂ : List β}
    (h : List.Forall₂ R l (l₁ ++ l₂)) :
    ∃ k₁ k₂, List.Forall₂ R k₁ l₁ ∧ List.Forall₂ R k₂ l₂ ∧ l = k₁ ++ k₂ :=
  ⟨_, _, forall₂_take_append l l₁ l₂ h, forall₂_drop_append l l₁ l₂ h, (take_append_drop _ l).symm⟩

theorem writesAll_nil : WritesAll L [] len [] := by
  intro n s e contents values dst hd hh hse he rest
  obtain ⟨rfl, rfl⟩ := hd
  cases hh
  exact ⟨[], [], rfl, .nil, Nat.zero_le _, rfl, rfl⟩

theorem writesAll_cons {name : String} {type : DataType} {fields : List (String × DataType)}
    {column : ArrayData} {columns : List ArrayData} (hlen : column.len = len)
    (hwf : WellFormed type column) (hcl : Writes L type column)
    (hc : WritesAll L fields len columns) :
    WritesAll L ((name, type) :: fields) len (column :: columns) := by
  intro n s e contents values dst hd hh hse he rest
  obtain ⟨first, _, _, _, rfl, rfl, hf, ho⟩ := hd
  obtain ⟨dst₁, dst₂, hh₁, hh₂, rfl⟩ := forall₂_append hh
  obtain ⟨dst₁', first', hw₁, hh₁', hz₁, hd₁⟩ := hcl hf hh₁ hse (hlen ▸ he) (dst₂ ++ rest)
  obtain ⟨dst₂', others', hw₂, hh₂', hz₂, hd₂⟩ := hc ho hh₂ hse he rest
  have hl : dst₁'.length = numBuffers column := by
    rw [hh₁'.length_eq, hd₁.length, numBuffers_eq type hwf]
  refine ⟨dst₁' ++ dst₂', first' ++ others', ?_, rel_append hh₁' hh₂', ?_,
    first', others', _, _, rfl, rfl, hd₁, hd₂⟩
  · rw [append_assoc, writeColumns, hw₁]
    simp only [bind, Except.bind, drop_left' hl, take_left' hl, hw₂]
    rw [append_assoc]
    rfl
  · rw [contentsSize_append, contentsSize_append, columnsSize]
    omega

mutual

theorem writes (L : W.Laws) : (type : DataType) → {array : ArrayData} → WellFormed type array →
    Writes L type array
  | .null, array, h => by cases array <;> exact h.elim
  | .boolean, .boolean _ _, h => writes_boolean h
  | .int type, .primitive _ _, h => writes_primitive type h
  | .primitive type, .primitive _ _, h => writes_primitive type.native h
  | .utf8, .binary _ _ _, h => writes_binary h.1 h.2
  | .binary, .binary _ _ _, h => writes_binary h.1 h.2
  | .fixedSizeBinary _, .fixedSizeBinary _ _ _, h => h.1 ▸ writes_fixedSizeBinary h.2.1 h.2.2
  | .list item, .list _ _ _, h => writes_list h.1 h.2.1 (writes L item h.2.2)
  | .struct fields, .struct _ _ _, h => writes_struct h.1 h.2 (writesAll L fields h.2)

theorem writesAll (L : W.Laws) : (fields : List (String × DataType)) → {len : Nat} →
    {columns : List ArrayData} → WellFormedAll fields len columns → WritesAll L fields len columns
  | [], _, [], _ => writesAll_nil
  | (_, type) :: fields, _, _ :: _, h =>
    writesAll_cons h.1 h.2.1 (writes L type h.2.1) (writesAll L fields h.2.2)

end

end Specs

end Arrays
