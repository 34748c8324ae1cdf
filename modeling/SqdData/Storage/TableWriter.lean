import SqdData.Arrays.Writers
import SqdData.Storage.PageWriters

/-!
# Writing tables

A table is stored as the paged buffers of its columns, one column after the other. Record batches
are written one by one; the pages of a buffer do not depend on where one batch ends and the next one
starts.

The schema is stored beside the buffers and is kept as it is.
-/

namespace Storage

open List

open Arrow Arrays Paging Primitives

def storageWriter : Writer where
  Nullmask := NullmaskPageWriter
  Bitmask := BitmaskPageWriter
  Native := NativePageWriter Int
  Bytes := NativePageWriter Byte
  Offset := OffsetPageWriter
  nullmaskSlice := NullmaskPageWriter.writeSlice
  nullmaskMany := NullmaskPageWriter.writeMany
  bitmaskSlice := BitmaskPageWriter.writeSlice
  nativeSlice := NativePageWriter.writeSlice
  bytesSlice := NativePageWriter.writeSlice
  offsetSlice := OffsetPageWriter.writeSlice

def storageLaws : storageWriter.Laws where
  HoldsNullmask := NullmaskPageWriter.Holds
  HoldsBitmask := BitmaskPageWriter.Holds
  HoldsNative := NativePageWriter.Holds
  HoldsBytes := NativePageWriter.Holds
  HoldsOffset := OffsetPageWriter.Holds
  nullmaskSlice := fun more h => h.writeSlice more
  nullmaskMany := fun val count h => h.writeMany val count
  bitmaskSlice := fun more h => h.writeSlice more
  nativeSlice := fun more h => h.writeSlice more
  bytesSlice := fun more h => h.writeSlice more
  offsetSlice := fun hne hm h => h.writeSlice hne hm

def byteWidth : Width → Nat
  | .w8 => 1
  | .w16 => 2
  | .w32 => 4
  | .w64 => 8

theorem byteWidth_pos (width : Width) : 0 < byteWidth width := by
  cases width <;> decide

section NewBuffers

variable (sizes : PageSizes)

def newNullmask : AnyWriter storageWriter := .nullmask (NullmaskPageWriter.new sizes)

def newBitmask : AnyWriter storageWriter := .bitmask (BitmaskPageWriter.new sizes)

def newNative (width : Width) : AnyWriter storageWriter :=
  .native (NativePageWriter.new sizes.native (byteWidth width) (byteWidth_pos width))

def newBytes : AnyWriter storageWriter :=
  .bytes (NativePageWriter.new sizes.native 1 Nat.one_pos)

def newOffsets : AnyWriter storageWriter := .offsets (OffsetPageWriter.new sizes)

mutual

/-- The writers of a type, as the visitor of `AnyArrayFactory` makes them. -/
def newBuffers : DataType → Except Error (List (AnyWriter storageWriter))
  | .null => .error (.text "unsupported arrow data type")
  | .boolean => .ok [newNullmask sizes, newBitmask sizes]
  | .int type => .ok [newNullmask sizes, newNative sizes type.width]
  | .primitive type => .ok [newNullmask sizes, newNative sizes type.native.width]
  | .utf8 => .ok [newNullmask sizes, newOffsets sizes, newBytes sizes]
  | .binary => .ok [newNullmask sizes, newOffsets sizes, newBytes sizes]
  | .fixedSizeBinary _ => .ok [newNullmask sizes, newBytes sizes]
  | .list item => (newBuffers item).map fun rest => newNullmask sizes :: newOffsets sizes :: rest
  | .struct fields => (newFieldBuffers fields).map fun rest => newNullmask sizes :: rest

def newFieldBuffers : List (String × DataType) → Except Error (List (AnyWriter storageWriter))
  | [] => .ok []
  | (_, type) :: fields => do
    let first ← newBuffers type
    let rest ← newFieldBuffers fields
    return first ++ rest

end

end NewBuffers

inductive StoredBuffer where
  | nullmask (b : PageBuffer (List Byte))
  | bitmask (b : PageBuffer (List Byte))
  | native (b : PageBuffer (List Int))
  | bytes (b : PageBuffer (List Byte))
  | offsets (b : PageBuffer (List Int))

def finishBuffer : AnyWriter storageWriter → StoredBuffer
  | .nullmask w => .nullmask (NullmaskPageWriter.finish w)
  | .bitmask w => .bitmask (BitmaskPageWriter.finish w)
  | .native w => .native (NativePageWriter.finish w)
  | .bytes w => .bytes (NativePageWriter.finish w)
  | .offsets w => .offsets (OffsetPageWriter.finish w)

structure TableData where
  fields : List (String × DataType)
  buffers : List StoredBuffer

structure ArrayBatch (fields : List (String × DataType)) where
  numRows : Nat
  columns : List ArrayData
  wellFormed : WellFormedAll fields numRows columns

/-- The table with the given batches: `write_record_batch` for each of them, then `finish`. -/
def writeTable (sizes : PageSizes) (fields : List (String × DataType))
    (batches : List (ArrayBatch fields)) : Except Error TableData := do
  let writers ← newFieldBuffers sizes fields
  let writers ← batches.foldlM
    (fun dst batch => writeColumns storageWriter batch.columns 0 batch.numRows dst) writers
  return ⟨fields, writers.map finishBuffer⟩

/-- What a stored buffer holds. -/
inductive HoldsStored : StoredBuffer → Content → Prop
  | nullmask {b : PageBuffer (List Byte)} {bits : List Bool} (h : StoredNullmask b bits) :
      HoldsStored (.nullmask b) (.nullmask bits)
  | bitmask {b : PageBuffer (List Byte)} {bits : List Bool} (h : Stored 8 Bits.pack b bits) :
      HoldsStored (.bitmask b) (.bitmask bits)
  | native {b : PageBuffer (List Int)} {items : List Int} (h : Stored 1 id b items) :
      HoldsStored (.native b) (.native items)
  | bytes {b : PageBuffer (List Byte)} {items : List Byte} (h : Stored 1 id b items) :
      HoldsStored (.bytes b) (.bytes items)
  | offsets {b : PageBuffer (List Int)} {lens : List Nat}
      (h : Stored 1 id b ((buildOffsets 0 lens).map Int.ofNat)) :
      HoldsStored (.offsets b) (.lengths lens)

/-- What a writer holds is stored, as long as positions fit into 32 bits and offsets into 31. -/
theorem holdsStored_finish {w : AnyWriter storageWriter} {content : Content}
    (h : Holds storageLaws w content) (hlt : content.size < 2 ^ 31) :
    HoldsStored (finishBuffer w) content := by
  have hlt' : content.size < 2 ^ 32 := hlt.trans (by decide)
  cases h with
  | nullmask h => exact .nullmask (NullmaskPageWriter.Holds.finish h hlt')
  | bitmask h => exact .bitmask (BitmaskPageWriter.Holds.finish h hlt')
  | native h => exact .native (NativePageWriter.Holds.finish h hlt')
  | bytes h => exact .bytes (NativePageWriter.Holds.finish h hlt')
  | offsets h =>
    simp only [Content.size] at hlt
    exact .offsets (OffsetPageWriter.Holds.finish h (by omega) (by omega))

section New

variable (sizes : PageSizes)

theorem holds_newNullmask : Holds storageLaws (newNullmask sizes) (.nullmask []) :=
  .nullmask (NullmaskPageWriter.holds_new sizes)

theorem holds_newBitmask : Holds storageLaws (newBitmask sizes) (.bitmask []) :=
  .bitmask (BitmaskPageWriter.holds_new sizes)

theorem holds_newNative (width : Width) : Holds storageLaws (newNative sizes width) (.native []) :=
  .native (NativePageWriter.holds_new _ _ _)

theorem holds_newBytes : Holds storageLaws (newBytes sizes) (.bytes []) :=
  .bytes (NativePageWriter.holds_new _ _ _)

theorem holds_newOffsets : Holds storageLaws (newOffsets sizes) (.lengths []) :=
  .offsets (OffsetPageWriter.holds_new sizes)

mutual

/-- New writers hold no values. -/
theorem newBuffers_holds : (type : DataType) → Supported type →
    ∃ dst contents, newBuffers sizes type = .ok dst ∧
      List.Forall₂ (Holds storageLaws) dst contents ∧ contentsSize contents = 0 ∧
        Decodes type 0 contents []
  | .null, h => h.elim
  | .boolean, _ => ⟨_, _, rfl,
      .cons (holds_newNullmask sizes) (.cons (holds_newBitmask sizes) .nil),
      rfl, [], [], rfl, rfl, rfl, rfl⟩
  | .int type, _ => ⟨_, _, rfl,
      .cons (holds_newNullmask sizes) (.cons (holds_newNative sizes type.width) .nil),
      rfl, [], [], rfl, rfl, rfl, rfl⟩
  | .primitive type, _ => ⟨_, _, rfl,
      .cons (holds_newNullmask sizes) (.cons (holds_newNative sizes type.native.width) .nil),
      rfl, [], [], rfl, rfl, rfl, rfl⟩
  | .utf8, _ | .binary, _ => ⟨_, _, rfl, .cons (holds_newNullmask sizes)
      (.cons (holds_newOffsets sizes) (.cons (holds_newBytes sizes) .nil)),
      rfl, [], [], [], rfl, rfl, rfl, rfl, rfl⟩
  | .fixedSizeBinary size, _ => ⟨_, _, rfl,
      .cons (holds_newNullmask sizes) (.cons (holds_newBytes sizes) .nil),
      rfl, [], [], rfl, rfl, (Nat.zero_mul size).symm, rfl⟩
  | .list item, h => by
    obtain ⟨dst, contents, hn, hh, hz, hd⟩ := newBuffers_holds item h
    exact ⟨_, _, by rw [newBuffers, hn]; rfl,
      .cons (holds_newNullmask sizes) (.cons (holds_newOffsets sizes) hh),
      by simp [hz, Content.size], [], [], contents, [], rfl, rfl, rfl, hd, rfl⟩
  | .struct fields, h => by
    obtain ⟨_, contents, hn, hh, hz, hd⟩ := newFieldBuffers_holds fields h.2
    exact ⟨_, _, by rw [newBuffers, hn]; rfl, .cons (holds_newNullmask sizes) hh,
      by simp [hz, Content.size], [], contents, _, rfl, rfl, hd, rfl⟩

theorem newFieldBuffers_holds : (fields : List (String × DataType)) → SupportedAll fields →
    ∃ dst contents, newFieldBuffers sizes fields = .ok dst ∧
      List.Forall₂ (Holds storageLaws) dst contents ∧ contentsSize contents = 0 ∧
        DecodesAll fields 0 contents (fields.map fun _ => [])
  | [], _ => ⟨[], [], rfl, .nil, rfl, rfl, rfl⟩
  | (_, type) :: fields, h => by
    obtain ⟨dst, contents, hn, hh, hz, hd⟩ := newBuffers_holds type h.1
    obtain ⟨dst', contents', hn', hh', hz', hd'⟩ := newFieldBuffers_holds fields h.2
    exact ⟨dst ++ dst', contents ++ contents', by rw [newFieldBuffers, hn, hn']; rfl,
      rel_append hh hh', by rw [contentsSize_append, hz, hz'],
      contents, contents', [], _, rfl, rfl, hd, hd'⟩

end

end New

/-- The columns of the batches, put together. -/
def concatColumns (fields : List (String × DataType)) (batches : List (ArrayBatch fields)) :
    List (List Value) :=
  batches.foldl (fun columns batch => List.zipWith (· ++ ·) columns (toColumns batch.columns))
    (fields.map fun _ => [])

/-- The number of entries that the batches bring to the buffers of a table. -/
def batchesSize {fields : List (String × DataType)} (batches : List (ArrayBatch fields)) : Nat :=
  (batches.map fun batch => columnsSize batch.columns).sum

section WriteTable

variable {fields : List (String × DataType)}

/-- Writing the batches appends the values of each. -/
theorem writeBatches_holds (batches : List (ArrayBatch fields)) {n : Nat} {contents : List Content}
    {columns : List (List Value)} {dst : List (AnyWriter storageWriter)}
    (hd : DecodesAll fields n contents columns)
    (hh : List.Forall₂ (Holds storageLaws) dst contents) :
    ∃ dst' contents', batches.foldlM (fun dst batch =>
        writeColumns storageWriter batch.columns 0 batch.numRows dst) dst = .ok dst' ∧
      List.Forall₂ (Holds storageLaws) dst' contents' ∧
        contentsSize contents' ≤ contentsSize contents + batchesSize batches ∧
        DecodesAll fields (n + (batches.map (·.numRows)).sum) contents' (batches.foldl
          (fun columns batch => List.zipWith (· ++ ·) columns (toColumns batch.columns))
          columns) := by
  induction batches generalizing n contents columns dst with
  | nil => exact ⟨dst, contents, rfl, hh, Nat.le_refl _, by simpa using hd⟩
  | cons batch _ ih =>
    obtain ⟨_, _, hw, hh', hz, hd'⟩ :=
      writesAll storageLaws fields batch.wellFormed hd hh (Nat.zero_le _) (Nat.le_refl _) []
    have hwh : (toColumns batch.columns).map (fun c => c.extract 0 batch.numRows) =
        toColumns batch.columns := by
      conv_rhs => rw [← map_id (toColumns batch.columns)]
      apply map_congr_left
      intro c hc
      exact extract_eq_self (batch.wellFormed.lengths c hc).le
    rw [append_nil, append_nil] at hw
    rw [hwh, Nat.sub_zero] at hd'
    obtain ⟨dst'', contents'', hf, hh'', hz', hd''⟩ := ih hd' hh'
    refine ⟨dst'', contents'', ?_, hh'', ?_, ?_⟩
    · rw [foldlM_cons, hw]
      exact hf
    · simp only [batchesSize, map_cons, sum_cons] at hz' ⊢
      omega
    · rw [map_cons, sum_cons, ← Nat.add_assoc]
      exact hd''

/-- The buffers of a written table hold the concatenation of the batches, as long as these are not
too large for the offsets. -/
theorem writeTable_holds (sizes : PageSizes) (hs : SupportedAll fields)
    (batches : List (ArrayBatch fields)) (hlt : batchesSize batches < 2 ^ 31) :
    ∃ table contents, writeTable sizes fields batches = .ok table ∧ table.fields = fields ∧
      List.Forall₂ HoldsStored table.buffers contents ∧
        DecodesAll fields (batches.map (·.numRows)).sum contents
          (concatColumns fields batches) := by
  obtain ⟨_, _, hn, hh, hz, hd⟩ := newFieldBuffers_holds sizes fields hs
  obtain ⟨dst', contents', hw, hh', hz', hd'⟩ := writeBatches_holds batches hd hh
  rw [Nat.zero_add] at hd'
  rw [hz, Nat.zero_add] at hz'
  refine ⟨⟨fields, dst'.map finishBuffer⟩, contents', ?_, rfl, ?_, hd'⟩
  · simp only [writeTable, hn, bind, Except.bind, hw]
    rfl
  · rw [forall₂_map_left_iff]
    have hsz : ∀ content ∈ contents', content.size < 2 ^ 31 := by
      intro content hc
      exact ((Content.size_le hc).trans hz').trans_lt hlt
    have hf := ((forall₂_and_left _ _).mpr ⟨hsz, hh'.flip⟩).flip
    exact hf.imp fun _ _ h => holdsStored_finish h.2 h.1

end WriteTable

end Storage
