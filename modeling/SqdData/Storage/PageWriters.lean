import SqdData.Arrow.Values
import SqdData.Bits
import SqdData.Paging

/-!
# Page writers

The four writers that cut the buffers of an array into pages: natives, bits, null masks and offsets.
Each of them keeps a tail in memory and stores pages once the tail is longer than a page and a half.
The sizes are settings: bytes for natives and bits, a number of offsets for offsets.

A native buffer is a list of items of one size, and bits are packed into bytes when a page is
written. A null mask is not written at all as long as every bit is set; its last page is empty.
-/

namespace Storage

open List

open Arrow Paging

/-- The page sizes in use. -/
structure PageSizes where
  native : Nat
  bitmask : Nat
  offsets : Nat
  nativePos : 0 < native
  bitmaskPos : 0 < bitmask
  offsetsPos : 0 < offsets

section Native

structure NativePageWriter (α : Type) where
  pageWriter : PageBuffer (List α)
  buffer : List α
  itemSize : Nat
  pageSize : Nat
  itemSizePos : 0 < itemSize
  fits : itemSize ≤ pageSize

namespace NativePageWriter

variable {α : Type}

def new (setting itemSize : Nat) (h : 0 < itemSize) : NativePageWriter α where
  pageWriter := PageBuffer.empty
  buffer := []
  itemSize := itemSize
  pageSize := max setting itemSize
  itemSizePos := h
  fits := Nat.le_max_right _ _

/-- The number of items of a full page. -/
def pageLen (w : NativePageWriter α) : Nat := Bits.ceil w.pageSize w.itemSize

def doFlush (w : NativePageWriter α) : NativePageWriter α :=
  let more := fun left : Nat =>
    decide (left * w.itemSize > w.pageSize * 3 / 2 ∧ w.buffer.length * w.itemSize ≥ w.itemSize)
  let drained := drain more w.pageLen id w.buffer.length w.buffer w.pageWriter
  { w with buffer := drained.1, pageWriter := drained.2 }

def flush (w : NativePageWriter α) : NativePageWriter α :=
  if w.buffer.length * w.itemSize > w.pageSize * 3 / 2 then w.doFlush else w

def writeSlice (w : NativePageWriter α) (values : List α) : NativePageWriter α :=
  { w with buffer := w.buffer ++ values }.flush

def finish (w : NativePageWriter α) : PageBuffer (List α) :=
  let split := if w.buffer.length * w.itemSize > w.pageSize then w.pageLen else 0
  finishPages split id w.buffer w.pageWriter

/-- The items written so far. -/
def Holds (w : NativePageWriter α) (items : List α) : Prop :=
  Holding 1 id w.pageWriter w.buffer items

theorem holds_new (setting itemSize : Nat) (h : 0 < itemSize) :
    (new setting itemSize h : NativePageWriter α).Holds [] := holding_empty

theorem pageLen_pos (w : NativePageWriter α) : 0 < w.pageLen := by
  have hp := w.itemSizePos
  have hf := w.fits
  exact Nat.div_pos (by omega) hp

variable {w : NativePageWriter α}

/-- More than a page of bytes has the items of a full page. -/
theorem pageLen_le {n : Nat} (h : w.pageSize < n * w.itemSize) : w.pageLen ≤ n := by
  have hp := w.itemSizePos
  unfold pageLen Bits.ceil
  rw [Nat.div_le_iff_le_mul_add_pred hp, Nat.mul_comm]
  omega

variable {items : List α}

theorem Holds.flush (h : w.Holds items) : w.flush.Holds items := by
  unfold NativePageWriter.flush
  split
  · apply Holding.drain h w.pageLen_pos (Nat.one_dvd _)
    intro n hn
    apply pageLen_le
    have := (of_decide_eq_true hn).1
    omega
  · exact h

theorem Holds.writeSlice (h : w.Holds items) (values : List α) :
    (w.writeSlice values).Holds (items ++ values) :=
  Holds.flush (w := { w with buffer := w.buffer ++ values }) (Holding.append h values)

theorem Holds.finish (h : w.Holds items) (hlt : items.length < 2 ^ 32) :
    Stored 1 id w.finish items := by
  apply Holding.finish h _ (Nat.one_dvd _) hlt
  split
  · next hl => exact pageLen_le hl
  · exact Nat.zero_le _

end NativePageWriter

end Native

variable {bits : List Bool}

section Bitmask

/-- `BitmaskPageWriter`. The builder is the list of its bits. -/
structure BitmaskPageWriter where
  pageWriter : PageBuffer (List Byte)
  builder : List Bool
  pageSize : Nat
  pageSizePos : 0 < pageSize

namespace BitmaskPageWriter

def new (sizes : PageSizes) : BitmaskPageWriter where
  pageWriter := PageBuffer.empty
  builder := []
  pageSize := sizes.bitmask
  pageSizePos := sizes.bitmaskPos

def doFlush (w : BitmaskPageWriter) : BitmaskPageWriter :=
  let more := fun left : Nat => decide (Bits.ceil left 8 > w.pageSize * 3 / 2)
  let drained := drain more (w.pageSize * 8) Bits.pack w.builder.length w.builder w.pageWriter
  { w with builder := drained.1, pageWriter := drained.2 }

def flush (w : BitmaskPageWriter) : BitmaskPageWriter :=
  if w.builder.length / 8 > w.pageSize * 3 / 2 then w.doFlush else w

def writeSlice (w : BitmaskPageWriter) (bits : List Bool) : BitmaskPageWriter :=
  { w with builder := w.builder ++ bits }.flush

def writeMany (w : BitmaskPageWriter) (val : Bool) (count : Nat) : BitmaskPageWriter :=
  { w with builder := w.builder ++ List.replicate count val }.flush

def finish (w : BitmaskPageWriter) : PageBuffer (List Byte) :=
  let byteEnd := Bits.ceil w.builder.length 8
  let split := if byteEnd > w.pageSize then byteEnd / 2 * 8 else 0
  finishPages split Bits.pack w.builder w.pageWriter

/-- The bits written so far. -/
def Holds (w : BitmaskPageWriter) (bits : List Bool) : Prop :=
  Holding 8 Bits.pack w.pageWriter w.builder bits

theorem holds_new (sizes : PageSizes) : (new sizes).Holds [] := holding_empty

variable {w : BitmaskPageWriter}

theorem Holds.flush (h : w.Holds bits) : w.flush.Holds bits := by
  have hp := w.pageSizePos
  unfold BitmaskPageWriter.flush
  split
  · apply Holding.drain h (by omega) (Nat.dvd_mul_left 8 _)
    intro n hn
    have := Bits.lt_ceil_eight_iff.mp (of_decide_eq_true hn)
    omega
  · exact h

theorem Holds.writeSlice (h : w.Holds bits) (more : List Bool) :
    (w.writeSlice more).Holds (bits ++ more) :=
  Holds.flush (w := { w with builder := w.builder ++ more }) (Holding.append h more)

theorem Holds.writeMany (h : w.Holds bits) (val : Bool) (count : Nat) :
    (w.writeMany val count).Holds (bits ++ List.replicate count val) :=
  h.writeSlice (replicate count val)

theorem Holds.finish (h : w.Holds bits) (hlt : bits.length < 2 ^ 32) :
    Stored 8 Bits.pack w.finish bits := by
  refine Holding.finish h ?_ ?_ hlt
  · split
    · next hl =>
        have := Bits.lt_ceil_eight_iff.mp hl
        unfold Bits.ceil
        omega
    · exact Nat.zero_le _
  · split
    · exact Nat.dvd_mul_left 8 _
    · exact Nat.dvd_zero 8

end BitmaskPageWriter

end Bitmask

section Nullmask

structure NullmaskPageWriter where
  nulls : BitmaskPageWriter
  hasNulls : Bool
  len : Nat

variable {w : NullmaskPageWriter}

namespace NullmaskPageWriter

def new (sizes : PageSizes) : NullmaskPageWriter := ⟨BitmaskPageWriter.new sizes, false, 0⟩

def initNulls (w : NullmaskPageWriter) : NullmaskPageWriter :=
  { w with nulls := w.nulls.writeMany true w.len, hasNulls := true }

def writeSlice (w : NullmaskPageWriter) (bits : List Bool) : NullmaskPageWriter :=
  if w.hasNulls then { w with nulls := w.nulls.writeSlice bits }
  else if bits.all id then { w with len := w.len + bits.length }
  else { w.initNulls with nulls := w.initNulls.nulls.writeSlice bits }

def writeMany (w : NullmaskPageWriter) (val : Bool) (count : Nat) : NullmaskPageWriter :=
  if count = 0 then w
  else
    match w.hasNulls, val with
    | true, val => { w with nulls := w.nulls.writeMany val count }
    | false, true => { w with len := w.len + count }
    | false, false => { w.initNulls with nulls := w.initNulls.nulls.writeMany false count }

def finish (w : NullmaskPageWriter) : PageBuffer (List Byte) :=
  w.nulls.finish.writePage (if w.hasNulls then 0 else w.len) []

/-- The bits written so far. Without nulls only their number is known, and no bit is stored. -/
def Holds (w : NullmaskPageWriter) (bits : List Bool) : Prop :=
  if w.hasNulls then w.nulls.Holds bits ∧ bits ≠ []
  else bits = List.replicate w.len true ∧ w.nulls.Holds []

theorem holds_new (sizes : PageSizes) : (new sizes).Holds [] :=
  ⟨rfl, BitmaskPageWriter.holds_new sizes⟩

theorem Holds.initNulls (h : w.Holds bits) (hn : w.hasNulls = false) :
    w.initNulls.nulls.Holds bits := by
  simp only [NullmaskPageWriter.Holds, hn, Bool.false_eq_true, if_false] at h
  rw [h.1]
  exact h.2.writeMany true w.len

theorem eq_replicate_of_all (h : bits.all id = true) : bits = List.replicate bits.length true :=
  eq_replicate_of_mem fun b hb => all_eq_true.mp h b hb

theorem Holds.writeSlice (h : w.Holds bits) (more : List Bool) :
    (w.writeSlice more).Holds (bits ++ more) := by
  unfold NullmaskPageWriter.writeSlice
  by_cases hn : w.hasNulls = true
  · have h' := h
    simp only [NullmaskPageWriter.Holds, hn, if_true] at h' ⊢
    exact ⟨h'.1.writeSlice more, by simp [h'.2]⟩
  · have hf : w.hasNulls = false := by simpa using hn
    by_cases ha : more.all id = true
    · simp only [NullmaskPageWriter.Holds, hf, ha, Bool.false_eq_true, if_true, if_false] at h ⊢
      refine ⟨?_, h.2⟩
      rw [← replicate_append_replicate, ← eq_replicate_of_all ha, ← h.1]
    · rw [if_neg hn, if_neg ha]
      refine ⟨(h.initNulls hf).writeSlice more, ?_⟩
      intro hnl
      apply ha
      simp [(append_eq_nil_iff.mp hnl).2]

theorem Holds.writeMany (h : w.Holds bits) (val : Bool) (count : Nat) :
    (w.writeMany val count).Holds (bits ++ List.replicate count val) := by
  unfold NullmaskPageWriter.writeMany
  by_cases hc : count = 0
  · simpa [hc] using h
  rw [if_neg hc]
  cases hn : w.hasNulls with
  | true =>
    simp only [NullmaskPageWriter.Holds, hn, if_true] at h ⊢
    exact ⟨h.1.writeMany val count, by simp [h.2]⟩
  | false =>
    cases val with
    | true =>
      simp only [NullmaskPageWriter.Holds, hn, Bool.false_eq_true, if_false] at h ⊢
      exact ⟨by rw [← replicate_append_replicate, ← h.1], h.2⟩
    | false =>
      refine ⟨(h.initNulls hn).writeMany false count, ?_⟩
      simp [hc]

end NullmaskPageWriter

/-- The pages of a null mask: one empty page that counts the bits when all of them are set, or the
pages of the bits and an empty one. -/
inductive StoredNullmask : PageBuffer (List Byte) → List Bool → Prop
  | none (n : Nat) : StoredNullmask ⟨[[]], [0, n]⟩ (List.replicate n true)
  | some {b : PageBuffer (List Byte)} {parts : List (List Bool)}
      (h : Paged Bits.pack (parts ++ [[]]) b) (hr : Regular 8 parts) (hbits : parts.flatten ≠ []) :
      StoredNullmask b parts.flatten

theorem NullmaskPageWriter.Holds.finish (h : w.Holds bits) (hlt : bits.length < 2 ^ 32) :
    StoredNullmask w.finish bits := by
  cases hn : w.hasNulls with
  | true =>
    simp only [NullmaskPageWriter.Holds, hn, if_true] at h
    obtain ⟨parts, hp, rfl, hr⟩ := h.1.finish hlt
    simp only [NullmaskPageWriter.finish, hn, if_true]
    exact .some (hp.writePage (length_nil : ([] : List Bool).length = 0) hlt) hr h.2
  | false =>
    simp only [NullmaskPageWriter.Holds, hn, Bool.false_eq_true, if_false] at h
    obtain ⟨hb, hnn⟩ := h
    have hl : w.len < 2 ^ 32 := by
      rwa [hb, length_replicate] at hlt
    obtain ⟨parts, hp, hf, hr⟩ := hnn.finish (Nat.two_pow_pos 32)
    have hnl : parts = [] := by
      cases parts with
      | nil => rfl
      | cons part =>
        have := hr.nonempty part (by simp)
        simp_all
    subst hnl
    have he : w.nulls.finish = PageBuffer.empty := by
      obtain ⟨_, _⟩ := hp
      cases hw : w.nulls.finish
      simp_all [PageBuffer.empty, buildOffsets]
    simp only [NullmaskPageWriter.finish, hn, Bool.false_eq_true, if_false, he]
    rw [hb]
    have hm : (PageBuffer.empty : PageBuffer (List Byte)).writePage w.len [] =
        ⟨[[]], [0, w.len]⟩ := by
      simp only [PageBuffer.writePage, PageBuffer.empty, PageBuffer.numItems, getLast?_singleton,
        Option.getD_some, Nat.zero_add, Nat.mod_eq_of_lt hl, nil_append, singleton_append]
    rw [hm]
    exact .none w.len

end Nullmask

section Offsets

/-- `OffsetsBuilder`: the offsets and the last of all of them, in 32 bits with a sign. -/
structure OffsetsBuilder where
  buffer : List Int
  lastOffset : Int

namespace OffsetsBuilder

def new : OffsetsBuilder := ⟨[0], 0⟩

def len (b : OffsetsBuilder) : Nat := b.buffer.length - 1

def appendSlice (b : OffsetsBuilder) (offsets : List Nat) : OffsetsBuilder :=
  let beg : Int := offsets.headD 0
  ⟨b.buffer ++ offsets.tail.map fun o : Nat => (o - beg + b.lastOffset).bmod (2 ^ 32),
    (b.lastOffset + (offsets.getLastD 0 - beg)).bmod (2 ^ 32)⟩

theorem bmod_of_lt {n : Int} (hn : 0 ≤ n) (hlt : n < 2 ^ 31) : n.bmod (2 ^ 32) = n :=
  Int.bmod_eq_of_le (by norm_num; omega) (by norm_num; omega)

/-- Offsets are appended as the lengths between them, wherever they start, as long as the last one
is below `2 ^ 31`. -/
theorem appendSlice_eq {b : OffsetsBuilder} {last o : Nat} {offsets : List Nat}
    (hl : b.lastOffset = last) (hmn : (o :: offsets).Pairwise (· ≤ ·))
    (hlt : last + (lengthsOf (o :: offsets)).sum < 2 ^ 31) :
    b.appendSlice (o :: offsets) =
      ⟨b.buffer ++ (buildOffsets last (lengthsOf (o :: offsets))).tail.map Int.ofNat,
        (last + (lengthsOf (o :: offsets)).sum : Nat)⟩ := by
  have hm := map_rebase last (Nat.le_refl o) hmn
  rw [Nat.sub_self, Nat.zero_add] at hm
  have hsum := sum_lengthsOf hmn
  have hmap : offsets.map (fun x : Nat => ((x : Int) - o + last).bmod (2 ^ 32)) =
      (buildOffsets last (lengthsOf (o :: offsets))).tail.map Int.ofNat := by
    rw [← hm, map_cons, tail_cons, map_map]
    apply map_congr_left
    intro x hx
    have hle : o ≤ x := rel_of_pairwise_cons hmn hx
    have hx' : x - o + last ∈ buildOffsets last (lengthsOf (o :: offsets)) := by
      rw [← hm]
      exact mem_map_of_mem (mem_cons_of_mem o hx)
    have := le_sum_of_mem_buildOffsets hx'
    rw [bmod_of_lt (by omega) (by omega), Function.comp_apply, Int.ofNat_eq_natCast]
    omega
  have hlast : ((last : Int) + ((o :: offsets).getLastD 0 - o)).bmod (2 ^ 32) =
      (last + (lengthsOf (o :: offsets)).sum : Nat) := by
    rw [bmod_of_lt (by omega) (by omega)]
    omega
  rw [appendSlice, headD_cons, tail_cons, hl, hmap, hlast]

end OffsetsBuilder

structure OffsetPageWriter where
  pageWriter : PageBuffer (List Int)
  builder : OffsetsBuilder
  pageLen : Nat
  pageLenPos : 0 < pageLen

namespace OffsetPageWriter

def new (sizes : PageSizes) : OffsetPageWriter where
  pageWriter := PageBuffer.empty
  builder := OffsetsBuilder.new
  pageLen := sizes.offsets
  pageLenPos := sizes.offsetsPos

def doFlush (w : OffsetPageWriter) : OffsetPageWriter :=
  let more := fun left : Nat => decide (left - 1 > w.pageLen * 3 / 2)
  let drained := drain more w.pageLen id w.builder.buffer.length w.builder.buffer w.pageWriter
  { w with builder := { w.builder with buffer := drained.1 }, pageWriter := drained.2 }

def flush (w : OffsetPageWriter) : OffsetPageWriter :=
  if w.builder.len > w.pageLen * 3 / 2 then w.doFlush else w

def writeSlice (w : OffsetPageWriter) (offsets : List Nat) : OffsetPageWriter :=
  { w with builder := w.builder.appendSlice offsets }.flush

/-- The last page is written in any case; the builder is never empty. -/
def finish (w : OffsetPageWriter) : PageBuffer (List Int) :=
  let data := w.builder.buffer
  let split := if data.length > w.pageLen then data.length / 2 else 0
  let pageWriter :=
    if 0 < split then w.pageWriter.writePage split (data.take split) else w.pageWriter
  pageWriter.writePage (data.drop split).length (data.drop split)

/-- The lengths written so far, as offsets from zero on, if these are below `2 ^ 31`. -/
structure Holds (w : OffsetPageWriter) (lens : List Nat) : Prop where
  nonempty : w.builder.buffer ≠ []
  holding : lens.sum < 2 ^ 31 →
    Holding 1 id w.pageWriter w.builder.buffer ((buildOffsets 0 lens).map Int.ofNat)
  last : lens.sum < 2 ^ 31 → w.builder.lastOffset = lens.sum

theorem holds_new (sizes : PageSizes) : (new sizes).Holds [] :=
  ⟨by simp [new, OffsetsBuilder.new], fun _ => holding_empty.append [0], fun _ => rfl⟩

variable {lens : List Nat}

theorem Holds.flush {w : OffsetPageWriter} (h : w.Holds lens) : w.flush.Holds lens := by
  have hp := w.pageLenPos
  unfold OffsetPageWriter.flush
  split
  · constructor
    · apply drain_ne_nil _ _ h.nonempty
      intro n hn
      have := of_decide_eq_true hn
      omega
    · intro hlt
      apply (h.holding hlt).drain hp (Nat.one_dvd _)
      intro n hn
      have := of_decide_eq_true hn
      omega
    · exact h.last
  · exact h

theorem Holds.writeSlice {w : OffsetPageWriter} {offsets : List Nat} (h : w.Holds lens)
    (hne : offsets ≠ []) (hm : offsets.Pairwise (· ≤ ·)) :
    (w.writeSlice offsets).Holds (lens ++ lengthsOf offsets) := by
  cases offsets with
  | nil => exact absurd rfl hne
  | cons o offsets =>
    have ha : (lens ++ lengthsOf (o :: offsets)).sum < 2 ^ 31 → lens.sum < 2 ^ 31 ∧
        w.builder.appendSlice (o :: offsets) =
          ⟨w.builder.buffer ++
              (buildOffsets lens.sum (lengthsOf (o :: offsets))).tail.map Int.ofNat,
            (lens.sum + (lengthsOf (o :: offsets)).sum : Nat)⟩ := by
      intro hlt
      rw [sum_append] at hlt
      have hs : lens.sum < 2 ^ 31 := by omega
      exact ⟨hs, OffsetsBuilder.appendSlice_eq (h.last hs) hm hlt⟩
    apply Holds.flush (w := { w with builder := w.builder.appendSlice (o :: offsets) })
    constructor
    · simp [OffsetsBuilder.appendSlice, h.nonempty]
    · intro hlt
      obtain ⟨hs, he⟩ := ha hlt
      rw [he, buildOffsets_append, Nat.zero_add, map_append]
      exact (h.holding hs).append _
    · intro hlt
      rw [(ha hlt).2, sum_append]

theorem Holds.finish {w : OffsetPageWriter} (h : w.Holds lens) (hlen : lens.length + 1 < 2 ^ 32)
    (hsum : lens.sum < 2 ^ 31) : Stored 1 id w.finish ((buildOffsets 0 lens).map Int.ofNat) := by
  have hp : 0 < w.builder.buffer.length := length_pos_iff.mpr h.nonempty
  let split := if w.builder.buffer.length > w.pageLen then w.builder.buffer.length / 2 else 0
  have hs : split < w.builder.buffer.length := by
    simp only [split]
    split <;> omega
  have hf : w.finish = finishPages split id w.builder.buffer w.pageWriter := by
    have hlast : 0 < (w.builder.buffer.drop split).length := by
      rw [length_drop]
      omega
    unfold OffsetPageWriter.finish finishPages
    simp only [split, id] at hlast ⊢
    rw [if_pos hlast]
  rw [hf]
  apply (h.holding hsum).finish hs.le (Nat.one_dvd _)
  rwa [length_map, length_buildOffsets]

end OffsetPageWriter

end Offsets

end Storage
