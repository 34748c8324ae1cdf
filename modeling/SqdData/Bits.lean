import Mathlib

/-!
# Packed bits

Bits packed into bytes, eight to a byte, the first one lowest. The last byte is filled up with
zeros. Reading bits back from the bytes is given by position, so that a reader may start inside a
byte.
-/

namespace Bits

open List

instance byteSize : NeZero 256 := ⟨by decide⟩

def ceil (value divisor : Nat) : Nat := (value + (divisor - 1)) / divisor

theorem lt_ceil_eight_iff {value n : Nat} : n < ceil value 8 ↔ 8 * n < value := by
  unfold ceil
  omega

def byteOf (bits : Nat → Bool) : Fin 256 :=
  ⟨Nat.ofBits fun i : Fin 8 => bits i, Nat.ofBits_lt_two_pow _⟩

theorem testBit_byteOf (bits : Nat → Bool) {k : Nat} (h : k < 8) :
    (byteOf bits).val.testBit k = bits k := by
  simp only [byteOf, Nat.testBit_ofBits_lt _ k h]

def pack (bits : List Bool) : List (Fin 256) :=
  (List.range (ceil bits.length 8)).map fun i => byteOf fun k => bits.getD (8 * i + k) false

@[simp]
theorem length_pack (bits : List Bool) : (pack bits).length = ceil bits.length 8 := by
  simp [pack]

def bitAt (data : List (Fin 256)) (i : Nat) : Bool := (data.getD (i / 8) 0).val.testBit (i % 8)

theorem bitAt_pack (bits : List Bool) (i : Nat) : bitAt (pack bits) i = bits.getD i false := by
  have hi : 8 * (i / 8) + i % 8 = i := Nat.div_add_mod i 8
  unfold bitAt
  by_cases h : i / 8 < ceil bits.length 8
  · have hb : (pack bits).getD (i / 8) 0 = byteOf fun k => bits.getD (8 * (i / 8) + k) false := by
      simp [pack, h]
    rw [hb, testBit_byteOf _ (Nat.mod_lt i (by omega)), hi]
  · -- past the last byte both sides are clear
    have ho : bits.length ≤ i := by
      have := mt lt_ceil_eight_iff.mpr h
      omega
    have hn : (pack bits).getD (i / 8) 0 = 0 := by
      apply getD_eq_default
      rw [length_pack]
      omega
    rw [hn, getD_eq_default _ _ ho]
    simp

def unpack (data : List (Fin 256)) (offset len : Nat) : List Bool :=
  (List.range' offset len).map (bitAt data)

variable {bits : List Bool} {offset : Nat}

theorem unpack_pack {len : Nat} (h : offset + len ≤ bits.length) :
    unpack (pack bits) offset len = (bits.drop offset).take len := by
  apply ext_getElem
  · simp [unpack]
    omega
  · intro i hi hi'
    simp only [unpack, length_map, length_range'] at hi
    have hlt : offset + i < bits.length := by omega
    simp only [unpack, getElem_map, getElem_range', bitAt_pack, getElem_take,
      getElem_drop, one_mul, getD_eq_getElem _ _ hlt]

end Bits
