import SqdData.Bits
import SqdData.Query.RowWise

/-!
# Bloom filters

The filter sets one bit for each hash of an item, and the predicate compares the filter of its item
with the filters of the rows. Filters of 64 bytes and those of one machine word are compared where
they are. Filters of any other size are compared with bytes that lie across rows, and rows with the
item are missed.
-/

namespace Query

open List

open Arrow Storage Bits

namespace BloomFilter

variable {α : Type} (hash : Nat → α → Nat)

def setBit (data : List Byte) (i : Nat) : List Byte :=
  data.modify (i / 8) fun b => Fin.ofNat 256 (b.val ||| 2 ^ (i % 8))

/-- `hash_bit`, for the hash of the item with seed `n`. -/
def hashBit (byteSize n : Nat) (item : α) : Nat := hash n item % (byteSize * 8)

def insert (numHashes : Nat) (bytes : List Byte) (item : α) : List Byte :=
  (List.range numHashes).foldl
    (fun bytes n => setBit bytes (hashBit hash bytes.length n item)) bytes

/-- `new`, and the items inserted one after the other. -/
def filterOf (byteSize numHashes : Nat) (items : List α) : List Byte :=
  items.foldl (insert hash numHashes) (List.replicate byteSize 0)

omit hash in
theorem bitAt_setBit {data : List Byte} {i : Nat} (hi : i / 8 < data.length) (j : Nat) :
    bitAt (setBit data i) j = (bitAt data j || decide (i = j)) := by
  simp only [bitAt, setBit, getD_eq_getElem?_getD, getElem?_modify]
  by_cases hb : i / 8 = j / 8
  · rw [← hb, getElem?_eq_getElem hi]
    have hlt : data[i / 8].val ||| 2 ^ (i % 8) < 256 := by
      refine @Nat.or_lt_two_pow _ _ 8 data[i / 8].isLt (Nat.pow_lt_pow_right (by omega) ?_)
      omega
    have hm : i % 8 = j % 8 ↔ i = j := by omega
    simp [Fin.ofNat, Nat.mod_eq_of_lt hlt, Nat.testBit_two_pow, hm]
  · have hne : i ≠ j := fun h => hb (by rw [h])
    simp [hb, hne]

/-- Setting some bits leaves the length alone and sets just these bits. -/
theorem bitAt_foldl_setBit {byteSize : Nat} (hs : 0 < byteSize) (item : α) (ns : List Nat)
    {bytes : List Byte} (hb : bytes.length = byteSize) :
    (ns.foldl (fun bytes n => setBit bytes (hashBit hash bytes.length n item)) bytes).length =
        byteSize ∧
      ∀ j, bitAt (ns.foldl (fun bytes n => setBit bytes (hashBit hash bytes.length n item)) bytes) j
        = true ↔ bitAt bytes j = true ∨ ∃ n ∈ ns, hashBit hash byteSize n item = j := by
  induction ns generalizing bytes with
  | nil => exact ⟨hb, by simp⟩
  | cons n _ ih =>
    have hl : (setBit bytes (hashBit hash bytes.length n item)).length = byteSize := by
      rw [setBit, length_modify, hb]
    obtain ⟨hlen, hbt⟩ := ih hl
    refine ⟨hlen, fun j => ?_⟩
    have hbi : hashBit hash bytes.length n item / 8 < bytes.length := by
      have := Nat.mod_lt (hash n item) (show 0 < bytes.length * 8 by omega)
      unfold hashBit
      omega
    rw [foldl_cons, hbt, bitAt_setBit hbi, hb]
    simp [or_assoc]

theorem bitAt_filterOf {byteSize : Nat} (hs : 0 < byteSize) (numHashes : Nat) (items : List α) :
    (filterOf hash byteSize numHashes items).length = byteSize ∧
      ∀ j, bitAt (filterOf hash byteSize numHashes items) j = true ↔
        ∃ item ∈ items, ∃ n < numHashes, hashBit hash byteSize n item = j := by
  induction items using reverseRecOn with
  | nil =>
    refine ⟨length_replicate, fun j => ?_⟩
    simp [filterOf, bitAt]
  | append_singleton items item ih =>
    have hf : filterOf hash byteSize numHashes (items ++ [item]) =
        insert hash numHashes (filterOf hash byteSize numHashes items) item := by
      simp [filterOf]
    obtain ⟨hl, hb⟩ := bitAt_foldl_setBit hash hs item (range numHashes) ih.1
    rw [hf]
    refine ⟨hl, fun j => (hb j).trans ?_⟩
    simp [ih.2 j, or_and_right, exists_or]

omit hash in
/-- The bits of a byte are set in another one. -/
theorem and_eq_self_iff {v b : Byte} :
    v &&& b = v ↔ ∀ k < 8, v.val.testBit k = true → b.val.testBit k = true := by
  rw [Fin.ext_iff, Fin.and_val]
  constructor
  · intro h k _ hv
    rw [← h, Nat.testBit_and, Bool.and_eq_true] at hv
    exact hv.2
  · intro h
    refine Nat.eq_of_testBit_eq fun k => ?_
    rw [Nat.testBit_and, Bool.and_eq_left_iff_imp]
    intro hv
    by_cases hk : k < 8
    · exact h k hk hv
    · -- a byte has eight bits
      have := Nat.testBit_lt_two_pow (x := v.val) (i := k)
        (lt_of_lt_of_le v.isLt (Nat.pow_le_pow_right (show 0 < 2 by omega) (show 8 ≤ k by omega)))
      rw [this] at hv
      cases hv

omit hash in
theorem all_and_eq_iff {value row : List Byte} (h : row.length = value.length) :
    ((value.zip row).all fun (v, b) => v &&& b == v) = true ↔
      ∀ j, bitAt value j = true → bitAt row j = true := by
  have hb : ((value.zip row).all fun (v, b) => v &&& b == v) = true ↔
      ∀ i < value.length, ∀ k < 8, (value.getD i 0).val.testBit k = true →
        (row.getD i 0).val.testBit k = true := by
    induction value generalizing row with
    | nil => simp
    | cons _ _ ih =>
      cases row with
      | nil => cases h
      | cons =>
        rw [zip_cons_cons, all_cons, Bool.and_eq_true, ih (by simpa using h), beq_iff_eq,
          and_eq_self_iff]
        constructor
        · rintro ⟨hf, hr⟩ i hi
          cases i with
          | zero => simpa using hf
          | succ i => simpa using hr i (by simpa using hi)
        · intro ha
          exact ⟨by simpa using ha 0 (by simp),
            fun i hi => by simpa using ha (i + 1) (by simpa using hi)⟩
  rw [hb]
  constructor
  · intro ha j hj
    by_cases hin : j / 8 < value.length
    · exact ha (j / 8) hin (j % 8) (Nat.mod_lt j (by omega)) hj
    · rw [bitAt, getD_eq_default _ _ (not_lt.mp hin)] at hj
      simp at hj
  · intro ha i _ k hk hv
    have hdiv : (8 * i + k) / 8 = i := by omega
    have hm : (8 * i + k) % 8 = k := by omega
    have := ha (8 * i + k)
    simp only [bitAt, hdiv, hm] at this
    exact this hv

/-- The bits of a filter are all set in a row. -/
def Covers (value row : List Byte) : Prop := ∀ j, bitAt value j = true → bitAt row j = true

omit hash

theorem bloomStride_le {size : Nat} (h : 0 < size) : bloomStride size ≤ size := by
  unfold bloomStride
  split
  · omega
  · split
    · omega
    · split <;> omega

variable {size : Nat} {values : List Value} {i : Nat} {row : List Byte}

theorem length_comparedBytes (h : 0 < size) (hsized : Sized (.fixedSizeBinary size) values)
    (hi : i < values.length) : (comparedBytes size values i).length = size := by
  have hl : (values.flatMap (itemBytes size)).length = values.length * size := by
    rw [length_flatMap, map_congr_left (length_itemBytes hsized), map_const', sum_replicate,
      smul_eq_mul]
  have hstride : i * bloomStride size ≤ i * size := Nat.mul_le_mul_left i (bloomStride_le h)
  have hle : (i + 1) * size ≤ values.length * size := Nat.mul_le_mul_right size hi
  rw [Nat.succ_mul] at hle
  rw [comparedBytes, length_take, length_drop, hl]
  omega

/-- Where rows are as long as the stride, and at the first row, a row is compared with itself. -/
theorem comparedBytes_eq (hsized : Sized (.fixedSizeBinary size) values)
    (h : bloomStride size = size ∨ i = 0) (hi : values[i]? = some (.bytes row)) :
    comparedBytes size values i = row := by
  obtain ⟨hlt, hv⟩ := List.getElem?_eq_some_iff.mp hi
  have hm : i * bloomStride size = i * size := by
    rcases h with h | rfl
    · rw [h]
    · rw [Nat.zero_mul, Nat.zero_mul]
  rw [comparedBytes, hm, take_drop_flatMap (length_itemBytes hsized) hlt, hv]
  rfl

/-- A row that is not null is marked if the bytes it is compared with have the bits. -/
theorem isSet_evaluateBloom {value : List Byte} (h : 0 < size) (hl : value.length = size)
    (hsized : Sized (.fixedSizeBinary size) values) :
    ∃ mask, evaluateBloom value { dataType := .fixedSizeBinary size, values } = .ok mask ∧
      ∀ i row, values[i]? = some (.bytes row) →
        (IsSet mask i ↔ Covers value (comparedBytes size values i)) := by
  refine ⟨values.mapIdx fun i x => if x = .null then none
    else some (bloomHit value (values.flatMap (itemBytes size)) i), ?_, fun i row hi => ?_⟩
  · simp only [evaluateBloom, hl, ne_eq, not_true_eq_false, if_false, h.ne']
  · have hlt := (List.getElem?_eq_some_iff.mp hi).1
    rw [Covers, ← all_and_eq_iff ((length_comparedBytes h hsized hlt).trans hl.symm), IsSet,
      getElem?_mapIdx, hi]
    simp [bloomHit, hl, comparedBytes]

end BloomFilter

open BloomFilter

section Sample

/-- Numbers that hash to themselves. -/
def plainHash (_ n : Nat) : Nat := n

end Sample

end Query
