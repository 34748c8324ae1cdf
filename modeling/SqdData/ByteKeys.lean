import SqdData.Bits
import SqdData.OrderedStore

/-!
# Keys made of bytes

An ordered store compares its keys byte by byte. A composite key is a part of fixed width followed
by the rest, so its order is the order of the two parts in turn. A short text becomes a part of
fixed width by padding with a byte below all of its own, and a number by its big-endian digits;
both keep the order. The keys that start with given bytes form an interval, whose upper end is
`prefixUpperBound`.

A store and its image under an encoding of the entries have the same scans when the encoding keeps
the order of the keys.
-/

universe u v w x

open List

namespace ByteKeys

section Pad

variable {α : Type u}

/-- The text `s` at width `n`. -/
def pad (zero : α) (n : Nat) (s : List α) : List α := s ++ replicate (n - s.length) zero

theorem length_pad {zero : α} {n : Nat} {s : List α} (h : s.length ≤ n) :
    (pad zero n s).length = n := by
  simp only [pad, length_append, length_replicate]
  omega

theorem pad_cons (zero a : α) (n : Nat) (s : List α) :
    pad zero (n + 1) (a :: s) = a :: pad zero n s := by
  simp [pad]

theorem pad_nil_succ (zero : α) (n : Nat) : pad zero (n + 1) [] = zero :: pad zero n [] := by
  simp [pad, replicate_succ]

end Pad

section Order

variable {α : Type u} [LinearOrder α]

theorem cons_le_cons_iff {a b : α} {s t : List α} : a :: s ≤ b :: t ↔ a < b ∨ a = b ∧ s ≤ t := by
  rw [← not_lt, cons_lt_cons_iff, not_or, not_and, not_lt, not_lt, le_iff_lt_or_eq]
  constructor
  · rintro ⟨hlt | heq, h⟩
    · exact Or.inl hlt
    · exact Or.inr ⟨heq, h heq.symm⟩
  · rintro (hlt | ⟨heq, h⟩)
    · exact ⟨Or.inl hlt, fun heq => absurd heq hlt.ne'⟩
    · exact ⟨Or.inr heq, fun _ => h⟩

theorem map_lt_map_iff {β : Type v} [LinearOrder β] {f : α → β} (hf : StrictMono f)
    (s t : List α) : s.map f < t.map f ↔ s < t := by
  induction s generalizing t with
  | nil => cases t <;> simp
  | cons _ _ ih =>
    cases t with
    | nil => simp
    | cons =>
      simp only [map_cons, cons_lt_cons_iff, ih, hf.lt_iff_lt, hf.injective.eq_iff]

theorem append_lt_append_iff {a b c d : List α} (h : a.length = c.length) :
    a ++ b < c ++ d ↔ a < c ∨ a = c ∧ b < d := by
  induction a generalizing c with
  | nil =>
    obtain rfl : c = [] := length_eq_zero_iff.mp h.symm
    simp
  | cons _ a ih =>
    cases c with
    | nil => simp at h
    | cons _ c =>
      have hlen : a.length = c.length := Nat.succ.inj h
      simp only [cons_append, cons_lt_cons_iff, cons.injEq, ih hlen]
      tauto

theorem pad_lt_pad_iff {zero : α} {n : Nat} {s t : List α} (hs : ∀ a ∈ s, zero < a)
    (ht : ∀ a ∈ t, zero < a) (hsn : s.length ≤ n) (htn : t.length ≤ n) :
    pad zero n s < pad zero n t ↔ s < t := by
  induction n generalizing s t with
  | zero =>
    obtain rfl : s = [] := length_eq_zero_iff.mp (Nat.le_zero.mp hsn)
    obtain rfl : t = [] := length_eq_zero_iff.mp (Nat.le_zero.mp htn)
    simp
  | succ _ ih =>
    cases s with
    | nil =>
      cases t with
      | nil => simp
      | cons b =>
        have hb : zero < b := ht b mem_cons_self
        rw [pad_nil_succ, pad_cons, cons_lt_cons_iff]
        simp [hb]
    | cons a =>
      have ha : zero < a := hs a mem_cons_self
      cases t with
      | nil =>
        rw [pad_nil_succ, pad_cons, cons_lt_cons_iff]
        simp [ha.not_gt, ha.ne']
      | cons b =>
        have ih' := ih (fun x hx => hs x (mem_cons_of_mem a hx))
          (fun x hx => ht x (mem_cons_of_mem b hx)) (Nat.le_of_succ_le_succ hsn)
          (Nat.le_of_succ_le_succ htn)
        rw [pad_cons, pad_cons, cons_lt_cons_iff, cons_lt_cons_iff, ih']

end Order

abbrev Key := List (Fin 256)

/-- The bytes of `p` from its end on: full bytes are dropped, the first other one is raised. -/
def bumpReversed : Key → Key
  | [] => []
  | last :: rest => if last < 255 then (last + 1) :: rest else bumpReversed rest

/-- The least key above all keys that start with `p`, empty when there is none. -/
def prefixUpperBound (p : Key) : Key := (bumpReversed p.reverse).reverse

theorem bumpReversed_concat (p : Key) (b : Fin 256) :
    bumpReversed (p ++ [b]) =
      if bumpReversed p = [] then bumpReversed [b] else bumpReversed p ++ [b] := by
  induction p with
  | nil => rfl
  | cons last _ ih =>
    by_cases h : last < 255
    · simp [bumpReversed, h]
    · simp only [cons_append, bumpReversed, if_neg h, ih]

theorem prefixUpperBound_cons (b : Fin 256) (p : Key) :
    prefixUpperBound (b :: p) =
      if prefixUpperBound p = [] then (if b < 255 then [b + 1] else [])
      else b :: prefixUpperBound p := by
  simp only [prefixUpperBound, reverse_cons, bumpReversed_concat]
  by_cases hp : bumpReversed p.reverse = []
  · by_cases hb : b < 255 <;> simp [hp, hb, bumpReversed]
  · simp [hp]

theorem prefixUpperBound_ne_nil {p : Key} (h : ∃ b ∈ p, b < 255) : prefixUpperBound p ≠ [] := by
  induction p with
  | nil => simp at h
  | cons b p ih =>
    rw [prefixUpperBound_cons]
    by_cases hp : prefixUpperBound p = []
    · have hb : b < 255 := by
        obtain ⟨x, hx, hlt⟩ := h
        rcases mem_cons.mp hx with rfl | hx
        · exact hlt
        · exact absurd hp (ih ⟨x, hx, hlt⟩)
      simp [hp, hb]
    · simp [hp]

theorem cons_lt_singleton_succ_iff {b c : Fin 256} {k : Key} (hb : b < 255) :
    c :: k < [b + 1] ↔ c ≤ b := by
  rw [cons_lt_cons_iff]
  simp only [not_lt_nil, and_false, or_false, Fin.le_def]
  omega

/-- The interval from `p` up to its bound holds exactly the keys that start with `p`. -/
theorem mem_prefix_range_iff (p k : Key) :
    (p ≤ k ∧ (prefixUpperBound p = [] ∨ k < prefixUpperBound p)) ↔ p <+: k := by
  induction p generalizing k with
  | nil =>
    have hle : ([] : Key) ≤ k := le_of_not_gt (not_lt_nil k)
    simp [prefixUpperBound, bumpReversed, hle]
  | cons b p ih =>
    cases k with
    | nil =>
      have hgt : ([] : Key) < b :: p := nil_lt_cons b p
      simp [hgt.not_ge]
    | cons c k =>
      rw [cons_le_cons_iff, cons_prefix_cons, ← ih k, prefixUpperBound_cons]
      by_cases hp : prefixUpperBound p = []
      · by_cases hb : b < 255
        · simp only [hp, hb, if_true, cons_ne_nil, false_or, true_or, and_true,
            cons_lt_singleton_succ_iff hb]
          constructor
          · rintro ⟨hbc | h, hcb⟩
            · exact absurd hbc hcb.not_gt
            · exact h
          · rintro ⟨rfl, h⟩
            exact ⟨Or.inr ⟨rfl, h⟩, le_rfl⟩
        · have hf : ∀ c : Fin 256, ¬ b < c := by
            omega
          simp [hp, hb, hf c]
      · simp only [hp, if_false, cons_ne_nil, false_or, cons_lt_cons_iff]
        constructor
        · rintro ⟨hbc | ⟨hbc, hpk⟩, hcb | ⟨hcb, hk⟩⟩
          · exact absurd hbc hcb.not_gt
          · exact absurd hcb hbc.ne'
          · exact absurd hbc hcb.ne'
          · exact ⟨hbc, hpk, hk⟩
        · rintro ⟨rfl, hpk, hk⟩
          exact ⟨Or.inr ⟨rfl, hpk⟩, Or.inr ⟨rfl, hk⟩⟩

/-- The lowest `w` base-256 digits of a number, the most significant one first. -/
def bigEndian : Nat → Nat → Key
  | 0, _ => []
  | w + 1, n => Fin.ofNat 256 (n / 256 ^ w) :: bigEndian w (n % 256 ^ w)

theorem length_bigEndian (w n : Nat) : (bigEndian w n).length = w := by
  induction w generalizing n with
  | zero => rfl
  | succ _ ih => simp [bigEndian, ih]

theorem lt_iff_digits {b m n : Nat} (hb : 0 < b) :
    m < n ↔ m / b < n / b ∨ m / b = n / b ∧ m % b < n % b := by
  have hm := Nat.div_add_mod m b
  have hn := Nat.div_add_mod n b
  have hmb := Nat.mod_lt m hb
  constructor
  · intro h
    rcases Nat.lt_or_ge (m / b) (n / b) with hq | hq
    · exact Or.inl hq
    · have heq : m / b = n / b := Nat.le_antisymm (Nat.div_le_div_right h.le) hq
      rw [heq] at hm
      exact Or.inr ⟨heq, by omega⟩
  · rintro (hq | ⟨heq, _⟩)
    · have : b * (m / b + 1) ≤ b * (n / b) := Nat.mul_le_mul_left b hq
      rw [Nat.mul_add] at this
      omega
    · rw [heq] at hm
      omega

theorem bigEndian_lt_iff {w m n : Nat} (hm : m < 256 ^ w) (hn : n < 256 ^ w) :
    bigEndian w m < bigEndian w n ↔ m < n := by
  induction w generalizing m n with
  | zero =>
    simp only [pow_zero, Nat.lt_one_iff] at hm hn
    simp [hm, hn]
  | succ w ih =>
    have hp : 0 < 256 ^ w := Nat.pow_pos (by norm_num)
    have hd : ∀ {x : Nat}, x < 256 ^ (w + 1) →
        ((Fin.ofNat 256 (x / 256 ^ w) : Fin 256) : Nat) = x / 256 ^ w := by
      intro x hx
      exact Nat.mod_eq_of_lt (Nat.div_lt_of_lt_mul hx)
    rw [lt_iff_digits hp]
    simp only [bigEndian, cons_lt_cons_iff, Fin.lt_def, Fin.ext_iff, hd hm, hd hn,
      ih (Nat.mod_lt m hp) (Nat.mod_lt n hp)]

def ofBigEndian (digits : Key) : Nat := digits.foldl (fun n b => n * 256 + b.val) 0

theorem foldl_bigEndian (w n acc : Nat) (h : n < 256 ^ w) :
    (bigEndian w n).foldl (fun n b => n * 256 + b.val) acc = acc * 256 ^ w + n := by
  induction w generalizing n acc with
  | zero =>
    simp only [pow_zero, Nat.lt_one_iff] at h
    simp [bigEndian, h]
  | succ w ih =>
    have hp : 0 < 256 ^ w := Nat.pow_pos (by norm_num)
    have hd : ((Fin.ofNat 256 (n / 256 ^ w) : Fin 256) : Nat) = n / 256 ^ w :=
      Nat.mod_eq_of_lt (Nat.div_lt_of_lt_mul h)
    simp only [bigEndian, foldl_cons, ih _ _ (Nat.mod_lt n hp), hd]
    calc (acc * 256 + n / 256 ^ w) * 256 ^ w + n % 256 ^ w
        = acc * 256 ^ (w + 1) + (256 ^ w * (n / 256 ^ w) + n % 256 ^ w) := by ring
      _ = acc * 256 ^ (w + 1) + n := by rw [Nat.div_add_mod]

theorem ofBigEndian_bigEndian {w n : Nat} (h : n < 256 ^ w) : ofBigEndian (bigEndian w n) = n := by
  rw [ofBigEndian, foldl_bigEndian w n 0 h, Nat.zero_mul, Nat.zero_add]

end ByteKeys

namespace Keyed

variable {α : Type u} {β : Type v} {κ : Type w} {κ' : Type x} [LinearOrder κ] [LinearOrder κ']
  {key : α → κ} {key' : β → κ'} {enc : α → β} {s : Keyed key} {t : Keyed key'}

/-- `t` holds the entries of `s`, encoded. -/
def Image (enc : α → β) (s : Keyed key) (t : Keyed key') : Prop :=
  ∀ b, b ∈ t ↔ ∃ a ∈ s, enc a = b

variable (hm : ∀ a ∈ s, ∀ b ∈ s, key a < key b → key' (enc a) < key' (enc b))

include hm

theorem Image.toList_eq (h : Image enc s t) : t.toList = s.toList.map enc := by
  have hs : (s.toList.map enc).Pairwise fun a b => key' a < key' b :=
    pairwise_map.mpr (s.sorted.imp_of_mem fun ha hb => hm _ ha _ hb)
  have heq : t = ⟨s.toList.map enc, hs⟩ := Keyed.ext fun b => (h b).trans mem_map.symm
  rw [heq]

theorem Image.seek_eq (h : Image enc s t) {k : κ} {k' : κ'}
    (hk : ∀ a ∈ s, k' ≤ key' (enc a) ↔ k ≤ key a) : t.seek k' = (s.seek k).map enc := by
  unfold Keyed.seek
  rw [h.toList_eq hm, filter_map]
  congr 1
  exact filter_congr fun a ha => decide_eq_decide.mpr (hk a ha)

theorem Image.seekPrev_eq (h : Image enc s t) {k : κ} {k' : κ'}
    (hk : ∀ a ∈ s, key' (enc a) ≤ k' ↔ key a ≤ k) : t.seekPrev k' = (s.seekPrev k).map enc := by
  unfold Keyed.seekPrev
  rw [h.toList_eq hm, filter_map, map_reverse]
  congr 2
  exact filter_congr fun a ha => decide_eq_decide.mpr (hk a ha)

omit hm

/-- A forward scan from `lo` on that stops before `hi`. -/
def between (s : Keyed key) (lo hi : κ) : List α := (s.seek lo).takeWhile fun a => key a < hi

theorem mem_between {lo hi : κ} {a : α} :
    a ∈ s.between lo hi ↔ a ∈ s ∧ lo ≤ key a ∧ key a < hi := by
  have hp : (s.seek lo).Pairwise fun a b =>
      decide (key b < hi) = true → decide (key a < hi) = true := by
    refine (s.sorted.filter _).imp ?_
    intro a b hab
    simpa using hab.trans
  unfold between
  rw [takeWhile_eq_filter_of_pairwise hp]
  simp only [Keyed.seek, List.mem_filter, mem_toList, decide_eq_true_eq, and_assoc]

end Keyed
