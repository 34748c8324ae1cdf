import Mathlib

/-!
# Looking up offsets

Offsets cut a sequence into segments, and the segment of an index is found by bisection, after a
guess if there is one. The search ends early at an offset that is the index, which may start an
empty segment.
-/

namespace Storage

open List

/-- The loop of `bisect_offsets`. -/
def bisectFrom (offsets : List Nat) (idx : Nat) : Nat → Nat → Nat → Option Nat
  | 0, _, _ => none
  | fuel + 1, beg, stop =>
    if stop - beg > 1 then
      let mid := beg + (stop - beg) / 2
      if offsets.getD mid 0 = idx then some mid
      else if offsets.getD mid 0 < idx then bisectFrom offsets idx fuel mid stop
      else bisectFrom offsets idx fuel beg mid
    else if offsets.getD beg 0 ≤ idx ∧ idx < offsets.getD stop 0 then some beg
    else none

def bisectOffsets (offsets : List Nat) (idx : Nat) : Option Nat :=
  bisectFrom offsets idx offsets.length 0 (offsets.length - 1)

/-- `get_offset_position`: a guess is tried before the offsets on its side are bisected. -/
def getOffsetPosition (offsets : List Nat) (index firstToTry : Nat) : Option Nat := do
  let beg ← offsets[firstToTry]?
  if beg ≤ index then
    let stop ← offsets[firstToTry + 1]?
    if index < stop then return firstToTry
    else
      let pos ← bisectOffsets (offsets.drop firstToTry) index
      return firstToTry + pos
  else bisectOffsets (offsets.take (firstToTry + 1)) index

/-- The segment at `pos` holds the index. -/
def Encloses (offsets : List Nat) (idx pos : Nat) : Prop :=
  pos + 1 < offsets.length ∧ offsets.getD pos 0 ≤ idx ∧ idx < offsets.getD (pos + 1) 0

/-- The intervals that halving reaches. -/
inductive Halved (last : Nat) : Nat → Nat → Prop where
  | whole : Halved last 0 last
  | lower {beg stop : Nat} : Halved last beg stop → stop - beg > 1 →
      Halved last beg (beg + (stop - beg) / 2)
  | upper {beg stop : Nat} : Halved last beg stop → stop - beg > 1 →
      Halved last (beg + (stop - beg) / 2) stop

/-- Nothing outside of the interval is equal to the index. -/
structure Around (offsets : List Nat) (idx beg stop : Nat) : Prop where
  beg : beg = 0 ∨ offsets.getD beg 0 < idx
  stop : stop = offsets.length - 1 ∨ idx < offsets.getD stop 0

/-- Where halving first meets the index, no empty segment starts. -/
def MetLast (offsets : List Nat) (idx : Nat) : Prop :=
  ∀ beg stop, Halved (offsets.length - 1) beg stop → stop - beg > 1 →
    Around offsets idx beg stop → offsets.getD (beg + (stop - beg) / 2) 0 = idx →
      idx < offsets.getD (beg + (stop - beg) / 2 + 1) 0

/-- The same from a guess: the guess is right, or it is where halving its side meets the index. -/
def MetFrom (offsets : List Nat) (idx guess : Nat) : Prop :=
  if offsets.getD guess 0 ≤ idx then
    idx < offsets.getD (guess + 1) 0 ∨ MetLast (offsets.drop guess) idx
  else MetLast (offsets.take (guess + 1)) idx

variable {offsets : List Nat} {idx : Nat}

theorem Halved.stop_le {last beg stop : Nat} (h : Halved last beg stop) : stop ≤ last := by
  induction h with
  | whole => exact le_rfl
  | lower _ _ ih => omega
  | upper _ _ ih => exact ih

theorem getD_mono (hm : offsets.Pairwise (· ≤ ·)) {i j : Nat} (hij : i ≤ j)
    (hj : j < offsets.length) : offsets.getD i 0 ≤ offsets.getD j 0 := by
  rw [getD_eq_getElem _ _ (hij.trans_lt hj), getD_eq_getElem _ _ hj]
  rcases hij.lt_or_eq with hlt | rfl
  · exact pairwise_iff_getElem.mp hm i j _ hj hlt
  · exact le_rfl

/-- The search goes through every interval of halving that is around the index. -/
theorem bisectOffsets_eq (hm : offsets.Pairwise (· ≤ ·)) {beg stop : Nat}
    (h : Halved (offsets.length - 1) beg stop) (hlen : 1 < offsets.length)
    (ha : Around offsets idx beg stop) :
    ∃ fuel, stop - beg ≤ fuel ∧ beg < stop ∧
      bisectOffsets offsets idx = bisectFrom offsets idx fuel beg stop := by
  induction h with
  | whole => exact ⟨offsets.length, by omega, by omega, rfl⟩
  | @lower beg stop h hw ih =>
    have hle := h.stop_le
    have hlt : idx < offsets.getD (beg + (stop - beg) / 2) 0 := ha.stop.resolve_left (by omega)
    have hst : idx < offsets.getD stop 0 :=
      hlt.trans_le (getD_mono hm (by omega) (by omega))
    obtain ⟨fuel, hf, -, heq⟩ := ih ⟨ha.beg, Or.inr hst⟩
    cases fuel with
    | zero => omega
    | succ fuel =>
      refine ⟨fuel, by omega, by omega, ?_⟩
      rw [heq, bisectFrom, if_pos hw]
      simp only [if_neg hlt.ne', if_neg hlt.not_gt]
  | @upper beg stop h hw ih =>
    have hle := h.stop_le
    have hlt : offsets.getD (beg + (stop - beg) / 2) 0 < idx := ha.beg.resolve_left (by omega)
    have hbg : offsets.getD beg 0 < idx :=
      (getD_mono hm (by omega) (by omega)).trans_lt hlt
    obtain ⟨fuel, hf, -, heq⟩ := ih ⟨Or.inr hbg, ha.stop⟩
    cases fuel with
    | zero => omega
    | succ fuel =>
      refine ⟨fuel, by omega, by omega, ?_⟩
      rw [heq, bisectFrom, if_pos hw]
      simp only [if_neg hlt.ne, if_pos hlt]

/-- The interval gets shorter until it is one segment. The search ends early only at an offset that
is the index, which its segment holds if it is not empty. -/
theorem bisectFrom_encloses (he : MetLast offsets idx) {fuel beg stop pos : Nat}
    (hh : Halved (offsets.length - 1) beg stop) (ha : Around offsets idx beg stop)
    (hlt : beg < stop) (hst : stop < offsets.length)
    (h : bisectFrom offsets idx fuel beg stop = some pos) : Encloses offsets idx pos := by
  induction fuel generalizing beg stop with
  | zero => cases h
  | succ _ ih =>
    unfold bisectFrom at h
    by_cases hw : stop - beg > 1
    · rw [if_pos hw] at h
      have hl := hh.lower hw
      have hu := hh.upper hw
      have he' := he beg stop hh hw ha
      obtain ⟨mid, hmid⟩ : ∃ mid, beg + (stop - beg) / 2 = mid := ⟨_, rfl⟩
      simp only [hmid] at h hl hu he'
      split_ifs at h with heq hlo
      · obtain rfl := Option.some.inj h
        exact ⟨by omega, heq.le, he' heq⟩
      · exact ih hu ⟨Or.inr hlo, ha.stop⟩ (by omega) hst h
      · exact ih hl ⟨ha.beg, Or.inr (by omega)⟩ (by omega) (by omega) h
    · rw [if_neg hw] at h
      have ho : stop = beg + 1 := by omega
      subst ho
      split_ifs at h with hin
      cases h
      exact ⟨hst, hin⟩

/-- The interval keeps the index. -/
theorem exists_bisectFrom {fuel beg stop : Nat} (hf : stop - beg ≤ fuel) (hlt : beg < stop)
    (hb : offsets.getD beg 0 ≤ idx) (hi : idx < offsets.getD stop 0) :
    ∃ pos, bisectFrom offsets idx fuel beg stop = some pos := by
  induction fuel generalizing beg stop with
  | zero => omega
  | succ _ ih =>
    unfold bisectFrom
    by_cases hw : stop - beg > 1
    · rw [if_pos hw]
      obtain ⟨mid, hm⟩ : ∃ mid, beg + (stop - beg) / 2 = mid := ⟨_, rfl⟩
      simp only [hm]
      split_ifs with heq hl
      · exact ⟨mid, rfl⟩
      · exact ih (by omega) (by omega) hl.le hi
      · exact ih (by omega) (by omega) hb (by omega)
    · have ho : stop = beg + 1 := by omega
      subst ho
      rw [if_neg hw, if_pos ⟨hb, hi⟩]
      exact ⟨beg, rfl⟩

/-- What the search finds is the segment of the index, if and only if it meets the index in one that
is not empty. -/
theorem bisectOffsets_encloses_iff (hm : offsets.Pairwise (· ≤ ·)) (hlen : 1 < offsets.length) :
    (∀ pos, bisectOffsets offsets idx = some pos → Encloses offsets idx pos) ↔
      MetLast offsets idx := by
  constructor
  · intro h beg stop hh hw ha heq
    obtain ⟨fuel, hf, -, hb⟩ := bisectOffsets_eq hm hh hlen ha
    cases fuel with
    | zero => omega
    | succ fuel =>
      rw [bisectFrom, if_pos hw] at hb
      simp only [if_pos heq] at hb
      exact (h _ hb).2.2
  · intro he pos hp
    exact bisectFrom_encloses he .whole ⟨Or.inl rfl, Or.inl rfl⟩ (by omega) (by omega) hp

theorem exists_bisectOffsets_iff (hm : offsets.Pairwise (· ≤ ·)) (hlen : 1 < offsets.length)
    (hb : offsets.getD 0 0 ≤ idx) (hi : idx < offsets.getD (offsets.length - 1) 0) :
    (∃ pos, bisectOffsets offsets idx = some pos ∧ Encloses offsets idx pos) ↔
      MetLast offsets idx := by
  obtain ⟨pos, hp⟩ := @exists_bisectFrom offsets idx offsets.length 0 (offsets.length - 1)
    (by omega) (by omega) hb hi
  have hp' : bisectOffsets offsets idx = some pos := hp
  rw [← bisectOffsets_encloses_iff hm hlen]
  constructor
  · rintro ⟨_, hp₁, he⟩ _ hp₂
    cases hp₁.symm.trans hp₂
    exact he
  · intro h
    exact ⟨pos, hp', h pos hp'⟩

theorem getOffsetPosition_encloses_iff (hm : offsets.Pairwise (· ≤ ·))
    (hb : offsets.getD 0 0 ≤ idx) (hid : idx < offsets.getD (offsets.length - 1) 0) {guess : Nat}
    (hg : guess < offsets.length) :
    (∃ pos, getOffsetPosition offsets idx guess = some pos ∧ Encloses offsets idx pos) ↔
      MetFrom offsets idx guess := by
  have hgt : offsets[guess]? = some (offsets.getD guess 0) := by
    rw [getElem?_eq_getElem hg, getD_eq_getElem _ _ hg]
  simp only [getOffsetPosition, hgt, Option.bind_eq_bind, Option.bind_some, MetFrom]
  by_cases hle : offsets.getD guess 0 ≤ idx
  · -- the guess is not the last offset, which is above the index
    have hlt : guess + 1 < offsets.length := by
      by_contra hc
      have : guess = offsets.length - 1 := by omega
      subst this
      omega
    have hn : offsets[guess + 1]? = some (offsets.getD (guess + 1) 0) := by
      rw [getElem?_eq_getElem hlt, getD_eq_getElem _ _ hlt]
    simp only [if_pos hle, hn, Option.bind_some]
    by_cases hin : idx < offsets.getD (guess + 1) 0
    · rw [if_pos hin]
      exact iff_of_true ⟨guess, rfl, hlt, hle, hin⟩ (Or.inl hin)
    · have hd : ∀ i, (offsets.drop guess).getD i 0 = offsets.getD (guess + i) 0 := by
        simp [getD_eq_getElem?_getD]
      have hlast : guess + ((offsets.drop guess).length - 1) = offsets.length - 1 := by
        rw [length_drop]
        omega
      have hen : ∀ pos, Encloses (offsets.drop guess) idx pos ↔
          Encloses offsets idx (guess + pos) := by
        intro pos
        rw [Encloses, Encloses, hd, hd, length_drop, Nat.add_assoc]
        refine and_congr_left fun _ => ?_
        omega
      rw [if_neg hin, or_iff_right hin, ← exists_bisectOffsets_iff (hm.sublist (drop_sublist _ _))
        (by rw [length_drop]; omega) (by rwa [hd]) (by rwa [hd, hlast])]
      simp only [hen, Option.bind_eq_some_iff, Option.pure_def, Option.some.injEq]
      constructor
      · rintro ⟨_, ⟨pos, hp, rfl⟩, he⟩
        exact ⟨pos, hp, he⟩
      · rintro ⟨pos, hp, he⟩
        exact ⟨guess + pos, ⟨pos, hp, rfl⟩, he⟩
  · have ht : ∀ i ≤ guess, (offsets.take (guess + 1)).getD i 0 = offsets.getD i 0 := by
      intro i hi
      simp [getD_eq_getElem?_getD, Nat.lt_succ_of_le hi]
    have hlen : (offsets.take (guess + 1)).length = guess + 1 := by
      rw [length_take]
      omega
    have hps : guess ≠ 0 := by
      rintro rfl
      exact hle hb
    have hen : ∀ pos, Encloses (offsets.take (guess + 1)) idx pos ↔
        Encloses offsets idx pos := by
      intro pos
      rw [Encloses, Encloses, hlen]
      by_cases hpg : pos < guess
      · rw [ht pos (by omega), ht (pos + 1) (by omega)]
        refine and_congr_left fun _ => ?_
        omega
      · -- behind the guess the offsets are above the index
        refine iff_of_false (fun h => by omega) fun h => ?_
        have := getD_mono hm (show guess ≤ pos by omega) (by omega)
        omega
    rw [if_neg hle, if_neg hle, ← exists_bisectOffsets_iff (hm.sublist (take_sublist _ _))
      (by omega) (by rwa [ht 0 (by omega)])
      (by rw [hlen, Nat.add_sub_cancel, ht guess le_rfl]; omega)]
    simp only [hen]

/-- The search finds the segment of an index, and none exactly for an index out of bounds, if and
only if it meets the index in a segment that is not empty; so does the search that starts with a
guess. -/
theorem offset_lookup_is_exact_iff (hm : offsets.Pairwise (· ≤ ·)) (hlen : 2 ≤ offsets.length) :
    (((bisectOffsets offsets idx = none ↔
        ¬ (offsets.headD 0 ≤ idx ∧ idx < offsets.getLastD 0)) ∧
      ∀ pos, bisectOffsets offsets idx = some pos → Encloses offsets idx pos) ↔
      MetLast offsets idx) ∧
    (offsets.headD 0 ≤ idx → idx < offsets.getLastD 0 → ∀ guess < offsets.length,
      ((∃ pos, getOffsetPosition offsets idx guess = some pos ∧ Encloses offsets idx pos) ↔
        MetFrom offsets idx guess)) := by
  have hf : offsets.headD 0 = offsets.getD 0 0 := by
    cases offsets <;> rfl
  have hl : offsets.getLastD 0 = offsets.getD (offsets.length - 1) 0 := by
    rw [getLastD_eq_getLast?, getLast?_eq_getElem?, getD_eq_getElem?_getD]
  rw [hf, hl]
  refine ⟨?_, fun hb hi guess hg => getOffsetPosition_encloses_iff hm hb hi hg⟩
  rw [← bisectOffsets_encloses_iff hm hlen]
  refine and_iff_right_of_imp fun hs => ⟨?_, ?_⟩
  · rintro hn ⟨hb, hi⟩
    obtain ⟨pos, hp⟩ := @exists_bisectFrom offsets idx offsets.length 0 (offsets.length - 1)
      (by omega) (by omega) hb hi
    cases hn.symm.trans hp
  · intro ho
    rw [Option.eq_none_iff_forall_ne_some]
    intro pos hp
    obtain ⟨hlt, _, _⟩ := hs pos hp
    have := getD_mono hm (Nat.zero_le pos) (by omega)
    have := getD_mono hm (show pos + 1 ≤ offsets.length - 1 by omega) (by omega)
    omega

theorem third_segment_is_found :
    ∃ pos, getOffsetPosition [0, 4, 4, 7, 9] 4 2 = some pos ∧ Encloses [0, 4, 4, 7, 9] 4 pos :=
  ((offset_lookup_is_exact_iff (by decide) (by decide)).2 (by decide) (by decide) 2
    (by decide)).mpr (by simp [MetFrom])

/-- The search stops at an empty segment that starts at the index, also behind the last index. -/
theorem empty_segment_is_found :
    bisectOffsets [0, 5, 5, 10] 5 = some 1 ∧ ¬ Encloses [0, 5, 5, 10] 5 1 ∧
      bisectOffsets [0, 5, 5] 5 = some 1 := by
  unfold Encloses
  decide

end Storage
