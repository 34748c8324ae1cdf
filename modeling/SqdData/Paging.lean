import Mathlib

/-!
# Lists stored in pages

A list is stored as a sequence of pages with the cumulated page lengths beside it. A writer keeps
the tail that is not yet stored in a buffer: it stores full pages while the buffer is long, and at
the end it stores what is left in at most two pages. Whatever the page sizes are, the pages hold the
list that was written, as long as the page lengths add up to a number of 32 bits.
-/

namespace Paging

open List hiding splitLengths flatten_splitLengths length_splitLengths

variable {α δ : Type}

/-- The running sums of the lengths, from `first` on. -/
def buildOffsets (first : Nat) : List Nat → List Nat
  | [] => [first]
  | len :: lengths => first :: buildOffsets (first + len) lengths

theorem buildOffsets_eq_scanl (first : Nat) (lengths : List Nat) :
    buildOffsets first lengths = lengths.scanl (· + ·) first := by
  induction lengths generalizing first with
  | nil => rfl
  | cons _ _ ih => rw [buildOffsets, ih, scanl_cons]

@[simp]
theorem length_buildOffsets (first : Nat) (lengths : List Nat) :
    (buildOffsets first lengths).length = lengths.length + 1 := by
  rw [buildOffsets_eq_scanl, length_scanl]

theorem buildOffsets_ne_nil (first : Nat) (lengths : List Nat) :
    buildOffsets first lengths ≠ [] := by
  rw [buildOffsets_eq_scanl]
  exact scanl_ne_nil

variable {lengths : List Nat}

theorem getElem?_buildOffsets {first i : Nat} (h : i ≤ lengths.length) :
    (buildOffsets first lengths)[i]? = some (first + (lengths.take i).sum) := by
  rw [buildOffsets_eq_scanl, getElem?_scanl, if_pos h, foldl_eq_apply_foldr]
  rfl

theorem getLast?_buildOffsets (first : Nat) (lengths : List Nat) :
    (buildOffsets first lengths).getLast? = some (first + lengths.sum) := by
  rw [getLast?_eq_getElem?, length_buildOffsets, Nat.add_sub_cancel,
    getElem?_buildOffsets (Nat.le_refl _), take_length]

theorem buildOffsets_append (first : Nat) (lengths more : List Nat) :
    buildOffsets first (lengths ++ more) =
      buildOffsets first lengths ++ (buildOffsets (first + lengths.sum) more).tail := by
  simp only [buildOffsets_eq_scanl, scanl_append, foldl_eq_apply_foldr]
  rfl

def lengthsOf : List Nat → List Nat
  | o :: next :: offsets => (next - o) :: lengthsOf (next :: offsets)
  | _ => []

theorem length_lengthsOf (offsets : List Nat) :
    (lengthsOf offsets).length = offsets.length - 1 := by
  fun_induction lengthsOf offsets with
  | case1 o next offsets ih => simp [ih]
  | case2 offsets h =>
    cases offsets with
    | nil => rfl
    | cons o offsets =>
      cases offsets with
      | nil => rfl
      | cons next offsets => exact absurd rfl (h o next offsets)

variable {offsets : List Nat}

/-- Offsets moved from `base` to `first` are the running sums of their lengths. -/
theorem map_rebase (first : Nat) {base o : Nat} (hb : base ≤ o)
    (h : (o :: offsets).Pairwise (· ≤ ·)) :
    (o :: offsets).map (fun x => x - base + first) =
      buildOffsets (o - base + first) (lengthsOf (o :: offsets)) := by
  induction offsets generalizing o with
  | nil => rfl
  | cons next _ ih =>
    have hle : o ≤ next := rel_of_pairwise_cons h (by simp)
    have hr := ih (Nat.le_trans hb hle) h.of_cons
    rw [map_cons, hr, lengthsOf, buildOffsets]
    congr 2
    omega

theorem sum_lengthsOf {o : Nat} (h : (o :: offsets).Pairwise (· ≤ ·)) :
    o + (lengthsOf (o :: offsets)).sum = (o :: offsets).getLastD 0 := by
  induction offsets generalizing o with
  | nil => rfl
  | cons next _ ih =>
    have hle : o ≤ next := rel_of_pairwise_cons h (by simp)
    have hr := ih h.of_cons
    simp only [lengthsOf, sum_cons, getLastD_cons] at hr ⊢
    omega

theorem drop_buildOffsets {first n : Nat} (h : n ≤ lengths.length) :
    (buildOffsets first lengths).drop n =
      buildOffsets (first + (lengths.take n).sum) (lengths.drop n) := by
  induction n generalizing first lengths with
  | zero => simp
  | succ _ ih =>
    cases lengths with
    | nil => simp at h
    | cons =>
      rw [buildOffsets, drop_succ_cons, ih (by simpa using h), take_succ_cons,
        sum_cons, drop_succ_cons, Nat.add_assoc]

theorem take_buildOffsets (first n : Nat) (lengths : List Nat) :
    (buildOffsets first lengths).take (n + 1) = buildOffsets first (lengths.take n) := by
  simp only [buildOffsets_eq_scanl, take_scanl]

theorem le_of_mem_buildOffsets {first o : Nat} (h : o ∈ buildOffsets first lengths) :
    first ≤ o := by
  induction lengths generalizing first with
  | nil =>
    have : o = first := by simpa [buildOffsets] using h
    omega
  | cons _ _ ih =>
    rcases mem_cons.mp h with rfl | h
    · exact Nat.le_refl _
    · have := ih h
      omega

theorem le_sum_of_mem_buildOffsets {first o : Nat} (h : o ∈ buildOffsets first lengths) :
    o ≤ first + lengths.sum := by
  induction lengths generalizing first with
  | nil =>
    have : o = first := by simpa [buildOffsets] using h
    omega
  | cons _ _ ih =>
    rw [sum_cons]
    rcases mem_cons.mp h with rfl | h
    · omega
    · have := ih h
      omega

/-- Offsets moved to another start are the running sums of the same lengths. -/
theorem map_buildOffsets (first last : Nat) (lengths : List Nat) :
    (buildOffsets first lengths).map (fun o => o - first + last) = buildOffsets last lengths := by
  induction lengths generalizing first last with
  | nil => simp [buildOffsets]
  | cons len lengths ih =>
    have hm : ∀ o ∈ buildOffsets (first + len) lengths,
        o - first + last = o - (first + len) + (last + len) := by
      intro o ho
      have := le_of_mem_buildOffsets ho
      omega
    rw [buildOffsets, map_cons, map_congr_left hm, ih, buildOffsets, Nat.sub_self, Nat.zero_add]

theorem pairwise_buildOffsets (first : Nat) (lengths : List Nat) :
    (buildOffsets first lengths).Pairwise (· ≤ ·) := by
  induction lengths generalizing first with
  | nil => simp [buildOffsets]
  | cons _ _ ih =>
    refine pairwise_cons.mpr ⟨?_, ih _⟩
    intro o ho
    have := le_of_mem_buildOffsets ho
    omega

/-- Going on with more lengths: the last offset is the first of the further ones. -/
theorem dropLast_buildOffsets_append (first : Nat) (lengths more : List Nat) :
    (buildOffsets first lengths).dropLast ++ buildOffsets (first + lengths.sum) more =
      buildOffsets first (lengths ++ more) := by
  induction lengths generalizing first with
  | nil => simp [buildOffsets]
  | cons len _ ih =>
    have hr := ih (first + len)
    rw [buildOffsets, dropLast_cons_of_ne_nil (buildOffsets_ne_nil _ _), sum_cons,
      ← Nat.add_assoc, cons_append, hr]
    rfl

/-- Consecutive parts of the given lengths. -/
def splitLengths : List Nat → List α → List (List α)
  | [], _ => []
  | len :: lengths, items => items.take len :: splitLengths lengths (items.drop len)

theorem splitLengths_eq (lengths : List Nat) (items : List α) :
    splitLengths lengths items = lengths.splitLengths items := by
  induction lengths generalizing items with
  | nil => rfl
  | cons _ _ ih => rw [splitLengths, ih, splitLengths_cons]

@[simp]
theorem length_splitLengths (lengths : List Nat) (items : List α) :
    (splitLengths lengths items).length = lengths.length := by
  rw [splitLengths_eq, List.length_splitLengths]

theorem map_length_splitLengths {items : List α} (h : lengths.sum ≤ items.length) :
    (splitLengths lengths items).map List.length = lengths := by
  rw [splitLengths_eq, map_splitLengths_length _ _ h]

theorem flatten_splitLengths (lengths : List Nat) (items : List α) :
    (splitLengths lengths items).flatten = items.take lengths.sum := by
  induction lengths generalizing items with
  | nil => simp [splitLengths]
  | cons _ _ ih => rw [splitLengths, flatten_cons, ih, sum_cons, take_add]

theorem splitLengths_flatten (parts : List (List α)) :
    splitLengths (parts.map List.length) parts.flatten = parts := by
  induction parts with
  | nil => rfl
  | cons _ _ ih => simp [splitLengths, ih]

theorem splitLengths_append {more : List Nat} {items rest : List α}
    (h : items.length = lengths.sum) :
    splitLengths (lengths ++ more) (items ++ rest) =
      splitLengths lengths items ++ splitLengths more rest := by
  induction lengths generalizing items with
  | nil =>
    have : items = [] := length_eq_zero_iff.mp h
    simp [this, splitLengths]
  | cons len lengths ih =>
    rw [sum_cons] at h
    have hr : (items.drop len).length = lengths.sum := by
      rw [length_drop]
      omega
    rw [cons_append, splitLengths, splitLengths, cons_append,
      take_append_of_le_length (by omega), drop_append_of_le_length (by omega), ih hr]

theorem drop_splitLengths (lengths : List Nat) (items : List α) (n : Nat) :
    (splitLengths lengths items).drop n =
      splitLengths (lengths.drop n) (items.drop (lengths.take n).sum) := by
  induction n generalizing lengths items with
  | zero => simp
  | succ _ ih =>
    cases lengths with
    | nil => rfl
    | cons =>
      rw [splitLengths, drop_succ_cons, ih, drop_succ_cons, take_succ_cons, sum_cons, drop_drop]

theorem take_splitLengths (lengths : List Nat) (items : List α) (n : Nat) :
    (splitLengths lengths items).take n = splitLengths (lengths.take n) items := by
  rw [splitLengths_eq, splitLengths_eq, take_splitLength]

/-- Only the items that the lengths add up to count. -/
theorem splitLengths_take (lengths : List Nat) (items : List α) :
    splitLengths lengths (items.take lengths.sum) = splitLengths lengths items := by
  induction lengths generalizing items with
  | nil => rfl
  | cons _ _ ih =>
    rw [splitLengths, splitLengths, sum_cons, take_take, drop_take,
      Nat.min_eq_left (Nat.le_add_right _ _), Nat.add_sub_cancel_left, ih]

theorem buildOffsets_lengthsOf {o : Nat} (h : (o :: offsets).Pairwise (· ≤ ·)) :
    buildOffsets o (lengthsOf (o :: offsets)) = o :: offsets := by
  have := map_rebase 0 (Nat.zero_le o) h
  simpa using this.symm

/-- The pages of a buffer and the positions of their bounds. -/
structure PageBuffer (δ : Type) where
  pages : List δ
  pageOffsets : List Nat
deriving DecidableEq, Repr

namespace PageBuffer

def empty : PageBuffer δ := ⟨[], [0]⟩

def numItems (b : PageBuffer δ) : Nat := b.pageOffsets.getLast?.getD 0

def writePage (b : PageBuffer δ) (itemCount : Nat) (page : δ) : PageBuffer δ :=
  ⟨b.pages ++ [page], b.pageOffsets ++ [(b.numItems + itemCount) % 2 ^ 32]⟩

end PageBuffer

structure Paged (encode : List α → δ) (parts : List (List α)) (b : PageBuffer δ) : Prop where
  pages : b.pages = parts.map encode
  offsets : b.pageOffsets = buildOffsets 0 (parts.map List.length)

variable {encode : List α → δ} {parts : List (List α)} {b : PageBuffer δ}

theorem paged_empty : Paged encode [] PageBuffer.empty := ⟨rfl, rfl⟩

theorem Paged.numItems (h : Paged encode parts b) : b.numItems = parts.flatten.length := by
  rw [PageBuffer.numItems, h.offsets, getLast?_buildOffsets, length_flatten]
  simp

theorem Paged.writePage (h : Paged encode parts b) {part : List α} {n : Nat}
    (hn : part.length = n) (hlt : parts.flatten.length + n < 2 ^ 32) :
    Paged encode (parts ++ [part]) (b.writePage n (encode part)) := by
  constructor
  · simp [PageBuffer.writePage, h.pages]
  · rw [PageBuffer.writePage, h.numItems, Nat.mod_eq_of_lt hlt, map_append, buildOffsets_append,
      ← h.offsets]
    simp [buildOffsets, hn, length_flatten]

/-- Stores pages of `count` items while the rest is long. -/
def drain (more : Nat → Bool) (count : Nat) (encode : List α → δ) :
    Nat → List α → PageBuffer δ → List α × PageBuffer δ
  | 0, items, b => (items, b)
  | fuel + 1, items, b =>
    if more items.length then
      drain more count encode fuel (items.drop count)
        (b.writePage count (encode (items.take count)))
    else (items, b)

variable {more : Nat → Bool} {count : Nat}

/-- The parts stored by `drain` have `count` items each, and with the rest they make up the
items. -/
theorem drain_spec (hm : ∀ n, more n = true → count ≤ n) (fuel : Nat) (items : List α)
    (h : Paged encode parts b) (hlt : parts.flatten.length + items.length < 2 ^ 32) :
    ∃ stored, Paged encode (parts ++ stored) (drain more count encode fuel items b).2 ∧
      stored.flatten ++ (drain more count encode fuel items b).1 = items ∧
        ∀ part ∈ stored, part.length = count := by
  induction fuel generalizing items parts b with
  | zero => exact ⟨[], by simpa [drain] using h, by simp [drain], by simp⟩
  | succ _ ih =>
    unfold drain
    by_cases hln : more items.length = true
    · have hl : (items.take count).length = count := by
        rw [length_take, Nat.min_eq_left (hm _ hln)]
      have hle := hm _ hln
      obtain ⟨stored, hp, hi, hc⟩ := ih (items.drop count) (h.writePage hl (by omega)) (by
        rw [flatten_append, flatten_singleton, length_append, hl, length_drop]
        omega)
      rw [if_pos hln]
      refine ⟨items.take count :: stored, ?_, ?_, ?_⟩
      · simpa using hp
      · simp only [flatten_cons, append_assoc, hi, take_append_drop]
      · simpa [hl] using hc
    · rw [if_neg hln]
      exact ⟨[], by simpa using h, by simp, by simp⟩

/-- The rest does not get empty if no full page takes all of it. -/
theorem drain_ne_nil (hm : ∀ n, more n = true → count < n) (fuel : Nat) {items : List α}
    (h : items ≠ []) (b : PageBuffer δ) : (drain more count encode fuel items b).1 ≠ [] := by
  induction fuel generalizing items b with
  | zero => exact h
  | succ _ ih =>
    unfold drain
    by_cases hl : more items.length = true
    · rw [if_pos hl]
      apply ih
      intro hn
      have := hm _ hl
      have := drop_eq_nil_iff.mp hn
      omega
    · rw [if_neg hl]
      exact h

/-- Stores what is left: a page of `split` items where one is split off, then the rest if any. -/
def finishPages (split : Nat) (encode : List α → δ) (items : List α) (b : PageBuffer δ) :
    PageBuffer δ :=
  let b' := if 0 < split then b.writePage split (encode (items.take split)) else b
  let rest := items.drop split
  if 0 < rest.length then b'.writePage rest.length (encode rest) else b'

/-- Every page has items, and every page but the last has a whole number of units. -/
structure Regular (unit : Nat) (parts : List (List α)) : Prop where
  nonempty : ∀ part ∈ parts, part ≠ []
  aligned : ∀ part ∈ parts.dropLast, unit ∣ part.length

theorem finishPages_spec {unit split : Nat} {items : List α} (h : Paged encode parts b)
    (hs : split ≤ items.length) (hu : unit ∣ split)
    (hlt : parts.flatten.length + items.length < 2 ^ 32) :
    ∃ stored, Paged encode (parts ++ stored) (finishPages split encode items b) ∧
      stored.flatten = items ∧ Regular unit stored := by
  have hr : split + (items.drop split).length = items.length := by
    rw [length_drop]
    omega
  have hf : (items.take split).length = split := by
    rw [length_take, Nat.min_eq_left hs]
  have ht : 0 < split → items.take split ≠ [] := by
    intro hps hn
    rw [hn] at hf
    simp at hf
    omega
  unfold finishPages
  by_cases hps : 0 < split
  · have hp := h.writePage hf (by omega)
    by_cases hlast : 0 < (items.drop split).length
    · refine ⟨[items.take split, items.drop split], ?_, by simp, ⟨?_, ?_⟩⟩
      · have hp' : Paged encode (parts ++ [items.take split] ++ [items.drop split]) _ :=
          hp.writePage rfl (by
            rw [flatten_append, flatten_singleton, length_append, hf]
            omega)
        simpa only [hps, hlast, if_true, append_assoc, singleton_append] using hp'
      · simp only [mem_cons, not_mem_nil, or_false, forall_eq_or_imp, forall_eq]
        exact ⟨ht hps, length_pos_iff.mp hlast⟩
      · simpa [hf, Nat.min_eq_left hs] using hu
    · refine ⟨[items.take split], ?_, ?_, ⟨by simpa using ht hps, by simp⟩⟩
      · simpa only [hps, hlast, if_true, if_false] using hp
      · have : items.drop split = [] := length_eq_zero_iff.mp (by omega)
        simpa [this] using take_append_drop split items
  · have hzero : split = 0 := by omega
    subst hzero
    by_cases hlast : 0 < items.length
    · refine ⟨[items], ?_, by simp, ⟨by simpa using length_pos_iff.mp hlast, by simp⟩⟩
      have hp : Paged encode (parts ++ [items]) (b.writePage items.length (encode items)) :=
        h.writePage rfl hlt
      simpa [hlast] using hp
    · have hn : items = [] := length_eq_zero_iff.mp (by omega)
      exact ⟨[], by simpa [hn] using h, by simp [hn], ⟨by simp, by simp⟩⟩

/-- The buffer and the tail that is not yet stored hold the items, if their number has 32 bits. -/
def Holding (unit : Nat) (encode : List α → δ) (b : PageBuffer δ) (tail items : List α) : Prop :=
  items.length < 2 ^ 32 → ∃ parts, Paged encode parts b ∧ parts.flatten ++ tail = items ∧
    (∀ part ∈ parts, part ≠ []) ∧ ∀ part ∈ parts, unit ∣ part.length

/-- The buffer holds the items. -/
def Stored (unit : Nat) (encode : List α → δ) (b : PageBuffer δ) (items : List α) : Prop :=
  ∃ parts, Paged encode parts b ∧ parts.flatten = items ∧ Regular unit parts

section Writing

variable {unit : Nat} {tail items : List α}

theorem holding_empty : Holding unit encode PageBuffer.empty ([] : List α) [] :=
  fun _ => ⟨[], paged_empty, rfl, by simp, by simp⟩

theorem Holding.append (h : Holding unit encode b tail items) (more : List α) :
    Holding unit encode b (tail ++ more) (items ++ more) := by
  intro hlt
  rw [length_append] at hlt
  obtain ⟨parts, hp, hi, hr⟩ := h (by omega)
  exact ⟨parts, hp, by rw [← append_assoc, hi], hr⟩

theorem Holding.drain (h : Holding unit encode b tail items) (hc : 0 < count)
    (hu : unit ∣ count) (hm : ∀ n, more n = true → count ≤ n) (fuel : Nat) :
    Holding unit encode (Paging.drain more count encode fuel tail b).2
      (Paging.drain more count encode fuel tail b).1 items := by
  intro hlt
  obtain ⟨parts, hp, hi, hn, ha⟩ := h hlt
  obtain ⟨stored, hp', ht, hs⟩ := drain_spec hm fuel tail hp (by rwa [← length_append, hi])
  refine ⟨parts ++ stored, hp', by rw [flatten_append, append_assoc, ht, hi], ?_, ?_⟩
  · intro part hpr
    rcases mem_append.mp hpr with hpr | hpr
    · exact hn part hpr
    · intro hnl
      have := hs part hpr
      rw [hnl, length_nil] at this
      omega
  · intro part hpr
    rcases mem_append.mp hpr with hpr | hpr
    · exact ha part hpr
    · rw [hs part hpr]
      exact hu

theorem Regular.append {stored : List (List α)} (h : Regular unit stored)
    (hn : ∀ part ∈ parts, part ≠ []) (ha : ∀ part ∈ parts, unit ∣ part.length) :
    Regular unit (parts ++ stored) := by
  constructor
  · intro part hp
    rcases mem_append.mp hp with hp | hp
    · exact hn part hp
    · exact h.nonempty part hp
  · intro part hp
    by_cases hs : stored = []
    · rw [hs, append_nil] at hp
      exact ha part (dropLast_subset _ hp)
    · rw [dropLast_append_of_ne_nil hs] at hp
      rcases mem_append.mp hp with hp | hp
      · exact ha part hp
      · exact h.aligned part hp

theorem Holding.finish (h : Holding unit encode b tail items) {split : Nat}
    (hs : split ≤ tail.length) (hu : unit ∣ split) (hlt : items.length < 2 ^ 32) :
    Stored unit encode (finishPages split encode tail b) items := by
  obtain ⟨parts, hp, hi, hn, ha⟩ := h hlt
  obtain ⟨stored, hp', ht, hr⟩ := finishPages_spec hp hs hu (by rwa [← length_append, hi])
  exact ⟨parts ++ stored, hp', by rw [flatten_append, ht, hi], hr.append hn ha⟩

end Writing

end Paging
