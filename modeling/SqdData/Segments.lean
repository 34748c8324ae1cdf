import SqdData.OrderedStore

/-!
# Tilings by segments

A segment covers a non-empty interval of natural numbers, names the mark it expects right before
its start and carries the mark at its end. A list of segments tiles when each one starts where the
one before it ended and expects the mark found there.

The results say what survives of a tiling under the three edits a log makes to it: dropping a
suffix and appending one segment, dropping a front part, and replacing a run of segments by one
segment with the same ends. The last section is about the numbers a list of segments covers, in
particular those a given distance behind its end.
-/

universe u v

/-- The data of a segment type: its interval, and the marks that link it to its neighbours. -/
structure Segments (α : Type u) (β : Type v) where
  first : α → ℕ
  last : α → ℕ
  opening : α → β
  closing : α → β
  ordered : ∀ a, first a ≤ last a

namespace Segments

open List

variable {α : Type u} {β : Type v} (S : Segments α β)

def Follows (a b : α) : Prop :=
  S.last a + 1 = S.first b ∧ S.closing a = S.opening b

def Tiles (l : List α) : Prop := l.IsChain S.Follows

variable {S} {l front back : List α} {a b : α}

theorem tiles_nil : S.Tiles [] := isChain_nil

theorem Tiles.of_append_left (h : S.Tiles (front ++ back)) : S.Tiles front :=
  List.IsChain.left_of_append h

theorem Tiles.of_append_right (h : S.Tiles (front ++ back)) : S.Tiles back :=
  List.IsChain.right_of_append h

/-- Appending a segment that follows the last one. -/
theorem Tiles.concat (h : S.Tiles l) (ha : ∀ b ∈ l.getLast?, S.Follows b a) :
    S.Tiles (l ++ [a]) := by
  refine List.IsChain.append h (isChain_singleton a) ?_
  intro b hb c hc
  obtain rfl : a = c := by simpa using hc
  exact ha b hb

/-- In a tiling every earlier segment lies below every later one. -/
theorem Tiles.pairwise (h : S.Tiles l) : l.Pairwise fun a b => S.last a < S.first b := by
  have hc : l.IsChain fun a b => S.last a < S.first b :=
    h.imp fun {a b} hab => by have := hab.1; omega
  have ht : IsTrans α fun a b => S.last a < S.first b :=
    ⟨fun a b c hab hbc => hab.trans ((S.ordered b).trans_lt hbc)⟩
  exact isChain_iff_pairwise.mp hc

theorem Tiles.sorted_first (h : S.Tiles l) : l.Pairwise fun a b => S.first a < S.first b :=
  h.pairwise.imp fun {a _} hab => (S.ordered a).trans_lt hab

/-- The segments of the list lie apart, in ascending order. Unlike in a tiling there may be gaps. -/
def Apart (S : Segments α β) (l : List α) : Prop := l.Pairwise fun a b => S.last a < S.first b

theorem Tiles.apart (h : S.Tiles l) : S.Apart l := h.pairwise

/-- Taking segments out, and putting one in where it fits. -/
theorem Apart.splice {run : List α} {x : Option α} (h : S.Apart (front ++ run ++ back))
    (hx : ∀ a ∈ x, (∀ b ∈ front, S.last b < S.first a) ∧ ∀ b ∈ back, S.last a < S.first b) :
    S.Apart (front ++ x.toList ++ back) := by
  obtain ⟨hfr, hbc, hcr⟩ := pairwise_append.mp h
  obtain ⟨hf, -, -⟩ := pairwise_append.mp hfr
  refine pairwise_append.mpr ⟨pairwise_append.mpr ⟨hf, ?_, ?_⟩, hbc, ?_⟩
  · cases x with
    | none => exact List.Pairwise.nil
    | some a => exact pairwise_singleton _ a
  · intro b hb a ha
    exact (hx a (Option.mem_toList.mp ha)).1 b hb
  · intro b hb c hc
    rcases mem_append.mp hb with hb | hb
    · exact hcr b (mem_append_left _ hb) c hc
    · exact (hx b (Option.mem_toList.mp hb)).2 c hc

/-- All segments of a list that lies apart end no higher than the last one. -/
theorem Apart.le_getLast (h : S.Apart l) (hne : l ≠ []) (ha : a ∈ l) :
    S.last a ≤ S.last (l.getLast hne) := by
  rw [← dropLast_append_getLast hne] at h ha
  rcases mem_append.mp ha with ha | ha
  · have hlt := (pairwise_append.mp h).2.2 a ha _ (mem_singleton_self _)
    exact hlt.le.trans (S.ordered _)
  · rw [mem_singleton.mp ha]

/-- And start no lower than the first one. -/
theorem Apart.head_le (h : S.Apart l) (hne : l ≠ []) (ha : a ∈ l) :
    S.first (l.head hne) ≤ S.first a := by
  cases l with
  | nil => cases ha
  | cons b =>
    rcases mem_cons.mp ha with rfl | hr
    · exact le_rfl
    · have hlt := rel_of_pairwise_cons h hr
      exact (S.ordered b).trans hlt.le

/-- Replacing a run of segments by one with the ends of the run keeps the tiling. -/
theorem Tiles.merge {run : List α} {x : α} (h : S.Tiles (front ++ run ++ back)) (hne : run ≠ [])
    (hfi : S.first x = S.first (run.head hne)) (ho : S.opening x = S.opening (run.head hne))
    (hlast : S.last x = S.last (run.getLast hne))
    (hcl : S.closing x = S.closing (run.getLast hne)) : S.Tiles (front ++ [x] ++ back) := by
  have hfr : S.Tiles (front ++ run) := h.of_append_left
  have hl : S.Tiles (front ++ [x]) := by
    refine hfr.of_append_left.concat ?_
    intro b hb
    have hf := (isChain_append.mp hfr).2.2 b hb (run.head hne) (by simp [head?_eq_some_head hne])
    exact ⟨hf.1.trans hfi.symm, hf.2.trans ho.symm⟩
  refine List.IsChain.append hl h.of_append_right ?_
  intro b hb c hc
  obtain rfl : x = b := by simpa using hb
  have he : run.getLast hne ∈ (front ++ run).getLast? := by
    simp [getLast?_append, getLast?_eq_some_getLast hne]
  have hf := (isChain_append.mp h).2.2 _ he c hc
  exact ⟨by rw [hlast]; exact hf.1, by rw [hcl]; exact hf.2⟩

variable (S) in
def Covers (l : List α) (n : ℕ) : Prop := ∃ a ∈ l, S.first a ≤ n ∧ n ≤ S.last a

/-- A number between the ends of a tiling lies in a segment, and all segments before that one end
below it. -/
theorem Tiles.split_at {n : ℕ} (h : S.Tiles l) (hf : ∀ a ∈ l.head?, S.first a ≤ n)
    (hlast : ∃ a ∈ l.getLast?, n ≤ S.last a) :
    ∃ gone a rest, l = gone ++ a :: rest ∧ (∀ b ∈ gone, S.last b < n) ∧
      S.first a ≤ n ∧ n ≤ S.last a := by
  induction l with
  | nil =>
    obtain ⟨a, ha, -⟩ := hlast
    cases ha
  | cons a rest ih =>
    by_cases ha : n ≤ S.last a
    · exact ⟨[], a, rest, rfl, by simp, hf a rfl, ha⟩
    · obtain ⟨z, hz, hn⟩ := hlast
      cases rest with
      | nil =>
        cases hz
        exact absurd hn ha
      | cons =>
        have hab := (isChain_cons_cons.mp h).1.1
        obtain ⟨gone, c, rest', hs, hg, hc⟩ := ih (isChain_cons_cons.mp h).2
          (by rintro _ ⟨⟩; omega) ⟨z, by simpa using hz, hn⟩
        refine ⟨a :: gone, c, rest', by rw [hs]; rfl, ?_, hc⟩
        intro d hd
        rcases mem_cons.mp hd with rfl | hd
        · omega
        · exact hg d hd

variable (S) in
/-- The ends of a list of segments do not move back, and it still covers what lies less than `n`
behind its end. -/
structure KeepsWindow (n : ℕ) (l l' : List α) : Prop where
  first : ∀ a ∈ l.head?, ∃ a' ∈ l'.head?, S.first a ≤ S.first a'
  last : ∀ z ∈ l.getLast?, ∃ z' ∈ l'.getLast?, S.last z ≤ S.last z'
  covers : ∀ m, S.Covers l m → (∀ z ∈ l'.getLast?, S.last z < m + n) → S.Covers l' m

section KeepsWindow

variable {n : ℕ} {l' l'' : List α}

theorem KeepsWindow.refl (n : ℕ) (l : List α) : S.KeepsWindow n l l :=
  ⟨fun a ha => ⟨a, ha, le_rfl⟩, fun z hz => ⟨z, hz, le_rfl⟩, fun _ hm _ => hm⟩

theorem KeepsWindow.trans (h : S.KeepsWindow n l l') (h' : S.KeepsWindow n l' l'') :
    S.KeepsWindow n l l'' := by
  refine ⟨?_, ?_, ?_⟩
  · intro a ha
    obtain ⟨b, hb, hab⟩ := h.first a ha
    obtain ⟨c, hc, hbc⟩ := h'.first b hb
    exact ⟨c, hc, hab.trans hbc⟩
  · intro a ha
    obtain ⟨b, hb, hab⟩ := h.last a ha
    obtain ⟨c, hc, hbc⟩ := h'.last b hb
    exact ⟨c, hc, hab.trans hbc⟩
  · intro m hm hlast
    refine h'.covers m (h.covers m hm ?_) hlast
    intro z hz
    obtain ⟨z', hz', hle⟩ := h'.last z hz
    exact hle.trans_lt (hlast z' hz')

theorem Apart.keepsWindow_concat (h : S.Apart (l ++ [a])) : S.KeepsWindow n l (l ++ [a]) := by
  refine ⟨?_, ?_, ?_⟩
  · intro b hb
    exact ⟨b, by simp [head?_append, Option.mem_def.mp hb], le_rfl⟩
  · intro z hz
    have hlt := (pairwise_append.mp h).2.2 z (mem_of_getLast? hz) a (by simp)
    exact ⟨a, by simp, hlt.le.trans (S.ordered a)⟩
  · rintro _ ⟨b, hb, hm⟩ -
    exact ⟨b, mem_append_left _ hb, hm⟩

/-- Dropping segments that end below a number at least `n` behind the end. -/
theorem Apart.keepsWindow_drop {gone : List α} {floor : ℕ} (h : S.Apart (gone ++ a :: l))
    (hg : ∀ g ∈ gone, S.last g < floor) (hf : ∀ z ∈ (a :: l).getLast?, floor + n ≤ S.last z + 1) :
    S.KeepsWindow n (gone ++ a :: l) (a :: l) := by
  have hne : gone ++ a :: l ≠ [] := by simp
  refine ⟨?_, ?_, ?_⟩
  · intro b hb
    cases (head?_eq_some_head hne).symm.trans hb
    exact ⟨a, rfl, h.head_le hne (by simp)⟩
  · intro z hz
    exact ⟨z, by simpa [getLast?_append] using hz, le_rfl⟩
  · rintro _ ⟨b, hb, hm⟩ hlast
    rcases mem_append.mp hb with hb | hb
    · obtain ⟨z, hz⟩ : ∃ z, z ∈ (a :: l).getLast? := ⟨_, getLast?_eq_some_getLast (cons_ne_nil a l)⟩
      have := hg b hb
      have := hf z hz
      have := hlast z hz
      omega
    · exact ⟨b, hb, hm⟩

/-- Replacing a run of segments by one with the ends of the run. -/
theorem Apart.keepsWindow_merge {run : List α} {x : α} (h : S.Apart (front ++ run ++ back))
    (hne : run ≠ []) (hf : S.first x = S.first (run.head hne))
    (hlast : S.last x = S.last (run.getLast hne)) :
    S.KeepsWindow n (front ++ run ++ back) (front ++ [x] ++ back) := by
  have hr : S.Apart run := (pairwise_append.mp (pairwise_append.mp h).1).2.1
  refine ⟨?_, ?_, ?_⟩
  · intro a ha
    cases front with
    | cons => exact ⟨a, ha, le_rfl⟩
    | nil =>
      rw [nil_append, head?_append, head?_eq_some_head hne] at ha
      cases ha
      exact ⟨x, rfl, hf.ge⟩
  · intro z hz
    rw [getLast?_append] at hz ⊢
    cases hb : back.getLast? with
    | some =>
      rw [hb] at hz
      exact ⟨z, hz, le_rfl⟩
    | none =>
      rw [hb, getLast?_append, getLast?_eq_some_getLast hne] at hz
      cases hz
      exact ⟨x, by simp, hlast.ge⟩
  rintro _ ⟨a, ha, hle, hge⟩ -
  rcases mem_append.mp ha with ha | ha
  · rcases mem_append.mp ha with ha | ha
    · exact ⟨a, by simp [ha], hle, hge⟩
    · have hl := hr.head_le hne ha
      have hh := hr.le_getLast hne ha
      exact ⟨x, by simp, by omega, by omega⟩
  · exact ⟨a, by simp [ha], hle, hge⟩

end KeepsWindow

end Segments
