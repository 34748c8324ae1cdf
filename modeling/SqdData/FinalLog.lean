import Mathlib

/-!
# Logs with a final part

A log is a list of entries, each at a height, and possibly one entry that is known to be final. A
log advances when what is final stays as it is and finality does not move back. Everything above the
final entry may be rewritten. Advancing composes, so the final part of a log agrees with that of
every log it advances to, however many steps lie between them.
-/

universe u v

structure FinalLog (α : Type u) where
  entries : List α
  final : Option α
deriving DecidableEq

namespace FinalLog

variable {α : Type u} {ι : Type v} [LinearOrder ι] {height : α → ι}

/-- The entries at or below a height. -/
def upTo (height : α → ι) (n : ι) (entries : List α) : List α :=
  entries.filter fun e => height e ≤ n

variable {entries : List α}

theorem mem_upTo {n : ι} {e : α} : e ∈ upTo height n entries ↔ e ∈ entries ∧ height e ≤ n := by
  simp [upTo]

theorem upTo_append (n : ι) (front back : List α) :
    upTo height n (front ++ back) = upTo height n front ++ upTo height n back :=
  List.filter_append front back

/-- Below a lower height the higher cut makes no difference. -/
theorem upTo_upTo {m n : ι} (h : m ≤ n) (entries : List α) :
    upTo height m (upTo height n entries) = upTo height m entries := by
  unfold upTo
  rw [List.filter_filter]
  refine List.filter_congr ?_
  intro e _
  by_cases he : height e ≤ m
  · simp [he.trans h]
  · simp [he]

theorem upTo_eq_nil {n : ι} (h : ∀ e ∈ entries, n < height e) : upTo height n entries = [] := by
  refine List.filter_eq_nil_iff.mpr ?_
  intro e he
  simpa using h e he

/-- What is final stays as it is, and finality does not move back. -/
structure Advances (height : α → ι) (l l' : FinalLog α) : Prop where
  final : ∀ f ∈ l.final, ∃ f' ∈ l'.final, height f < height f' ∨ f' = f
  below : ∀ f ∈ l.final, upTo height (height f) l'.entries = upTo height (height f) l.entries

/-- The final entry is logged. -/
def Grounded (l : FinalLog α) : Prop := ∀ f ∈ l.final, f ∈ l.entries

variable {l l' l'' : FinalLog α}

theorem Advances.refl (l : FinalLog α) : Advances height l l :=
  ⟨fun f hf => ⟨f, hf, Or.inr rfl⟩, fun _ _ => rfl⟩

theorem Advances.trans (h : Advances height l l') (h' : Advances height l' l'') :
    Advances height l l'' := by
  constructor
  · intro f hf
    obtain ⟨f', hf', hle⟩ := h.final f hf
    obtain ⟨f'', hf'', hle'⟩ := h'.final f' hf'
    refine ⟨f'', hf'', ?_⟩
    rcases hle with hlt | rfl
    · rcases hle' with hlt' | rfl
      · exact Or.inl (hlt.trans hlt')
      · exact Or.inl hlt
    · exact hle'
  · intro f hf
    obtain ⟨f', hf', hle⟩ := h.final f hf
    have hh : height f ≤ height f' := by
      rcases hle with hlt | rfl
      · exact hlt.le
      · exact le_rfl
    rw [← upTo_upTo hh, h'.below f' hf', upTo_upTo hh, h.below f hf]

/-- An entry that was final and logged is still logged. -/
theorem Advances.mem (h : Advances height l l') {f : α} (hf : f ∈ l.final) (hm : f ∈ l.entries) :
    f ∈ l'.entries := by
  have hin : f ∈ upTo height (height f) l.entries := mem_upTo.mpr ⟨hm, le_rfl⟩
  rw [← h.below f hf] at hin
  exact (mem_upTo.mp hin).1

/-- Finality moves to a logged entry that is higher, or stays. -/
theorem advances_of_final {final final' : Option α}
    (h : final' = final ∨ ∀ f ∈ final, ∃ f' ∈ final', height f < height f') :
    Advances height ⟨entries, final⟩ ⟨entries, final'⟩ := by
  refine ⟨?_, fun _ _ => rfl⟩
  intro f hf
  rcases h with rfl | h
  · exact ⟨f, hf, Or.inr rfl⟩
  · obtain ⟨f', hf', hlt⟩ := h f hf
    exact ⟨f', hf', Or.inl hlt⟩

/-- Entries above `kept` are replaced by others that repeat the final ones among them. -/
theorem advances_of_rewrite {kept dropped fresh : List α} {final : Option α}
    (h : ∀ f ∈ final, upTo height (height f) fresh = upTo height (height f) dropped) :
    Advances height ⟨kept ++ dropped, final⟩ ⟨kept ++ fresh, final⟩ := by
  refine ⟨fun f hf => ⟨f, hf, Or.inr rfl⟩, ?_⟩
  intro f hf
  rw [upTo_append, upTo_append, h f hf]

/-- A log that advances while its final entry stays put, or moves to a logged one, is grounded. -/
theorem Grounded.advance (hg : l.Grounded) (h : Advances height l l')
    (hfn : l'.final = l.final ∨ ∃ f ∈ l'.final, f ∈ l'.entries) : l'.Grounded := by
  intro f hf
  rcases hfn with hs | ⟨_, hf', hm⟩
  · rw [hs] at hf
    exact h.mem hf (hg f hf)
  · cases hf.symm.trans hf'
    exact hm

end FinalLog
