import Mathlib

/-!
# Numbered slots

A list of slots whose entries only grow: an update names a slot and joins a value to it. The order
of the updates does not matter for what a slot ends up with. Slots are also removed by a mask, and
the remaining ones are renumbered.
-/

namespace Slots

open List

section Joins

variable {α : Type} [SemilatticeSup α]

/-- Join a value to one slot. A slot that does not exist is not an answer. -/
def joinAt (slots : List α) (update : Nat × α) : Option (List α) :=
  if update.1 < slots.length then some (slots.modify update.1 (· ⊔ update.2)) else none

def joinAll (slots : List α) (updates : List (Nat × α)) : Option (List α) :=
  updates.foldlM joinAt slots

variable {slots slots' : List α} {updates : List (Nat × α)}

/-- A property of a join is a property of one of its sides. -/
def Prime (p : α → Prop) : Prop := ∀ a b, p (a ⊔ b) ↔ p a ∨ p b

theorem joinAt_eq_some {update : Nat × α} (h : joinAt slots update = some slots') :
    update.1 < slots.length ∧ slots' = slots.modify update.1 (· ⊔ update.2) := by
  unfold joinAt at h
  split at h
  · rename_i hlt
    exact ⟨hlt, (Option.some.inj h).symm⟩
  · cases h

/-- What the slots hold in the end, in terms of a property that distributes over joins. -/
structure Joined (p : α → Prop) (slots : List α) (updates : List (Nat × α))
    (slots' : List α) : Prop where
  length : slots'.length = slots.length
  holds : ∀ i a', slots'[i]? = some a' →
    ∃ a, slots[i]? = some a ∧ (p a' ↔ p a ∨ ∃ u ∈ updates, u.1 = i ∧ p u.2)

variable {p : α → Prop}

omit [SemilatticeSup α] in
theorem joined_nil (slots : List α) : Joined p slots [] slots where
  length := rfl
  holds := fun i a h => ⟨a, h, by simp⟩

theorem joined_joinAt (hp : Prime p) {update : Nat × α} (h : joinAt slots update = some slots') :
    Joined p slots [update] slots' := by
  obtain ⟨_, rfl⟩ := joinAt_eq_some h
  constructor
  · exact length_modify _ _ _
  · intro i a' hi
    rw [getElem?_modify] at hi
    obtain ⟨a, ha, rfl⟩ := Option.map_eq_some_iff.mp hi
    refine ⟨a, ha, ?_⟩
    by_cases heq : update.1 = i
    · have hj := hp a update.2
      simpa [heq] using hj
    · simp [heq]

omit [SemilatticeSup α] in
theorem Joined.append {updates' : List (Nat × α)} {slots'' : List α}
    (h : Joined p slots updates slots') (h' : Joined p slots' updates' slots'') :
    Joined p slots (updates ++ updates') slots'' where
  length := h'.length.trans h.length
  holds := by
    intro i a'' hi
    obtain ⟨a', ha', hp'⟩ := h'.holds i a'' hi
    obtain ⟨a, ha, hp⟩ := h.holds i a' ha'
    refine ⟨a, ha, ?_⟩
    simp only [hp', hp, mem_append, or_and_right, exists_or, or_assoc]

theorem joined_joinAll (hp : Prime p) (h : joinAll slots updates = some slots') :
    Joined p slots updates slots' := by
  induction updates generalizing slots with
  | nil =>
    cases h
    exact joined_nil _
  | cons _ _ ih =>
    rw [joinAll, foldlM_cons] at h
    obtain ⟨_, h₁, h₂⟩ := Option.bind_eq_some_iff.mp h
    exact (joined_joinAt hp h₁).append (ih h₂)

theorem exists_joinAt {u : Nat × α} (h : u.1 < slots.length) :
    ∃ slots', joinAt slots u = some slots' := ⟨_, if_pos h⟩

/-- Updates of slots that exist go through. -/
theorem exists_joinAll (h : ∀ u ∈ updates, u.1 < slots.length) :
    ∃ slots', joinAll slots updates = some slots' := by
  induction updates generalizing slots with
  | nil => exact ⟨slots, rfl⟩
  | cons u updates ih =>
    have hu := h u mem_cons_self
    have hs : joinAt slots u = some (slots.modify u.1 (· ⊔ u.2)) := if_pos hu
    have hr : ∀ u' ∈ updates, u'.1 < (slots.modify u.1 (· ⊔ u.2)).length := by
      intro u' hu'
      rw [length_modify]
      exact h u' (mem_cons_of_mem u hu')
    obtain ⟨slots', h'⟩ := ih hr
    refine ⟨slots', ?_⟩
    rw [joinAll, foldlM_cons, hs]
    exact h'

end Joins

section Removal

variable {α : Type}

/-- `remove_elements`: the entries whose mask is not set. -/
def removeElements : List α → List Bool → List α
  | a :: l, remove :: mask =>
    if remove then removeElements l mask else a :: removeElements l mask
  | _, _ => []

/-- The new numbers of the entries that stay, counted from `idx`. -/
def indexMap (idx : Nat) : List Bool → List (Option Nat)
  | [] => []
  | true :: mask => none :: indexMap idx mask
  | false :: mask => some idx :: indexMap (idx + 1) mask

theorem length_indexMap (idx : Nat) (mask : List Bool) :
    (indexMap idx mask).length = mask.length := by
  induction mask generalizing idx with
  | nil => rfl
  | cons remove _ ih => cases remove <;> simp [indexMap, ih]

variable {mask : List Bool}

/-- An entry has a new number unless it is removed. -/
theorem getElem?_indexMap {idx i : Nat} {remove : Bool} (h : mask[i]? = some remove) :
    ∃ renumbered, (indexMap idx mask)[i]? = some renumbered ∧
      (renumbered = none ↔ remove = true) := by
  induction mask generalizing idx i with
  | nil => simp at h
  | cons b _ ih =>
    cases i with
    | zero =>
      obtain rfl : b = remove := by simpa using h
      cases b <;> simp [indexMap]
    | succ i =>
      obtain ⟨renumbered, hi, hif⟩ := @ih (if b then idx else idx + 1) i (by simpa using h)
      refine ⟨renumbered, ?_, hif⟩
      cases b <;> simpa [indexMap] using hi

/-- The entry with a new number is the entry it stood for before. -/
theorem getElem?_removeElements {l : List α} {idx i j : Nat} (hlen : l.length = mask.length)
    (h : (indexMap idx mask)[i]? = some (some j)) :
    idx ≤ j ∧ (removeElements l mask)[j - idx]? = l[i]? := by
  induction mask generalizing l idx i with
  | nil => simp [indexMap] at h
  | cons b mask ih =>
    cases l with
    | nil => simp at hlen
    | cons _ l =>
      have hlen' : l.length = mask.length := by simpa using hlen
      cases b with
      | true =>
        cases i with
        | zero => simp [indexMap] at h
        | succ =>
          have hr := ih hlen' (by simpa [indexMap] using h)
          simpa [removeElements] using hr
      | false =>
        cases i with
        | zero =>
          obtain rfl : idx = j := by simpa [indexMap] using h
          simp [removeElements]
        | succ =>
          obtain ⟨_, hg⟩ := ih hlen' (by simpa [indexMap] using h)
          refine ⟨by omega, ?_⟩
          have hs : j - idx = (j - (idx + 1)) + 1 := by omega
          simpa [removeElements, hs] using hg

/-- Every entry that is left had a number before. -/
theorem exists_indexMap {l : List α} {idx j : Nat} {a : α} (hlen : l.length = mask.length)
    (h : (removeElements l mask)[j]? = some a) :
    ∃ i : Nat, (indexMap idx mask)[i]? = some (some (idx + j)) ∧ l[i]? = some a := by
  induction mask generalizing l idx j with
  | nil =>
    cases l with
    | nil => simp [removeElements] at h
    | cons => simp at hlen
  | cons b mask ih =>
    cases l with
    | nil => simp at hlen
    | cons a' l =>
      have hlen' : l.length = mask.length := by simpa using hlen
      cases b with
      | true =>
        obtain ⟨i, hi, hl⟩ := @ih l idx j hlen' (by simpa [removeElements] using h)
        exact ⟨i + 1, by simpa [indexMap] using hi, by simpa using hl⟩
      | false =>
        cases j with
        | zero =>
          obtain rfl : a' = a := by simpa [removeElements] using h
          exact ⟨0, by simp [indexMap], rfl⟩
        | succ j =>
          obtain ⟨i, hi, hl⟩ := @ih l (idx + 1) j hlen' (by simpa [removeElements] using h)
          have hsum : idx + 1 + j = idx + (j + 1) := by omega
          rw [hsum] at hi
          exact ⟨i + 1, by simpa [indexMap] using hi, by simpa using hl⟩

theorem le_of_indexMap {idx i j : Nat} (h : (indexMap idx mask)[i]? = some (some j)) : idx ≤ j := by
  have hlen : (replicate mask.length ()).length = mask.length := by simp
  exact (getElem?_removeElements hlen h).1

/-- Two entries never get one new number. -/
theorem indexMap_injective {idx i i' j : Nat} (h : (indexMap idx mask)[i]? = some (some j))
    (h' : (indexMap idx mask)[i']? = some (some j)) : i = i' := by
  induction mask generalizing idx i i' with
  | nil => simp [indexMap] at h
  | cons b _ ih =>
    cases b with
    | true =>
      cases i with
      | zero => simp [indexMap] at h
      | succ =>
        cases i' with
        | zero => simp [indexMap] at h'
        | succ =>
          exact congrArg Nat.succ (ih (by simpa [indexMap] using h) (by simpa [indexMap] using h'))
    | false =>
      cases i with
      | zero =>
        obtain rfl : idx = j := by simpa [indexMap] using h
        cases i' with
        | zero => rfl
        | succ =>
          have hle := le_of_indexMap (by simpa [indexMap] using h')
          omega
      | succ =>
        cases i' with
        | zero =>
          obtain rfl : idx = j := by simpa [indexMap] using h'
          have hle := le_of_indexMap (by simpa [indexMap] using h)
          omega
        | succ =>
          exact congrArg Nat.succ (ih (by simpa [indexMap] using h) (by simpa [indexMap] using h'))

/-- What is left of a list whose marks are read one by one. -/
theorem mem_removeElements {f : α → Option Bool} {l : List α}
    (h : List.Forall₂ (fun a remove => f a = some remove) l mask) {a : α} :
    a ∈ removeElements l mask ↔ a ∈ l ∧ f a = some false := by
  induction h with
  | nil => simp [removeElements]
  | @cons b remove l mask hb _ ih =>
    cases remove with
    | true =>
      simp only [removeElements, if_true, ih, mem_cons]
      constructor
      · rintro ⟨hm, hf⟩
        exact ⟨Or.inr hm, hf⟩
      · rintro ⟨rfl | hm, hf⟩
        · rw [hb] at hf
          cases hf
        · exact ⟨hm, hf⟩
    | false =>
      simp only [removeElements, Bool.false_eq_true, if_false, mem_cons, ih]
      constructor
      · rintro (rfl | ⟨hm, hf⟩)
        · exact ⟨Or.inl rfl, hb⟩
        · exact ⟨Or.inr hm, hf⟩
      · rintro ⟨rfl | hm, hf⟩
        · exact Or.inl rfl
        · exact Or.inr ⟨hm, hf⟩

end Removal

section Partial

variable {α β : Type} {f : α → Option β} {l : List α}

theorem forall₂_of_mapM {r : List β} (h : l.mapM f = some r) :
    List.Forall₂ (fun a b => f a = some b) l r := by
  induction l generalizing r with
  | nil =>
    cases h
    exact .nil
  | cons _ _ ih =>
    rw [mapM_cons] at h
    obtain ⟨_, hb, h⟩ := Option.bind_eq_some_iff.mp h
    obtain ⟨bs, hbs, h⟩ := Option.bind_eq_some_iff.mp h
    cases h
    exact .cons hb (ih hbs)

theorem getElem?_of_forall₂ {R : α → β → Prop} {r : List β} (h : List.Forall₂ R l r)
    {i : Nat} {a : α}
    (ha : l[i]? = some a) : ∃ b, r[i]? = some b ∧ R a b := by
  induction h generalizing i with
  | nil => simp at ha
  | cons hab _ ih =>
    cases i with
    | zero =>
      cases ha
      exact ⟨_, rfl, hab⟩
    | succ => exact ih ha

theorem mapM_eq_some_map {g : α → β} (h : ∀ a ∈ l, f a = some (g a)) :
    l.mapM f = some (l.map g) := by
  induction l with
  | nil => rfl
  | cons a _ ih =>
    rw [mapM_cons, h a mem_cons_self, ih fun a' ha' => h a' (mem_cons_of_mem a ha')]
    rfl

theorem exists_mapM (h : ∀ a ∈ l, ∃ b, f a = some b) : ∃ r, l.mapM f = some r := by
  induction l with
  | nil => exact ⟨[], rfl⟩
  | cons a _ ih =>
    obtain ⟨b, hb⟩ := h a mem_cons_self
    obtain ⟨r, hr⟩ := ih fun a' ha' => h a' (mem_cons_of_mem a ha')
    exact ⟨b :: r, by rw [mapM_cons, hb, hr]; rfl⟩

end Partial

end Slots
