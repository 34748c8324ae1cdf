import Mathlib

/-!
# Ordered stores

An ordered key-value store holds finitely many entries, at most one for each key, and hands
them out in key order. `Keyed key` is such a store for entries that carry their own key: the
list of its entries, strictly ascending in the key.

`Shelved` is the case where one store is shared by several owners and the key of an entry is the
owner followed by a position. Its main facts say that a scan which starts inside one owner's
range and stops at the first foreign entry sees exactly that owner's entries.
-/

universe u v w

namespace List

variable {α : Type u} {p : α → Bool} {l : List α}

/-- On a list where `p` never comes back after it failed, taking while `p` holds keeps exactly
the elements with `p`. -/
theorem takeWhile_eq_filter_of_pairwise (h : l.Pairwise fun a b => p b = true → p a = true) :
    l.takeWhile p = l.filter p := by
  induction l with
  | nil => rfl
  | cons a l ih =>
    obtain ⟨ha, hl⟩ := pairwise_cons.mp h
    by_cases hp : p a = true
    · rw [takeWhile_cons_of_pos hp, filter_cons_of_pos hp, ih hl]
    · have hn : l.filter p = [] := filter_eq_nil_iff.mpr fun b hb hpb => hp (ha b hb hpb)
      rw [takeWhile_cons_of_neg hp, filter_cons_of_neg hp, hn]

/-- Such a list is the part that passes followed by the part that fails. -/
theorem filter_append_filter_not_of_pairwise
    (h : l.Pairwise fun a b => p b = true → p a = true) :
    l.filter p ++ l.filter (fun a => !p a) = l := by
  induction l with
  | nil => rfl
  | cons a l ih =>
    obtain ⟨ha, hl⟩ := pairwise_cons.mp h
    by_cases hp : p a = true
    · rw [filter_cons_of_pos hp, filter_cons_of_neg (by simp [hp]), cons_append, ih hl]
    · have hn : ∀ b ∈ a :: l, ¬ p b = true := by
        simpa [hp] using fun b hb hpb => hp (ha b hb hpb)
      rw [filter_eq_nil_iff.mpr hn, filter_eq_self.mpr (by simpa using hn), nil_append]

end List

open List

/-- A finite store of entries, strictly ascending in the key that each entry carries. -/
structure Keyed {α : Type u} {κ : Type v} [LinearOrder κ] (key : α → κ) where
  toList : List α
  sorted : toList.Pairwise fun a b => key a < key b

namespace Keyed

variable {α : Type u} {κ : Type v} [LinearOrder κ] {key : α → κ}

instance [DecidableEq α] : DecidableEq (Keyed key) := fun s t =>
  decidable_of_iff (s.toList = t.toList)
    ⟨fun h => by cases s; cases t; cases h; rfl, fun h => by rw [h]⟩

instance : Membership α (Keyed key) := ⟨fun s a => a ∈ s.toList⟩

instance [DecidableEq α] (a : α) (s : Keyed key) : Decidable (a ∈ s) :=
  inferInstanceAs (Decidable (a ∈ s.toList))

def empty : Keyed key := ⟨[], Pairwise.nil⟩

instance : EmptyCollection (Keyed key) := ⟨empty⟩

def get? (s : Keyed key) (k : κ) : Option α :=
  s.toList.find? fun a => key a = k

def filter (s : Keyed key) (p : α → Bool) : Keyed key :=
  ⟨s.toList.filter p, s.sorted.filter p⟩

def erase (s : Keyed key) (k : κ) : Keyed key :=
  s.filter fun a => key a ≠ k

/-- Stores `a`, in place of the entry that had its key. -/
def put (s : Keyed key) (a : α) : Keyed key where
  toList := s.toList.filter (fun b => key b < key a) ++
    a :: s.toList.filter (fun b => key a < key b)
  sorted := by
    rw [pairwise_append]
    refine ⟨s.sorted.filter _, ?_, ?_⟩
    · rw [pairwise_cons]
      refine ⟨?_, s.sorted.filter _⟩
      intro b hb
      simpa using (List.mem_filter.mp hb).2
    · intro b hb c hc
      have hba : key b < key a := by simpa using (List.mem_filter.mp hb).2
      rcases mem_cons.mp hc with rfl | hc
      · exact hba
      · have hac : key a < key c := by simpa using (List.mem_filter.mp hc).2
        exact hba.trans hac

/-- The entries from key `k` on, in ascending order. -/
def seek (s : Keyed key) (k : κ) : List α :=
  s.toList.filter fun a => k ≤ key a

/-- The entries up to key `k`, in descending order. -/
def seekPrev (s : Keyed key) (k : κ) : List α :=
  (s.toList.filter fun a => key a ≤ k).reverse

variable {s : Keyed key} {a : α}

@[simp]
theorem mem_toList : a ∈ s.toList ↔ a ∈ s := Iff.rfl

@[simp]
theorem not_mem_empty (a : α) : a ∉ (∅ : Keyed key) := not_mem_nil

theorem nodup (s : Keyed key) : s.toList.Nodup :=
  s.sorted.imp fun h e => absurd h (by rw [e]; exact lt_irrefl _)

theorem ext_list {t : Keyed key} (h : s.toList = t.toList) : s = t := by
  cases s; cases t; cases h; rfl

/-- Two entries of one store with the same key are the same entry. -/
theorem eq_of_key_eq {b : α} (ha : a ∈ s) (hb : b ∈ s) (h : key a = key b) : a = b := by
  have hk : (s.toList.map key).Nodup := pairwise_map.mpr (s.sorted.imp fun h => h.ne)
  exact inj_on_of_nodup_map hk ha hb h

/-- A store is determined by its entries. -/
theorem ext {t : Keyed key} (h : ∀ a, a ∈ s ↔ a ∈ t) : s = t := by
  apply ext_list
  have hp : s.toList.Perm t.toList := (perm_ext_iff_of_nodup s.nodup t.nodup).mpr h
  have anti : ∀ a b : α, a ∈ s.toList → b ∈ t.toList → key a < key b → key b < key a → a = b :=
    fun a b _ _ hab hba => absurd hab hba.asymm
  exact hp.eq_of_pairwise anti s.sorted t.sorted

variable {k : κ}

theorem get?_eq_some : s.get? k = some a ↔ a ∈ s ∧ key a = k := by
  constructor
  · intro h
    exact ⟨mem_of_find?_eq_some h, by simpa using find?_some h⟩
  · rintro ⟨ha, rfl⟩
    cases hf : s.get? (key a) with
    | none =>
      have := find?_eq_none.mp hf a ha
      simp at this
    | some b =>
      have hb : b ∈ s := mem_of_find?_eq_some hf
      have hk : key b = key a := by simpa using find?_some hf
      rw [eq_of_key_eq hb ha hk]

theorem get?_eq_none : s.get? k = none ↔ ∀ a ∈ s, key a ≠ k := by
  constructor
  · intro h a ha hk
    simpa [hk] using find?_eq_none.mp h a ha
  · intro h
    exact find?_eq_none.mpr fun a ha => by simpa using h a ha

@[simp]
theorem mem_filter {p : α → Bool} :
    a ∈ s.filter p ↔ a ∈ s ∧ p a = true := List.mem_filter

@[simp]
theorem mem_erase : a ∈ s.erase k ↔ a ∈ s ∧ key a ≠ k := by
  simp [erase]

@[simp]
theorem mem_put {b : α} : b ∈ s.put a ↔ b = a ∨ (b ∈ s ∧ key b ≠ key a) := by
  change b ∈ (s.put a).toList ↔ _
  simp only [put, mem_append, mem_cons, List.mem_filter, mem_toList, decide_eq_true_eq]
  constructor
  · rintro (⟨hb, h⟩ | rfl | ⟨hb, h⟩)
    · exact Or.inr ⟨hb, h.ne⟩
    · exact Or.inl rfl
    · exact Or.inr ⟨hb, h.ne'⟩
  · rintro (rfl | ⟨hb, h⟩)
    · exact Or.inr (Or.inl rfl)
    · rcases lt_or_gt_of_ne h with h | h
      · exact Or.inl ⟨hb, h⟩
      · exact Or.inr (Or.inr ⟨hb, h⟩)

theorem get?_put_of_ne (h : k ≠ key a) : (s.put a).get? k = s.get? k := by
  apply Option.ext
  intro b
  rw [get?_eq_some, get?_eq_some, mem_put]
  constructor
  · rintro ⟨rfl | ⟨hb, _⟩, hk⟩
    · exact absurd hk.symm h
    · exact ⟨hb, hk⟩
  · rintro ⟨hb, hk⟩
    exact ⟨Or.inr ⟨hb, by rw [hk]; exact h⟩, hk⟩

@[simp]
theorem get?_erase_self (s : Keyed key) (k : κ) : (s.erase k).get? k = none :=
  get?_eq_none.mpr fun _ ha => (mem_erase.mp ha).2

variable {k' : κ}

theorem get?_erase_of_ne (h : k' ≠ k) : (s.erase k).get? k' = s.get? k' := by
  apply Option.ext
  intro b
  rw [get?_eq_some, get?_eq_some, mem_erase]
  constructor
  · rintro ⟨⟨hb, _⟩, hk⟩
    exact ⟨hb, hk⟩
  · rintro ⟨hb, hk⟩
    exact ⟨⟨hb, by rw [hk]; exact h⟩, hk⟩

variable {back front : List α}

/-- Storing an entry in a gap. -/
theorem toList_put_between (h : s.toList = front ++ back) (hl : ∀ b ∈ front, key b < key a)
    (hh : ∀ b ∈ back, key a < key b) : (s.put a).toList = front ++ [a] ++ back := by
  have hfl : front.filter (fun b => key b < key a) = front :=
    filter_eq_self.mpr fun b hb => by simpa using hl b hb
  have hbl : back.filter (fun b => key b < key a) = [] :=
    filter_eq_nil_iff.mpr fun b hb => by simpa using (hh b hb).le
  have hfh : front.filter (fun b => key a < key b) = [] :=
    filter_eq_nil_iff.mpr fun b hb => by simpa using (hl b hb).le
  have hbh : back.filter (fun b => key a < key b) = back :=
    filter_eq_self.mpr fun b hb => by simpa using hh b hb
  simp only [put, h, filter_append, hfl, hbl, hfh, hbh, append_nil, nil_append,
    append_assoc, singleton_append]

/-- Storing an entry above all others appends it. -/
theorem toList_put_of_lt (h : ∀ b ∈ s, key b < key a) : (s.put a).toList = s.toList ++ [a] := by
  have ha : s.toList = s.toList ++ [] := by simp
  simpa using toList_put_between ha h (by simp)

/-- Removes the entries under several keys. -/
def eraseAll (s : Keyed key) (ks : List κ) : Keyed key := ks.foldl erase s

@[simp]
theorem eraseAll_nil (s : Keyed key) : s.eraseAll [] = s := rfl

@[simp]
theorem eraseAll_cons (s : Keyed key) (k : κ) (ks : List κ) :
    s.eraseAll (k :: ks) = (s.erase k).eraseAll ks := rfl

@[simp]
theorem mem_eraseAll {ks : List κ} : a ∈ s.eraseAll ks ↔ a ∈ s ∧ key a ∉ ks := by
  induction ks generalizing s with
  | nil => simp
  | cons _ _ ih => simp [ih, and_assoc]

/-- Erasing the keys of a contiguous part leaves the rest. -/
theorem toList_eraseAll_mid {mid : List α} {ks : List κ} (h : s.toList = front ++ mid ++ back)
    (hks : ∀ k, k ∈ ks ↔ k ∈ mid.map key) : (s.eraseAll ks).toList = front ++ back := by
  have hs := s.sorted
  rw [h, pairwise_append, pairwise_append] at hs
  obtain ⟨⟨hf, -, hfm⟩, hbc, hmb⟩ := hs
  have hr : (front ++ back).Pairwise fun x y => key x < key y := pairwise_append.mpr
      ⟨hf, hbc, fun x hx => hmb x (mem_append_left _ hx)⟩
  have heq : s.eraseAll ks = ⟨front ++ back, hr⟩ := by
    apply ext
    intro a
    rw [mem_eraseAll, hks]
    change (a ∈ s.toList ∧ _) ↔ a ∈ front ++ back
    rw [h]
    simp only [mem_append]
    constructor
    · rintro ⟨(ha | ha) | ha, hna⟩
      · exact Or.inl ha
      · exact absurd (mem_map_of_mem ha) hna
      · exact Or.inr ha
    · rintro (ha | ha)
      · refine ⟨Or.inl (Or.inl ha), fun hm => ?_⟩
        obtain ⟨b, hb, hba⟩ := mem_map.mp hm
        exact (hfm a ha b hb).ne hba.symm
      · refine ⟨Or.inr ha, fun hm => ?_⟩
        obtain ⟨b, hb, hba⟩ := mem_map.mp hm
        exact (hmb b (mem_append_right _ hb) a ha).ne hba
  rw [heq]

theorem toList_eraseAll_front {gone rest : List α} (h : s.toList = gone ++ rest) :
    (s.eraseAll (gone.map key)).toList = rest := by
  have h' : s.toList = [] ++ gone ++ rest := h
  exact toList_eraseAll_mid h' (fun _ => Iff.rfl)

/-- A scan from a key on is a back part of the store. -/
theorem toList_eq_append_seek (s : Keyed key) (k : κ) :
    s.toList = s.toList.filter (fun a => key a < k) ++ s.seek k := by
  have hp : s.toList.Pairwise fun a b => decide (key b < k) = true → decide (key a < k) = true :=
    s.sorted.imp fun hab => by simpa using hab.trans
  conv_lhs => rw [← filter_append_filter_not_of_pairwise hp]
  simp [seek, ← decide_not]

/-- The entries below a key, the one under it if there is one, and those above. -/
theorem toList_eq_append_append (s : Keyed key) (k : κ) :
    s.toList = s.toList.filter (fun a => key a < k) ++ s.toList.filter (fun a => key a = k) ++
      s.toList.filter (fun a => k < key a) := by
  have hp : (s.seek k).Pairwise fun a b => decide (key b ≤ k) = true → decide (key a ≤ k) = true :=
    (s.sorted.filter _).imp fun hab => by simpa using hab.le.trans
  have hseek : s.seek k = s.toList.filter (fun a => key a = k) ++
      s.toList.filter (fun a => k < key a) := by
    rw [← filter_append_filter_not_of_pairwise hp]
    unfold seek
    rw [filter_filter, filter_filter]
    congr 2 <;> funext a
    · simp [le_antisymm_iff]
    · rw [← decide_not, ← Bool.decide_and, decide_eq_decide, not_le]
      exact and_iff_left_of_imp le_of_lt
  rw [append_assoc, ← hseek]
  exact toList_eq_append_seek s k

/-- Replacing a run of neighbours by one entry under the last of their keys. -/
theorem toList_eraseAll_put {mid : List α} (h : s.toList = front ++ mid ++ back) (hne : mid ≠ [])
    (hk : key a = key (mid.getLast hne)) :
    ((s.eraseAll (mid.map key)).put a).toList = front ++ [a] ++ back := by
  have hs := s.sorted
  rw [h, pairwise_append, pairwise_append] at hs
  obtain ⟨⟨-, -, hfm⟩, -, hmb⟩ := hs
  have hlast : mid.getLast hne ∈ mid := getLast_mem hne
  refine toList_put_between (toList_eraseAll_mid h fun _ => Iff.rfl) ?_ ?_
  · intro b hb
    rw [hk]
    exact hfm b hb _ hlast
  · intro b hb
    rw [hk]
    exact hmb _ (mem_append_right _ hlast) b hb

/-- Adding several entries to a store whose entries are their own keys is a union. -/
theorem mem_foldl_put_id {s : Keyed (id : κ → κ)} {as : List κ} {a : κ} :
    a ∈ as.foldl put s ↔ a ∈ s ∨ a ∈ as := by
  induction as generalizing s with
  | nil => simp
  | cons b _ ih =>
    rw [foldl_cons, ih, mem_put, mem_cons]
    constructor
    · rintro ((h | ⟨h, -⟩) | h)
      · exact Or.inr (Or.inl h)
      · exact Or.inl h
      · exact Or.inr (Or.inr h)
    · rintro (h | h | h)
      · by_cases hab : a = b
        · exact Or.inl (Or.inl hab)
        · exact Or.inl (Or.inr ⟨h, hab⟩)
      · exact Or.inl (Or.inl h)
      · exact Or.inr h

/-- After several entries are stored there is one under each of their keys. -/
theorem exists_mem_foldl_put {as : List α} (h : (∃ b ∈ s, key b = k) ∨ ∃ b ∈ as, key b = k) :
    ∃ b ∈ as.foldl put s, key b = k := by
  induction as generalizing s with
  | nil => simpa using h
  | cons c _ ih =>
    refine ih ?_
    rcases h with ⟨b, hb, hk⟩ | ⟨b, hb, hk⟩
    · by_cases hbc : key b = key c
      · exact Or.inl ⟨c, mem_put.mpr (Or.inl rfl), hbc.symm.trans hk⟩
      · exact Or.inl ⟨b, mem_put.mpr (Or.inr ⟨hb, hbc⟩), hk⟩
    · rcases mem_cons.mp hb with rfl | hb
      · exact Or.inl ⟨b, mem_put.mpr (Or.inl rfl), hk⟩
      · exact Or.inr ⟨b, hb, hk⟩

abbrev Map (κ : Type v) (β : Type w) [LinearOrder κ] := Keyed (Prod.fst : κ × β → κ)

section Map

variable {β : Type w}

def find? (s : Map κ β) (k : κ) : Option β := (s.get? k).map Prod.snd

def keys (s : Map κ β) : List κ := s.toList.map Prod.fst

def values (s : Map κ β) : List β := s.toList.map Prod.snd

variable {s : Map κ β}

theorem find?_eq_some {b : β} : s.find? k = some b ↔ (k, b) ∈ s := by
  unfold find?
  rw [Option.map_eq_some_iff]
  constructor
  · rintro ⟨⟨_, _⟩, h, rfl⟩
    obtain ⟨hm, rfl⟩ := get?_eq_some.mp h
    exact hm
  · intro h
    exact ⟨(k, b), get?_eq_some.mpr ⟨h, rfl⟩, rfl⟩

@[simp]
theorem find?_put_self (s : Map κ β) (k : κ) (b : β) : (s.put (k, b)).find? k = some b :=
  find?_eq_some.mpr (mem_put.mpr (Or.inl rfl))

theorem find?_put_of_ne {b : β} (h : k' ≠ k) : (s.put (k, b)).find? k' = s.find? k' := by
  unfold find?
  rw [get?_put_of_ne h]

@[simp]
theorem find?_erase_self (s : Map κ β) (k : κ) : (s.erase k).find? k = none := by
  simp [find?]

theorem find?_erase_of_ne (h : k' ≠ k) : (s.erase k).find? k' = s.find? k' := by
  unfold find?
  rw [get?_erase_of_ne h]

theorem find?_put_eq_some {b b' : β} :
    (s.put (k, b)).find? k' = some b' ↔ k' = k ∧ b' = b ∨ k' ≠ k ∧ s.find? k' = some b' := by
  by_cases h : k' = k
  · simp [h, eq_comm]
  · simp [find?_put_of_ne h, h]

theorem find?_erase_eq_some {b : β} :
    (s.erase k).find? k' = some b ↔ k' ≠ k ∧ s.find? k' = some b := by
  by_cases h : k' = k
  · simp [h]
  · simp [find?_erase_of_ne h, h]

theorem mem_values {b : β} : b ∈ s.values ↔ ∃ k, s.find? k = some b := by
  simp only [values, mem_map, mem_toList, find?_eq_some, Prod.exists, exists_eq_right]

theorem mem_keys : k ∈ s.keys ↔ ∃ b, s.find? k = some b := by
  simp only [keys, mem_map, mem_toList, find?_eq_some, Prod.exists]
  constructor
  · rintro ⟨_, b, h, rfl⟩
    exact ⟨b, h⟩
  · rintro ⟨b, h⟩
    exact ⟨k, b, h, rfl⟩

theorem nodup_keys (s : Map κ β) : s.keys.Nodup :=
  pairwise_map.mpr (s.sorted.imp fun h => h.ne)

end Map

end Keyed

variable {β : Type v} {κ : Type w}

def shelfKey {δ : Type u} (pos : β → κ) (e : δ × β) : δ ×ₗ κ :=
  toLex (e.1, pos e.2)

theorem shelfKey_eq_iff {δ : Type u} {pos : β → κ} {d d' : δ} {b : β}
    {k : κ} : shelfKey pos (d', b) = toLex (d, k) ↔ d' = d ∧ pos b = k := by
  simp [shelfKey]

abbrev Shelved (δ : Type u) [LinearOrder δ] [LinearOrder κ]
    (pos : β → κ) :=
  Keyed (shelfKey pos : δ × β → δ ×ₗ κ)

namespace Keyed

variable {δ : Type u} {β : Type v} {κ : Type w} [LinearOrder δ] [LinearOrder κ] {pos : β → κ}

def owned (s : Shelved δ pos) (d : δ) : Keyed pos where
  toList := (s.toList.filter fun e => e.1 = d).map Prod.snd
  sorted := by
    refine pairwise_map.mpr ?_
    refine (s.sorted.filter _).imp_of_mem ?_
    intro a b ha hb hab
    have hda : a.1 = d := by simpa using (List.mem_filter.mp ha).2
    have hdb : b.1 = d := by simpa using (List.mem_filter.mp hb).2
    rcases Prod.Lex.toLex_lt_toLex.mp hab with h | ⟨_, h⟩
    · exact absurd h (by rw [hda, hdb]; exact lt_irrefl d)
    · exact h

variable {s : Shelved δ pos} {d d' : δ}

@[simp]
theorem mem_owned {b : β} : b ∈ s.owned d ↔ (d, b) ∈ s := by
  change b ∈ (s.owned d).toList ↔ _
  simp only [owned, mem_map, List.mem_filter, Keyed.mem_toList, decide_eq_true_eq]
  constructor
  · rintro ⟨⟨_, _⟩, ⟨h, rfl⟩, rfl⟩
    exact h
  · intro h
    exact ⟨(d, b), ⟨h, rfl⟩, rfl⟩

theorem owned_put_self (s : Shelved δ pos) (d : δ) (b : β) :
    (s.put (d, b)).owned d = (s.owned d).put b := by
  apply Keyed.ext
  intro c
  have hk : shelfKey pos (d, c) = shelfKey pos (d, b) ↔ pos c = pos b := by simp [shelfKey]
  simp [hk]

theorem owned_put_of_ne {b : β} (h : d' ≠ d) : (s.put (d, b)).owned d' = s.owned d' := by
  apply Keyed.ext
  intro c
  have hk : shelfKey pos (d', c) ≠ shelfKey pos (d, b) := by simp [shelfKey, h]
  simp [hk, h]

theorem owned_foldl_put {es : List (δ × β)} (h : ∀ e ∈ es, e.1 ≠ d) :
    (es.foldl Keyed.put s).owned d = s.owned d := by
  induction es generalizing s with
  | nil => rfl
  | cons e _ ih =>
    rw [foldl_cons, ih fun e' he => h e' (mem_cons_of_mem _ he)]
    exact owned_put_of_ne (h e mem_cons_self).symm

theorem owned_filter (s : Shelved δ pos) (p : δ × β → Bool) (d : δ) :
    Keyed.owned (s.filter p) d = (s.owned d).filter fun b => p (d, b) := by
  apply Keyed.ext
  intro c
  simp

theorem owned_erase_self (s : Shelved δ pos) (d : δ) (k : κ) :
    (s.erase (toLex (d, k))).owned d = (s.owned d).erase k := by
  apply Keyed.ext
  intro c
  simp [shelfKey_eq_iff]

theorem owned_erase_of_ne {k : κ} (h : d' ≠ d) :
    (s.erase (toLex (d, k))).owned d' = s.owned d' := by
  apply Keyed.ext
  intro c
  simp [shelfKey_eq_iff, h]

theorem owned_eraseAll_self (s : Shelved δ pos) (d : δ) (ks : List κ) :
    (s.eraseAll (ks.map fun k => toLex (d, k))).owned d = (s.owned d).eraseAll ks := by
  induction ks generalizing s with
  | nil => rfl
  | cons _ _ ih => rw [map_cons, eraseAll_cons, eraseAll_cons, ih, owned_erase_self]

theorem owned_eraseAll_of_ne {ks : List κ} (h : d' ≠ d) :
    (s.eraseAll (ks.map fun k => toLex (d, k))).owned d' = s.owned d' := by
  induction ks generalizing s with
  | nil => rfl
  | cons _ _ ih => rw [map_cons, eraseAll_cons, ih, owned_erase_of_ne h]

/-- A forward scan that starts in `d`'s range and stops at the first foreign entry. -/
theorem seek_takeWhile (s : Shelved δ pos) (d : δ) (k : κ) :
    ((s.seek (toLex (d, k))).takeWhile fun e => e.1 = d).map Prod.snd = (s.owned d).seek k := by
  have hp : (s.seek (toLex (d, k))).Pairwise fun a b =>
      decide (b.1 = d) = true → decide (a.1 = d) = true := by
    refine (s.sorted.filter _).imp_of_mem ?_
    intro a b ha hb hab
    simp only [decide_eq_true_eq]
    intro hd
    have hge : d ≤ a.1 := Prod.Lex.monotone_fst_ofLex (by simpa using (List.mem_filter.mp ha).2)
    have hle := Prod.Lex.monotone_fst_ofLex hab.le
    exact le_antisymm (hd ▸ hle) hge
  rw [takeWhile_eq_filter_of_pairwise hp]
  simp only [Keyed.seek, owned, filter_filter, filter_map]
  congr 1
  apply filter_congr
  rintro ⟨d', _⟩ _
  by_cases h : d' = d <;> simp [shelfKey, Prod.Lex.toLex_le_toLex, h]

/-- A backward scan that starts in `d`'s range and stops at the first foreign entry. -/
theorem seekPrev_takeWhile (s : Shelved δ pos) (d : δ) (k : κ) :
    ((s.seekPrev (toLex (d, k))).takeWhile fun e => e.1 = d).map Prod.snd =
      (s.owned d).seekPrev k := by
  have hp : (s.seekPrev (toLex (d, k))).Pairwise fun a b =>
      decide (b.1 = d) = true → decide (a.1 = d) = true := by
    refine pairwise_reverse.mpr ((s.sorted.filter _).imp_of_mem ?_)
    intro a b ha hb hab
    simp only [decide_eq_true_eq]
    intro hd
    have hge : b.1 ≤ d := Prod.Lex.monotone_fst_ofLex (by simpa using (List.mem_filter.mp hb).2)
    have hle := Prod.Lex.monotone_fst_ofLex hab.le
    exact le_antisymm hge (hd ▸ hle)
  rw [takeWhile_eq_filter_of_pairwise hp]
  simp only [Keyed.seekPrev, owned, filter_reverse, map_reverse, filter_filter,
    filter_map]
  congr 2
  apply filter_congr
  rintro ⟨d', _⟩ _
  by_cases h : d' = d <;> simp [shelfKey, Prod.Lex.toLex_le_toLex, h]

end Keyed
