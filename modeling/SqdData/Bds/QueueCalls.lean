import SqdData.Bds.Chain

/-!
# Forks and finality in the queue

Two calls search the references of the queue. `compute_fork_base` walks them and the blocks that a
data source names after a fork from the back, to find the block from which ingestion restarts.
`finalize` looks up a reported head. Both take shortcuts that are not always right: a hint may be
dropped without having been compared, and a report ahead of a queue with a single reference is
ignored.
-/

namespace Bds

open List

open Storage (BlockRef Error)
open Block

/-! ### Fork base -/

/-- The loop of `compute_fork_base`, over the chain and the hints from the back. -/
def forkBaseLoop : List BlockRef → List BlockRef → Option BlockRef
  | [], _ => none
  | b :: chain, prev =>
    if prev.head?.any fun p => p.number < b.number then forkBaseLoop chain prev
    else
      match prev.dropWhile fun p => b.number < p.number with
      | [] => some b
      | p :: prev => if b = p then some b else forkBaseLoop chain prev

def computeForkBase (reversedChain prev : List BlockRef) : Option BlockRef :=
  forkBaseLoop reversedChain prev.reverse

def Chain.computeForkBase {B : Type} (c : Chain B) (prev : List BlockRef) :
    Except Error (Option BlockRef) :=
  match Bds.computeForkBase c.chain.reverse prev, c.fin, c.chain with
  | some head, _, _ => .ok (some head)
  | none, true, first :: _ => .error (.text s!"rollback below finalized head {display first}")
  | none, _, _ => .ok none

/-- A block that is named by the hints, or lies below all of them. -/
def Common (hints : List BlockRef) (b : BlockRef) : Prop :=
  b ∈ hints ∨ ∀ p ∈ hints, b.number < p.number

/-- The highest block of the chain that satisfies `P`, if there is one. -/
def IsHighest (P : BlockRef → Prop) (chain : List BlockRef) : Option BlockRef → Prop
  | some b => b ∈ chain ∧ P b ∧ ∀ b' ∈ chain, P b' → b'.number ≤ b.number
  | none => ∀ b ∈ chain, ¬ P b

/-- A comparison with a block between two hints in a row drops the lower hint, unless the upper one
is gone because the chain has a block of its number. -/
def Drops (chain : List BlockRef) (upper lower : BlockRef) : Prop :=
  (∃ b ∈ chain, lower.number < b.number ∧ b.number < upper.number) ∧
    ∀ b ∈ chain, b.number ≠ upper.number

/-- Of the hints from the back, which are there to be compared from the first on, those that are
dropped do no harm: they are not in the chain, or the last one is, and then it is the next block. -/
def Harmless (chain : List BlockRef) : List BlockRef → Prop
  | upper :: lower :: rest =>
    upper ∈ chain ∨
      (Drops chain upper lower → if rest = [] then
          ∀ b ∈ chain, b.number < upper.number → ∀ c ∈ chain, c.number < b.number →
            lower.number ≤ c.number → c = lower
        else lower ∉ chain ∧ Harmless chain rest) ∧
      (¬ Drops chain upper lower → Harmless chain (lower :: rest))
  | _ => True

section ForkBase

variable {chain prev : List BlockRef} {b : BlockRef}

theorem isHighest_cons {P : BlockRef → Prop} {r : Option BlockRef} (hb : ¬ P b) :
    IsHighest P (b :: chain) r ↔ IsHighest P chain r := by
  cases r with
  | none => exact forall_mem_cons.trans (and_iff_right hb)
  | some a =>
    refine ⟨fun ⟨hm, hp, hmax⟩ => ?_, fun ⟨hm, hp, hmax⟩ => ⟨mem_cons_of_mem _ hm, hp, ?_⟩⟩
    · have hne : a ≠ b := fun heq => hb (heq ▸ hp)
      exact ⟨(mem_cons.mp hm).resolve_left hne, hp, (forall_mem_cons.mp hmax).2⟩
    · exact forall_mem_cons.mpr ⟨fun hp => absurd hp hb, hmax⟩

theorem isHighest_congr {P Q : BlockRef → Prop} {r : Option BlockRef}
    (hpq : ∀ b ∈ chain, P b ↔ Q b) : IsHighest P chain r ↔ IsHighest Q chain r := by
  have hall : ∀ {R : BlockRef → Prop}, (∀ b ∈ chain, P b → R b) ↔ ∀ b ∈ chain, Q b → R b :=
    forall₂_congr fun b hb => imp_congr_left (hpq b hb)
  cases r with
  | none => exact hall
  | some a => exact and_congr_right fun hm => and_congr (hpq a hm) hall

/-- The first block of a descending chain is its highest one. -/
theorem isHighest_head (hc : (b :: chain).Pairwise fun a b => b.number < a.number)
    {P : BlockRef → Prop} : IsHighest P (b :: chain) (some b) ↔ P b := by
  refine ⟨fun h => h.2.1, fun hp => ⟨mem_cons_self, hp, fun c hm _ => ?_⟩⟩
  rcases mem_cons.mp hm with rfl | hm
  · exact le_rfl
  · exact (rel_of_pairwise_cons hc hm).le

theorem common_cons {p : BlockRef} (h : b.number < p.number) :
    Common (p :: prev) b ↔ Common prev b := by
  have hne : b ≠ p := fun heq => lt_irrefl _ (heq ▸ h)
  unfold Common
  rw [mem_cons, forall_mem_cons, or_iff_right hne, and_iff_right h]

theorem not_common {p : BlockRef} (hp : ∀ q ∈ prev, q.number < p.number)
    (hle : p.number ≤ b.number) (hne : b ≠ p) : ¬ Common (p :: prev) b := by
  rintro (hmem | hbelow)
  · have := hp b ((mem_cons.mp hmem).resolve_left hne)
    omega
  · have := hbelow p mem_cons_self
    omega

/-- Only the blocks up to the hints have a part in it. -/
theorem harmless_congr {chain' : List BlockRef}
    (h : ∀ p ∈ prev, ∀ b : BlockRef, b.number ≤ p.number → (b ∈ chain ↔ b ∈ chain')) :
    Harmless chain prev ↔ Harmless chain' prev := by
  induction prev using Harmless.induct with
  | case1 upper lower rest ih ih' =>
    rw [forall_mem_cons, forall_mem_cons] at h
    have hdrops : Drops chain upper lower ↔ Drops chain' upper lower := by
      have hup := h.1
      unfold Drops
      grind
    have hlast : (∀ b ∈ chain, b.number < upper.number → ∀ c ∈ chain, c.number < b.number →
        lower.number ≤ c.number → c = lower) ↔ ∀ b ∈ chain', b.number < upper.number →
        ∀ c ∈ chain', c.number < b.number → lower.number ≤ c.number → c = lower := by
      have hup := h.1
      grind
    simp only [Harmless, hdrops, hlast, h.1 upper le_rfl, h.2.1 lower le_rfl, ih h.2.2,
      ih' (forall_mem_cons.mpr h.2)]
  | case2 => simp [Harmless]

theorem harmless_cons (hb : ∀ p ∈ prev, p.number < b.number) :
    Harmless (b :: chain) prev ↔ Harmless chain prev := by
  refine harmless_congr fun p hp c hle => ⟨fun hm => ?_, mem_cons_of_mem _⟩
  rcases mem_cons.mp hm with rfl | hm
  · exact absurd (hb p hp) (by omega)
  · exact hm

theorem harmless_nil : Harmless [] prev := by
  induction prev using Harmless.induct with
  | case1 upper lower rest ih ih' => simp [Harmless, Drops, ih']
  | case2 => simp [Harmless]

theorem harmless_of_mem {p : BlockRef} (h : p ∈ chain) : Harmless chain (p :: prev) := by
  cases prev with
  | nil => exact trivial
  | cons lower rest => exact .inl h

/-- Where the chain has another block of its number, a hint is compared and gone. -/
theorem harmless_mismatch {p : BlockRef} (hn : p ∉ chain) (hb : b ∈ chain)
    (heq : b.number = p.number) : Harmless chain (p :: prev) ↔ Harmless chain prev := by
  cases prev with
  | nil => rfl
  | cons lower rest =>
    have hdrops : ¬ Drops chain p lower := fun h => h.2 b hb heq
    rw [Harmless, or_iff_right hn]
    simp only [hdrops, false_imp_iff, true_and, not_false_eq_true, forall_const]

theorem forkBaseLoop_nil : forkBaseLoop chain [] = chain.head? := by
  cases chain <;> rfl

theorem forkBaseLoop_skip {p : BlockRef} (h : p.number < b.number) :
    forkBaseLoop (b :: chain) (p :: prev) = forkBaseLoop chain (p :: prev) := by
  simp [forkBaseLoop, h]

theorem forkBaseLoop_compare {p : BlockRef} (h : b.number = p.number) :
    forkBaseLoop (b :: chain) (p :: prev) = if b = p then some b else forkBaseLoop chain prev := by
  simp [forkBaseLoop, h]

/-- A hint above the block goes, and the next one is then compared even if it is below the block. -/
theorem forkBaseLoop_above {upper lower : BlockRef} (h : b.number < upper.number) :
    forkBaseLoop (b :: chain) (upper :: lower :: prev) =
      if lower.number < b.number then forkBaseLoop chain prev
      else forkBaseLoop (b :: chain) (lower :: prev) := by
  by_cases hl : lower.number < b.number
  · have hne : b ≠ lower := fun heq => lt_irrefl _ (heq ▸ hl)
    simp [forkBaseLoop, h, h.not_gt, hl, hl.not_gt, hne]
  · simp [forkBaseLoop, h, h.not_gt, hl]

theorem forkBaseLoop_mem {base : BlockRef} (h : forkBaseLoop chain prev = some base) :
    base ∈ chain := by
  induction chain generalizing prev with
  | nil => cases h
  | cons b chain ih =>
    unfold forkBaseLoop at h
    split at h
    · exact mem_cons_of_mem _ (ih h)
    · split at h
      · exact Option.some.inj h ▸ mem_cons_self
      · split at h
        · exact Option.some.inj h ▸ mem_cons_self
        · exact mem_cons_of_mem _ (ih h)

/-- Blocks above the first hint are passed over. -/
theorem forkBaseLoop_le (hc : chain.Pairwise fun a b => b.number < a.number) {p base : BlockRef}
    (h : forkBaseLoop chain (p :: prev) = some base) : base.number ≤ p.number := by
  induction chain with
  | nil => cases h
  | cons b chain ih =>
    by_cases hlt : p.number < b.number
    · exact ih hc.of_cons (forkBaseLoop_skip hlt ▸ h)
    · rcases mem_cons.mp (forkBaseLoop_mem h) with rfl | hm
      · omega
      · have := rel_of_pairwise_cons hc hm
        omega

/-- With the last hint dropped, the next block is taken. -/
theorem isHighest_forgotten {p : BlockRef} (hc : chain.Pairwise fun a b => b.number < a.number) :
    IsHighest (Common [p]) chain chain.head? ↔ ∀ c ∈ chain, p.number ≤ c.number → c = p := by
  cases chain with
  | nil => simp [IsHighest]
  | cons first chain =>
    rw [head?_cons, isHighest_head hc]
    simp only [Common, mem_singleton, forall_eq]
    constructor
    · intro h c hm hle
      rcases mem_cons.mp hm with rfl | hm
      · exact h.resolve_right (by omega)
      · have hlt := rel_of_pairwise_cons hc hm
        have : first.number ≤ p.number := h.elim (fun heq => heq ▸ le_rfl) le_of_lt
        omega
    · intro h
      by_cases hle : p.number ≤ first.number
      · exact .inl (h first mem_cons_self hle)
      · exact .inr (by omega)

/-- With a hint dropped and others left, the chain must not hold it. -/
theorem isHighest_dropped {p q : BlockRef} (hc : chain.Pairwise fun a b => b.number < a.number)
    (hp : (p :: q :: prev).Pairwise fun a b => b.number < a.number) :
    IsHighest (Common (p :: q :: prev)) chain (forkBaseLoop chain (q :: prev)) ↔
      p ∉ chain ∧ IsHighest (Common (q :: prev)) chain (forkBaseLoop chain (q :: prev)) := by
  have hq : q.number < p.number := rel_of_pairwise_cons hp mem_cons_self
  by_cases hm : p ∈ chain
  · refine iff_of_false (fun h => ?_) fun h => h.1 hm
    have hcommon : Common (p :: q :: prev) p := .inl mem_cons_self
    cases hr : forkBaseLoop chain (q :: prev) with
    | none =>
      rw [hr] at h
      exact h p hm hcommon
    | some base =>
      rw [hr] at h
      have := h.2.2 p hm hcommon
      have := forkBaseLoop_le hc hr
      omega
  · rw [and_iff_right hm]
    refine isHighest_congr fun c hcm => ?_
    have hne : c ≠ p := fun heq => hm (heq ▸ hcm)
    unfold Common
    rw [mem_cons, or_iff_right hne, forall_mem_cons]
    refine or_congr_right ⟨fun h => h.2, fun h => ⟨?_, h⟩⟩
    exact (h q mem_cons_self).trans hq

theorem drops_head {upper lower : BlockRef}
    (hc : (b :: chain).Pairwise fun a b => b.number < a.number) (h : b.number < upper.number) :
    Drops (b :: chain) upper lower ↔ lower.number < b.number := by
  have hle : ∀ c ∈ b :: chain, c.number ≤ b.number :=
    forall_mem_cons.mpr ⟨le_rfl, fun c hm => (rel_of_pairwise_cons hc hm).le⟩
  constructor
  · rintro ⟨⟨c, hm, hl, -⟩, -⟩
    exact hl.trans_le (hle c hm)
  · intro hl
    refine ⟨⟨b, mem_cons_self, hl, h⟩, fun c hm => ?_⟩
    have := hle c hm
    omega

/-- A hint with the number of the first block is compared with it. -/
theorem isHighest_compared {p : BlockRef}
    (hc : (b :: chain).Pairwise fun a b => b.number < a.number)
    (hp : ∀ q ∈ prev, q.number < p.number) (heq : b.number = p.number)
    (ih : IsHighest (Common prev) chain (forkBaseLoop chain prev) ↔ Harmless chain prev) :
    IsHighest (Common (p :: prev)) (b :: chain) (forkBaseLoop (b :: chain) (p :: prev)) ↔
      Harmless (b :: chain) (p :: prev) := by
  have hbelow : ∀ c ∈ chain, c.number < p.number := fun c hm =>
    (rel_of_pairwise_cons hc hm).trans_eq heq
  rw [forkBaseLoop_compare heq]
  split
  · rename_i hbp
    exact iff_of_true ((isHighest_head hc).mpr (.inl (hbp ▸ mem_cons_self)))
      (harmless_of_mem (hbp ▸ mem_cons_self))
  · rename_i hbp
    have hpn : p ∉ b :: chain := by
      rw [mem_cons, not_or]
      exact ⟨Ne.symm hbp, fun hm => lt_irrefl _ (hbelow p hm)⟩
    rw [isHighest_cons (not_common hp heq.ge hbp),
      isHighest_congr fun c hm => common_cons (hbelow c hm), ih,
      harmless_mismatch hpn mem_cons_self heq,
      harmless_cons fun q hm => (hp q hm).trans_eq heq.symm]

/-- A hint below the first block is lost if the one before it was above the block. -/
theorem isHighest_lost {upper lower : BlockRef}
    (hc : (b :: chain).Pairwise fun a b => b.number < a.number)
    (hp : (lower :: prev).Pairwise fun a b => b.number < a.number)
    (hl : lower.number < b.number) (hu : b.number < upper.number)
    (ih : IsHighest (Common prev) chain (forkBaseLoop chain prev) ↔ Harmless chain prev) :
    IsHighest (Common (lower :: prev)) (b :: chain) (forkBaseLoop chain prev) ↔
      if prev = [] then
        ∀ b' ∈ b :: chain, b'.number < upper.number → ∀ c ∈ b :: chain, c.number < b'.number →
          lower.number ≤ c.number → c = lower
      else lower ∉ b :: chain ∧ Harmless (b :: chain) prev := by
  have hlow : ∀ q ∈ prev, q.number < lower.number := fun q => rel_of_pairwise_cons hp
  have hne : b ≠ lower := fun heq => lt_irrefl _ (heq ▸ hl)
  rw [isHighest_cons (not_common hlow hl.le hne)]
  cases prev with
  | nil =>
    rw [forkBaseLoop_nil, isHighest_forgotten hc.of_cons, if_pos rfl]
    constructor
    · intro h b' hb' _ c hm hlt hle
      have hb : b'.number ≤ b.number := by
        rcases mem_cons.mp hb' with rfl | hb'
        · exact le_rfl
        · exact (rel_of_pairwise_cons hc hb').le
      have hcb : c ≠ b := fun heq => absurd (heq ▸ hlt) (by omega)
      exact h c ((mem_cons.mp hm).resolve_left hcb) hle
    · intro h c hm
      exact h b mem_cons_self hu c (mem_cons_of_mem _ hm) (rel_of_pairwise_cons hc hm)
  | cons q rest =>
    rw [isHighest_dropped hc.of_cons hp, ih, if_neg (cons_ne_nil _ _),
      harmless_cons fun r hm => (hlow r hm).trans hl, mem_cons, not_or, and_iff_right hne.symm]

/-- Hints above the block that is compared go one by one, and the last of them decides whether the
hint below the block is lost. -/
theorem forkBaseLoop_cons_isHighest (hc : (b :: chain).Pairwise fun a b => b.number < a.number)
    (hp : prev.Pairwise fun a b => b.number < a.number)
    (ih : ∀ {prev}, prev.Pairwise (fun a b : BlockRef => b.number < a.number) →
      (IsHighest (Common prev) chain (forkBaseLoop chain prev) ↔ Harmless chain prev)) :
    IsHighest (Common prev) (b :: chain) (forkBaseLoop (b :: chain) prev) ↔
      Harmless (b :: chain) prev := by
  induction prev with
  | nil => exact iff_of_true ((isHighest_head hc).mpr (.inr (by simp))) trivial
  | cons p rest ihp =>
    have hrest : ∀ q ∈ rest, q.number < p.number := fun q => rel_of_pairwise_cons hp
    rcases lt_trichotomy p.number b.number with hlt | heq | hgt
    · have hne : b ≠ p := fun heq => lt_irrefl _ (heq ▸ hlt)
      rw [forkBaseLoop_skip hlt, isHighest_cons (not_common hrest hlt.le hne), ih hp]
      exact (harmless_cons (forall_mem_cons.mpr ⟨hlt, fun q hm => (hrest q hm).trans hlt⟩)).symm
    · exact isHighest_compared hc hrest heq.symm (ih hp.of_cons)
    · have hbelow : ∀ c ∈ b :: chain, c.number < p.number :=
        forall_mem_cons.mpr ⟨hgt, fun c hm => (rel_of_pairwise_cons hc hm).trans hgt⟩
      rw [isHighest_congr fun c hm => common_cons (hbelow c hm)]
      cases rest with
      | nil =>
        have hbase : forkBaseLoop (b :: chain) [p] = some b := by
          simp [forkBaseLoop, hgt, hgt.not_gt]
        rw [hbase]
        exact iff_of_true ((isHighest_head hc).mpr (.inr (by simp))) trivial
      | cons lower rest =>
        have hpn : p ∉ b :: chain := fun hm => lt_irrefl _ (hbelow p hm)
        rw [forkBaseLoop_above hgt, Harmless, or_iff_right hpn, drops_head hc hgt]
        by_cases hl : lower.number < b.number
        · rw [if_pos hl, isHighest_lost hc hp.of_cons hl hgt (ih hp.of_cons.of_cons)]
          simp only [hl, forall_const, not_true_eq_false, false_imp_iff, and_true]
        · rw [if_neg hl]
          simp only [hl, false_imp_iff, true_and, not_false_eq_true, forall_const]
          exact ihp hp.of_cons

/-- The fork base is right exactly if no hint is dropped that matters. -/
theorem forkBaseLoop_isHighest (hc : chain.Pairwise fun a b => b.number < a.number)
    (hp : prev.Pairwise fun a b => b.number < a.number) :
    IsHighest (Common prev) chain (forkBaseLoop chain prev) ↔ Harmless chain prev := by
  induction chain generalizing prev with
  | nil => exact iff_of_true (by simp [forkBaseLoop, IsHighest]) harmless_nil
  | cons b chain ih => exact forkBaseLoop_cons_isHighest hc hp (ih hc.of_cons)

/-- The fork base is the highest block that the chain and the hints have in common exactly if the
hints that are dropped uncompared do no harm. The queue reports a missing base as an error exactly
if it has a finalized block. -/
theorem fork_base_is_highest_common {B : Type} {chain hints : List BlockRef}
    (hchain : (chain.map BlockRef.number).Pairwise (· < ·))
    (hhints : (hints.map BlockRef.number).Pairwise (· < ·)) :
    (IsHighest (Common hints) chain (computeForkBase chain.reverse hints) ↔
      Harmless chain hints.reverse) ∧
    ∀ c : Chain B, c.chain = chain →
      ((∃ e, c.computeForkBase hints = .error e) ↔
        computeForkBase chain.reverse hints = none ∧ c.fin = true ∧ chain ≠ []) ∧
      ∀ base, c.computeForkBase hints = .ok base → base = computeForkBase chain.reverse hints := by
  constructor
  · have h : IsHighest (Common hints.reverse) chain.reverse (computeForkBase chain.reverse hints) ↔
        Harmless chain.reverse hints.reverse :=
      forkBaseLoop_isHighest (pairwise_reverse.mpr (pairwise_map.mp hchain))
        (pairwise_reverse.mpr (pairwise_map.mp hhints))
    rw [harmless_congr fun _ _ _ _ => mem_reverse] at h
    rw [← h]
    cases computeForkBase chain.reverse hints with
    | none => simp only [IsHighest, Common, mem_reverse]
    | some base => simp only [IsHighest, Common, mem_reverse]
  · rintro c rfl
    unfold Chain.computeForkBase
    cases computeForkBase c.chain.reverse hints with
    | some head => simp
    | none =>
      cases c.fin with
      | false => simp
      | true =>
        cases c.chain with
        | nil => simp
        | cons first chain => simp

/-- Block 5 drops hint 4, which the chain does not hold. Hint 2 is left and is found. -/
theorem fork_base_below_a_fork :
    IsHighest (Common [⟨2, "2"⟩, ⟨4, "4x"⟩, ⟨7, "7"⟩]) [⟨2, "2"⟩, ⟨3, "3"⟩, ⟨5, "5"⟩]
      (some ⟨2, "2"⟩) := by
  refine (fork_base_is_highest_common (B := BlockHeader) (by decide) (by decide)).1.mpr ?_
  simp [Harmless, Drops]

/-- Hint 3 is dropped when block 5 is compared, and block 4 is then taken to lie below all hints. -/
theorem skipped_hint_is_forgotten :
    computeForkBase [⟨5, "5"⟩, ⟨4, "4"⟩, ⟨3, "3"⟩] [⟨3, "3"⟩, ⟨7, "7"⟩] = some ⟨4, "4"⟩ ∧
    ¬ IsHighest (Common [⟨3, "3"⟩, ⟨7, "7"⟩]) [⟨3, "3"⟩, ⟨4, "4"⟩, ⟨5, "5"⟩] (some ⟨4, "4"⟩) ∧
    IsHighest (Common [⟨3, "3"⟩, ⟨7, "7"⟩]) [⟨3, "3"⟩, ⟨4, "4"⟩, ⟨5, "5"⟩] (some ⟨3, "3"⟩) := by
  unfold IsHighest Common
  decide

end ForkBase

/-! ### Reports of finality -/

namespace Chain

variable {B : Type} {c c' : Chain B} {head first last : BlockRef}

/-- What is asked of a report about a chain from `first` to `last`: below the chain it changes
nothing, inside the chain it fails if it names another block, and otherwise the highest block up to
its number becomes the front. -/
structure Finalizes (c : Chain B) (head first last : BlockRef) (result : Except Error Bool)
    (c' : Chain B) : Prop where
  below : head.number < first.number → result = .ok false ∧ c' = c
  error : (∃ e, result = .error e) ↔
    (first.number ≤ head.number ∧ head.number ≤ last.number) ∧ head ∉ c.chain
  unchanged : ∀ e, result = .error e → c' = c
  cut : first.number ≤ head.number → ∀ flag, result = .ok flag →
    ∃ gone front kept, c.chain = gone ++ front :: kept ∧ front.number ≤ head.number ∧
      (∀ b ∈ kept, head.number < b.number) ∧
      c' = { c with chain := front :: kept, fin := true } ∧
      (flag = true ↔ c.fin = false ∨ front ≠ first)

theorem bisect_lt_length {n : Nat} (hasc : (c.chain.map BlockRef.number).Pairwise (· < ·))
    (hlast : c.chain.getLast? = some last) (hn : n ≤ last.number) :
    bisect (c.chain.map BlockRef.number) n < c.chain.length := by
  by_contra hge
  obtain ⟨i, hi, heq⟩ := getElem_of_mem (mem_of_getLast? hlast)
  have hlt := (bisect_parts hasc n).below i (by omega)
  rw [getD_eq_getElem _ _ (by simpa using hi), getElem_map, heq] at hlt
  omega

theorem Finalizes.of_cut {gone kept : List BlockRef} {front : BlockRef} {flag : Bool}
    (hfirst : c.chain.head? = some first) (hasc : (c.chain.map BlockRef.number).Pairwise (· < ·))
    (hc : c.chain = gone ++ front :: kept) (hle : front.number ≤ head.number)
    (hk : ∀ b ∈ kept, head.number < b.number) (hin : head.number ≤ last.number → head = front)
    (hflag : flag = true ↔ c.fin = false ∨ gone ≠ []) :
    Finalizes c head first last (.ok flag) { c with chain := front :: kept, fin := true } := by
  have hg : (gone ≠ [] ↔ front ≠ first) ∧ first.number ≤ front.number := by
    cases gone with
    | nil =>
      cases Option.some.inj ((congrArg List.head? hc).symm.trans hfirst)
      simp
    | cons b gone =>
      cases Option.some.inj ((congrArg List.head? hc).symm.trans hfirst)
      rw [hc, pairwise_map, cons_append, pairwise_cons] at hasc
      have hlt := hasc.1 front (by simp)
      exact ⟨⟨fun _ heq => hlt.ne' (congrArg _ heq), fun _ => cons_ne_nil _ _⟩, hlt.le⟩
  refine ⟨fun hlt => by omega, ⟨fun ⟨e, he⟩ => (by cases he), ?_⟩, fun e he => (by cases he), ?_⟩
  · rintro ⟨hr, hn⟩
    rw [hin hr.2, hc] at hn
    exact absurd (mem_append_right _ mem_cons_self) hn
  · rintro - flag' ⟨⟩
    exact ⟨gone, front, kept, hc, hle, hk, rfl, by rw [hflag, hg.1]⟩

section Reports

variable (hfirst : c.chain.head? = some first) (hlast : c.chain.getLast? = some last)
  (hasc : (c.chain.map BlockRef.number).Pairwise (· < ·))

include hfirst hlast hasc

theorem finalizes_inside (hlow : first.number ≤ head.number) (hin : head.number ≤ last.number) :
    ∃ result c', c.finalize head = some (result, c') ∧ Finalizes c head first last result c' := by
  have hp := bisect_parts hasc head.number
  unfold finalize
  simp only [hfirst, hlast, if_neg (not_lt.mpr hlow), if_neg (not_lt.mpr hin)]
  set pos := bisect (c.chain.map BlockRef.number) head.number
  have hlt : pos < c.chain.length := bisect_lt_length hasc hlast hin
  have hsplit : c.chain = c.chain.take pos ++ c.chain[pos] :: c.chain.drop (pos + 1) := by simp
  rw [getElem?_eq_getElem hlt]
  dsimp only
  split
  · rename_i hfound
    refine ⟨_, _, rfl, ?_⟩
    rw [hfound] at hsplit
    have hdrop : c.chain.drop pos = head :: c.chain.drop (pos + 1) := by
      rw [← hfound, getElem_cons_drop]
    rw [hdrop]
    refine .of_cut hfirst hasc hsplit le_rfl ?_ (fun _ => rfl) ?_
    · rw [hsplit, pairwise_map] at hasc
      exact (pairwise_cons.mp (pairwise_append.mp hasc).2.1).1
    · have : c.chain ≠ [] := ne_nil_of_length_pos (by omega)
      simp [Nat.pos_iff_ne_zero, this]
  · rename_i hfound
    refine ⟨_, _, rfl, ⟨fun h => by omega, ?_, fun _ _ => rfl, fun _ flag hflag => ?_⟩⟩
    · refine iff_of_true ⟨_, rfl⟩ ⟨⟨hlow, hin⟩, fun hmem => hfound ?_⟩
      obtain ⟨i, hi, heq⟩ := getElem_of_mem hmem
      have hi' : (c.chain.map BlockRef.number).getD i 0 = head.number := by simp [hi, heq]
      obtain rfl := hp.eq_of_getD hasc (by simpa using hi) hi'
      exact heq
    · cases hflag

theorem finalizes_ahead (hlow : first.number ≤ head.number) (hahead : last.number < head.number) :
    (∃ result c', c.finalize head = some (result, c') ∧ Finalizes c head first last result c') ↔
      ¬ (c.chain = [first] ∧ c.fin = false) := by
  unfold finalize
  simp only [hfirst, hlast, if_neg (not_lt.mpr hlow), if_pos hahead]
  obtain ⟨gone, hg⟩ := getLast?_eq_some_iff.mp hlast
  by_cases hlen : 1 < c.chain.length
  · have hne : gone ≠ [] := by
      rintro rfl
      simp [hg] at hlen
    have hall : c.finalizeAll = { c with chain := [last], fin := true } := by
      unfold finalizeAll
      rw [hlast]
    rw [if_pos hlen, hall]
    refine iff_of_true ⟨_, _, rfl, .of_cut hfirst hasc hg hahead.le (by simp) (by omega)
      (by simp [hne])⟩ fun h => ?_
    simp [h.1] at hlen
  · obtain rfl : gone = [] := by
      rw [hg, length_append, length_singleton] at hlen
      exact length_eq_zero_iff.mp (by omega)
    obtain rfl : last = first := Option.some.inj ((congrArg List.head? hg).symm.trans hfirst)
    rw [if_neg hlen]
    constructor
    · rintro ⟨result, c', heq, h⟩ ⟨-, hfin⟩
      cases heq
      obtain ⟨-, front, kept, -, -, -, hc, -⟩ := h.cut hahead.le false rfl
      have := congrArg Chain.fin hc
      rw [hfin] at this
      cases this
    · intro h
      have hfin : c.fin = true := by
        by_contra hfin
        exact h ⟨hg, eq_false_of_ne_true hfin⟩
      have hc : { c with chain := [last], fin := true } = c := by
        rw [← hfin, ← nil_append [last], ← hg]
      have hcut : Finalizes c head last last (.ok false) { c with chain := [last], fin := true } :=
        .of_cut hfirst hasc hg hahead.le (by simp) (by omega) (by simp [hfin])
      rw [hc] at hcut
      exact ⟨_, _, rfl, hcut⟩

end Reports

/-- A report does what is asked, unless it is ahead of a single reference that is not final. -/
theorem finalize_is_exact_iff (hfirst : c.chain.head? = some first)
    (hlast : c.chain.getLast? = some last)
    (hasc : (c.chain.map BlockRef.number).Pairwise (· < ·)) :
    (∃ result c', c.finalize head = some (result, c') ∧ Finalizes c head first last result c') ↔
      ¬ (c.chain = [first] ∧ c.fin = false ∧ first.number < head.number) := by
  by_cases hlow : head.number < first.number
  · refine iff_of_true ⟨.ok false, c, ?_, ⟨fun _ => ⟨rfl, rfl⟩, ?_, fun _ _ => rfl,
      fun hle => by omega⟩⟩ fun h => lt_asymm hlow h.2.2
    · unfold finalize
      simp only [hfirst, hlast, if_pos hlow]
    · exact ⟨fun ⟨e, he⟩ => (by cases he), fun h => absurd h.1.1 (by omega)⟩
  have hge := not_lt.mp hlow
  by_cases hahead : last.number < head.number
  · rw [finalizes_ahead hfirst hlast hasc hge hahead]
    refine not_congr (and_congr_right fun hc => (and_iff_left ?_).symm)
    rw [hc] at hlast
    cases hlast
    exact hahead
  · refine iff_of_true (finalizes_inside hfirst hlast hasc hge (not_lt.mp hahead)) fun h => ?_
    rw [h.1] at hlast
    cases hlast
    exact hahead h.2.2

/-- A queue in which nothing is final yet. -/
def unfinalized (chain : List BlockRef) : Chain BlockHeader :=
  { chain, fin := false, queue := [], minSize := 0 }

/-- A report ahead of two blocks makes the second one final. -/
theorem report_ahead_is_taken : ∃ result c',
    (unfinalized [⟨1, "1"⟩, ⟨2, "2"⟩]).finalize ⟨3, "3"⟩ = some (result, c') ∧
    Finalizes (unfinalized [⟨1, "1"⟩, ⟨2, "2"⟩]) ⟨3, "3"⟩ ⟨1, "1"⟩ ⟨2, "2"⟩ result c' :=
  (finalize_is_exact_iff rfl rfl (by decide)).mpr (by decide)

/-- A report ahead of one block is dropped: the block does not become final. -/
theorem report_ahead_of_one_block_is_lost :
    (unfinalized [⟨1, "1"⟩]).finalize ⟨2, "2"⟩ = some (.ok false, unfinalized [⟨1, "1"⟩]) ∧
    ¬ Finalizes (unfinalized [⟨1, "1"⟩]) ⟨2, "2"⟩ ⟨1, "1"⟩ ⟨1, "1"⟩ (.ok false)
      (unfinalized [⟨1, "1"⟩]) := by
  refine ⟨by decide, fun h => ?_⟩
  obtain ⟨gone, front, kept, -, -, -, hc, -⟩ := h.cut (by decide) false rfl
  cases congrArg Chain.fin hc

end Chain

end Bds
