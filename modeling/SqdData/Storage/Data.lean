import SqdData.Segments

/-!
# Data of the block storage

Identifiers, errors, dataset labels and chunk descriptors as the storage crate defines them.

Block numbers and item indexes are machine integers in the source and natural numbers here. A
chunk carries the bound on its last block. Successors of block numbers are not reduced modulo
`2 ^ 64`.
-/

namespace Storage

open List

/-- `BlockNumber::MAX`. -/
def maxBlockNumber : Nat := 2 ^ 64 - 1

abbrev Hash := String

/-- A dataset id is a short ASCII text. Zero padding makes the byte order of two ids the order of
their texts. -/
abbrev DatasetId := String

abbrev DatasetKind := String

/-- A table id is a time-ordered UUID, kept as the number its big-endian bytes denote. -/
abbrev TableId := Nat

structure BlockRef where
  number : Nat
  hash : Hash
deriving DecidableEq, Repr

structure TransactionRef where
  blockNumber : Nat
  transactionIndex : Nat
  hash : Hash
deriving DecidableEq, Repr

/-- Why a fork or a finality transition cannot be applied safely. -/
inductive UnapplicableForkReason where
  | hintsBelowFinalizedHead
  | hintConflictsWithFinalizedHead
  | belowRetainedWindow
  | staleRollbackBoundary
  | dropsFinalizedBlock
  | rewritesFinalizedHistory
  | finalityHashChanged
  | finalityContradictsChunk
  | finalityEvictsFinalizedBlock
  | finalityContradictsStoredBlock
deriving DecidableEq, Repr

def UnapplicableForkReason.asStr : UnapplicableForkReason → String
  | hintsBelowFinalizedHead => "hints_below_finalized_head"
  | hintConflictsWithFinalizedHead => "hint_conflicts_with_finalized_head"
  | belowRetainedWindow => "below_retained_window"
  | staleRollbackBoundary => "stale_rollback_boundary"
  | dropsFinalizedBlock => "drops_finalized_block"
  | rewritesFinalizedHistory => "rewrites_finalized_history"
  | finalityHashChanged => "finality_hash_changed"
  | finalityContradictsChunk => "finality_contradicts_chunk"
  | finalityEvictsFinalizedBlock => "finality_evicts_finalized_block"
  | finalityContradictsStoredBlock => "finality_contradicts_stored_block"

/-- What a fallible call reports: a bare message, a commit that did not go through, or a fork that
cannot be applied, with the detail attached to it where there is one. -/
inductive Error where
  | text (message : String)
  | commit (message : String)
  | unapplicableFork (reason : UnapplicableForkReason) (detail : Option String)
deriving DecidableEq, Repr

/-- The outermost text of an error. -/
def Error.message : Error → String
  | text message => message
  | commit message => message
  | unapplicableFork reason none => s!"received fork can not be applied: {reason.asStr}"
  | unapplicableFork _ (some detail) => detail

instance decidableEqExcept {ε α : Type} [DecidableEq ε] [DecidableEq α] : DecidableEq (Except ε α)
  | .error a, .error b => decidable_of_iff (a = b) (by simp)
  | .ok a, .ok b => decidable_of_iff (a = b) (by simp)
  | .error _, .ok _ => isFalse (by simp)
  | .ok _, .error _ => isFalse (by simp)

/-- `ensure!`: fails with `e` unless `c` holds. -/
def ensure (c : Bool) (e : Error) : Except Error Unit :=
  if c then .ok () else .error e

@[simp]
theorem ensure_eq_ok {c : Bool} {e : Error} {u : Unit} : ensure c e = .ok u ↔ c = true := by
  unfold ensure
  split <;> simp_all

theorem ensure_of_true {c : Bool} {e : Error} (h : c = true) : ensure c e = .ok () := by
  simp [ensure, h]

variable {ε α β : Type} {f : α → Except ε β} {l : List α} {R : α → β → Prop} {m : List β}

/-- A successful sequence of two fallible calls is two successful calls. -/
theorem bind_eq_ok {x : Except ε α} {b : β} : (x >>= f) = .ok b ↔ ∃ a, x = .ok a ∧ f a = .ok b := by
  cases x <;> simp [bind, Except.bind]

theorem map_eq_ok {x : Except ε α} {f : α → β} {b : β} (h : x.map f = .ok b) :
    ∃ a, x = .ok a ∧ f a = b := by
  cases x with
  | error => cases h
  | ok a =>
    cases h
    exact ⟨a, rfl, rfl⟩

/-- What every step of a fallible loop preserves, a successful loop preserves. -/
theorem foldlM_preserves {σ : Type} {f : σ → α → Except ε σ} {P : σ → Prop}
    {s s' : σ} (h : l.foldlM f s = .ok s') (hs : P s)
    (hst : ∀ s a s', a ∈ l → P s → f s a = .ok s' → P s') : P s' := by
  induction l generalizing s with
  | nil =>
    cases h
    exact hs
  | cons a _ ih =>
    rw [foldlM_cons] at h
    obtain ⟨s₁, h₁, h₂⟩ := bind_eq_ok.mp h
    have hs₁ := hst s a s₁ mem_cons_self hs h₁
    exact ih h₂ hs₁ fun t b t' hb => hst t b t' (mem_cons_of_mem a hb)

theorem forall₂_left (h : List.Forall₂ R l m) : ∀ a ∈ l, ∃ b ∈ m, R a b := by
  induction h with
  | nil => simp
  | cons hab _ ih =>
    intro a ha
    rcases mem_cons.mp ha with rfl | ha
    · exact ⟨_, mem_cons_self, hab⟩
    · obtain ⟨b, hb, hr⟩ := ih a ha
      exact ⟨b, mem_cons_of_mem _ hb, hr⟩

theorem exists_forall₂ (h : ∀ a ∈ l, ∃ b, R a b) : ∃ m, List.Forall₂ R l m := by
  induction l with
  | nil => exact ⟨[], .nil⟩
  | cons a _ ih =>
    obtain ⟨b, hb⟩ := h a mem_cons_self
    obtain ⟨m, hm⟩ := ih fun a' ha' => h a' (mem_cons_of_mem a ha')
    exact ⟨b :: m, .cons hb hm⟩

theorem forall₂_right (h : List.Forall₂ R l m) : ∀ b ∈ m, ∃ a ∈ l, R a b := by
  induction h with
  | nil => simp
  | cons hab _ ih =>
    intro b hb
    rcases mem_cons.mp hb with rfl | hb
    · exact ⟨_, mem_cons_self, hab⟩
    · obtain ⟨a, ha, hr⟩ := ih b hb
      exact ⟨a, mem_cons_of_mem _ ha, hr⟩

theorem forall₂_getLast (h : List.Forall₂ R l m) (hl : l ≠ []) (hm : m ≠ []) :
    R (l.getLast hl) (m.getLast hm) := by
  induction h with
  | nil => exact absurd rfl hl
  | cons hab hr ih =>
    cases hr with
    | nil => exact hab
    | cons =>
      rw [getLast_cons (cons_ne_nil _ _), getLast_cons (cons_ne_nil _ _)]
      exact ih _ _

theorem forall₂_join {γ : Type} {S : α → γ → Prop} {T : β → γ → Prop}
    {n : List γ} (h : List.Forall₂ R l m) (h' : List.Forall₂ S l n)
    (hj : ∀ a b c, R a b → S a c → T b c) : List.Forall₂ T m n := by
  induction h generalizing n with
  | nil =>
    cases h'
    exact .nil
  | cons hab _ ih =>
    cases h' with
    | cons hac h' => exact .cons (hj _ _ _ hab hac) (ih h')

/-- A fallible map succeeds when each of its calls does. -/
theorem mapM_eq_ok {r : List β} : l.mapM f = .ok r ↔ List.Forall₂ (fun a b => f a = .ok b) l r := by
  induction l generalizing r with
  | nil =>
    rw [mapM_nil, forall₂_nil_left_iff]
    constructor
    · intro h
      cases h
      rfl
    · rintro rfl
      rfl
  | cons _ _ ih =>
    rw [mapM_cons, bind_eq_ok, forall₂_cons_left_iff]
    constructor
    · rintro ⟨b, hb, h⟩
      obtain ⟨bs, hbs, h⟩ := bind_eq_ok.mp h
      cases h
      exact ⟨b, bs, hb, ih.mp hbs, rfl⟩
    · rintro ⟨b, bs, hb, hbs, rfl⟩
      exact ⟨b, hb, bind_eq_ok.mpr ⟨bs, ih.mpr hbs, rfl⟩⟩

theorem mapM_eq_ok_map {g : α → β} (h : ∀ a ∈ l, f a = .ok (g a)) : l.mapM f = .ok (l.map g) := by
  induction l with
  | nil => rfl
  | cons a _ ih =>
    rw [mapM_cons, h a mem_cons_self, ih fun b hb => h b (mem_cons_of_mem a hb)]
    rfl

theorem mapM_congr {g : α → Except ε β} (h : ∀ a ∈ l, f a = g a) : l.mapM f = l.mapM g := by
  induction l with
  | nil => rfl
  | cons a _ ih =>
    rw [mapM_cons, mapM_cons, h a mem_cons_self, ih fun b hb => h b (mem_cons_of_mem a hb)]

/-- A check of every element that succeeds holds of each of them. -/
theorem forM_eq_ok {f : α → Except ε Unit} (h : l.forM f = .ok ()) : ∀ a ∈ l, f a = .ok () := by
  induction l with
  | nil => simp
  | cons _ _ ih =>
    obtain ⟨_, hb, hl⟩ := bind_eq_ok.mp h
    intro a ha
    rcases mem_cons.mp ha with rfl | ha
    · exact hb
    · exact ih hl a ha

theorem forM_ok {f : α → Except ε Unit} (h : ∀ a ∈ l, f a = .ok ()) : l.forM f = .ok () := by
  induction l with
  | nil => rfl
  | cons a _ ih =>
    have hr := ih fun b hb => h b (mem_cons_of_mem a hb)
    exact bind_eq_ok.mpr ⟨(), h a mem_cons_self, hr⟩

structure DatasetLabel where
  kind : DatasetKind
  version : Nat
  finalizedHead : Option BlockRef
deriving DecidableEq, Repr

def DatasetLabel.bumpVersion (label : DatasetLabel) : DatasetLabel :=
  { label with version := label.version + 1 }

def DatasetLabel.setFinalizedHead (label : DatasetLabel) (blockRef : Option BlockRef) :
    DatasetLabel :=
  { label with finalizedHead := blockRef }

abbrev TableMap := Keyed.Map String TableId

/-- The descriptor of a run of consecutive blocks and of the tables that hold their data.

Both layouts carry the proof that the block range is not empty and fits the number type, so the
check a chunk iterator makes on every descriptor it decodes cannot fail on one of these. -/
inductive Chunk where
  | v0 (firstBlock lastBlock : Nat) (lastBlockHash parentBlockHash : Hash)
      (tables : TableMap) (ordered : firstBlock ≤ lastBlock) (bounded : lastBlock ≤ maxBlockNumber)
  | v1 (firstBlock lastBlock : Nat) (lastBlockHash parentBlockHash : Hash)
      (firstBlockTime lastBlockTime : Option Int)
      (tables : TableMap) (ordered : firstBlock ≤ lastBlock) (bounded : lastBlock ≤ maxBlockNumber)
deriving DecidableEq

namespace Chunk

def firstBlock : Chunk → Nat
  | v0 firstBlock _ _ _ _ _ _ => firstBlock
  | v1 firstBlock _ _ _ _ _ _ _ _ => firstBlock

def lastBlock : Chunk → Nat
  | v0 _ lastBlock _ _ _ _ _ => lastBlock
  | v1 _ lastBlock _ _ _ _ _ _ _ => lastBlock

def lastBlockHash : Chunk → Hash
  | v0 _ _ lastBlockHash _ _ _ _ => lastBlockHash
  | v1 _ _ lastBlockHash _ _ _ _ _ _ => lastBlockHash

def parentBlockHash : Chunk → Hash
  | v0 _ _ _ parentBlockHash _ _ _ => parentBlockHash
  | v1 _ _ _ parentBlockHash _ _ _ _ _ => parentBlockHash

def firstBlockTime : Chunk → Option Int
  | v0 .. => none
  | v1 _ _ _ _ firstBlockTime _ _ _ _ => firstBlockTime

def lastBlockTime : Chunk → Option Int
  | v0 .. => none
  | v1 _ _ _ _ _ lastBlockTime _ _ _ => lastBlockTime

def tables : Chunk → TableMap
  | v0 _ _ _ _ tables _ _ => tables
  | v1 _ _ _ _ _ _ tables _ _ => tables

def blocksCount (chunk : Chunk) : Nat := chunk.lastBlock - chunk.firstBlock + 1

/-- `impl Display for Chunk`. -/
def display (chunk : Chunk) : String :=
  s!"{chunk.firstBlock}-{chunk.lastBlock}-{chunk.lastBlockHash}"

theorem first_le_last (chunk : Chunk) : chunk.firstBlock ≤ chunk.lastBlock := by
  cases chunk with
  | v0 _ _ _ _ _ ordered => exact ordered
  | v1 _ _ _ _ _ _ _ ordered => exact ordered

theorem last_le_max (chunk : Chunk) : chunk.lastBlock ≤ maxBlockNumber := by
  cases chunk with
  | v0 _ _ _ _ _ _ bounded => exact bounded
  | v1 _ _ _ _ _ _ _ _ bounded => exact bounded

end Chunk

/-- Chunks as segments of the block range, linked by block hashes. -/
def chunkSegments : Segments Chunk Hash where
  first := Chunk.firstBlock
  last := Chunk.lastBlock
  opening := Chunk.parentBlockHash
  closing := Chunk.lastBlockHash
  ordered := Chunk.first_le_last

def getChunkHead (chunk : Chunk) : BlockRef :=
  { number := chunk.lastBlock, hash := chunk.lastBlockHash }

@[simp]
theorem getChunkHead_number (chunk : Chunk) : (getChunkHead chunk).number = chunk.lastBlock := rfl

@[simp]
theorem getChunkHead_hash (chunk : Chunk) : (getChunkHead chunk).hash = chunk.lastBlockHash := rfl

end Storage
