import SqdData.Storage.Transactions

/-!
# Listing chunks in both directions

Chunks are keyed by their last block. The ascending listing starts at the first chunk that ends at
or after `fromBlock` and yields the chunks that meet the requested blocks. The reversed listing
starts at the last chunk that ends at or before `toBlock`, so it misses a chunk that starts before
`toBlock` and ends after it. Without such a chunk the two listings agree.

`validate_chunk_insertion` looks at two neighbours found by the reversed listing. It therefore
overlooks a chunk that ends more than one block above the new one, and nearly all chunks if the new
one ends with the last of all blocks, whose successor is block 0.
-/

namespace Storage

open List

/-- The chunks of a dataset do not overlap, in whatever order they are looked at. -/
def Db.PairwiseDisjoint (db : Db) (dataset : DatasetId) : Prop :=
  ∀ a ∈ db.chunkSet dataset, ∀ b ∈ db.chunkSet dataset, a ≠ b →
    a.lastBlock < b.firstBlock ∨ b.lastBlock < a.firstBlock

/-- A chunk starts at or before a block and ends after it. -/
def Chunk.Straddles (chunk : Chunk) (block : Nat) : Prop :=
  chunk.firstBlock ≤ block ∧ block < chunk.lastBlock

instance (chunk : Chunk) (block : Nat) : Decidable (chunk.Straddles block) :=
  inferInstanceAs (Decidable (_ ∧ _))

theorem Db.PairwiseDisjoint.apart {db : Db} {dataset : DatasetId}
    (h : db.PairwiseDisjoint dataset) : db.Disjoint dataset := by
  refine List.Pairwise.imp_of_mem ?_ (db.chunkSet dataset).sorted
  intro a b ha hb hlt
  have hne : a ≠ b := by
    rintro rfl
    omega
  rcases h a ha b hb hne with hab | hba
  · exact hab
  · have := a.first_le_last
    have := b.first_le_last
    omega

theorem inRange_iff {fromBlock : Nat} {toBlock : Option Nat} {chunk : Chunk} :
    inRange fromBlock toBlock chunk = true ↔
      fromBlock ≤ chunk.lastBlock ∧ ∀ stop ∈ toBlock, chunk.firstBlock ≤ stop := by
  cases toBlock <;> simp [inRange]

section Scans

variable {l : List Chunk} {fromBlock : Nat} {toBlock : Option Nat}

/-- Among chunks that lie apart, those in range that end late enough come first. -/
theorem takeWhile_inRange (h : chunkSegments.Apart l) (hf : ∀ c ∈ l, fromBlock ≤ c.lastBlock) :
    l.takeWhile (inRange fromBlock toBlock) = l.filter (inRange fromBlock toBlock) := by
  induction l with
  | nil => rfl
  | cons c l ih =>
    obtain ⟨hc, hl⟩ := pairwise_cons.mp h
    have hr := ih hl fun d hd => hf d (mem_cons_of_mem c hd)
    by_cases hin : inRange fromBlock toBlock c = true
    · rw [takeWhile_cons_of_pos hin, filter_cons_of_pos hin, hr]
    · have hn : ∀ d ∈ l, ¬ inRange fromBlock toBlock d = true := by
        intro d hd hi
        apply hin
        have hcd : c.lastBlock < d.firstBlock := hc d hd
        have ho := c.first_le_last
        refine inRange_iff.mpr ⟨hf c mem_cons_self, fun stop hs => ?_⟩
        have hle := (inRange_iff.mp hi).2 stop hs
        omega
      rw [takeWhile_cons_of_neg hin, filter_cons_of_neg hin, filter_eq_nil_iff.mpr hn]

/-- Seen from above, those in range that start early enough come first. -/
theorem takeWhile_inRange_reverse (h : chunkSegments.Apart l)
    (hto : ∀ c ∈ l, ∀ stop ∈ toBlock, c.firstBlock ≤ stop) :
    l.reverse.takeWhile (inRange fromBlock toBlock) =
      (l.filter (inRange fromBlock toBlock)).reverse := by
  induction l using reverseRecOn with
  | nil => rfl
  | append_singleton l c ih =>
    obtain ⟨hl, _, hc⟩ := pairwise_append.mp h
    have hr := ih hl fun d hd => hto d (mem_append_left _ hd)
    rw [reverse_append, reverse_singleton, singleton_append, filter_append]
    by_cases hin : inRange fromBlock toBlock c = true
    · rw [takeWhile_cons_of_pos hin, hr, filter_cons_of_pos hin]
      simp
    · have hn : ∀ d ∈ l, ¬ inRange fromBlock toBlock d = true := by
        intro d hd hi
        apply hin
        have hdc : d.lastBlock < c.firstBlock := hc d hd c mem_cons_self
        have ho := c.first_le_last
        have hle := (inRange_iff.mp hi).1
        exact inRange_iff.mpr ⟨by omega, hto c (by simp)⟩
      rw [takeWhile_cons_of_neg hin, filter_eq_nil_iff.mpr hn, filter_cons_of_neg hin]
      rfl

end Scans

namespace Db

variable {db : Db} {dataset : DatasetId} {fromBlock : Nat} {toBlock : Option Nat}

theorem listChunks_eq_filter (h : db.Disjoint dataset) :
    db.listChunks dataset fromBlock toBlock =
      (db.chunkSet dataset).toList.filter (inRange fromBlock toBlock) := by
  rw [listChunks_eq, Keyed.seek]
  have ha : chunkSegments.Apart
      ((db.chunkSet dataset).toList.filter fun c => fromBlock ≤ c.lastBlock) :=
    List.Pairwise.filter _ h
  rw [takeWhile_inRange ha (fun c hc => by simpa using (mem_filter.mp hc).2), filter_filter]
  refine filter_congr fun c _ => ?_
  by_cases hin : inRange fromBlock toBlock c = true
  · simp [hin, (inRange_iff.mp hin).1]
  · simp [hin]

/-- The reversed listing yields the chunks in range that do not end after the upper bound. -/
theorem listChunksReversed_eq_filter (h : db.PairwiseDisjoint dataset) :
    db.listChunksReversed dataset fromBlock toBlock =
      ((db.chunkSet dataset).toList.filter fun c =>
        inRange fromBlock toBlock c &&
          decide (c.lastBlock ≤ toBlock.getD maxBlockNumber)).reverse := by
  rw [listChunksReversed_eq, Keyed.seekPrev]
  have ha : chunkSegments.Apart ((db.chunkSet dataset).toList.filter fun c =>
      c.lastBlock ≤ toBlock.getD maxBlockNumber) := h.apart.filter _
  rw [takeWhile_inRange_reverse ha, filter_filter]
  intro c hc stop hst
  obtain rfl : toBlock = some stop := hst
  have he : c.lastBlock ≤ stop := by simpa using (mem_filter.mp hc).2
  exact c.first_le_last.trans he

/-- The ascending listing yields the chunks that meet the requested blocks, in order. The reversed
one yields them in the opposite order, if and only if none of them straddles the upper bound. -/
theorem listings_agree_iff (h : db.PairwiseDisjoint dataset) (fromBlock : Nat)
    (toBlock : Option Nat) :
    (∀ c, c ∈ db.listChunks dataset fromBlock toBlock ↔ c ∈ db.chunkSet dataset ∧
      fromBlock ≤ c.lastBlock ∧ ∀ stop ∈ toBlock, c.firstBlock ≤ stop) ∧
    (db.listChunks dataset fromBlock toBlock).Pairwise (fun a b => a.lastBlock < b.firstBlock) ∧
    (db.listChunksReversed dataset fromBlock toBlock =
        (db.listChunks dataset fromBlock toBlock).reverse ↔
      ∀ stop ∈ toBlock, ∀ c ∈ db.chunkSet dataset, c.Straddles stop → c.lastBlock < fromBlock) := by
  refine ⟨fun c => ?_, ?_, ?_⟩
  · rw [listChunks_eq_filter h.apart, mem_filter, inRange_iff]
    rfl
  · rw [listChunks_eq_filter h.apart]
    exact h.apart.filter _
  · rw [listChunks_eq_filter h.apart, listChunksReversed_eq_filter h, reverse_inj]
    constructor
    · rintro heq stop hs c hc ⟨hle, hlt⟩
      by_contra hf
      have hin : inRange fromBlock toBlock c = true := by
        refine inRange_iff.mpr ⟨not_lt.mp hf, fun stop' hs' => ?_⟩
        obtain rfl := Option.mem_unique hs hs'
        exact hle
      have hm := mem_filter.mpr ⟨hc, hin⟩
      rw [← heq] at hm
      have hl := (mem_filter.mp hm).2
      rw [Option.mem_def.mp hs] at hl
      simp only [Option.getD_some, Bool.and_eq_true, decide_eq_true_eq] at hl
      omega
    · intro hs
      refine filter_congr fun c hc => ?_
      by_cases hin : inRange fromBlock toBlock c = true
      · have he : c.lastBlock ≤ toBlock.getD maxBlockNumber := by
          obtain ⟨hf, ht⟩ := inRange_iff.mp hin
          cases toBlock with
          | none => exact c.last_le_max
          | some stop =>
            by_contra hlt
            have := hs stop rfl c hc ⟨ht stop rfl, not_le.mp hlt⟩
            omega
        simp [hin, he]
      · simp [hin]

/-! ## Neighbours of a new chunk -/

end Db

/-- A new chunk does not overlap a stored one, and is linked to it where they touch. -/
structure FitsBeside (chunk n : Chunk) : Prop where
  disjoint : n.lastBlock < chunk.firstBlock ∨ chunk.lastBlock < n.firstBlock
  above : n.firstBlock = chunk.lastBlock + 1 → chunk.lastBlockHash = n.parentBlockHash
  below : n.lastBlock + 1 = chunk.firstBlock → n.lastBlockHash = chunk.parentBlockHash

/-- The checks of a neighbour, read off. -/
theorem checkNeighbor_eq_ok_iff {chunk n : Chunk} : Db.checkNeighbor chunk n = .ok () ↔
    (n.lastBlock < chunk.firstBlock ∨ chunk.lastBlock < n.firstBlock) ∧
      (Wrapping.succ 64 chunk.lastBlock = n.firstBlock →
        chunk.lastBlockHash = n.parentBlockHash) ∧
      (Wrapping.succ 64 n.lastBlock = chunk.firstBlock →
        n.lastBlockHash = chunk.parentBlockHash) := by
  have hd : min n.lastBlock chunk.lastBlock < max n.firstBlock chunk.firstBlock ↔
      n.lastBlock < chunk.firstBlock ∨ chunk.lastBlock < n.firstBlock := by
    have hc := chunk.first_le_last
    have hn := n.first_le_last
    omega
  simp only [Db.checkNeighbor, hd]
  by_cases hdisjoint : n.lastBlock < chunk.firstBlock ∨ chunk.lastBlock < n.firstBlock
  · by_cases ha : Wrapping.succ 64 chunk.lastBlock = n.firstBlock
    · by_cases hh : chunk.lastBlockHash = n.parentBlockHash
      · by_cases hb : Wrapping.succ 64 n.lastBlock = chunk.firstBlock <;>
          simp [ensure, hdisjoint, ha, hb, hh, bind, Except.bind, pure, Except.pure]
      · simp [ensure, hdisjoint, ha, hh, bind, Except.bind]
    · by_cases hb : Wrapping.succ 64 n.lastBlock = chunk.firstBlock <;>
        simp [ensure, hdisjoint, ha, hb, bind, Except.bind, pure, Except.pure]
  · simp [ensure, hdisjoint, bind, Except.bind]

/-- A block that is followed by another one is not the last of all. -/
theorem succ_of_eq {n m : Nat} (h : n + 1 = m) (hm : m ≤ maxBlockNumber) :
    Wrapping.succ 64 n = m := by
  rw [← h]
  apply Wrapping.succ_of_lt
  have : maxBlockNumber < 2 ^ 64 := by decide
  omega

theorem fitsBeside_of_checkNeighbor {chunk n : Chunk} (h : Db.checkNeighbor chunk n = .ok ()) :
    FitsBeside chunk n := by
  obtain ⟨hd, ha, hb⟩ := checkNeighbor_eq_ok_iff.mp h
  refine ⟨hd, fun heq => ha ?_, fun heq => hb ?_⟩
  · exact succ_of_eq heq.symm (n.first_le_last.trans n.last_le_max)
  · exact succ_of_eq heq (chunk.first_le_last.trans chunk.last_le_max)

theorem checkNeighbor_of_fitsBeside {chunk n : Chunk} (h : FitsBeside chunk n)
    (hc : chunk.lastBlock < maxBlockNumber) (hn : n.lastBlock < maxBlockNumber) :
    Db.checkNeighbor chunk n = .ok () := by
  have hs : ∀ m < maxBlockNumber, Wrapping.succ 64 m = m + 1 := fun m hm => succ_of_eq rfl hm
  refine checkNeighbor_eq_ok_iff.mpr ⟨h.disjoint, fun heq => h.above ?_, fun heq => h.below ?_⟩
  · rw [← heq, hs _ hc]
  · rw [← heq, hs _ hn]

/-- A chunk further below than one that fits is not touched by the new chunk. -/
theorem fitsBeside_of_lt {chunk n m : Chunk} (hm : FitsBeside chunk m)
    (hl : m.lastBlock ≤ chunk.lastBlock) (hlt : n.lastBlock < m.firstBlock) :
    FitsBeside chunk n := by
  have hc := chunk.first_le_last
  have ho := n.first_le_last
  have ho' := m.first_le_last
  rcases hm.disjoint with hb | ha
  · exact ⟨Or.inl (by omega), fun h => by omega, fun h => by omega⟩
  · omega

/-- If the two highest chunks fit beside the new one, so do all that end at or before the block
after it. -/
theorem fitsBeside_of_take_two {chunk : Chunk} {l : List Chunk}
    (hd : l.Pairwise fun a b => b.lastBlock < a.firstBlock)
    (hbound : ∀ n ∈ l, n.lastBlock ≤ chunk.lastBlock + 1)
    (hf : ∀ n ∈ l.take 2, FitsBeside chunk n) : ∀ n ∈ l, FitsBeside chunk n := by
  match l, hd, hbound, hf with
  | [], _, _, _ => simp
  | [a], _, _, hf => exact hf
  | a :: b :: rest, hd, hbound, hf =>
    have hb : FitsBeside chunk b := hf b (by simp)
    obtain ⟨ha, hr⟩ := pairwise_cons.mp hd
    have hba : b.lastBlock < a.firstBlock := ha b mem_cons_self
    have haB := hbound a mem_cons_self
    have ho := a.first_le_last
    intro n hn
    rcases mem_cons.mp hn with rfl | hn
    · exact hf n (by simp)
    · rcases mem_cons.mp hn with rfl | hn
      · exact hb
      · exact fitsBeside_of_lt hb (by omega) (rel_of_pairwise_cons hr hn)

section Insertion

variable {db : Db} {dataset : DatasetId} {chunk : Chunk}

/-- The neighbours are the two highest chunks that end at or before the block after the new one. -/
theorem neighbours_eq (h : db.PairwiseDisjoint dataset) :
    db.listChunksReversed dataset 0 (some (Wrapping.succ 64 chunk.lastBlock)) =
      ((db.chunkSet dataset).toList.filter fun c =>
        c.lastBlock ≤ Wrapping.succ 64 chunk.lastBlock).reverse := by
  rw [Db.listChunksReversed_eq_filter h, reverse_inj]
  refine filter_congr fun c _ => ?_
  have hc := c.first_le_last
  by_cases hle : c.lastBlock ≤ Wrapping.succ 64 chunk.lastBlock
  · have hin : inRange 0 (some (Wrapping.succ 64 chunk.lastBlock)) c = true := by
      refine inRange_iff.mpr ⟨Nat.zero_le _, fun stop hs => ?_⟩
      obtain rfl := Option.some.inj hs
      exact hc.trans hle
    simp [hin]
  · simp [hle]

/-- The chunk is accepted if and only if all chunks that end at or before the block after it pass
the checks, also those that are not looked at. -/
theorem validateChunkInsertion_eq_ok_iff (h : db.PairwiseDisjoint dataset) :
    db.validateChunkInsertion dataset chunk = .ok () ↔
      ∀ n ∈ db.chunkSet dataset, n.lastBlock ≤ Wrapping.succ 64 chunk.lastBlock →
        Db.checkNeighbor chunk n = .ok () := by
  unfold Db.validateChunkInsertion
  rw [neighbours_eq h]
  set seen := ((db.chunkSet dataset).toList.filter fun c =>
    c.lastBlock ≤ Wrapping.succ 64 chunk.lastBlock).reverse with hseen
  have hmem : ∀ n, n ∈ seen ↔ n ∈ db.chunkSet dataset ∧
      n.lastBlock ≤ Wrapping.succ 64 chunk.lastBlock := by
    intro n
    rw [hseen, mem_reverse, mem_filter, decide_eq_true_eq]
    rfl
  constructor
  · intro hacc
    have hc := forM_eq_ok hacc
    have hd : seen.Pairwise fun a b => b.lastBlock < a.firstBlock :=
      pairwise_reverse.mpr (h.apart.filter _)
    have hft := fitsBeside_of_take_two hd
      (fun n hn => ((hmem n).mp hn).2.trans Wrapping.succ_le)
      fun n hn => fitsBeside_of_checkNeighbor (hc n hn)
    intro n hn hle
    have hin := (hmem n).mpr ⟨hn, hle⟩
    match seen, hd, hc, hft, hin, hmem with
    | [_], _, hc, _, hin, _ => exact hc n hin
    | a :: b :: rest, hd, hc, hft, hin, hmem =>
      rcases mem_cons.mp hin with rfl | hin'
      · exact hc n (by simp)
      rcases mem_cons.mp hin' with rfl | hr
      · exact hc n (by simp)
      -- with three chunks in view the block after the new one is not block 0
      have hna := (pairwise_cons.mp hd).1 n (mem_cons_of_mem b hr)
      have ha := ((hmem a).mp mem_cons_self).2
      have := a.first_le_last
      have := a.last_le_max
      refine checkNeighbor_of_fitsBeside (hft n hin) ?_ (by omega)
      by_contra hmax
      have hmx : chunk.lastBlock = maxBlockNumber :=
        le_antisymm chunk.last_le_max (not_lt.mp hmax)
      have hz : Wrapping.succ 64 chunk.lastBlock = 0 := by
        rw [hmx]
        decide
      omega
  · intro hall
    apply forM_ok
    intro n hn
    obtain ⟨hm, hle⟩ := (hmem n).mp (mem_of_mem_take hn)
    exact hall n hm hle

/-- A chunk that passes `validate_chunk_insertion` overlaps no stored chunk and is linked to those
it touches, if and only if this is so of the chunks that end above the block after it, or one of the
others is the reason to refuse it. -/
theorem accepted_chunk_fits_iff (h : db.PairwiseDisjoint dataset) :
    (db.validateChunkInsertion dataset chunk = .ok () →
      ∀ n ∈ db.chunkSet dataset,
        (n.lastBlock < chunk.firstBlock ∨ chunk.lastBlock < n.firstBlock) ∧
        (n.firstBlock = chunk.lastBlock + 1 → chunk.lastBlockHash = n.parentBlockHash) ∧
        (n.lastBlock + 1 = chunk.firstBlock → n.lastBlockHash = chunk.parentBlockHash)) ↔
    (∃ n ∈ db.chunkSet dataset, n.lastBlock ≤ Wrapping.succ 64 chunk.lastBlock ∧
        Db.checkNeighbor chunk n ≠ .ok ()) ∨
      ∀ n ∈ db.chunkSet dataset, Wrapping.succ 64 chunk.lastBlock < n.lastBlock →
        FitsBeside chunk n := by
  rw [validateChunkInsertion_eq_ok_iff h]
  constructor
  · intro hfit
    by_cases hc : ∃ n ∈ db.chunkSet dataset, n.lastBlock ≤ Wrapping.succ 64 chunk.lastBlock ∧
        Db.checkNeighbor chunk n ≠ .ok ()
    · exact Or.inl hc
    · refine Or.inr fun n hn _ => ?_
      obtain ⟨hd, ha, hb⟩ := hfit (fun m hm hle => by
        by_contra hne
        exact hc ⟨m, hm, hle, hne⟩) n hn
      exact ⟨hd, ha, hb⟩
  · intro hcond hall n hn
    have hft : FitsBeside chunk n := by
      rcases Nat.lt_or_ge (Wrapping.succ 64 chunk.lastBlock) n.lastBlock with hlt | hle
      · rcases hcond with ⟨m, hm, hle, hne⟩ | hfit
        · exact absurd (hall m hm hle) hne
        · exact hfit n hn hlt
      · exact fitsBeside_of_checkNeighbor (hall n hn hle)
    exact ⟨hft.disjoint, hft.above, hft.below⟩

end Insertion

section Sample

def wideChunk : Chunk := .v1 10 30 "0x30" "0x9" none none ∅ (by decide) (by decide)

def innerChunk : Chunk := .v1 15 20 "0x20" "0x14" none none ∅ (by decide) (by decide)

def nextChunk : Chunk := .v1 31 40 "0x40" "0x30" none none ∅ (by decide) (by decide)

def wideDb : Db := Db.empty.writeChunk "main" wideChunk

theorem wideDb_pairwiseDisjoint : wideDb.PairwiseDisjoint "main" := by
  intro a ha b hb hne
  have hs : (wideDb.chunkSet "main").toList = [wideChunk] := by decide
  rw [← Keyed.mem_toList, hs, mem_singleton] at ha hb
  exact absurd (ha.trans hb.symm) hne

/-- With the bound at the end of the chunk both listings yield it. -/
theorem wideDb_listed :
    wideDb.listChunksReversed "main" 0 (some 30) = (wideDb.listChunks "main" 0 (some 30)).reverse :=
  (Db.listings_agree_iff wideDb_pairwiseDisjoint 0 (some 30)).2.2.mpr (by decide)

/-- The chunk 10-30 meets the blocks up to 20. The ascending listing yields it, the reversed one
does not. -/
theorem reversed_listing_misses_chunk : wideDb.PairwiseDisjoint "main" ∧
    wideDb.listChunks "main" 0 (some 20) = [wideChunk] ∧
    wideDb.listChunksReversed "main" 0 (some 20) = [] :=
  ⟨wideDb_pairwiseDisjoint, by decide, by decide⟩

/-- The chunk after the stored one is accepted and fits. -/
theorem nextChunk_fits : wideDb.validateChunkInsertion "main" nextChunk = .ok () ∧
    (wideChunk.lastBlock < nextChunk.firstBlock ∨ nextChunk.lastBlock < wideChunk.firstBlock) ∧
    wideChunk.lastBlockHash = nextChunk.parentBlockHash := by
  have hin : ∀ n ∈ wideDb.chunkSet "main",
      Wrapping.succ 64 nextChunk.lastBlock < n.lastBlock → FitsBeside nextChunk n := by
    intro n hn hlt
    have hs : (wideDb.chunkSet "main").toList = [wideChunk] := by decide
    rw [← Keyed.mem_toList, hs, mem_singleton] at hn
    subst hn
    exact absurd hlt (by decide)
  obtain ⟨ha, -, hl⟩ := (@accepted_chunk_fits_iff wideDb "main" nextChunk
    wideDb_pairwiseDisjoint).mpr (Or.inr hin) (by decide) wideChunk (by decide)
  exact ⟨by decide, ha, hl rfl⟩

/-- A chunk inside the stored one is accepted. -/
theorem overlapping_chunk_accepted : wideDb.PairwiseDisjoint "main" ∧
    wideDb.validateChunkInsertion "main" innerChunk = .ok () ∧
    wideChunk ∈ wideDb.chunkSet "main" ∧
    ¬ (wideChunk.lastBlock < innerChunk.firstBlock ∨ innerChunk.lastBlock < wideChunk.firstBlock) :=
  ⟨wideDb_pairwiseDisjoint, by decide, by decide, by decide⟩

end Sample

end Storage
