import SqdData.Hotblocks.Ingest

/-!
# Chunks of the ingest loop tile

Between two forks the loop keeps one invariant: the emitted chunks, followed by the buffered blocks,
are the blocks pushed so far, cut into adjacent pieces. Flushing moves the cut, pushing appends to
the buffer, and everything else leaves both alone.
-/

namespace Hotblocks

open List

open Storage DataSource

variable {B : Type}

variable {block : B}

namespace DataBuilder

theorem flushToProcessor_pending (d : DataBuilder B) : d.flushToProcessor.pending = d.pending := by
  simp [flushToProcessor, pending]

theorem clear_pending (d : DataBuilder B) : d.clear.pending = [] := rfl

variable [ChunkBuilder B]

theorem finish_blocks (d : DataBuilder B) : d.finish.1.blocks = d.pending := by
  unfold finish pending
  split
  · rename_i hs
    simp only [Bool.and_eq_true, Option.isNone_iff_eq_none] at hs
    simp [hs.1]
  · rfl

theorem finish_pending (d : DataBuilder B) : d.finish.2.pending = [] := by
  unfold finish pending
  split
  · rename_i hs
    simp only [Bool.and_eq_true, Option.isNone_iff_eq_none] at hs
    simp [hs.1]
  · rfl

theorem pushBlock_pending {d d' : DataBuilder B} (h : d.pushBlock block = .ok d') :
    d'.pending = d.pending ++ [block] := by
  obtain ⟨_, _, rfl⟩ := map_eq_ok h
  simp [pending]

end DataBuilder

namespace IngestGeneric

/-- Two states of the loop that agree on the buffer and on what is recorded of it. -/
structure SameBuffer (s s' : IngestGeneric B) : Prop where
  pending : s'.builder.pending = s.builder.pending
  bufferedBlocks : s'.bufferedBlocks = s.bufferedBlocks
  parentBlockHash : s'.parentBlockHash = s.parentBlockHash
  firstBlock : s'.firstBlock = s.firstBlock
  lastBlock : s'.lastBlock = s.lastBlock
  lastBlockHash : s'.lastBlockHash = s.lastBlockHash
  flushFloor : s'.flushFloor = s.flushFloor

end IngestGeneric

def NewChunk.blocks (c : NewChunk B) : List B := c.tables.blocks

def IngestMessage.chunk? : IngestMessage B → Option (NewChunk B)
  | .newChunk chunk => some chunk
  | _ => none

def chunksOf (sent : List (IngestMessage B)) : List (NewChunk B) :=
  sent.filterMap IngestMessage.chunk?

@[simp]
theorem chunksOf_nil : chunksOf ([] : List (IngestMessage B)) = [] := rfl

@[simp]
theorem chunksOf_append (xs ys : List (IngestMessage B)) :
    chunksOf (xs ++ ys) = chunksOf xs ++ chunksOf ys := filterMap_append

variable [Block B]

/-- A chunk tells where its blocks begin and end. -/
structure Describes (c : NewChunk B) : Prop where
  parent : ∃ b ∈ c.blocks.head?, c.parentBlockHash = Block.parentHash b
  last : ∃ b ∈ c.blocks.getLast?, c.lastBlock = Block.number b ∧ c.lastBlockHash = Block.hash b
  range : ∀ b ∈ c.blocks, c.firstBlock ≤ Block.number b ∧ Block.number b ≤ c.lastBlock

/-- One chunk continues another. -/
def Continues (c c' : NewChunk B) : Prop :=
  c'.firstBlock = c.lastBlock + 1 ∧ c'.parentBlockHash = c.lastBlockHash

/-- What the chunks emitted since the last fork satisfy. -/
structure Chunked (start : Nat) (floor : Option Nat) (chunks : List (NewChunk B)) : Prop where
  described : ∀ c ∈ chunks, Describes c
  adjacent : chunks.IsChain Continues
  first : ∀ c ∈ chunks.head?, c.firstBlock = start
  reached : ∀ c ∈ chunks, ∀ f ∈ floor, f ≤ c.lastBlock

/-- The state of the loop after the given blocks were pushed and the given chunks emitted. -/
structure Ingested (start : Nat) (floor : Option Nat) (blocks : List B) (chunks : List (NewChunk B))
    (s : IngestGeneric B) : Prop extends Chunked start floor chunks where
  content : chunks.flatMap NewChunk.blocks ++ s.builder.pending = blocks
  counted : s.bufferedBlocks = s.builder.pending.length
  parent : ∀ b ∈ s.builder.pending.head?, s.parentBlockHash = Block.parentHash b
  last : ∀ b ∈ s.builder.pending.getLast?, s.lastBlock = Block.number b ∧
    s.lastBlockHash = Block.hash b
  next : s.firstBlock = chunks.getLast?.elim start fun c => c.lastBlock + 1
  withheld : chunks = [] → s.flushFloor = floor

variable {c : NewChunk B}

/-- The last block of described chunks is the last block of the last one. -/
theorem Chunked.getLast {start : Nat} {floor : Option Nat} {chunks : List (NewChunk B)}
    (h : Chunked start floor chunks) (hc : c ∈ chunks.getLast?) :
    ∃ b ∈ (chunks.flatMap NewChunk.blocks).getLast?,
      c.lastBlock = Block.number b ∧ c.lastBlockHash = Block.hash b := by
  obtain ⟨_, rfl⟩ := getLast?_eq_some_iff.mp hc
  obtain ⟨b, hb, hlast⟩ := (h.described c (by simp)).last
  refine ⟨b, ?_, hlast⟩
  rw [Option.mem_def] at hb
  simp [hb]

/-- Adding a chunk that starts where the last one ended. -/
theorem Chunked.append {start : Nat} {floor : Option Nat} {chunks : List (NewChunk B)}
    (h : Chunked start floor chunks) (hc : Describes c)
    (hf : c.firstBlock = chunks.getLast?.elim start fun c => c.lastBlock + 1)
    (hl : ∀ c' ∈ chunks.getLast?, c.parentBlockHash = c'.lastBlockHash)
    (hfl : ∀ f ∈ floor, f ≤ c.lastBlock) : Chunked start floor (chunks ++ [c]) where
  described := by
    intro c' hc'
    rcases mem_append.mp hc' with hc' | hc'
    · exact h.described c' hc'
    · rw [mem_singleton.mp hc']
      exact hc
  adjacent := by
    refine List.IsChain.append h.adjacent (List.IsChain.singleton c) ?_
    intro c' hc' d hd
    cases hd
    rw [Option.mem_def.mp hc'] at hf
    exact ⟨hf, hl c' hc'⟩
  first := by
    intro c' hc'
    cases chunks with
    | nil =>
      cases hc'
      exact hf
    | cons => exact h.first c' hc'
  reached := by
    intro c' hc'
    rcases mem_append.mp hc' with hc' | hc'
    · exact h.reached c' hc'
    · rw [mem_singleton.mp hc']
      exact hfl

section Tiling

open IngestGeneric

variable {start : Nat} {floor : Option Nat} {blocks : List B} {chunks : List (NewChunk B)}
  {s s' : IngestGeneric B}

variable (h : Ingested start floor blocks chunks s)

include h

theorem Ingested.of_sameBuffer (hs : SameBuffer s s') : Ingested start floor blocks chunks s' where
  toChunked := h.toChunked
  content := hs.pending ▸ h.content
  counted := by rw [hs.bufferedBlocks, hs.pending, h.counted]
  parent := by
    rw [hs.pending, hs.parentBlockHash]
    exact h.parent
  last := by
    rw [hs.pending, hs.lastBlock, hs.lastBlockHash]
    exact h.last
  next := hs.firstBlock ▸ h.next
  withheld := fun hn => hs.flushFloor ▸ h.withheld hn

theorem Ingested.setFinalizedHead (number : Nat) (hash : Hash) :
    Ingested start floor blocks chunks (s.setFinalizedHead number hash) :=
  h.of_sameBuffer ⟨rfl, rfl, rfl, rfl, rfl, rfl, rfl⟩

theorem Ingested.setDataMask (mask : DataMask) :
    Ingested start floor blocks chunks { s with dataMask := mask } :=
  h.of_sameBuffer ⟨rfl, rfl, rfl, rfl, rfl, rfl, rfl⟩

theorem Ingested.isPrefix : chunks.flatMap NewChunk.blocks <+: blocks :=
  ⟨_, h.content⟩

variable {parent : Option Hash}

variable (hl : LinkedFrom ⟨start, parent⟩ blocks)

include hl

/-- Buffered blocks lie at or above the start of the next chunk. -/
theorem Ingested.firstBlock_le : ∀ b ∈ s.builder.pending, s.firstBlock ≤ Block.number b := by
  intro b hb
  rw [← h.content] at hl
  rw [h.next]
  cases hlast : chunks.getLast? with
  | none => exact hl.number_ge b (mem_append_right _ hb)
  | some =>
    obtain ⟨b', hb', _, _⟩ := h.toChunked.getLast hlast
    have hm := mem_of_getLast? hb'
    have hlt := (pairwise_append.mp hl.pairwise_number).2.2 b' hm b hb
    simp only [Option.elim_some]
    omega

/-- The first buffered block names the last flushed one as its parent. -/
theorem Ingested.parent_link {b : B} (hb : b ∈ s.builder.pending.head?) (hc : c ∈ chunks.getLast?) :
    Block.parentHash b = c.lastBlockHash := by
  obtain ⟨b', hb', _, hh⟩ := h.toChunked.getLast hc
  have hch := hl.isChain_hash
  rw [← h.content] at hch
  rw [hh]
  exact (isChain_append.mp hch).2.2 b' hb' b hb

variable [ChunkBuilder B]

theorem Ingested.flush : Ingested start floor blocks (chunks ++ chunksOf s.flush.1) s.flush.2 := by
  unfold IngestGeneric.flush
  split
  · simpa using h
  · rename_i hs
    split
    · simp only [chunksOf_nil, append_nil]
      exact h.of_sameBuffer ⟨rfl, rfl, rfl, rfl, rfl, rfl, rfl⟩
    · rename_i hr
      have hne : s.builder.pending ≠ [] := by
        intro hnl
        rw [h.counted, hnl] at hs
        exact hs rfl
      obtain ⟨first, hfr⟩ := Option.ne_none_iff_exists'.mp (mt head?_eq_none_iff.mp hne)
      obtain ⟨last, hlast⟩ := Option.ne_none_iff_exists'.mp (mt getLast?_eq_none_iff.mp hne)
      have hp := s.builder.finish_blocks
      have hfl : ∀ f ∈ floor, f ≤ s.lastBlock := by
        intro f hf
        cases hch : chunks.getLast? with
        | none =>
          have hnl := getLast?_eq_none_iff.mp hch
          rw [h.withheld hnl, Option.mem_def.mp hf] at hr
          simpa using hr
        | some c =>
          -- The floor was reached by the last chunk, and the buffer lies above it.
          have hc := h.reached c (mem_of_getLast? hch) f hf
          have hnx := h.next
          have hge := h.firstBlock_le hl last (mem_of_getLast? hlast)
          have hn := (h.last last hlast).1
          rw [hch] at hnx
          simp only [Option.elim_some] at hnx
          omega
      have hle : ∀ b ∈ s.builder.pending, Block.number b ≤ s.lastBlock := by
        intro b hb
        obtain ⟨_, he⟩ := getLast?_eq_some_iff.mp hlast
        have hpr := hl.pairwise_number
        rw [← h.content] at hpr
        have hpr' := (pairwise_append.mp hpr).2.1
        rw [he] at hb hpr'
        rw [(h.last last hlast).1]
        rcases mem_append.mp hb with hb | hb
        · exact Nat.le_of_lt ((pairwise_append.mp hpr').2.2 b hb last (by simp))
        · rw [mem_singleton.mp hb]
      refine ⟨?_, ?_, ?_, ?_, ?_, ?_, ?_⟩
      · refine h.toChunked.append ⟨?_, ?_, ?_⟩ h.next ?_ hfl
        · exact ⟨first, hp ▸ hfr, h.parent first hfr⟩
        · exact ⟨last, hp ▸ hlast, h.last last hlast⟩
        · intro b hb
          have hb' : b ∈ s.builder.pending := hp ▸ hb
          exact ⟨h.firstBlock_le hl b hb', hle b hb'⟩
        · intro c hc
          exact (h.parent first hfr).trans (h.parent_link hl hfr hc)
      · have hd := s.builder.finish_pending
        simp only [chunksOf, filterMap_cons, IngestMessage.chunk?, filterMap_nil,
          flatMap_append, flatMap_cons, flatMap_nil, hd, append_nil]
        rw [← h.content]
        exact congrArg _ hp
      · exact congrArg length s.builder.finish_pending.symm
      · intro b hb
        have hd := s.builder.finish_pending
        simp [hd] at hb
      · intro b hb
        have hd := s.builder.finish_pending
        simp [hd] at hb
      · simp [chunksOf, IngestMessage.chunk?]
      · intro hnl
        simp [chunksOf, IngestMessage.chunk?] at hnl

theorem Ingested.maybeFlush :
    Ingested start floor blocks (chunks ++ chunksOf s.maybeFlush.1) s.maybeFlush.2 := by
  have hf : Ingested start floor blocks (chunks ++ chunksOf s.flushFull.1) s.flushFull.2 := by
    unfold IngestGeneric.flushFull
    split
    · exact h.flush hl
    · simpa using h
  refine hf.of_sameBuffer ?_
  simp only [IngestGeneric.maybeFlush, IngestGeneric.spillLarge]
  split
  · exact ⟨DataBuilder.flushToProcessor_pending _, rfl, rfl, rfl, rfl, rfl, rfl⟩
  · exact ⟨rfl, rfl, rfl, rfl, rfl, rfl, rfl⟩

theorem Ingested.cutAtMask (mask : DataMask) :
    Ingested start floor blocks (chunks ++ chunksOf (s.cutAtMask mask).1) (s.cutAtMask mask).2 := by
  unfold IngestGeneric.cutAtMask
  split
  · simpa using h
  · exact h.flush hl

omit hl

theorem Ingested.recordBlock {builder : DataBuilder B}
    (hbl : s.builder.pushBlock block = .ok builder) :
    Ingested start floor (blocks ++ [block]) chunks
      (IngestGeneric.recordBlock { s with builder } block) := by
  have hp := DataBuilder.pushBlock_pending hbl
  refine ⟨h.toChunked, ?_, ?_, ?_, ?_, h.next, h.withheld⟩
  · rw [← h.content, append_assoc]
    exact congrArg _ hp
  · have hc := h.counted
    simp only [IngestGeneric.recordBlock, hp, length_append, length_singleton]
    omega
  · intro b hb
    simp only [IngestGeneric.recordBlock, hp] at hb ⊢
    cases hold : s.builder.pending with
    | nil =>
      have hzero : s.bufferedBlocks = 0 := by rw [h.counted, hold, length_nil]
      rw [hold] at hb
      cases hb
      rw [if_pos hzero]
    | cons =>
      have hps : s.bufferedBlocks ≠ 0 := by
        rw [h.counted, hold, length_cons]
        omega
      rw [hold] at hb
      cases hb
      rw [if_neg hps]
      exact h.parent _ (by rw [hold]; rfl)
  · intro b hb
    simp only [IngestGeneric.recordBlock, hp, getLast?_concat] at hb ⊢
    cases hb
    exact ⟨rfl, rfl⟩

theorem Ingested.pushBlock {isFinal : Bool} (hp : s.pushBlock block isFinal = .ok s') :
    Ingested start floor (blocks ++ [block]) chunks s' := by
  obtain ⟨_, hb, hrs⟩ := bind_eq_ok.mp hp
  obtain ⟨_, _, hd⟩ := bind_eq_ok.mp hrs
  cases hd
  have hr := h.recordBlock hb
  split
  · exact hr.setFinalizedHead _ _
  · exact hr

/-- What a part of the loop leaves behind: the invariant, or on failure the chunks it sent. -/
def Leaves (start : Nat) (floor : Option Nat) (blocks : List B) (chunks : List (NewChunk B)) :
    Except Error (IngestGeneric B) → Prop
  | .ok s => Ingested start floor blocks chunks s
  | .error _ => Chunked start floor chunks ∧ chunks.flatMap NewChunk.blocks <+: blocks

theorem Ingested.onBlock (hl : LinkedFrom ⟨start, parent⟩ (blocks ++ [block])) (isFinal : Bool) :
    Leaves start floor (blocks ++ [block]) (chunks ++ chunksOf (s.onBlock block isFinal).1)
      (s.onBlock block isFinal).2 := by
  have hc := h.cutAtMask hl.append.1 (Block.dataAvailabilityMask block)
  have hf := (⟨hc.toChunked, hc.isPrefix.trans (prefix_append _ [block])⟩ : Chunked _ _ _ ∧ _)
  unfold IngestGeneric.onBlock
  simp only []
  split
  · exact hf
  · cases hp : IngestGeneric.pushBlock _ block isFinal with
    | error => exact hf
    | ok =>
      have hm := hc.setDataMask (Block.dataAvailabilityMask block)
      have hfl := (hm.pushBlock hp).maybeFlush hl
      simp only [chunksOf_append, ← append_assoc]
      exact hfl

def DataEvent.IsFork : DataEvent B → Prop
  | .fork _ => True
  | _ => False

instance decidableIsFork : (event : DataEvent B) → Decidable (DataEvent.IsFork event)
  | .finalizedHead _ => isFalse id
  | .block _ _ => isFalse id
  | .fork _ => isTrue trivial
  | .maybeOnHead => isFalse id

theorem Ingested.step {event : DataEvent B} (hf : ¬ DataEvent.IsFork event)
    (hl : LinkedFrom ⟨start, parent⟩ (blocks ++ blocksOf [event])) (rollback : Rollback) :
    Leaves start floor (blocks ++ blocksOf [event])
      (chunks ++ chunksOf (s.step event rollback).1) (s.step event rollback).2 := by
  cases event with
  | finalizedHead head =>
    have hq : chunksOf (s.step (.finalizedHead head) rollback).1 = [] := by
      unfold IngestGeneric.step
      simp only []
      split <;> rfl
    rw [hq]
    simp only [blocksOf, filterMap_cons, DataEvent.block?, filterMap_nil, append_nil]
    exact h.setFinalizedHead _ _
  | block _ isFinal => exact h.onBlock hl isFinal
  | fork => exact absurd trivial hf
  | maybeOnHead =>
    simp only [blocksOf, filterMap_cons, DataEvent.block?, filterMap_nil, append_nil] at hl ⊢
    exact h.flush hl

def pushed (inputs : List (DataEvent B × Rollback)) : List B := blocksOf (inputs.map Prod.fst)

variable {inputs : List (DataEvent B × Rollback)}

theorem Ingested.run (hf : ∀ i ∈ inputs, ¬ DataEvent.IsFork i.1)
    (hl : LinkedFrom ⟨start, parent⟩ (blocks ++ pushed inputs)) :
    Leaves start floor (blocks ++ pushed inputs) (chunks ++ chunksOf (s.run inputs).1)
      (s.run inputs).2 := by
  induction inputs generalizing blocks chunks s with
  | nil =>
    simp only [pushed, blocksOf, IngestGeneric.run, map_nil, filterMap_nil,
      chunksOf_nil, append_nil]
    exact h
  | cons input inputs ih =>
    obtain ⟨event, rollback⟩ := input
    have hs : pushed ((event, rollback) :: inputs) = blocksOf [event] ++ pushed inputs := by
      simp [pushed, blocksOf, filterMap_cons]
      cases event.block? <;> rfl
    rw [hs, ← append_assoc] at hl ⊢
    have hst := h.step (hf _ mem_cons_self) hl.append.1 rollback
    unfold IngestGeneric.run
    cases hrs : s.step event rollback with
    | mk _ result =>
      rw [hrs] at hst
      cases result with
      | error => exact ⟨hst.1, hst.2.trans (prefix_append _ _)⟩
      | ok =>
        have hr := ih hst (fun i hi => hf i (mem_cons_of_mem _ hi)) hl
        simp only [chunksOf_append, ← append_assoc]
        exact hr

omit h

/-- Nothing is buffered, and the data source stands where the next chunk starts. -/
structure Idle (s : IngestGeneric B) : Prop where
  pending : s.builder.pending = []
  bufferedBlocks : s.bufferedBlocks = 0
  firstBlock : s.firstBlock = s.source.firstBlock

omit [ChunkBuilder B] in
theorem Idle.ingested (h : Idle s) : Ingested s.source.firstBlock s.flushFloor [] [] s := by
  refine ⟨⟨?_, List.IsChain.nil, ?_, ?_⟩, ?_, ?_, ?_, ?_, h.firstBlock, fun _ => rfl⟩
  · simp
  · simp
  · simp
  · simp [h.pending]
  · simp [h.pending, h.bufferedBlocks]
  · simp [h.pending]
  · simp [h.pending]

omit [Block B] [ChunkBuilder B] in
theorem idle_new (source : BlockStreamRequest) (spillBoundBytes : Nat) :
    Idle (IngestGeneric.new source spillBoundBytes : IngestGeneric B) :=
  ⟨rfl, rfl, rfl⟩

omit [Block B] [ChunkBuilder B] in
theorem idle_handleFork (s : IngestGeneric B) (rollback : Rollback) :
    Idle (s.handleFork rollback) :=
  ⟨s.builder.clear_pending, rfl, rfl⟩

theorem run_append (s : IngestGeneric B) (xs ys : List (DataEvent B × Rollback)) :
    s.run (xs ++ ys) =
      match s.run xs with
      | (sent, .error e) => (sent, .error e)
      | (sent, .ok s') => (sent ++ (s'.run ys).1, (s'.run ys).2) := by
  induction xs generalizing s with
  | nil => rfl
  | cons x xs ih =>
    obtain ⟨event, rollback⟩ := x
    simp only [cons_append, IngestGeneric.run]
    cases s.step event rollback with
    | mk _ result =>
      cases result with
      | error => rfl
      | ok s' =>
        simp only [ih s']
        cases s'.run xs with
        | mk _ result =>
          cases result with
          | error => rfl
          | ok => simp only [append_assoc]

/-- A run up to a fork leaves the loop idle. -/
theorem idle_of_run {source : BlockStreamRequest} {spillBoundBytes : Nat}
    {sent : List (IngestMessage B)} (hs : ∀ i ∈ inputs.getLast?, DataEvent.IsFork i.1)
    (hr : (IngestGeneric.new source spillBoundBytes).run inputs = (sent, .ok s)) : Idle s := by
  cases hlast : inputs.getLast? with
  | none =>
    rw [getLast?_eq_none_iff.mp hlast] at hr
    cases hr
    exact idle_new source spillBoundBytes
  | some input =>
    obtain ⟨_, rfl⟩ := getLast?_eq_some_iff.mp hlast
    obtain ⟨event, rollback⟩ := input
    have hf := hs _ hlast
    cases event with
    | fork =>
      rw [run_append] at hr
      split at hr
      · cases hr
      · cases hr
        exact idle_handleFork _ rollback
    | finalizedHead => exact hf.elim
    | block => exact hf.elim
    | maybeOnHead => exact hf.elim

omit [ChunkBuilder B] in
/-- What the loop assumes of its blocks is what the standard data source gives, set to the position
that the loop asked for, as long as no block follows the greatest block number. -/
theorem linked_of_standardDataSource {R : Type} {parse : R → Option B}
    {src src' : StandardDataSource} {polls : List (PollInput R)}
    (h : StandardDataSource.pollAll parse
      (src.setPosition s.source.firstBlock s.source.parentBlockHash) polls =
        some (inputs.map Prod.fst, src'))
    (hroom : ∀ b ∈ (pushed inputs).dropLast, Block.number b < maxBlockNumber) :
    LinkedFrom s.source (pushed inputs) :=
  Emissions.linkedFrom (StandardDataSource.pollAll_emissions h) hroom

/-- The chunks emitted between two forks tile: each continues the one before and holds the blocks
its bounds name. The blocks pushed since the fork are those of the chunks followed by those still
buffered, which the next fork discards. No chunk ends below a flush floor that the fork set. -/
theorem ingest_chunks_tile {source : BlockStreamRequest} {spillBoundBytes : Nat}
    {earlier segment : List (DataEvent B × Rollback)} {sent₀ sent : List (IngestMessage B)}
    {result : Except Error (IngestGeneric B)}
    (hearlier : (IngestGeneric.new source spillBoundBytes).run earlier = (sent₀, .ok s))
    (hstart : ∀ i ∈ earlier.getLast?, DataEvent.IsFork i.1)
    (hforks : ∀ i ∈ segment, ¬ DataEvent.IsFork i.1)
    (hlinked : LinkedFrom s.source (pushed segment))
    (hrun : s.run segment = (sent, result)) :
    ((chunksOf sent).IsChain fun c c' =>
        c'.firstBlock = c.lastBlock + 1 ∧ c'.parentBlockHash = c.lastBlockHash) ∧
      (∀ c ∈ chunksOf sent, ∀ b ∈ c.blocks,
        c.firstBlock ≤ Block.number b ∧ Block.number b ≤ c.lastBlock) ∧
      (∀ c ∈ (chunksOf sent).head?, c.firstBlock = s.source.firstBlock) ∧
      (match result with
        | .ok s' =>
          (chunksOf sent).flatMap NewChunk.blocks ++ s'.builder.pending = pushed segment ∧
            ∀ prevBlocks rollback, ∃ s'', s'.step (.fork prevBlocks) rollback =
              ([.fork prevBlocks], .ok s'') ∧ s''.builder.pending = []
        | .error _ => (chunksOf sent).flatMap NewChunk.blocks <+: pushed segment) ∧
      ∀ c ∈ chunksOf sent, ∀ f ∈ s.flushFloor, f ≤ c.lastBlock := by
  have hi := idle_of_run hstart hearlier
  have hl := hi.ingested.run hforks hlinked
  rw [hrun] at hl
  have hch : Chunked s.source.firstBlock s.flushFloor (chunksOf sent) := by
    cases result with
    | ok => exact hl.toChunked
    | error => exact hl.1
  refine ⟨hch.adjacent, fun c hc => (hch.described c hc).range, hch.first, ?_,
    hch.reached⟩
  cases result with
  | error => exact hl.2
  | ok s' =>
    refine ⟨hl.content, ?_⟩
    intro prevBlocks rollback
    exact ⟨s'.handleFork rollback, rfl, (idle_handleFork s' rollback).pending⟩

end Tiling

section Sample

local instance ingestHeader : Block Header where
  number := Header.number
  hash := Header.hash
  parentHash := Header.parentHash
  timestamp _ := none
  dataAvailabilityMask _ := 0
  hasData _ _ := true

local instance headerBuilder : ChunkBuilder Header where
  tables := ["blocks"]
  push _ _ := .ok ()
  byteSize := List.length
  maxNumRows := List.length

def anyRollback : Rollback := { resumeFrom := 0, expectedParentHash := none, reachAtLeast := none }

def resumed : List (DataEvent Header × Rollback) :=
  [(.block ⟨10, "a", "z"⟩ false, anyRollback),
    (.fork [⟨9, "h9"⟩],
      { resumeFrom := 10, expectedParentHash := some "h9", reachAtLeast := some 12 })]

/-- The flush after block 11 is withheld. -/
def replayed : List (DataEvent Header × Rollback) :=
  [.block ⟨10, "h10", "h9"⟩ true, .block ⟨11, "h11", "h10"⟩ true, .maybeOnHead,
    .block ⟨12, "h12", "h11"⟩ false, .maybeOnHead, .block ⟨15, "h15", "h12"⟩ false,
    .maybeOnHead, .block ⟨16, "h16", "h15"⟩ false].map fun e => (e, anyRollback)

def ingestStart : IngestGeneric Header := IngestGeneric.new ⟨10, none⟩ 1

theorem ingest_chunks_tile_sample :
    ∃ s s' sent, (ingestStart.run resumed).2 = .ok s ∧ s.run replayed = (sent, .ok s') ∧
      (chunksOf sent).map (fun c => (c.firstBlock, c.lastBlock)) = [(10, 12), (13, 15)] ∧
      s'.builder.pending = [⟨16, "h16", "h15"⟩] ∧
      ((chunksOf sent).IsChain fun c c' =>
        c'.firstBlock = c.lastBlock + 1 ∧ c'.parentBlockHash = c.lastBlockHash) := by
  obtain ⟨s, hs⟩ : ∃ s, ingestStart.run resumed = ([.fork [⟨9, "h9"⟩]], .ok s) := ⟨_, rfl⟩
  have hsr : s.source = ⟨10, some "h9"⟩ := by
    cases hs
    rfl
  obtain ⟨sent, s', hr, hc, hp⟩ : ∃ sent s', s.run replayed = (sent, .ok s') ∧
      (chunksOf sent).map (fun c => (c.firstBlock, c.lastBlock)) = [(10, 12), (13, 15)] ∧
      s'.builder.pending = [⟨16, "h16", "h15"⟩] := by
    cases hs
    exact ⟨_, _, rfl, by decide, by decide⟩
  have hl : LinkedFrom s.source (pushed replayed) := by
    rw [hsr]
    refine ⟨⟨?_, ?_⟩, ⟨?_, ?_⟩, ⟨?_, ?_⟩, ⟨?_, ?_⟩, ⟨?_, ?_⟩, trivial⟩ <;> decide
  have ht := ingest_chunks_tile hs (by decide) (by decide) hl hr
  exact ⟨s, s', sent, by rw [hs], hr, hc, hp, ht.1⟩

end Sample

end Hotblocks
