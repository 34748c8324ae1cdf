import SqdData.Hotblocks.Writer

/-!
# The window of stored chunks

Three invariants of a dataset under its writer that look at chunk boundaries and labels only, not
into tables. The stored chunks tile the window. The controller mirrors committed state: what it
holds and publishes is what the database holds. The finalized head lies between the ends of the
window.
-/

namespace Hotblocks

open List

open Storage

section Invariants

variable [TableFormat] {dataset : DatasetId} {kind : DatasetKind} {db db' : Db}
  {c c' : WriteController} {call : Call} {w w' : Writer} {op : WriterOp}

namespace WriteController

omit [TableFormat] in
theorem applyNewChunk_fields (c : WriteController) (chunk : Chunk) (fin : Option BlockRef) :
    (c.applyNewChunk chunk fin).datasetId = c.datasetId ∧
      (c.applyNewChunk chunk fin).firstBlock = c.firstBlock ∧
      (c.applyNewChunk chunk fin).head = some (getChunkHead chunk) ∧
      (c.applyNewChunk chunk fin).finalizedHead = fin ∧
      (c.applyNewChunk chunk fin).headSender.value = some (getChunkHead chunk) ∧
      (c.applyNewChunk chunk fin).finalizedHeadSender.value = fin := by
  dsimp only [applyNewChunk]
  split <;> simp [setHead, setFinalizedHead]

omit [TableFormat] in
/-- The head of the first chunk is replaced unless it is below the new chunk. -/
theorem applyNewChunk_firstChunkHead {c : WriteController} {chunk : Chunk} {fin : Option BlockRef}
    {first : BlockRef} (h : first ∈ (c.applyNewChunk chunk fin).firstChunkHead) :
    first.number ≤ chunk.lastBlock := by
  by_cases ha : c.firstChunkHead.all fun f => chunk.firstBlock ≤ f.number
  · have hn : (c.applyNewChunk chunk fin).firstChunkHead = some (getChunkHead chunk) := by
      simp [applyNewChunk, setHead, setFinalizedHead, ha]
    rw [hn] at h
    obtain rfl : getChunkHead chunk = first := Option.some.inj h
    exact le_rfl
  · have hold : (c.applyNewChunk chunk fin).firstChunkHead = c.firstChunkHead := by
      simp [applyNewChunk, setHead, setFinalizedHead, ha]
    rw [hold] at h
    have hl : ¬ chunk.firstBlock ≤ first.number := by
      intro hle
      rw [Option.mem_def.mp h] at ha
      exact ha (by simpa using hle)
    have := chunk.first_le_last
    omega

end WriteController

/-! ### Tiling -/

variable {label : DatasetLabel}

/-- A chunk that was inserted follows the chunks that were kept. -/
theorem NewChunkCommitted.chunks {flags : IndexFlags} {report : Option BlockRef} {chunk : Chunk}
    {update : FinalityUpdate} {forked : Db}
    (h : NewChunkCommitted db c flags report chunk db' update label forked) :
    ∃ kept dropped, (db.chunkSet c.datasetId).toList = kept ++ dropped ∧
      (∀ d ∈ dropped, chunk.firstBlock ≤ d.firstBlock) ∧
      (∀ k ∈ kept.getLast?, chunkSegments.Follows k chunk) ∧
      (db'.chunkSet c.datasetId).toList = kept ++ [chunk] := by
  obtain ⟨kept, dropped, hf⟩ := Db.insertFork_forked h.fork
  refine ⟨kept, dropped, hf.split, hf.above, hf.link, ?_⟩
  rw [h.result, Db.chunkSet_writeLabel]
  exact hf.chunkSet_self

theorem FinalizeCommitted.chunks {head report : BlockRef} {decision : FinalityDecision}
    (h : FinalizeCommitted db c head report db' decision label) :
    db'.chunkSet dataset = db.chunkSet dataset := by
  rcases h.result with ⟨_, -, rfl⟩ | ⟨-, rfl⟩ <;> exact Db.chunkSet_writeLabel

theorem Retained.chunks_suffix {r : Retention} {status : RetainStatus}
    (h : Retained db dataset r label db' status) :
    ∃ gone, (db.chunkSet dataset).toList = gone ++ (db'.chunkSet dataset).toList := by
  cases h with
  | kept gone _ _ _ split _ _ chunks =>
    exact ⟨gone, by rw [chunks, split]⟩
  | cleared chunks => exact ⟨_, by rw [chunks, append_nil]⟩

theorem CallEffect.tiles (h : CallEffect c db call db' c')
    (ht : chunkSegments.Tiles (db.chunkSet c.datasetId).toList) :
    chunkSegments.Tiles (db'.chunkSet c.datasetId).toList := by
  cases h with
  | idle => exact ht
  | inserted h =>
    obtain ⟨_, _, hs, -, hl, ha⟩ := h.chunks
    rw [hs] at ht
    rw [ha]
    exact ht.of_append_left.concat hl
  | applied _ h =>
    rw [h.chunks]
    exact ht
  | ignored _ h =>
    rw [h.chunks]
    exact ht
  | retained _ _ _ h =>
    obtain ⟨_, hs⟩ := h.chunks_suffix
    rw [hs] at ht
    exact ht.of_append_right

theorem datasetStep_tiles {s : Node} {op : NodeOp} (h : Node.DatasetStep dataset s op db')
    (ht : chunkSegments.Tiles (s.db.chunkSet dataset).toList) :
    chunkSegments.Tiles (db'.chunkSet dataset).toList := by
  cases h with
  | same _ chunks =>
    rw [chunks]
    exact ht
  | created _ _ _ chunks =>
    rw [chunks]
    exact ht
  | dropped _ _ _ chunks =>
    rw [chunks]
    exact Segments.tiles_nil
  | compacted _ _ _ _ _ spans effect =>
    rw [effect.split] at ht
    rw [effect.chunkSet_self]
    exact ht.merge spans.nonempty spans.firstBlock spans.parentBlockHash spans.lastBlock
      spans.lastBlockHash

theorem CallEffect.datasetId (h : CallEffect c db call db' c') : c'.datasetId = c.datasetId := by
  cases h with
  | idle => rfl
  | inserted => exact (c.applyNewChunk_fields _ _).1
  | applied => rfl
  | ignored => rfl
  | @retained _ r _ status _ retention label_eq h => cases status <;> rfl

/-- What the tiling needs to be inductive: the controller writes to its own dataset. -/
structure Tiled (dataset : DatasetId) (w : Writer) : Prop where
  chunks : chunkSegments.Tiles (w.node.db.chunkSet dataset).toList
  own : ∀ c, w.controller = some c → c.datasetId = dataset

theorem Tiled.step (h : Tiled dataset w) (hs : Writer.StepEffect dataset w op w') :
    Tiled dataset w' := by
  cases hs with
  | node _ effect controller =>
    refine ⟨datasetStep_tiles effect h.chunks, ?_⟩
    intro c hc
    rcases controller with hsm | hn
    · exact h.own c (hsm ▸ hc)
    · rw [hn] at hc
      cases hc
  | opened _ effect controller =>
    refine ⟨datasetStep_tiles effect h.chunks, ?_⟩
    intro c hc
    obtain ⟨_, ho⟩ := controller c hc
    exact ho.datasetId
  | dropped => exact ⟨h.chunks, fun c hc => by cases hc⟩
  | failed _ _ same =>
    refine ⟨?_, h.own⟩
    rw [same.chunkSet]
    exact h.chunks
  | called controller effect =>
    have how := h.own _ controller
    have ht := h.chunks
    rw [← how] at ht
    refine ⟨?_, ?_⟩
    · rw [← how]
      exact effect.tiles ht
    · intro c hc
      cases hc
      exact effect.datasetId.trans how

theorem reachable_tiled
    (h : (Writer.machine dataset kind).Reachable (Writer.SoleWriter dataset) w) :
    Tiled dataset w := by
  refine h.invariant ?_ ?_
  · rintro w rfl
    exact ⟨Segments.tiles_nil, fun c hc => by cases hc⟩
  · intro w op w' _ hw hok hs
    exact hw.step (Writer.step_effect hok hs)

/-- Whatever the controller, compactions and the rest of the node do, in whatever order, the stored
chunks tile: none is empty, and each starts right after the one before it and links to it. -/
theorem stored_chunks_tile
    (h : (Writer.machine dataset kind).Reachable (Writer.SoleWriter dataset) w) :
    (∀ chunk ∈ w.node.db.listChunks dataset 0 none, chunk.firstBlock ≤ chunk.lastBlock) ∧
      (w.node.db.listChunks dataset 0 none).IsChain fun prev next =>
        prev.lastBlock + 1 = next.firstBlock ∧ prev.lastBlockHash = next.parentBlockHash := by
  refine ⟨fun chunk _ => chunk.first_le_last, ?_⟩
  rw [Db.listChunks_all]
  exact (reachable_tiled h).chunks

/-! ### Mirror -/

/-- The controller holds and publishes what the database holds. The head of the first chunk may be
stale, since compaction moves chunk boundaries, but it is never above the head. -/
structure Mirrors (dataset : DatasetId) (db : Db) (c : WriteController) : Prop where
  datasetId : c.datasetId = dataset
  finalizedHead : ∃ label, db.getLabel dataset = some label ∧ c.finalizedHead = label.finalizedHead
  head : c.head = (db.getLastChunk dataset).map getChunkHead
  headSender : c.headSender.value = c.head
  finalizedHeadSender : c.finalizedHeadSender.value = c.finalizedHead
  firstChunkHead : ∀ first ∈ c.firstChunkHead, ∃ head ∈ c.head, first.number ≤ head.number

omit [TableFormat] in
/-- A sorted list of chunks ends at least as high as it starts. -/
theorem head_le_getLast {chunks : List Chunk}
    (hs : chunks.Pairwise fun a b => a.lastBlock < b.lastBlock) {first last : Chunk}
    (hf : chunks.head? = some first) (hlast : chunks.getLast? = some last) :
    first.lastBlock ≤ last.lastBlock := by
  cases chunks with
  | nil => cases hf
  | cons =>
    cases hf
    rcases mem_cons.mp (mem_of_getLast? hlast) with rfl | hm
    · exact le_rfl
    · exact (rel_of_pairwise_cons hs hm).le

omit [TableFormat] in
theorem opened_mirrors (h : Writer.Opened dataset db c label) : Mirrors dataset db c := by
  refine ⟨h.datasetId, ⟨label, h.label_eq, h.finalizedHead⟩, h.head, h.headSender,
    h.finalizedHeadSender, ?_⟩
  intro first hf
  rw [h.firstChunkHead, Db.getFirstChunk_eq] at hf
  rw [h.head, Db.getLastChunk_eq]
  obtain ⟨_, hh, rfl⟩ := Option.map_eq_some_iff.mp hf
  have hne : (db.chunkSet dataset).toList ≠ [] := by
    rintro hn
    rw [hn] at hh
    cases hh
  refine ⟨getChunkHead ((db.chunkSet dataset).toList.getLast hne), ?_, ?_⟩
  · rw [getLast?_eq_some_getLast hne]
    rfl
  · exact head_le_getLast (db.chunkSet dataset).sorted hh (getLast?_eq_some_getLast hne)

omit [TableFormat] in
/-- A compaction keeps the head and the finalized head. -/
theorem compacted_head {merge : List Chunk} {newChunk : Chunk} {front back : List Chunk}
    (h : Compacted dataset merge newChunk front back label db db') (hs : Spans merge newChunk) :
    (db'.getLastChunk dataset).map getChunkHead = (db.getLastChunk dataset).map getChunkHead := by
  rw [Db.getLastChunk_eq, Db.getLastChunk_eq, h.split, h.chunkSet_self]
  exact hs.head_eq

theorem Mirrors.datasetStep {s : Node} {op : NodeOp} (h : Mirrors dataset s.db c)
    (hs : Node.DatasetStep dataset s op db')
    (hn : ∀ commit, op ≠ .dropDataset dataset commit) : Mirrors dataset db' c := by
  obtain ⟨label, hl, hf⟩ := h.finalizedHead
  cases hs with
  | same label' chunks =>
    refine ⟨h.datasetId, ⟨label, label'.trans hl, hf⟩, ?_, h.headSender,
      h.finalizedHeadSender, h.firstChunkHead⟩
    rw [h.head, Db.getLastChunk_eq, Db.getLastChunk_eq, chunks]
  | created _ absent =>
    rw [hl] at absent
    cases absent
  | dropped commit op_eq => exact absurd op_eq (hn commit)
  | compacted _ _ _ _ label₁ spans effect =>
    obtain rfl : label₁ = label := Option.some.inj (effect.label_eq.symm.trans hl)
    refine ⟨h.datasetId, ⟨label₁.bumpVersion, effect.getLabel, hf⟩, ?_, h.headSender,
      h.finalizedHeadSender, h.firstChunkHead⟩
    rw [h.head, compacted_head effect spans]

theorem NewChunkCommitted.mirrors {flags : IndexFlags} {report : Option BlockRef} {chunk : Chunk}
    {update : FinalityUpdate} {forked : Db}
    (h : NewChunkCommitted db c flags report chunk db' update label forked)
    (ho : c.datasetId = dataset) : Mirrors dataset db' (c.applyNewChunk chunk update.1) := by
  subst ho
  obtain ⟨hid, -, hh, hfn, hhs, hfs⟩ := c.applyNewChunk_fields chunk update.1
  obtain ⟨kept, dropped, -, -, -, ha⟩ := h.chunks
  refine ⟨hid, ⟨(label.setFinalizedHead update.1).bumpVersion, ?_, hfn⟩, ?_,
    hhs.trans hh.symm, hfs.trans hfn.symm, ?_⟩
  · rw [h.result]
    exact Db.getLabel_writeLabel_self
  · rw [hh, Db.getLastChunk_eq, ha, getLast?_concat]
    rfl
  · intro first hf
    exact ⟨getChunkHead chunk, hh, WriteController.applyNewChunk_firstChunkHead hf⟩

theorem Retained.mirrors {r : Retention} {status : RetainStatus}
    (h : Retained db dataset r label db' status) (ho : c.datasetId = dataset) :
    Mirrors dataset db' (c.applyRetain r status).1 := by
  cases h with
  | kept _ chunk rest _ _ _ _ chunks label_eq status_eq =>
    subst status_eq
    have hlast := getLast?_eq_some_getLast (cons_ne_nil chunk rest)
    refine ⟨ho, ⟨_, label_eq, rfl⟩, ?_, Watch.publish_value _ _, Watch.publish_value _ _, ?_⟩
    · rw [Db.getLastChunk_eq, chunks, hlast]
      rfl
    · intro first hf
      obtain rfl : getChunkHead chunk = first := Option.some.inj hf
      refine ⟨_, rfl, ?_⟩
      have hs := (db'.chunkSet dataset).sorted
      rw [chunks] at hs
      exact head_le_getLast hs rfl hlast
  | cleared chunks label_eq status_ne =>
    have hc : (c.applyRetain r status).1 =
        { c.clearHeads with firstBlock := r.fromBlock, parentBlockHash := r.parentBlockHash } := by
      cases status with
      | range chunk head fin => exact absurd rfl (status_ne chunk head fin)
      | hashMismatch => rfl
      | gap => rfl
      | clear => rfl
    rw [hc]
    refine ⟨ho, ⟨_, label_eq, rfl⟩, ?_, Watch.publish_value _ _, Watch.publish_value _ _, ?_⟩
    · rw [Db.getLastChunk_eq, chunks]
      rfl
    · intro first hf
      cases hf

theorem FinalizeCommitted.label_after {head report : BlockRef} {decision : FinalityDecision}
    (h : FinalizeCommitted db c head report db' decision label) :
    ∃ label', db'.getLabel c.datasetId = some label' ∧
      ((∃ fin, decision = .applied fin ∧ label'.finalizedHead = some fin) ∨
        ((∃ reason, decision = .ignored reason) ∧ label'.finalizedHead = label.finalizedHead)) := by
  rcases h.result with ⟨fin, hd, rfl⟩ | ⟨hd, rfl⟩
  · exact ⟨_, Db.getLabel_writeLabel_self, Or.inl ⟨fin, hd, rfl⟩⟩
  · exact ⟨_, Db.getLabel_writeLabel_self, Or.inr ⟨hd, rfl⟩⟩

theorem CallEffect.mirrors (h : CallEffect c db call db' c') (hm : Mirrors dataset db c) :
    Mirrors dataset db' c' := by
  have ho := hm.datasetId
  cases h with
  | idle => exact hm
  | inserted h => exact h.mirrors ho
  | applied _ h =>
    obtain ⟨label', hl', ⟨fin, hd, hf⟩ | ⟨⟨reason, hd⟩, -⟩⟩ := h.label_after
    · cases hd
      rw [ho] at hl'
      refine ⟨ho, ⟨label', hl', hf.symm⟩, ?_, hm.headSender, Watch.publish_value _ _,
        hm.firstChunkHead⟩
      rw [Db.getLastChunk_eq, h.chunks, ← Db.getLastChunk_eq]
      exact hm.head
    · cases hd
  | @ignored head report reason _ _ label head_eq h =>
    obtain ⟨label', hl', ⟨_, hd, -⟩ | ⟨-, hf⟩⟩ := h.label_after
    · cases hd
    · rw [ho] at hl'
      refine ⟨ho, ⟨label', hl', h.current.symm.trans hf.symm⟩, ?_, hm.headSender,
        hm.finalizedHeadSender, hm.firstChunkHead⟩
      rw [Db.getLastChunk_eq, h.chunks, ← Db.getLastChunk_eq]
      exact hm.head
  | retained _ _ _ h =>
    subst ho
    exact h.mirrors rfl

omit [TableFormat] in
theorem Mirrors.of_same (h : Mirrors dataset db c) (hs : SameData db db') :
    Mirrors dataset db' c := by
  obtain ⟨label, hl, hf⟩ := h.finalizedHead
  refine ⟨h.datasetId, ⟨label, hs.getLabel.trans hl, hf⟩, ?_, h.headSender,
    h.finalizedHeadSender, h.firstChunkHead⟩
  rw [h.head, Db.getLastChunk_eq, Db.getLastChunk_eq, hs.chunkSet]

def Mirrored (dataset : DatasetId) (w : Writer) : Prop :=
  ∀ c, w.controller = some c → Mirrors dataset w.node.db c

theorem Mirrored.step (h : Mirrored dataset w) (hok : Writer.KeepsDataset dataset w op)
    (hs : Writer.StepEffect dataset w op w') : Mirrored dataset w' := by
  intro c hc
  cases hs with
  | node _ effect controller =>
    rcases controller with hsm | hn
    · refine (h c (hsm ▸ hc)).datasetStep effect ?_
      rintro commit rfl
      exact hok.2 commit rfl
    · rw [hn] at hc
      cases hc
  | opened _ _ controller =>
    obtain ⟨_, ho⟩ := controller c hc
    exact opened_mirrors ho
  | dropped => cases hc
  | failed _ _ same =>
    exact (h c hc).of_same same
  | called controller effect =>
    cases hc
    exact effect.mirrors (h _ controller)

theorem reachable_mirrored
    (h : (Writer.machine dataset kind).Reachable (Writer.KeepsDataset dataset) w) :
    Mirrored dataset w := by
  refine h.invariant ?_ ?_
  · rintro w rfl c hc
    cases hc
  · intro w op w' _ hw hok hs
    exact hw.step hok (Writer.step_effect hok.1 hs)

omit [TableFormat] in
theorem succ_of_lt_max {n : Nat} (h : n < maxBlockNumber) : Wrapping.succ 64 n = n + 1 := by
  refine Wrapping.succ_of_lt ?_
  unfold maxBlockNumber at h
  omega

omit [TableFormat] in
/-- The subtractions of `trim_floor` are safe when the first chunk ends at or below the head and
there is a block number after the head. -/
theorem trimUnderflows_eq_false {maxBlocks : Nat}
    (h : ∀ first ∈ c.firstChunkHead, ∃ head ∈ c.head, first.number ≤ head.number)
    (hroom : ∀ head ∈ c.head, head.number < maxBlockNumber) :
    trimUnderflows (c.firstChunkHead.map BlockRef.number) c.nextBlock maxBlocks = false := by
  cases hf : c.firstChunkHead with
  | none => rfl
  | some first =>
    obtain ⟨head, hh, _⟩ := h first hf
    have hn : c.nextBlock = head.number + 1 := by
      rw [WriteController.nextBlock, Option.mem_def.mp hh]
      exact succ_of_lt_max (hroom head hh)
    simp only [trimUnderflows, Option.map_some, Option.any_some, Bool.or_eq_false_iff,
      Bool.and_eq_false_iff, decide_eq_false_iff_not]
    omega

/-- A failed call changes neither the stored chunks, the labels and the hash indexes, nor what the
controller holds and publishes. A successful one leaves the published head at the last stored chunk
and the published finalized head at the label's. The recorded head of the first chunk never exceeds
the head, whatever compaction did to the first chunk, so `trim_floor` does not underflow while the
head is below the greatest block number. -/
theorem call_atomic_and_mirrored
    (h : (Writer.machine dataset kind).Reachable (Writer.KeepsDataset dataset) w)
    (hc : w.controller = some c) (call : Call) :
    (∀ db' c' e, c.call w.node.db call = (db', c', .error e) →
      db'.chunks = w.node.db.chunks ∧ db'.datasets = w.node.db.datasets ∧
        db'.blockHashes = w.node.db.blockHashes ∧
        db'.transactionHashes = w.node.db.transactionHashes ∧ c' = c) ∧
    (∀ db' c', c.call w.node.db call = (db', c', .ok ()) →
      c'.headSender.value = (db'.getLastChunk dataset).map getChunkHead ∧
        ∃ label, db'.getLabel dataset = some label ∧
          c'.finalizedHeadSender.value = label.finalizedHead) ∧
    (∀ first ∈ c.firstChunkHead, ∃ head ∈ c.head, first.number ≤ head.number) ∧
    ((∀ head ∈ c.head, head.number < maxBlockNumber) → ∀ maxBlocks,
      trimUnderflows (c.firstChunkHead.map BlockRef.number) c.nextBlock maxBlocks = false) := by
  have hm := reachable_mirrored h c hc
  refine ⟨?_, ?_, hm.firstChunkHead, fun hroom _ => trimUnderflows_eq_false hm.firstChunkHead hroom⟩
  · intro db' c' e hcl
    obtain ⟨hs, hd⟩ := call_eq_error hcl
    exact ⟨hd.chunks, hd.datasets, hd.blockHashes, hd.transactionHashes, hs⟩
  · intro db' c' hcl
    have hm' := (call_eq_ok hcl).mirrors hm
    obtain ⟨label, hl, hf⟩ := hm'.finalizedHead
    exact ⟨hm'.headSender.trans hm'.head, label, hl, hm'.finalizedHeadSender.trans hf⟩

end Invariants

/-! ### Two chunks in a row -/

section Sample

local instance windowFormat : TableFormat := catalogFormat []

def lowChunk : Chunk := .v1 10 12 "0xc" "0x9" none none ∅ (by decide) (by decide)

def highChunk : Chunk := .v1 13 15 "0xf" "0xc" none none ∅ (by decide) (by decide)

def windowInputs : List WriterOp :=
  [.node .serve, .new ⟨none, 0⟩ ⟨none, 0⟩ (.ok ()),
    .call (.newChunk ⟨false, false⟩ (some ⟨100, "0x64"⟩) lowChunk (.ok ()) (.ok ())),
    .call (.newChunk ⟨false, false⟩ none highChunk (.ok ()) (.ok ()))]

theorem windowInputs_reachable {w : Writer}
    (h : (Writer.machine "main" "evm").run ⟨Node.start Db.empty [], none⟩ windowInputs = some w) :
    (Writer.machine "main" "evm").Reachable (Writer.KeepsDataset "main") w := by
  refine .run (.init rfl) (Machine.runOk_of_forall ?_ _) h
  intro op hop w
  simp only [windowInputs, mem_cons, not_mem_nil, or_false] at hop
  rcases hop with rfl | rfl | rfl | rfl <;> simp [Writer.KeepsDataset, Writer.SoleWriter]

theorem stored_chunks_tile_sample :
    ∃ w, (Writer.machine "main" "evm").run ⟨Node.start Db.empty [], none⟩ windowInputs = some w ∧
      w.node.db.listChunks "main" 0 none = [lowChunk, highChunk] ∧
      (w.node.db.listChunks "main" 0 none).IsChain fun prev next =>
        prev.lastBlock + 1 = next.firstBlock ∧ prev.lastBlockHash = next.parentBlockHash := by
  refine ⟨_, rfl, by decide +kernel, ?_⟩
  exact (stored_chunks_tile ((windowInputs_reachable rfl).mono fun _ _ hok => hok.1)).2

theorem call_atomic_and_mirrored_sample :
    ∃ w c, (Writer.machine "main" "evm").run ⟨Node.start Db.empty [], none⟩ windowInputs = some w ∧
      w.controller = some c ∧ c.firstChunkHead = some ⟨12, "0xc"⟩ ∧ c.head = some ⟨15, "0xf"⟩ ∧
      trimFloor (c.firstChunkHead.map BlockRef.number) c.nextBlock 2 = some 14 ∧
      trimUnderflows (c.firstChunkHead.map BlockRef.number) c.nextBlock 2 = false := by
  refine ⟨_, _, rfl, rfl, by decide +kernel, by decide +kernel, by decide +kernel, ?_⟩
  exact (call_atomic_and_mirrored (windowInputs_reachable rfl) rfl
    (.finalize ⟨12, "0xc"⟩ (.ok ()))).2.2.2 (by decide +kernel) 2

def topChunk : Chunk :=
  .v1 10 maxBlockNumber "0xff" "0x9" none none ∅ (by decide) (by decide)

/-- After a chunk that ends at the greatest block number the next block is 0. -/
theorem top_chunk_underflows :
    ∃ w c, (Writer.machine "main" "evm").run ⟨Node.start Db.empty [], none⟩
        [.node .serve, .new ⟨none, 0⟩ ⟨none, 0⟩ (.ok ()),
          .call (.newChunk ⟨false, false⟩ none topChunk (.ok ()) (.ok ()))] = some w ∧
      w.controller = some c ∧ w.node.db.listChunks "main" 0 none = [topChunk] ∧
      trimUnderflows (c.firstChunkHead.map BlockRef.number) c.nextBlock 2 = true :=
  ⟨_, _, rfl, rfl, by decide +kernel, by decide +kernel⟩

end Sample

end Hotblocks
