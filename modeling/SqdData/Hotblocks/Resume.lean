import SqdData.Hotblocks.Ledger
import SqdData.Hotblocks.Rollback

/-!
# Resuming after a fork

`compute_rollback` answers a fork with a position to resume from. A chunk that starts there, links
to what is below, reaches the finalized block and repeats the finalized ones passes every check of
`new_chunk`: the two functions agree on where a chunk may start.
-/

namespace Hotblocks

open List

open Storage

section Resume

variable [TableFormat] {dataset : DatasetId} {kind : DatasetKind} {db db' : Db} {chunk : Chunk}
  {w : Writer} {c : WriteController}

/-! ### When a fork goes through -/

/-- The hashes of the chunk can be read. -/
structure HashesReadable (db : Db) (chunk : Chunk) : Prop where
  blocks : ∃ rows, db.scanTable chunk "blocks" blockHashes = .ok rows
  transactions : ∃ rows, db.scanTable chunk "transactions" transactionHashes = .ok rows

theorem HashesReadable.of_tables (h : HashesReadable db chunk) (ht : db'.tables = db.tables) :
    HashesReadable db' chunk := by
  have hs : ∀ {ρ : Type} (name : String) (reader : Table → Except Error (List ρ)),
      db'.scanTable chunk name reader = db.scanTable chunk name reader :=
    scanTable_of_cells fun id _ => Db.cells_of_tables ht id
  constructor
  · rw [hs]
    exact h.blocks
  · rw [hs]
    exact h.transactions

theorem unindexHashes_ok (dataset : DatasetId) (h : HashesReadable db chunk) :
    ∃ db', db.unindexHashes dataset chunk = .ok db' := by
  obtain ⟨db₁, h₁⟩ : ∃ db₁, db.unindexBlockHashes dataset chunk = .ok db₁ := by
    obtain ⟨rows, hr⟩ := h.blocks
    unfold Db.unindexBlockHashes
    split
    · exact ⟨db, rfl⟩
    · exact ⟨_, bind_eq_ok.mpr ⟨rows, hr, rfl⟩⟩
  obtain ⟨db₂, h₂⟩ : ∃ db₂, db₁.unindexTransactionHashes dataset chunk = .ok db₂ := by
    have hs := Db.unindexBlockHashes_reindexed h₁
    obtain ⟨rows, hr⟩ := (h.of_tables hs.tables).transactions
    unfold Db.unindexTransactionHashes
    split
    · exact ⟨db₁, rfl⟩
    · exact ⟨_, bind_eq_ok.mpr ⟨rows, hr, rfl⟩⟩
  exact ⟨db₂, bind_eq_ok.mpr ⟨db₁, h₁, h₂⟩⟩

theorem removeChunk_ok (dataset : DatasetId) (h : HashesReadable db chunk) :
    ∃ db', db.removeChunk dataset chunk = .ok db' ∧ db'.tables = db.tables := by
  obtain ⟨db₁, h₁⟩ := unindexHashes_ok dataset h
  have hr : db.removeChunk dataset chunk = .ok (db₁.deleteChunk dataset chunk) :=
    bind_eq_ok.mpr ⟨db₁, h₁, rfl⟩
  exact ⟨_, hr, (Db.removeChunk_removed hr).tables⟩

/-- The loop of `insert_fork` ends well when it can read what it removes and meets a chunk that the
new one links to, or none. -/
theorem dropForked_ok (dataset : DatasetId) {removed kept : List Chunk}
    (hrd : ∀ g ∈ removed, HashesReadable db g) (hr : ∀ g ∈ removed, chunk.firstBlock ≤ g.firstBlock)
    (hk : ∀ g ∈ kept.head?, g.lastBlock + 1 = chunk.firstBlock ∧
      g.lastBlockHash = chunk.parentBlockHash) :
    ∃ db', Db.dropForked dataset chunk (removed ++ kept) db = .ok db' ∧ db'.tables = db.tables ∧
      db'.datasets = db.datasets := by
  induction removed generalizing db with
  | nil =>
    refine ⟨db, ?_, rfl, rfl⟩
    cases kept with
    | nil => rfl
    | cons g =>
      obtain ⟨hn, hh⟩ := hk g rfl
      have hlast := g.first_le_last
      have hb : ¬ chunk.firstBlock ≤ g.firstBlock := by omega
      simp only [nil_append, Db.dropForked, hb, hn]
      exact bind_eq_ok.mpr ⟨(), by simpa using hh, rfl⟩
  | cons g _ ih =>
    obtain ⟨db₁, h₁, ht⟩ := removeChunk_ok dataset (hrd g mem_cons_self)
    have hdt := (Db.removeChunk_removed h₁).datasets
    obtain ⟨db', h', ht', hdt'⟩ := ih (fun d hd => (hrd d (mem_cons_of_mem g hd)).of_tables ht)
      fun d hd => hr d (mem_cons_of_mem g hd)
    refine ⟨db', ?_, ht'.trans ht, hdt'.trans hdt⟩
    simp only [cons_append, Db.dropForked, hr g mem_cons_self]
    exact bind_eq_ok.mpr ⟨db₁, h₁, h'⟩

theorem indexHashes_ok (flags : IndexFlags) (dataset : DatasetId) (h : HashesReadable db chunk) :
    ∃ db', db.indexHashes flags dataset chunk = .ok db' := by
  obtain ⟨db₁, h₁, ht⟩ : ∃ db₁,
      (if flags.blockHashIndex then db.indexBlockHashes dataset chunk else .ok db) = .ok db₁ ∧
        db₁.tables = db.tables := by
    obtain ⟨rows, hr⟩ := h.blocks
    split
    · exact ⟨_, bind_eq_ok.mpr ⟨rows, hr, rfl⟩, rfl⟩
    · exact ⟨db, rfl, rfl⟩
  obtain ⟨db₂, h₂⟩ : ∃ db₂, (if flags.transactionHashIndex then
      db₁.indexTransactionHashes dataset chunk else .ok db₁) = .ok db₂ := by
    obtain ⟨rows, hr⟩ := (h.of_tables ht).transactions
    split
    · exact ⟨_, bind_eq_ok.mpr ⟨rows, hr, rfl⟩⟩
    · exact ⟨db₁, rfl⟩
  unfold Db.indexHashes
  split
  · exact ⟨db, rfl⟩
  · split
    · exact ⟨db, rfl⟩
    · split
      · exact ⟨db, rfl⟩
      · exact ⟨db₂, bind_eq_ok.mpr ⟨db₁, h₁, h₂⟩⟩

theorem insertFork_ok (flags : IndexFlags) {kept dropped : List Chunk}
    (hs : (db.chunkSet dataset).toList = kept ++ dropped)
    (hr : ∀ g ∈ db.chunkSet dataset, HashesReadable db g) (hc : HashesReadable db chunk)
    (ha : ∀ d ∈ dropped, chunk.firstBlock ≤ d.firstBlock)
    (hln : ∀ g ∈ kept.getLast?, chunkSegments.Follows g chunk) :
    ∃ db', db.insertFork flags dataset chunk = .ok db' := by
  have hl : db.listChunksReversed dataset 0 none = dropped.reverse ++ kept.reverse := by
    rw [Db.listChunksReversed_all, hs, reverse_append]
  have hr' : ∀ g ∈ dropped.reverse, HashesReadable db g := by
    intro g hg
    refine hr g ?_
    change g ∈ (db.chunkSet dataset).toList
    rw [hs]
    exact mem_append_right _ (mem_reverse.mp hg)
  have he : ∀ g ∈ kept.reverse.head?, g.lastBlock + 1 = chunk.firstBlock ∧
      g.lastBlockHash = chunk.parentBlockHash := by
    rw [head?_reverse]
    exact hln
  obtain ⟨db₁, h₁, ht, -⟩ := dropForked_ok dataset hr' (fun d hd => ha d (mem_reverse.mp hd)) he
  have hw : HashesReadable (db₁.writeChunk dataset chunk) chunk := hc.of_tables ht
  obtain ⟨db', h'⟩ := indexHashes_ok flags dataset hw
  refine ⟨db', bind_eq_ok.mpr ⟨db₁, ?_, h'⟩⟩
  rw [hl]
  exact h₁

/-! ### Where a rollback resumes -/

/-- A position at which a chunk can be put: right after a stored chunk, with the hash to link to, or
at the start of the window. -/
inductive ResumePoint (db : Db) (dataset : DatasetId) (floor : Nat) :
    Nat → Option Hash → Prop where
  | after (g : Chunk) (stored : g ∈ db.chunkSet dataset) :
      ResumePoint db dataset floor (g.lastBlock + 1) (some g.lastBlockHash)
  | start (hash : Option Hash) :
      ResumePoint db dataset floor (windowStart db dataset floor) hash

/-- No hint is the head of a stored chunk that ends at the greatest block number. -/
def HintsLeaveRoom (db : Db) (dataset : DatasetId) (hints : List BlockRef) : Prop :=
  ∀ b ∈ hints, b.number ≤ maxBlockNumber ∧
    ∀ g ∈ db.chunkSet dataset, getChunkHead g = b → g.lastBlock ≠ maxBlockNumber

omit [TableFormat] in
theorem resumePoint_cases {hints : List BlockRef} (hne : hints ≠ [])
    (has : hints.Pairwise fun a b => a.number < b.number)
    (hroom : HintsLeaveRoom db c.datasetId hints) :
    ResumePoint db c.datasetId c.firstBlock (c.resumePoint db hints).1
      (c.resumePoint db hints).2 := by
  have hw : c.ResumesAt db hints (c.resumePoint db hints).1 (c.resumePoint db hints).2 :=
    WriteController.resumePoint_resumesAt hne has
  by_cases hr : ∃ g, WriteController.Resumable db c.datasetId hints g
  · have hfin : {g | WriteController.Resumable db c.datasetId hints g}.Finite :=
      (finite_toSet (db.chunkSet c.datasetId).toList).subset fun g hg => hg.stored
    obtain ⟨g, hg, hmax⟩ := Set.exists_max_image _ Chunk.lastBlock hfin hr
    obtain ⟨hf, hp⟩ := hw.after g hg hmax
    have hlt : g.lastBlock < maxBlockNumber := hg.agrees.lt_max hne (fun b hb => (hroom b hb).1)
      fun hm => (hroom _ hm).2 g hg.stored rfl
    rw [hf, hp, succ_of_lt_max hlt]
    exact .after g hg.stored
  · have hn : ∀ g, ¬ WriteController.Resumable db c.datasetId hints g := fun g hg => hr ⟨g, hg⟩
    have hs : ∀ hash, ResumePoint db c.datasetId c.firstBlock
        (windowStart db c.datasetId c.firstBlock) hash := .start
    rw [windowStart_eq] at hs
    cases hc : (db.chunkSet c.datasetId).toList with
    | nil =>
      obtain ⟨hf, hp⟩ := hw.own fun g hg => by
        have hm : g ∈ (db.chunkSet c.datasetId).toList := hg
        rw [hc] at hm
        cases hm
      rw [hf, hp]
      rw [hc] at hs
      exact hs _
    | cons first rest =>
      obtain ⟨hf, hp⟩ := hw.start hn first (by rw [Db.getFirstChunk_eq, hc]; rfl)
      rw [hf, hp]
      rw [hc] at hs
      exact hs _

omit [TableFormat] in
/-- What `compute_rollback` answers. -/
theorem computeRollback_eq_ok {prev : List BlockRef} {rollback : Rollback}
    (h : c.computeRollback db prev = .ok rollback) (hroom : HintsLeaveRoom db c.datasetId prev) :
    ∃ label, db.getLabel c.datasetId = some label ∧
      ResumePoint db c.datasetId c.firstBlock rollback.resumeFrom rollback.expectedParentHash ∧
      ∀ fin ∈ label.finalizedHead, rollback.resumeFrom ≤ fin.number →
        rollback.reachAtLeast = some fin.number := by
  obtain ⟨_, hne, h'⟩ := bind_eq_ok.mp h
  obtain ⟨_, has, -⟩ := bind_eq_ok.mp h'
  have hne : prev ≠ [] := by simpa using hne
  have has := isAscending_iff.mp (show isAscending prev = true by simpa using has)
  cases hl : db.getLabel c.datasetId with
  | none =>
    obtain ⟨_, -, h'⟩ := bind_eq_ok.mp h'
    rw [hl] at h'
    cases h'
  | some label =>
    rw [WriteController.computeRollback_eq hl hne has] at h
    rcases @hintsAboveFinalized_cases prev label.finalizedHead has with
      ⟨hok, hnc⟩ | ⟨⟨e, her⟩, -⟩
    · rw [hok] at h
      cases h
      refine ⟨label, rfl, resumePoint_cases (hintsFrom_ne_nil hne hnc) (has.filter _)
        fun b hb => hroom b (mem_filter.mp hb).1, ?_⟩
      intro fin hf hle
      simp only [Option.mem_def.mp hf] at hle ⊢
      simpa [Option.filter] using hle
    · rw [her] at h
      cases h

omit [TableFormat] in
/-- A chunk at a resume point splits the stored chunks into those it follows and those it
replaces. -/
theorem ResumePoint.split {floor : Nat} {resumeFrom : Nat} {expected : Option Hash}
    (h : ResumePoint db dataset floor resumeFrom expected)
    (ht : chunkSegments.Tiles (db.chunkSet dataset).toList) (hf : chunk.firstBlock = resumeFrom)
    (hp : ∀ hash ∈ expected, chunk.parentBlockHash = hash) :
    ∃ kept dropped, (db.chunkSet dataset).toList = kept ++ dropped ∧
      (∀ d ∈ dropped, chunk.firstBlock ≤ d.firstBlock) ∧
      (∀ g ∈ kept.getLast?, chunkSegments.Follows g chunk) := by
  cases h with
  | after g stored =>
    obtain ⟨pre, post, hs⟩ := append_of_mem (show g ∈ (db.chunkSet dataset).toList from stored)
    refine ⟨pre ++ [g], post, by rw [hs]; simp, ?_, ?_⟩
    · intro d hd
      rw [hs] at ht
      have hlt : g.lastBlock < d.firstBlock := rel_of_pairwise_cons ht.of_append_right.pairwise hd
      omega
    · intro k hk
      obtain rfl : g = k := by simpa using hk
      exact ⟨hf.symm, (hp _ rfl).symm⟩
  | start =>
    refine ⟨[], (db.chunkSet dataset).toList, rfl, ?_, by simp⟩
    intro d hd
    rw [hf, windowStart_eq]
    have hne : (db.chunkSet dataset).toList ≠ [] := ne_nil_of_mem hd
    rw [head?_eq_some_head hne]
    exact ht.apart.head_le hne hd

omit [TableFormat] in
/-- A chunk that follows what is kept of the window passes the checks on its position. -/
theorem checkPosition_of_split {floor : Nat} {kept dropped : List Chunk}
    (hs : (db.chunkSet dataset).toList = kept ++ dropped)
    (ht : chunkSegments.Tiles (kept ++ dropped))
    (ha : ∀ d ∈ dropped, chunk.firstBlock ≤ d.firstBlock)
    (hl : ∀ g ∈ kept.getLast?, chunkSegments.Follows g chunk)
    (hst : windowStart db dataset floor ≤ chunk.firstBlock) :
    checkPosition db dataset floor chunk = .ok () := by
  refine checkPosition_eq_ok.mpr ⟨hst, ?_⟩
  intro existing he
  obtain ⟨hm, _, hh⟩ := listChunks_head_covers he
  have hsk : existing ∈ (db.chunkSet dataset).seek chunk.firstBlock :=
    mem_filter.mpr ⟨hm, by simpa using hh⟩
  rw [seek_of_split hs ht ha hl] at hsk
  have hf := ha existing hsk
  omega

omit [TableFormat] in
theorem ResumePoint.windowStart_le {floor : Nat} {resumeFrom : Nat} {expected : Option Hash}
    (h : ResumePoint db dataset floor resumeFrom expected)
    (ht : chunkSegments.Tiles (db.chunkSet dataset).toList) :
    windowStart db dataset floor ≤ resumeFrom := by
  cases h with
  | after g stored =>
    rw [windowStart_eq]
    have hne : (db.chunkSet dataset).toList ≠ [] := ne_nil_of_mem stored
    rw [head?_eq_some_head hne]
    have hle : ((db.chunkSet dataset).toList.head hne).firstBlock ≤ g.firstBlock :=
      ht.apart.head_le hne stored
    have hlast := g.first_le_last
    simp only [Option.map_some, Option.getD_some]
    omega
  | start => exact le_rfl

/-! ### The chunk that answers a rollback -/

/-- A chunk that ingestion can hand over: its blocks are well formed and its transactions can be
read. -/
def Ingestible (db : Db) (chunk : Chunk) : Prop :=
  blockRows.Held db chunk ∧ transactionRows.Held db chunk

instance (db : Db) (chunk : Chunk) : Decidable (Ingestible db chunk) :=
  inferInstanceAs (Decidable (blockRows.Held db chunk ∧ transactionRows.Held db chunk))

theorem Ingestible.readable (h : Ingestible db chunk) : HashesReadable db chunk := by
  obtain ⟨rows, hr, -⟩ := h.1.rows
  obtain ⟨rows', hr', -⟩ := h.2.rows
  exact ⟨⟨rows, hr⟩, ⟨rows', hr'⟩⟩

theorem reachable_ingestible
    (h : (Writer.machine dataset kind).Reachable (Writer.Fed Ingestible dataset) w) :
    ∀ g ∈ w.node.db.chunkSet dataset, Ingestible w.node.db g := by
  intro g hg
  have hn := Writer.reachable_node h
  constructor
  · refine reachable_held (hn.mono fun _ _ hok => ?_) dataset g hg
    exact hok.mono fun _ _ hf => hf.1
  · refine reachable_held (hn.mono fun _ _ hok => ?_) dataset g hg
    exact hok.mono fun _ _ hf => hf.2

omit [TableFormat] in
/-- The answer depends on the chunks and the label only. -/
theorem computeRollback_congr (hc : db'.chunks = db.chunks)
    (hd : db'.datasets = db.datasets) (c : WriteController) (prev : List BlockRef) :
    c.computeRollback db' prev = c.computeRollback db prev := by
  unfold WriteController.computeRollback WriteController.resumePoint Db.getLabel Db.getFirstChunk
    Db.listChunks Db.listChunksReversed
  rw [hc, hd]

/-- A chunk that starts where `compute_rollback` says, with the parent it asks for, that reaches as
far as it asks for and repeats the stored blocks up to the finalized one, is accepted, unless the
hints lead to a chunk with no block number after it. Between the answer and the chunk only tables
may have been written. -/
theorem fork_resolution_never_wedges {db₀ : Db} {prev : List BlockRef} {rollback : Rollback}
    {blocks rows : List (Nat × Hash)} (flags : IndexFlags) (abandon : Except Error Unit)
    (h : (Writer.machine dataset kind).Reachable (Writer.Fed Ingestible dataset) w)
    (hc : w.controller = some c) (hchunks : w.node.db.chunks = db₀.chunks)
    (hdatasets : w.node.db.datasets = db₀.datasets)
    (hroom : HintsLeaveRoom db₀ dataset prev)
    (hrollback : c.computeRollback db₀ prev = .ok rollback)
    (hchunk : Ingestible w.node.db chunk) (hfirst : chunk.firstBlock = rollback.resumeFrom)
    (hparent : ∀ hash ∈ rollback.expectedParentHash, chunk.parentBlockHash = hash)
    (hreach : ∀ n ∈ rollback.reachAtLeast, n ≤ chunk.lastBlock)
    (hblocks : w.node.db.scanDataset dataset "blocks" blockHashes = .ok blocks)
    (hrows : w.node.db.scanTable chunk "blocks" blockHashes = .ok rows)
    (hrepeats : ∀ label fin, w.node.db.getLabel dataset = some label →
      label.finalizedHead = some fin → rows.filter (fun b => b.1 ≤ fin.number) =
        blocks.filter fun b => chunk.firstBlock ≤ b.1 && b.1 ≤ fin.number) :
    ∃ db' c', c.newChunk w.node.db flags none chunk (.ok ()) abandon = (db', c', .ok ()) := by
  have ht := reachable_tiled (h.mono fun _ _ hok => hok.1.1)
  obtain rfl := ht.own c hc
  have hhl := reachable_ingestible h
  rw [← computeRollback_congr hchunks hdatasets] at hrollback
  have hroom' : HintsLeaveRoom w.node.db c.datasetId prev := by
    unfold HintsLeaveRoom Db.chunkSet at hroom ⊢
    rwa [hchunks]
  obtain ⟨label, hl, hp, hr⟩ := computeRollback_eq_ok hrollback hroom'
  obtain ⟨kept, dropped, hs, ha, hln⟩ := hp.split ht.chunks hfirst hparent
  have hst := hfirst ▸ hp.windowStart_le ht.chunks
  have htl := hs ▸ ht.chunks
  have hps := checkPosition_of_split hs htl ha hln hst
  obtain ⟨forked, hf⟩ := insertFork_ok flags hs
    (fun g hg => (hhl g hg).readable) hchunk.readable ha hln
  have hal := blocksOf_of_scan (fun g hg => (hhl g hg).1) hblocks
  have hh : checkFinalizedHistory w.node.db c.datasetId label.finalizedHead chunk = .ok () := by
    refine checkFinalizedHistory_eq_ok.mpr fun fin hfn hle => ⟨?_, ?_⟩
    · exact hreach fin.number (hr fin hfn (hfirst ▸ hle))
    · obtain ⟨_, htb, hrd⟩ := blocksTable_of_scan hrows (by
        obtain ⟨rows', hr', hft⟩ := hchunk.1.rows
        cases hrows.symm.trans hr'
        exact blocksFit_ne_nil hft)
      obtain ⟨_, hch, he⟩ :=
        hal.validatePrefix ht.chunks.apart htb hrd fin.number
      rw [hch, he.mpr (hrepeats label fin hl hfn)]
  have htx : newChunkTx w.node.db c flags none chunk (.ok ()) =
      .ok (_, (label.finalizedHead, none)) :=
    newChunkTx_eq_ok.mpr ⟨rfl, label, forked, hl, hps, hh, rfl, hf, rfl⟩
  unfold WriteController.newChunk
  rw [htx]
  exact ⟨_, _, rfl⟩

end Resume

/-! ### A hint that contradicts the stored head -/

section Sample

local instance resumeFormat : TableFormat :=
  catalogFormat [([[1]], sparseBlocks), ([[2]], forkBlocks)]

/-- Blocks 10, 12 and 20 are stored, 12 is final, and the table of the fork is built. -/
def resumeInputs : List WriterOp :=
  sparseInputs ++ [.node (.openTable 8), .node (.finishTable 8 [(.schema, [2])]),
    .node (.closeTable 8)]

def beforeResume : Option Writer :=
  (Writer.machine "main" "evm").run ⟨Node.start Db.empty [], none⟩ resumeInputs

theorem hints_leave_room {w : Writer} (hw : beforeResume = some w) :
    HintsLeaveRoom w.node.db "main" [⟨20, "0xff"⟩] := by
  have hr : ∀ w ∈ beforeResume, ∀ g ∈ (w.node.db.chunkSet "main").toList,
      g.lastBlock ≠ maxBlockNumber := by
    decide +kernel
  intro b hb
  obtain rfl := mem_singleton.mp hb
  exact ⟨by decide, fun g hg _ => hr w hw g hg⟩

theorem fork_resolution_never_wedges_sample :
    ∃ w c rollback db' c', beforeResume = some w ∧ w.controller = some c ∧
      c.computeRollback w.node.db [⟨20, "0xff"⟩] = .ok rollback ∧
      rollback = ⟨10, some "0x9", some 12⟩ ∧
      c.newChunk w.node.db ⟨true, true⟩ none forkChunk (.ok ()) (.ok ()) = (db', c', .ok ()) := by
  obtain ⟨w, hw⟩ : ∃ w, beforeResume = some w := ⟨_, rfl⟩
  have hrc : (Writer.machine "main" "evm").Reachable (Writer.Fed Ingestible "main") w :=
    .run (.init rfl) (by decide +kernel : (Writer.machine "main" "evm").RunOk _ _ resumeInputs) hw
  have hr : (beforeResume.bind fun w => w.controller.map fun c =>
      c.computeRollback w.node.db [⟨20, "0xff"⟩]) = some (.ok ⟨10, some "0x9", some 12⟩) := by
    decide +kernel
  have hb : (beforeResume.map fun w => w.node.db.scanDataset "main" "blocks" blockHashes) =
      some (.ok [(10, "0xa"), (12, "0xc"), (20, "0x14")]) := by
    decide +kernel
  have hrw : (beforeResume.map fun w => w.node.db.scanTable forkChunk "blocks" blockHashes) =
      some (.ok [(10, "0xa"), (12, "0xc"), (21, "0x15")]) := by
    decide +kernel
  have hf : (beforeResume.map fun w => (w.node.db.getLabel "main").bind
      DatasetLabel.finalizedHead) = some (some ⟨12, "0xc"⟩) := by
    decide +kernel
  have hfd : ∀ w ∈ beforeResume, Ingestible w.node.db forkChunk := by
    decide +kernel
  rw [hw] at hr hb hrw hf
  simp only [Option.bind_some, Option.map_some, Option.some.injEq, Option.map_eq_some_iff]
    at hr hb hrw hf
  obtain ⟨c, hc, hr⟩ := hr
  have hrp : ∀ label fin, w.node.db.getLabel "main" = some label →
      label.finalizedHead = some fin →
      [(10, "0xa"), (12, "0xc"), (21, "0x15")].filter (fun b => b.1 ≤ fin.number) =
        [(10, "0xa"), (12, "0xc"), (20, "0x14")].filter fun b =>
          forkChunk.firstBlock ≤ b.1 && b.1 ≤ fin.number := by
    intro label fin hl hfn
    rw [hl, Option.bind_some, hfn] at hf
    cases hf
    decide
  obtain ⟨db', c', ha⟩ := fork_resolution_never_wedges ⟨true, true⟩ (.ok ()) hrc hc rfl
    rfl (hints_leave_room hw) hr (hfd w hw) rfl (by rintro hash ⟨⟩; rfl) (by decide) hb hrw
    hrp
  exact ⟨w, c, _, db', c', hw, hc, hr, rfl, ha⟩

/-- Blocks up to the greatest number. -/
def topBlocks : Table := tableOfBlocks [(10, "0xa"), (2 ^ 64 - 1, "0xff")]

def zeroBlocks : Table := tableOfBlocks [(0, "0x0")]

local instance topFormat : TableFormat :=
  catalogFormat [([[1]], topBlocks), ([[2]], zeroBlocks)]

theorem topBlocksChunk_ordered : 10 ≤ maxBlockNumber := by decide

theorem maxBlockNumber_bounded : maxBlockNumber ≤ maxBlockNumber := le_rfl

def topBlocksChunk : Chunk :=
  blocksChunk 10 maxBlockNumber "0xff" "0x9" 7 topBlocksChunk_ordered maxBlockNumber_bounded

theorem zeroChunk_ordered : 0 ≤ 0 := le_rfl

theorem zeroChunk_bounded : 0 ≤ maxBlockNumber := Nat.zero_le _

def zeroChunk : Chunk := blocksChunk 0 0 "0x0" "0xff" 8 zeroChunk_ordered zeroChunk_bounded

def topInputs : List WriterOp :=
  [.node .serve, .node (.openTable 7), .node (.finishTable 7 [(.schema, [1])]),
    .node (.closeTable 7), .new ⟨none, 0⟩ ⟨none, 0⟩ (.ok ()),
    .call (.newChunk ⟨false, false⟩ none topBlocksChunk (.ok ()) (.ok ())),
    .node (.openTable 8), .node (.finishTable 8 [(.schema, [2])]), .node (.closeTable 8)]

/-- A hint at the greatest block number sends the writer to block 0, where no chunk is accepted. -/
theorem top_hint_wedges :
    ∃ w c, (Writer.machine "main" "evm").run ⟨Node.start Db.empty [], none⟩ topInputs = some w ∧
      (Writer.machine "main" "evm").RunOk (Writer.Fed Ingestible "main")
        ⟨Node.start Db.empty [], none⟩ topInputs ∧
      w.controller = some c ∧ Ingestible w.node.db zeroChunk ∧
      c.computeRollback w.node.db [⟨2 ^ 64 - 1, "0xff"⟩] = .ok ⟨0, some "0xff", none⟩ ∧
      (c.newChunk w.node.db ⟨false, false⟩ none zeroChunk (.ok ()) (.ok ())).2.2 =
        .error (unapplicableFork .belowRetainedWindow "chunk 0-0 starts below window start 10") :=
  ⟨_, _, rfl, by decide +kernel, rfl, by decide +kernel, by decide +kernel, by decide +kernel⟩

end Sample

end Hotblocks
