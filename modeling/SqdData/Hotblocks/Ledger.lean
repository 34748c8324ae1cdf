import SqdData.FinalLog
import SqdData.Hotblocks.Simulation
import SqdData.Hotblocks.Watermark
import SqdData.Storage.ChunkListing
import SqdData.Storage.FinalizedPrefix

/-!
# The ledger of a dataset

The blocks behind the stored chunks, in order, and the finalized head of the label form a log with
a final part. Calls of the controller, compactions and everything else the node does make this log
advance: what is final stays, and finality does not move back. Retention is the exception. It cuts
the log from below, and may take the finalized head with it.
-/

namespace Hotblocks

open List

open Storage

variable {fresh : List (Nat × Hash)} {dropped kept : List Chunk}

section Blocks

variable [TableFormat] {db db' : Db} {dataset : DatasetId} {chunk : Chunk}
  {chunks front back : List Chunk} {rows rows' : List (Nat × Hash)}

/-- The rows of the `blocks` tables of a list of chunks, one chunk after the other. -/
def BlocksOf (db : Db) (chunks : List Chunk) (rows : List (Nat × Hash)) : Prop :=
  ∃ rowss, List.Forall₂ (fun chunk part =>
    db.scanTable chunk "blocks" blockHashes = .ok part ∧ BlocksFit chunk part) chunks rowss ∧
    rows = rowss.flatten

theorem blocksOf_of_held (h : ∀ chunk ∈ chunks, blockRows.Held db chunk) :
    ∃ rows, BlocksOf db chunks rows := by
  obtain ⟨rowss, hr⟩ := exists_forall₂ fun chunk hc => (h chunk hc).rows
  exact ⟨rowss.flatten, rowss, hr, rfl⟩

theorem BlocksOf.append (h : BlocksOf db front rows) (h' : BlocksOf db back rows') :
    BlocksOf db (front ++ back) (rows ++ rows') := by
  obtain ⟨rowss, hr, rfl⟩ := h
  obtain ⟨rowss', hr', rfl⟩ := h'
  exact ⟨rowss ++ rowss', rel_append hr hr', by simp⟩

theorem BlocksOf.of_tables (h : BlocksOf db chunks rows) (ht : db'.tables = db.tables) :
    BlocksOf db' chunks rows := by
  obtain ⟨rowss, hr, rfl⟩ := h
  refine ⟨rowss, hr.imp fun g part hp => ⟨?_, hp.2⟩, rfl⟩
  rw [scanTable_of_cells fun id _ => Db.cells_of_tables ht id]
  exact hp.1

theorem BlocksOf.scan (h : BlocksOf db (db.chunkSet dataset).toList rows) :
    db.scanDataset dataset "blocks" blockHashes = .ok rows := by
  obtain ⟨rowss, hr, rfl⟩ := h
  have hm := mapM_eq_ok.mpr (hr.imp fun _ _ hp => hp.1)
  unfold Db.scanDataset
  rw [Db.listChunks_all]
  exact bind_eq_ok.mpr ⟨rowss, hm, rfl⟩

theorem blocksOf_of_scan (hh : ∀ chunk ∈ db.chunkSet dataset, blockRows.Held db chunk)
    (h : db.scanDataset dataset "blocks" blockHashes = .ok rows) :
    BlocksOf db (db.chunkSet dataset).toList rows := by
  obtain ⟨rows', hr'⟩ : ∃ rows', BlocksOf db (db.chunkSet dataset).toList rows' :=
    blocksOf_of_held hh
  cases hr'.scan.symm.trans h
  exact hr'

/-- A row belongs to a chunk that covers its height. -/
theorem BlocksOf.owner (h : BlocksOf db chunks rows) {row : Nat × Hash} (hrw : row ∈ rows) :
    ∃ chunk ∈ chunks, ∃ part, db.scanTable chunk "blocks" blockHashes = .ok part ∧
      row ∈ part ∧ chunk.firstBlock ≤ row.1 ∧ row.1 ≤ chunk.lastBlock := by
  obtain ⟨_, hr, rfl⟩ := h
  obtain ⟨part, hp, hm⟩ := mem_flatten.mp hrw
  obtain ⟨g, hg, hs, hf⟩ := forall₂_right hr part hp
  obtain ⟨hl, hh⟩ := hf.within row hm
  exact ⟨g, hg, part, hs, hm, hl, hh⟩

theorem BlocksOf.mem (h : BlocksOf db chunks rows) (hc : chunk ∈ chunks)
    {part : List (Nat × Hash)} (hs : db.scanTable chunk "blocks" blockHashes = .ok part)
    {row : Nat × Hash} (hrw : row ∈ part) : row ∈ rows := by
  obtain ⟨_, hr, rfl⟩ := h
  obtain ⟨part', hp', hs', -⟩ := forall₂_left hr chunk hc
  cases hs.symm.trans hs'
  exact mem_flatten.mpr ⟨part, hp', hrw⟩

/-- The head of a chunk is one of its blocks. -/
theorem BlocksOf.head_mem (h : BlocksOf db chunks rows) (hc : chunk ∈ chunks) :
    (chunk.lastBlock, chunk.lastBlockHash) ∈ rows := by
  obtain ⟨rowss, hr, hrw⟩ := h
  obtain ⟨part, -, hs, hf⟩ := forall₂_left hr chunk hc
  exact BlocksOf.mem ⟨rowss, hr, hrw⟩ hc hs (mem_of_getLast? hf.last)

/-- A chunk with rows has a readable `blocks` table. -/
theorem blocksTable_of_scan (h : db.scanTable chunk "blocks" blockHashes = .ok rows)
    (hne : rows ≠ []) :
    ∃ table, db.blocksTable chunk = .ok table ∧ blockHashes table = .ok rows := by
  unfold Db.scanTable at h
  unfold Db.blocksTable
  cases hid : chunk.tables.find? "blocks" with
  | none =>
    rw [hid] at h
    cases h
    exact absurd rfl hne
  | some =>
    rw [hid] at h
    exact bind_eq_ok.mp h

omit [TableFormat] in
theorem blocksFit_ne_nil (h : BlocksFit chunk rows) : rows ≠ [] := by
  rintro rfl
  cases h.last

/-- A lookup in a chunk is a lookup among its rows. -/
theorem findBlockHashInChunk_eq (h : db.scanTable chunk "blocks" blockHashes = .ok rows)
    (hne : rows ≠ []) (n : Nat) :
    db.findBlockHashInChunk chunk n = .ok ((rows.find? fun e => e.1 = n).map Prod.snd) := by
  obtain ⟨table, ht, hr⟩ := blocksTable_of_scan h hne
  exact bind_eq_ok.mpr ⟨table, ht, findBlockHash_of_blockHashes hr n⟩

variable {hash : Hash}

theorem mem_of_findBlockHashInChunk (h : db.scanTable chunk "blocks" blockHashes = .ok rows)
    (hne : rows ≠ []) {n : Nat} (hf : db.findBlockHashInChunk chunk n = .ok (some hash)) :
    (n, hash) ∈ rows := by
  rw [findBlockHashInChunk_eq h hne] at hf
  obtain ⟨row, hr, rfl⟩ := Option.map_eq_some_iff.mp (Except.ok.inj hf)
  have hn : row.1 = n := by simpa using find?_some hr
  rw [← hn]
  exact mem_of_find?_eq_some hr

/-- A block that a lookup finds in the store is one of the stored blocks, and belongs to a chunk
that covers it. -/
theorem BlocksOf.found (h : BlocksOf db (db.chunkSet dataset).toList rows) {n : Nat}
    (hf : db.findStoredBlockHash dataset n = .ok (some hash)) :
    ∃ chunk ∈ db.chunkSet dataset, ∃ part, db.scanTable chunk "blocks" blockHashes = .ok part ∧
      (n, hash) ∈ part ∧ chunk.firstBlock ≤ n ∧ n ≤ chunk.lastBlock := by
  obtain ⟨g, hg, hl, hh, hin⟩ := findStoredBlockHash_eq_some hf
  obtain ⟨rowss, hr, -⟩ := h
  obtain ⟨part, -, hs, hft⟩ := forall₂_left hr g hg
  exact ⟨g, hg, part, hs, mem_of_findBlockHashInChunk hs (blocksFit_ne_nil hft) hin, hl, hh⟩

omit [TableFormat] in
theorem find?_of_nodup (hn : (rows.map Prod.fst).Nodup) {n : Nat} (hm : (n, hash) ∈ rows) :
    rows.find? (fun e => e.1 = n) = some (n, hash) := by
  induction rows with
  | nil => cases hm
  | cons row _ ih =>
    rw [map_cons, nodup_cons] at hn
    rcases mem_cons.mp hm with rfl | hm
    · simp
    · have hne : row.1 ≠ n := by
        rintro rfl
        exact hn.1 (mem_map.mpr ⟨_, hm, rfl⟩)
      rw [find?_cons_of_neg (by simpa using hne)]
      exact ih hn.2 hm

/-- When no height is stored twice, a stored block is what a lookup at its height finds. -/
theorem BlocksOf.lookup (h : BlocksOf db (db.chunkSet dataset).toList rows)
    (ht : chunkSegments.Tiles (db.chunkSet dataset).toList)
    (hn : (rows.map Prod.fst).Nodup) {n : Nat} (hm : (n, hash) ∈ rows) :
    db.findStoredBlockHash dataset n = .ok (some hash) := by
  obtain ⟨g, hg, part, hs, hrw, hl, hh⟩ := h.owner hm
  have hp : (part.map Prod.fst).Nodup := by
    obtain ⟨_, hr, rfl⟩ := h
    obtain ⟨part', hsb, hs', -⟩ := forall₂_left hr g hg
    cases hs.symm.trans hs'
    exact ((sublist_flatten_of_mem hsb).map Prod.fst).nodup hn
  have hf := findBlockHashInChunk_eq hs (ne_nil_of_mem hrw) n
  rw [find?_of_nodup hp hrw] at hf
  unfold Db.findStoredBlockHash
  rw [listChunks_head_of_covers ht hg ⟨hl, hh⟩]
  exact hf

/-! ### What `validate_finalized_prefix` reads -/

/-- Reading the chunks in range finds the blocks in range. -/
theorem BlocksOf.reads (fromBlock upTo : Nat) (h : BlocksOf db chunks rows) :
    ∃ parts, List.Forall₂ (fun chunk part => db.readBlockHashes chunk fromBlock upTo = .ok part)
        (chunks.filter (inRange fromBlock (some upTo))) parts ∧
      parts.flatten = rows.filter fun row => fromBlock ≤ row.1 && row.1 ≤ upTo := by
  induction chunks generalizing rows with
  | nil =>
    obtain ⟨rowss, hr, rfl⟩ := h
    obtain rfl := forall₂_nil_left_iff.mp hr
    exact ⟨[], .nil, rfl⟩
  | cons g _ ih =>
    obtain ⟨_, hr, rfl⟩ := h
    obtain ⟨part, rowss', ⟨hs, hft⟩, hrs, rfl⟩ := forall₂_cons_left_iff.mp hr
    obtain ⟨parts, hp, hf⟩ := ih ⟨rowss', hrs, rfl⟩
    rw [flatten_cons, filter_append]
    by_cases hin : inRange fromBlock (some upTo) g = true
    · rw [filter_cons_of_pos hin]
      refine ⟨_, .cons ?_ hp, by rw [flatten_cons, hf]⟩
      obtain ⟨table, ht, hrw⟩ := blocksTable_of_scan hs (blocksFit_ne_nil hft)
      exact bind_eq_ok.mpr ⟨table, ht, bind_eq_ok.mpr ⟨part, hrw, rfl⟩⟩
    · rw [filter_cons_of_neg hin]
      have hn : part.filter (fun row => fromBlock ≤ row.1 && row.1 ≤ upTo) = [] := by
        refine filter_eq_nil_iff.mpr fun row hro hrn => ?_
        obtain ⟨_, _⟩ := hft.within row hro
        simp only [Bool.and_eq_true, decide_eq_true_eq] at hrn
        refine hin (inRange_iff.mpr ⟨by omega, fun stop hst => ?_⟩)
        cases hst
        omega
      exact ⟨parts, hp, by rw [hf, hn, nil_append]⟩

/-- The check compares the new blocks with the stored ones in the same range. -/
theorem BlocksOf.validatePrefix (h : BlocksOf db (db.chunkSet dataset).toList rows)
    (ha : db.Disjoint dataset) {table : Table} (ht : db.blocksTable chunk = .ok table)
    (hf : blockHashes table = .ok fresh) (upTo : Nat) :
    ∃ divergence, db.validateFinalizedPrefix dataset chunk upTo = .ok divergence ∧
      (divergence = none ↔ fresh.filter (fun row => row.1 ≤ upTo) =
        rows.filter fun row => chunk.firstBlock ≤ row.1 && row.1 ≤ upTo) := by
  obtain ⟨parts, hp, hfl⟩ := h.reads chunk.firstBlock upTo
  rw [← Db.listChunks_eq_filter ha] at hp
  rw [← hfl]
  exact Db.validateFinalizedPrefix_spec ht hf ⟨parts, hp, rfl⟩

/-- However the stored blocks are split into chunks, the check has an answer, and passes exactly if
the replacement repeats the stored blocks from its first block up to the bound. -/
theorem finalized_prefix_check_is_exact (htiles : chunkSegments.Tiles (db.chunkSet dataset).toList)
    {stored fresh : List (Nat × Hash)} (hstored : BlocksOf db (db.chunkSet dataset).toList stored)
    {table : Table} (htable : db.blocksTable chunk = .ok table)
    (hfresh : blockHashes table = .ok fresh) (upTo : Nat) :
    (∃ divergence, db.validateFinalizedPrefix dataset chunk upTo = .ok divergence) ∧
      (db.validateFinalizedPrefix dataset chunk upTo = .ok none ↔
        fresh.filter (fun row => row.1 ≤ upTo) =
          stored.filter fun row => chunk.firstBlock ≤ row.1 && row.1 ≤ upTo) := by
  obtain ⟨divergence, hc, he⟩ := hstored.validatePrefix htiles.apart htable hfresh upTo
  refine ⟨⟨divergence, hc⟩, ?_⟩
  rw [hc, ← he, Except.ok.injEq]

omit [TableFormat] in
/-- The chunks a fork drops are those that a scan from its first block finds. -/
theorem seek_of_split (hs : (db.chunkSet dataset).toList = kept ++ dropped)
    (ht : chunkSegments.Tiles (kept ++ dropped))
    (ha : ∀ d ∈ dropped, chunk.firstBlock ≤ d.firstBlock)
    (hl : ∀ g ∈ kept.getLast?, chunkSegments.Follows g chunk) :
    (db.chunkSet dataset).seek chunk.firstBlock = dropped := by
  have hb : ∀ g ∈ kept, ¬ chunk.firstBlock ≤ g.lastBlock := by
    intro g hg
    have hne : kept ≠ [] := ne_nil_of_mem hg
    have hle : g.lastBlock ≤ (kept.getLast hne).lastBlock :=
      ht.of_append_left.apart.le_getLast hne hg
    have he : (kept.getLast hne).lastBlock + 1 = chunk.firstBlock :=
      (hl _ (getLast?_eq_some_getLast hne)).1
    omega
  have hdr : ∀ d ∈ dropped, chunk.firstBlock ≤ d.lastBlock := by
    intro d hd
    have hf := ha d hd
    have hlast := d.first_le_last
    omega
  unfold Keyed.seek
  rw [hs, filter_append, filter_eq_nil_iff.mpr, filter_eq_self.mpr, nil_append]
  · simpa using hdr
  · simpa using hb

end Blocks

/-! ### The ledger under calls -/

section Ledger

variable [TableFormat] {dataset : DatasetId} {kind : DatasetKind} {db db' : Db}
  {c c' : WriteController} {call : Call} {w w' : Writer} {op : WriterOp} {label : DatasetLabel}
  {rows : List (Nat × Hash)} {l : FinalLog (Nat × Hash)}

omit [TableFormat] in
def blockOf (b : BlockRef) : Nat × Hash := (b.number, b.hash)

/-- The stored blocks of a dataset and its finalized head. -/
def ledger (db : Db) (dataset : DatasetId) : Except Error (FinalLog (Nat × Hash)) := do
  let blocks ← db.scanDataset dataset "blocks" blockHashes
  return ⟨blocks, ((db.getLabel dataset).bind DatasetLabel.finalizedHead).map blockOf⟩

/-- The ledger that a label and a list of blocks make. -/
abbrev ledgerOf (rows : List (Nat × Hash)) (final : Option BlockRef) : FinalLog (Nat × Hash) :=
  ⟨rows, final.map blockOf⟩

theorem ledger_of_blocks (h : BlocksOf db (db.chunkSet dataset).toList rows) :
    ledger db dataset =
      .ok (ledgerOf rows ((db.getLabel dataset).bind DatasetLabel.finalizedHead)) :=
  bind_eq_ok.mpr ⟨rows, h.scan, rfl⟩

/-- The blocks below a fork and those that it drops. -/
theorem BlocksOf.split {front back : List Chunk} (h : BlocksOf db (front ++ back) rows) :
    ∃ low high, rows = low ++ high ∧ BlocksOf db front low ∧ BlocksOf db back high := by
  obtain ⟨rowss, hr, rfl⟩ := h
  have hf := forall₂_take front.length hr
  have hb := forall₂_drop front.length hr
  rw [take_left] at hf
  rw [drop_left] at hb
  refine ⟨_, _, ?_, ⟨_, hf, rfl⟩, _, hb, rfl⟩
  rw [← flatten_append, take_append_drop]

/-- The guards of `new_chunk` make the new blocks repeat the final ones that they replace. -/
theorem NewChunkCommitted.repeats {flags : IndexFlags} {report : Option BlockRef} {chunk : Chunk}
    {update : FinalityUpdate} {forked : Db} {lost : List (Nat × Hash)}
    (h : NewChunkCommitted db c flags report chunk db' update label forked)
    (hs : (db.chunkSet c.datasetId).toList = kept ++ dropped)
    (ht : chunkSegments.Tiles (kept ++ dropped))
    (ha : ∀ d ∈ dropped, chunk.firstBlock ≤ d.firstBlock)
    (hln : ∀ g ∈ kept.getLast?, chunkSegments.Follows g chunk) (hls : BlocksOf db dropped lost)
    (hsc : db.scanTable chunk "blocks" blockHashes = .ok fresh) (hft : BlocksFit chunk fresh) :
    ∀ fin ∈ label.finalizedHead,
      FinalLog.upTo Prod.fst fin.number fresh = FinalLog.upTo Prod.fst fin.number lost := by
  intro fin hfn
  by_cases hle : chunk.firstBlock ≤ fin.number
  · obtain ⟨-, hvalid⟩ := checkFinalizedHistory_eq_ok.mp h.history fin hfn hle
    obtain ⟨table, htb, hr⟩ := blocksTable_of_scan hsc (blocksFit_ne_nil hft)
    obtain ⟨parts, hp, hfl⟩ := hls.reads chunk.firstBlock fin.number
    have hl : db.listChunks c.datasetId chunk.firstBlock (some fin.number) =
        dropped.filter (inRange chunk.firstBlock (some fin.number)) := by
      rw [Db.listChunks_eq, seek_of_split hs ht ha hln,
        takeWhile_inRange ht.of_append_right.apart fun d hd => (ha d hd).trans d.first_le_last]
    rw [← hl] at hp
    obtain ⟨_, hc, hex⟩ := Db.validateFinalizedPrefix_spec htb hr ⟨parts, hp, rfl⟩
    cases hc.symm.trans hvalid
    have he := hex.mp rfl
    rw [nil_append, hfl] at he
    refine he.trans (filter_congr fun row hrw => ?_)
    obtain ⟨d, hd, -, -, -, hlw, -⟩ := hls.owner hrw
    simp [(ha d hd).trans hlw]
  · -- Nothing the fork touches is final.
    have hf : ∀ row ∈ fresh, fin.number < row.1 := by
      intro row hrw
      have hlw := (hft.within row hrw).1
      omega
    have hold : ∀ row ∈ lost, fin.number < row.1 := by
      intro row hrw
      obtain ⟨d, hd, -, -, -, _, -⟩ := hls.owner hrw
      have hfr := ha d hd
      omega
    rw [FinalLog.upTo_eq_nil hf, FinalLog.upTo_eq_nil hold]

/-- An applied report names a block of the resulting chain. -/
theorem Applicable.mem {chunk : Chunk} {current : Option BlockRef} {floor : Nat} {head : BlockRef}
    {low : List (Nat × Hash)}
    (h : Applicable db dataset current (some chunk) floor (getChunkHead chunk) head)
    (hs : (db.chunkSet dataset).toList = kept ++ dropped)
    (ha : ∀ d ∈ dropped, chunk.firstBlock ≤ d.firstBlock) (hl : BlocksOf db kept low)
    (hal : BlocksOf db (db.chunkSet dataset).toList rows)
    (hsc : db.scanTable chunk "blocks" blockHashes = .ok fresh) (hf : BlocksFit chunk fresh) :
    blockOf head ∈ low ++ fresh := by
  rcases h.found with rfl | ⟨_, ho, -, -, hfn⟩ | ⟨hb, hfn⟩
  · exact mem_append_right _ (mem_of_getLast? hf.last)
  · cases ho
    have hin := mem_of_findBlockHashInChunk hsc (blocksFit_ne_nil hf) hfn
    exact mem_append_right _ hin
  · have hu := hb chunk rfl h.le_post
    obtain ⟨g, hg, _, hp, hm, _, -⟩ := hal.found hfn
    have hg' : g ∈ kept ++ dropped := hs ▸ hg
    rcases mem_append.mp hg' with hk | hd
    · exact mem_append_left _ (hl.mem hk hp hm)
    · have hf' := ha g hd
      omega

theorem NewChunkCommitted.ledger {flags : IndexFlags} {report : Option BlockRef} {chunk : Chunk}
    {update : FinalityUpdate} {forked : Db}
    (h : NewChunkCommitted db c flags report chunk db' update label forked)
    (ht : chunkSegments.Tiles (db.chunkSet c.datasetId).toList)
    (hb : BlocksOf db (db.chunkSet c.datasetId).toList rows)
    (hc : blockRows.Held db chunk) (hg : (ledgerOf rows label.finalizedHead).Grounded) :
    ∃ rows', BlocksOf db' (db'.chunkSet c.datasetId).toList rows' ∧
      (ledgerOf rows' update.1).Grounded ∧
      FinalLog.Advances Prod.fst (ledgerOf rows label.finalizedHead) (ledgerOf rows' update.1) := by
  obtain ⟨_, _, hs, hab, hl, haf⟩ := h.chunks
  obtain ⟨fresh, hsc, hft⟩ : ∃ fresh : List (Nat × Hash),
      db.scanTable chunk "blocks" blockHashes = .ok fresh ∧ BlocksFit chunk fresh := hc.rows
  have hb' := hb
  rw [hs] at hb ht
  obtain ⟨low, lost, rfl, hlw, hls⟩ := hb.split
  have htb : db'.tables = db.tables := by
    obtain ⟨_, _, hfr⟩ := Db.insertFork_forked h.fork
    rw [h.result]
    exact hfr.tables
  have hn : BlocksOf db' (db'.chunkSet c.datasetId).toList (low ++ fresh) := by
    rw [haf]
    refine (hlw.append ⟨[fresh], .cons ⟨hsc, hft⟩ .nil, ?_⟩).of_tables htb
    simp
  have hr : FinalLog.Advances Prod.fst (ledgerOf (low ++ lost) label.finalizedHead)
      (ledgerOf (low ++ fresh) label.finalizedHead) := by
    refine FinalLog.advances_of_rewrite fun f hf => ?_
    obtain ⟨fin, hfn, rfl⟩ := Option.map_eq_some_iff.mp hf
    exact h.repeats hs ht hab hl hls hsc hft fin hfn
  refine ⟨low ++ fresh, hn, ?_⟩
  rcases resolveReport_cases h.resolved with hsm | ⟨head, hh, ha⟩
  · rw [hsm]
    exact ⟨hg.advance hr (Or.inl rfl), hr⟩
  · have hm : blockOf head ∈ low ++ fresh := ha.mem hs hab hlw hb' hsc hft
    have had : FinalLog.Advances Prod.fst (ledgerOf (low ++ fresh) label.finalizedHead)
        (ledgerOf (low ++ fresh) update.1) := by
      refine FinalLog.advances_of_final (Or.inr fun f hf => ?_)
      obtain ⟨fin, hfn, rfl⟩ := Option.map_eq_some_iff.mp hf
      refine ⟨blockOf head, by rw [hh]; rfl, ha.advances fin hfn⟩
    have hbt := hr.trans had
    refine ⟨hg.advance hbt (Or.inr ⟨blockOf head, by rw [hh]; rfl, hm⟩), hbt⟩

theorem FinalizeCommitted.tables {head report : BlockRef} {decision : FinalityDecision}
    (h : FinalizeCommitted db c head report db' decision label) : db'.tables = db.tables := by
  rcases h.result with ⟨_, -, rfl⟩ | ⟨-, rfl⟩ <;> rfl

theorem FinalizeCommitted.ledger {head report : BlockRef} {decision : FinalityDecision}
    (h : FinalizeCommitted db c head report db' decision label)
    (hb : BlocksOf db (db.chunkSet c.datasetId).toList rows)
    (hg : (ledgerOf rows label.finalizedHead).Grounded) :
    ∃ label', db'.getLabel c.datasetId = some label' ∧
      BlocksOf db' (db'.chunkSet c.datasetId).toList rows ∧
      (ledgerOf rows label'.finalizedHead).Grounded ∧
      FinalLog.Advances Prod.fst (ledgerOf rows label.finalizedHead)
        (ledgerOf rows label'.finalizedHead) := by
  obtain ⟨label', hl', hc⟩ := h.label_after
  have hs : BlocksOf db' (db'.chunkSet c.datasetId).toList rows := by
    rw [h.chunks]
    exact hb.of_tables h.tables
  refine ⟨label', hl', hs, ?_⟩
  rcases hc with ⟨applied, rfl, hn⟩ | ⟨-, hold⟩
  · obtain ⟨post, ha⟩ := resolveFinality_applied h.resolved
    have hm : blockOf applied ∈ rows := by
      rcases ha.stored with ⟨last, hlast, rfl⟩ | hfn
      · exact hb.head_mem hlast
      · obtain ⟨_, hg, _, hpr, hin, -⟩ := hb.found hfn
        exact hb.mem hg hpr hin
    have had : FinalLog.Advances Prod.fst (ledgerOf rows label.finalizedHead)
        (ledgerOf rows label'.finalizedHead) := by
      refine FinalLog.advances_of_final (Or.inr fun f hf => ?_)
      obtain ⟨fin, hfi, rfl⟩ := Option.map_eq_some_iff.mp hf
      exact ⟨blockOf applied, by rw [hn]; rfl, ha.advances fin hfi⟩
    exact ⟨hg.advance had (Or.inr ⟨blockOf applied, by rw [hn]; rfl, hm⟩), had⟩
  · rw [hold]
    exact ⟨hg, .refl _⟩

/-- Retention keeps an upper part of the blocks, and the finalized head if it lies there. -/
theorem Retained.ledger {r : Retention} {status : RetainStatus}
    (h : Retained db dataset r label db' status)
    (ht : chunkSegments.Tiles (db.chunkSet dataset).toList)
    (hb : BlocksOf db (db.chunkSet dataset).toList rows)
    (hg : (ledgerOf rows label.finalizedHead).Grounded) :
    ∃ rows' label', BlocksOf db' (db'.chunkSet dataset).toList rows' ∧
      db'.getLabel dataset = some label' ∧ (ledgerOf rows' label'.finalizedHead).Grounded := by
  cases h with
  | kept _ chunk _ _ split _ fin_eq chunks label_eq _ trimmed =>
    obtain ⟨_, hm, hdb'⟩ := trimmed
    have htb : db'.tables = db.tables := by
      rw [hdb']
      exact (Db.removeChunks_removed hm).tables
    rw [split] at hb ht
    obtain ⟨low, high, rfl, hl, hh⟩ := hb.split
    refine ⟨high, _, ?_, label_eq, ?_⟩
    · rw [chunks]
      exact hh.of_tables htb
    · intro f hf
      obtain ⟨head, hhd, rfl⟩ := Option.map_eq_some_iff.mp hf
      have hfl : label.finalizedHead.filter (fun h => chunk.firstBlock ≤ h.number) =
          some head := fin_eq.symm.trans hhd
      obtain ⟨hold, hge⟩ := Option.filter_eq_some_iff.mp hfl
      have hge' : chunk.firstBlock ≤ head.number := by simpa using hge
      have hmm : blockOf head ∈ low ++ high := hg _ (Option.map_eq_some_iff.mpr ⟨head, hold, rfl⟩)
      rcases mem_append.mp hmm with hin | hin
      · -- The chunks below the kept ones end below its first block.
        obtain ⟨g, hgn, -, -, -, -, _⟩ := hl.owner hin
        have hlt : g.lastBlock < chunk.firstBlock :=
          (pairwise_append.mp ht.pairwise).2.2 g hgn chunk mem_cons_self
        have hn : (blockOf head).1 = head.number := rfl
        omega
      · exact hin
  | cleared chunks label_eq =>
    refine ⟨[], _, ?_, label_eq, ?_⟩
    · rw [chunks]
      exact ⟨[], .nil, rfl⟩
    · intro f hf
      cases hf

/-- What a call does to the ledger. -/
theorem CallEffect.ledger (h : CallEffect c db call db' c')
    (ht : chunkSegments.Tiles (db.chunkSet c.datasetId).toList)
    (hb : BlocksOf db (db.chunkSet c.datasetId).toList rows)
    (hc : ∀ flags report chunk commit abandon,
      call = .newChunk flags report chunk commit abandon → blockRows.Held db chunk)
    (hg : (ledgerOf rows ((db.getLabel c.datasetId).bind DatasetLabel.finalizedHead)).Grounded) :
    ∃ rows', BlocksOf db' (db'.chunkSet c.datasetId).toList rows' ∧
      (ledgerOf rows' ((db'.getLabel c.datasetId).bind DatasetLabel.finalizedHead)).Grounded ∧
      (call.retention = none → FinalLog.Advances Prod.fst
        (ledgerOf rows ((db.getLabel c.datasetId).bind DatasetLabel.finalizedHead))
        (ledgerOf rows' ((db'.getLabel c.datasetId).bind DatasetLabel.finalizedHead))) := by
  cases h with
  | idle => exact ⟨rows, hb, hg, fun _ => .refl _⟩
  | @inserted flags report chunk commit abandon _ forked update label h =>
    rw [h.label_eq] at hg ⊢
    obtain ⟨rows', hr', hg', ha⟩ := h.ledger ht hb (hc flags report chunk commit abandon rfl) hg
    refine ⟨rows', hr', ?_⟩
    rw [h.result, Db.getLabel_writeLabel_self]
    exact ⟨hg', fun _ => ha⟩
  | applied _ h =>
    rw [h.label_eq] at hg ⊢
    obtain ⟨label', hl', hr', hg', ha⟩ := h.ledger hb hg
    rw [hl']
    exact ⟨rows, hr', hg', fun _ => ha⟩
  | ignored _ h =>
    rw [h.label_eq] at hg ⊢
    obtain ⟨label', hl', hr', hg', ha⟩ := h.ledger hb hg
    rw [hl']
    exact ⟨rows, hr', hg', fun _ => ha⟩
  | retained retention _ label_eq h =>
    rw [label_eq] at hg
    obtain ⟨rows', _, hr', hl', hg'⟩ := h.ledger ht hb hg
    refine ⟨rows', hr', by rw [hl']; exact hg', fun hn => ?_⟩
    rw [retention] at hn
    cases hn

/-! ### Runs -/

/-- The finalized head of a dataset that is not updated goes away only with the dataset. -/
theorem datasetStep_final {s : Node} {op : NodeOp} (h : Node.DatasetStep dataset s op db') :
    (db'.getLabel dataset).bind DatasetLabel.finalizedHead =
        (s.db.getLabel dataset).bind DatasetLabel.finalizedHead ∨
      db'.getLabel dataset = none ∧ ∃ commit, op = .dropDataset dataset commit := by
  cases h with
  | same label' => exact Or.inl (by rw [label'])
  | created _ absent label' =>
    left
    rw [label', absent]
    rfl
  | dropped commit op_eq label' => exact Or.inr ⟨label', commit, op_eq⟩
  | compacted _ _ _ _ label₁ _ effect =>
    left
    rw [effect.getLabel, effect.label_eq]
    rfl

/-- What is known of the ledger of a writer: its blocks can be read, and the finalized head is one
of them. -/
structure Recorded (dataset : DatasetId) (w : Writer) (l : FinalLog (Nat × Hash)) : Prop where
  blocks : BlocksOf w.node.db (w.node.db.chunkSet dataset).toList l.entries
  final : l.final =
    ((w.node.db.getLabel dataset).bind DatasetLabel.finalizedHead).map blockOf
  grounded : l.Grounded

theorem Recorded.ledger_eq (h : Recorded dataset w l) : ledger w.node.db dataset = .ok l := by
  rw [ledger_of_blocks h.blocks, ledgerOf, ← h.final]

/-- Inputs that neither trim nor drop the dataset. -/
def KeepsHistory (dataset : DatasetId) : WriterOp → Prop
  | .call call => call.retention = none
  | .node (.dropDataset dropped _) => dropped ≠ dataset
  | _ => True

instance (dataset : DatasetId) (op : WriterOp) : Decidable (KeepsHistory dataset op) := by
  refine WriterOp.casesOn (motive := fun op => Decidable (KeepsHistory dataset op)) op ?_
    (fun _ _ _ => isTrue trivial) (isTrue trivial) fun call =>
      inferInstanceAs (Decidable (call.retention = none))
  intro op
  apply NodeOp.casesOn (motive := fun op => Decidable (KeepsHistory dataset (.node op))) op <;>
    intros <;> dsimp only [KeepsHistory] <;> infer_instance

variable (h : (Writer.machine dataset kind).Reachable (Writer.Fed blockRows.Held dataset) w)

include h

theorem reachable_blocks : ∃ rows, BlocksOf w.node.db (w.node.db.chunkSet dataset).toList rows :=
  blocksOf_of_held fun chunk hc => reachable_held (Writer.reachable_node h) dataset chunk hc

/-- A step of the node leaves the ledger alone unless it drops the dataset. -/
theorem node_step_ledger {nodeOp : NodeOp}
    (h' : (Writer.machine dataset kind).Reachable (Writer.Fed blockRows.Held dataset) w')
    (hs : ∀ flags edits commit, nodeOp ≠ .update dataset flags edits commit)
    (hst : w.node.step nodeOp = some w'.node) (hrec : Recorded dataset w l) :
    ∃ l', Recorded dataset w' l' ∧ ((∀ commit, nodeOp ≠ .dropDataset dataset commit) →
      FinalLog.Advances Prod.fst l l') := by
  obtain ⟨rows', hr'⟩ := reachable_blocks h'
  -- A dataset that is gone has an empty ledger.
  have hg : w'.node.db.getLabel dataset = none → (∃ commit, nodeOp = .dropDataset dataset commit) →
      ∃ l', Recorded dataset w' l' ∧ ((∀ commit, nodeOp ≠ .dropDataset dataset commit) →
        FinalLog.Advances Prod.fst l l') := by
    rintro hn ⟨commit, hc⟩
    refine ⟨⟨rows', none⟩, ⟨hr', by rw [hn]; rfl, ?_⟩, fun hnot => absurd hc (hnot commit)⟩
    intro f hf
    cases hf
  rcases step_scanDataset (Writer.reachable_node h) hs hst with hsc | ⟨hn, hd⟩
  · rcases datasetStep_final (Node.step_datasetStep hs hst) with hfn | ⟨hn, hd⟩
    · have hr : rows' = l.entries :=
        Except.ok.inj (hr'.scan.symm.trans (hsc.trans hrec.blocks.scan))
      refine ⟨l, ⟨hr ▸ hr', ?_, hrec.grounded⟩, fun _ => .refl l⟩
      rw [hfn]
      exact hrec.final
    · exact hg hn hd
  · exact hg hn hd

theorem call_step_ledger {db' : Db} (hok : Writer.Fed blockRows.Held dataset w (.call call))
    (hrec : Recorded dataset w l) (hc : w.controller = some c)
    (he : CallEffect c w.node.db call db' c') :
    ∃ l', Recorded dataset { node := { w.node with db := db' }, controller := some c' } l' ∧
      (call.retention = none → FinalLog.Advances Prod.fst l l') := by
  have ht := reachable_tiled (h.mono fun _ _ hok => hok.1.1)
  obtain rfl := ht.own c hc
  have hch : ∀ flags report chunk commit abandon,
      call = .newChunk flags report chunk commit abandon → blockRows.Held w.node.db chunk := by
    rintro flags report chunk commit abandon rfl
    exact hok.2
  obtain ⟨_, _⟩ := l
  obtain ⟨hb, hf, hg⟩ := hrec
  subst hf
  obtain ⟨_, hr', hg', ha⟩ := he.ledger ht.chunks hb hch hg
  exact ⟨_, ⟨hr', rfl, hg'⟩, ha⟩

theorem step_ledger (hok : Writer.Fed blockRows.Held dataset w op)
    (hs : w.step dataset kind op = some w') (hrec : Recorded dataset w l) :
    ∃ l', Recorded dataset w' l' ∧ (KeepsHistory dataset op → FinalLog.Advances Prod.fst l l') := by
  have h' := h.step hok hs
  cases Writer.step_effect hok.1.1 hs with
  | @node nodeOp _ step effect controller =>
    obtain ⟨l', hrec', ha⟩ := node_step_ledger h h' hok.1.1 step hrec
    refine ⟨l', hrec', fun hk => ha ?_⟩
    rintro commit rfl
    exact hk rfl
  | opened step =>
    obtain ⟨l', hrec', ha⟩ := node_step_ledger h h' (by simp) step hrec
    exact ⟨l', hrec', fun _ => ha (by simp)⟩
  | dropped => exact ⟨l, ⟨hrec.blocks, hrec.final, hrec.grounded⟩, fun _ => .refl l⟩
  | @failed call c db' e controller result same =>
    -- A refused chunk only has its tables marked.
    have ht : db'.tables = w.node.db.tables := by
      cases call with
      | newChunk =>
        obtain ⟨-, rfl⟩ := newChunk_eq_error result
        exact Node.deleteTables_tables
      | finalize => rw [(settle_eq_error result).1]
      | retain => rw [(settle_eq_error result).1]
      | initRetention => rw [(settle_eq_error result).1]
    refine ⟨l, ⟨?_, ?_, hrec.grounded⟩, fun _ => .refl l⟩
    · rw [same.chunkSet]
      exact hrec.blocks.of_tables ht
    · rw [same.getLabel]
      exact hrec.final
  | @called call c c' db' controller effect =>
    obtain ⟨l', hrec', ha⟩ := call_step_ledger h hok hrec controller effect
    exact ⟨l', hrec', ha⟩

theorem reachable_recorded : ∃ l, Recorded dataset w l := by
  refine h.invariant (P := fun w => ∃ l, Recorded dataset w l) ?_ ?_
  · rintro w rfl
    refine ⟨⟨[], none⟩, ⟨[], .nil, rfl⟩, rfl, ?_⟩
    intro f hf
    cases hf
  · rintro _ _ _ hr ⟨_, hrec⟩ hok hs
    obtain ⟨l', hrec', -⟩ := step_ledger hr hok hs hrec
    exact ⟨l', hrec'⟩

/-- As long as nothing is trimmed, the ledger advances along a run. -/
theorem run_ledger {inputs : List WriterOp}
    (hok : (Writer.machine dataset kind).RunOk
      (fun w op => Writer.Fed blockRows.Held dataset w op ∧ KeepsHistory dataset op) w inputs)
    (hrn : (Writer.machine dataset kind).run w inputs = some w') (hrec : Recorded dataset w l) :
    ∃ l', Recorded dataset w' l' ∧ FinalLog.Advances Prod.fst l l' := by
  induction inputs generalizing w l with
  | nil =>
    cases hrn
    exact ⟨l, hrec, .refl l⟩
  | cons _ _ ih =>
    obtain ⟨w₁, hs, hr⟩ := Option.bind_eq_some_iff.mp hrn
    obtain ⟨⟨hf, hk⟩, ht⟩ := hok
    obtain ⟨_, hrec₁, ha⟩ := step_ledger h hf hs hrec
    obtain ⟨l', hrec', ha'⟩ := ih (h.step hf hs) (ht w₁ hs) hr hrec₁
    exact ⟨l', hrec', (ha hk).trans ha'⟩

omit h

end Ledger

/-! ### A fork above the finalized block -/

section Sample

/-- The chain of `sparseBlocks` up to block 12, then another one. -/
def forkBlocks : Table := tableOfBlocks [(10, "0xa"), (12, "0xc"), (21, "0x15")]

local instance forkFormat : TableFormat :=
  catalogFormat [([[1]], sparseBlocks), ([[2]], forkBlocks)]

def forkChunk : Chunk :=
  .v1 10 21 "0x15" "0x9" none none (Keyed.put ∅ ("blocks", 8)) (by decide) (by decide)

def forkInputs : List WriterOp :=
  [.node (.openTable 8), .node (.finishTable 8 [(.schema, [2])]), .node (.closeTable 8),
    .call (.newChunk ⟨false, false⟩ none forkChunk (.ok ()) (.ok ()))]

def beforeFork : Option Writer :=
  (Writer.machine "main" "evm").run ⟨Node.start Db.empty [], none⟩ sparseInputs

def afterFork : Option Writer :=
  beforeFork.bind fun w => (Writer.machine "main" "evm").run w forkInputs

/-- Builds the table of a chunk and stores the chunk. -/
def storeBlocks (table : TableId) (schema : UInt8) (chunk : Chunk) (report : Option BlockRef) :
    List WriterOp :=
  [.node (.openTable table), .node (.finishTable table [(.schema, [schema])]),
    .node (.closeTable table), .call (.newChunk ⟨false, false⟩ report chunk (.ok ()) (.ok ()))]

def blocksChunk (first last : Nat) (hash parent : Hash) (table : TableId) (ordered : first ≤ last)
    (bounded : last ≤ maxBlockNumber) : Chunk :=
  .v1 first last hash parent none none (Keyed.put ∅ ("blocks", table)) ordered bounded

theorem chunkA_ordered : 10 ≤ 12 := by decide

theorem chunkA_bounded : 12 ≤ maxBlockNumber := by decide

def chunkA : Chunk := blocksChunk 10 12 "0xc" "0x9" 7 chunkA_ordered chunkA_bounded

theorem chunkB_ordered : 13 ≤ 15 := by decide

theorem chunkB_bounded : 15 ≤ maxBlockNumber := by decide

def chunkB : Chunk := blocksChunk 13 15 "0xf" "0xc" 8 chunkB_ordered chunkB_bounded

/-- Repeats both chunks up to block 13. -/
def forkOfBoth : Chunk := blocksChunk 10 21 "0x15" "0x9" 9 (by decide) (by decide)

/-- Takes the place of the second chunk. -/
def forkOfB : Chunk := blocksChunk 13 16 "0x10" "0xc" 9 (by decide) (by decide)

def twoChunkInputs : List WriterOp :=
  [.node .serve, .new ⟨none, 0⟩ ⟨none, 0⟩ (.ok ())] ++
    storeBlocks 7 1 chunkA (some ⟨12, "0xc"⟩) ++ storeBlocks 8 2 chunkB none

section Repeats

def blocksA : Table := tableOfBlocks [(10, "0xa"), (12, "0xc")]

def blocksB : Table := tableOfBlocks [(13, "0xd"), (15, "0xf")]

def blocksOfFork : Table := tableOfBlocks [(10, "0xa"), (12, "0xc"), (13, "0xd"), (21, "0x15")]

local instance repeatFormat : TableFormat :=
  catalogFormat [([[1]], blocksA), ([[2]], blocksB), ([[3]], blocksOfFork)]

def withFork : Option Writer :=
  (Writer.machine "main" "evm").run ⟨Node.start Db.empty [], none⟩
    (twoChunkInputs ++ (storeBlocks 9 3 forkOfBoth none).take 3)

/-- A fork repeats the blocks of two chunks up to 13. -/
theorem fork_repeats_final_blocks :
    ∃ w, withFork = some w ∧ w.node.db.listChunks "main" 0 none = [chunkA, chunkB] ∧
      w.node.db.validateFinalizedPrefix "main" forkOfBoth 13 = .ok none := by
  obtain ⟨w, hw⟩ : ∃ w, withFork = some w := ⟨_, rfl⟩
  have hr : (withFork.map fun w =>
      ((w.node.db.chunkSet "main").toList, w.node.db.blocksTable forkOfBoth)) =
      some ([chunkA, chunkB], .ok blocksOfFork) := by
    decide +kernel
  have hsc : (withFork.map fun w => (w.node.db.scanTable chunkA "blocks" blockHashes,
      w.node.db.scanTable chunkB "blocks" blockHashes)) =
      some (.ok [(10, "0xa"), (12, "0xc")], .ok [(13, "0xd"), (15, "0xf")]) := by
    decide +kernel
  rw [hw, Option.map_some, Option.some.injEq, Prod.mk.injEq] at hr hsc
  obtain ⟨hc, ht⟩ := hr
  obtain ⟨ha, hb⟩ := hsc
  have hs : BlocksOf w.node.db (w.node.db.chunkSet "main").toList
      [(10, "0xa"), (12, "0xc"), (13, "0xd"), (15, "0xf")] := by
    rw [hc]
    exact ⟨[_, _], .cons ⟨ha, by decide⟩ (.cons ⟨hb, by decide⟩ .nil), rfl⟩
  have htiles : chunkSegments.Tiles (w.node.db.chunkSet "main").toList := by
    rw [hc]
    exact isChain_pair.mpr ⟨rfl, rfl⟩
  refine ⟨w, hw, by rw [Db.listChunks_all, hc], (finalized_prefix_check_is_exact htiles hs ht
    (rfl : blockHashes blocksOfFork =
      .ok [(10, "0xa"), (12, "0xc"), (13, "0xd"), (21, "0x15")]) 13).2.mpr ?_⟩
  decide

end Repeats

section Foreign

/-- The last row is the head of the chunk, the first one lies below its range. -/
def foreignBlocks : Table := tableOfBlocks [(5, "0x5"), (15, "0xf")]

local instance foreignFormat : TableFormat := catalogFormat [([[1]],
  tableOfBlocks [(10, "0xa"), (12, "0xc")]), ([[2]], foreignBlocks),
  ([[3]], tableOfBlocks [(16, "0x10")])]

end Foreign

end Sample

end Hotblocks
