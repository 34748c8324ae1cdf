import SqdData.Storage.RoundTrip
import SqdData.Storage.Snapshots

/-!
# The data behind chunks

What a dataset holds is what its tables hold, chunk after chunk. A table stored as pages is the one
that was written. A scan of a dataset reads the tables of one name in block order. A compaction
changes the chunk boundaries and the tables, and no scan of an unsorted table can tell.
-/

namespace Storage

open List

/-- The format of pages: where the buffers of a table are among its cells, and which table columns
of values are. -/
class PageFormat where
  tableData : TableCells → Except Error TableData
  table : List (String × Arrow.DataType) → List (List Arrow.Value) → Except Error Table

section Pages

variable [PageFormat]

/-- A table is read from its pages. -/
local instance pageFormat : TableFormat where
  decode cells := do
    let data ← PageFormat.tableData cells
    let batch ← data.readTable none none
    PageFormat.table batch.fields (Arrow.toColumns batch.columns)

/-- The table of written batches is the table of their columns, however the pages were cut. -/
theorem decode_writeTable {cells : TableCells} {sizes : PageSizes}
    {fields : List (String × Arrow.DataType)} {batches : List (ArrayBatch fields)}
    (hs : Arrow.SupportedAll fields) (hlt : batchesSize batches < 2 ^ 31)
    (hw : PageFormat.tableData cells = writeTable sizes fields batches) :
    TableFormat.decode cells = PageFormat.table fields (concatColumns fields batches) := by
  obtain ⟨data, hd, rfl, hh⟩ := writeTable_stores sizes hs batches hlt
  obtain ⟨batch, hr, hf, hc⟩ := hh.readAll hs
  simp only [TableFormat.decode, hw, hd, bind, Except.bind, hr, hf, hc]

/-- The tables of a compaction are its merges, if their pages hold what was written for the columns
of the merges. -/
theorem CompactionRun.merged_of_written {db : Db} {c : CompactionRun} {merge : List Chunk}
    {tables : TableMap} {merged : List (String × Table)} (sizes : PageSizes)
    (hm : mergeAllTables c.params c.snapshot merge = .ok merged)
    (hk : tables.keys = merged.map Prod.fst)
    (hw : ∀ e ∈ merged, ∃ id fields, ∃ batches : List (ArrayBatch fields),
      tables.find? e.1 = some id ∧ Arrow.SupportedAll fields ∧ batchesSize batches < 2 ^ 31 ∧
      PageFormat.tableData (db.cells id) = writeTable sizes fields batches ∧
      PageFormat.table fields (concatColumns fields batches) = .ok e.2) :
    c.merged db merge tables = true := by
  simp only [CompactionRun.merged, hm, Bool.and_eq_true, decide_eq_true_eq, all_eq_true]
  refine ⟨hk, fun e he => ?_⟩
  obtain ⟨id, fields, batches, hf, hs, hlt, hp, ht⟩ := hw e he
  have hr : db.createTableReader id = .ok e.2 := (decode_writeTable hs hlt hp).trans ht
  rw [hf, Option.any_some, decide_eq_true_eq]
  exact hr

end Pages

section Content

variable [TableFormat]

/-- The rows a reader finds in the tables `name` of a dataset, in block order. -/
def Db.scanDataset {ρ : Type} (db : Db) (dataset : DatasetId) (name : String)
    (reader : Table → Except Error (List ρ)) : Except Error (List ρ) := do
  let parts ← (db.listChunks dataset 0 none).mapM fun chunk => db.scanTable chunk name reader
  return parts.flatten

def Db.tableRows (db : Db) (dataset : DatasetId) (name : String) :
    Except Error (List (String → Option Value)) :=
  db.scanDataset dataset name fun t => .ok t.rows

/-- The chunk has no sorted table of this name. -/
def Db.Unsorted (db : Db) (name : String) (chunk : Chunk) : Prop :=
  ∀ t, getTableReader db chunk name = .ok t → t.sortKey = []

omit [TableFormat] in
/-- A reader that sees in a merge of tables what it sees in the parts, one after the other. -/
def Concatenative {ρ : Type} (reader : Table → Except Error (List ρ)) : Prop :=
  ∀ parts t rowss, Concat parts t →
    List.Forall₂ (fun p rows => reader p = .ok rows) parts rowss → reader t = .ok rowss.flatten

omit [TableFormat] in
theorem concatenative_rows : Concatenative fun t => .ok t.rows := by
  intro parts t rowss hc hr
  have hp : rowss = parts.map Table.rows := by
    clear hc
    induction hr with
    | nil => rfl
    | cons h _ ih =>
      cases h
      rw [ih]
      rfl
  dsimp only
  rw [hc.rows, hp, flatMap_def]

omit [TableFormat] in
theorem concatenative_blockHashes : Concatenative blockHashes :=
  fun _ _ _ hc hr => hc.blockHashes hr

omit [TableFormat] in
theorem concatenative_transactionHashes : Concatenative transactionHashes :=
  fun _ _ _ hc hr => hc.transactionHashes hr

variable {db : Db} {chunk : Chunk}

/-- A chunk reads the same as long as the cells of its tables are the same. -/
theorem getTableReader_of_cells {db' : Db}
    (h : ∀ id ∈ chunk.tables.values, db'.cells id = db.cells id) (name : String) :
    getTableReader db' chunk name = getTableReader db chunk name := by
  unfold getTableReader
  cases hid : chunk.tables.find? name with
  | none => rfl
  | some id =>
    dsimp only
    unfold Db.createTableReader
    rw [h id (Keyed.mem_values.mpr ⟨name, hid⟩)]

theorem scanTable_of_cells {ρ : Type} {db' : Db}
    (h : ∀ id ∈ chunk.tables.values, db'.cells id = db.cells id) (name : String)
    (reader : Table → Except Error (List ρ)) :
    db'.scanTable chunk name reader = db.scanTable chunk name reader := by
  unfold Db.scanTable
  cases hid : chunk.tables.find? name with
  | none => rfl
  | some id =>
    dsimp only
    unfold Db.createTableReader
    rw [h id (Keyed.mem_values.mpr ⟨name, hid⟩)]

theorem mergeAllTables_eq_ok {params : CompactionParams} {snapshot : Db} {first : Chunk}
    {rest : List Chunk} {merged : List (String × Table)}
    (h : mergeAllTables params snapshot (first :: rest) = .ok merged) :
    merged.map Prod.fst = first.tables.keys ∧ ∀ name table, (name, table) ∈ merged →
      mergeTable params snapshot (first :: rest) name = .ok table := by
  have ha := mapM_eq_ok.mp h
  clear h
  generalize first.tables.keys = names at ha ⊢
  induction ha with
  | nil => simp
  | cons he _ ih =>
    obtain ⟨_, ht, he⟩ := bind_eq_ok.mp he
    cases he
    refine ⟨by rw [map_cons, ih.1], ?_⟩
    intro name table' hm
    rcases mem_cons.mp hm with heq | hm
    · cases heq
      exact ht
    · exact ih.2 name table' hm

theorem CompactionRun.merged_eq_true {c : CompactionRun} {first : Chunk} {rest : List Chunk}
    {tables : TableMap} (h : c.merged db (first :: rest) tables = true) :
    tables.keys = first.tables.keys ∧ ∀ name id, tables.find? name = some id →
      ∃ table, mergeTable c.params c.snapshot (first :: rest) name = .ok table ∧
        db.createTableReader id = .ok table := by
  unfold CompactionRun.merged at h
  split at h
  · rename_i merged hm
    obtain ⟨hn, ha⟩ := mergeAllTables_eq_ok hm
    obtain ⟨hk, ht⟩ := Bool.and_eq_true_iff.mp h
    have hk' : tables.keys = merged.map Prod.fst := by simpa using hk
    refine ⟨hk'.trans hn, ?_⟩
    intro name id hf
    have hnm : name ∈ merged.map Prod.fst := hk' ▸ Keyed.mem_keys.mpr ⟨id, hf⟩
    obtain ⟨⟨name', table⟩, hmm, rfl⟩ := mem_map.mp hnm
    refine ⟨table, ha name' table hmm, ?_⟩
    have := all_eq_true.mp ht _ hmm
    simpa [hf] using this
  · cases h

section Compaction

variable {s : Node} {run : Nat} {c : CompactionRun} {merge : List Chunk} {newChunk : Chunk}

variable (find : s.compactions.find? run = some c)

include find

/-- A chunk that is stored as the snapshot has it reads as the snapshot has it. -/
theorem Node.Snapshots.reader_eq (h : s.Snapshots) {dataset : DatasetId}
    (hs : chunk ∈ c.snapshot.chunkSet dataset) (hst : chunk ∈ s.db.chunkSet dataset)
    (name : String) :
    getTableReader c.snapshot chunk name = getTableReader s.db chunk name := by
  refine getTableReader_of_cells (fun id hid => ?_) name
  have hl : c.snapshot.Live id := ⟨dataset, chunk, hs, hid⟩
  exact ((h.kept run c find id hl).2 ⟨dataset, chunk, hst, hid⟩).symm

/-- The tables a compaction is about to commit are the merges of the tables that the planned
chunks have now, name by name. -/
theorem Node.Snapshots.merged_tables (h : s.Snapshots) (phase : c.phase = .built merge newChunk)
    (hst : ∀ chunk ∈ merge, chunk ∈ s.db.chunkSet c.dataset) :
    (∀ chunk ∈ merge, ∀ name, name ∈ chunk.tables.keys ↔ name ∈ newChunk.tables.keys) ∧
      ∀ name id, newChunk.tables.find? name = some id → ∃ parts table,
        List.Forall₂ (fun chunk part => getTableReader s.db chunk name = .ok part) merge parts ∧
        mergeTables parts c.params.sort = .ok table ∧ s.db.createTableReader id = .ok table := by
  have hp := c.planned
  rw [phase] at hp
  obtain ⟨hpl, first, _, _, hf, -, -⟩ := compactionChunk_eq_some hp
  obtain ⟨hw, hch, -⟩ := prepareMergePlan_spec (h.apart run c find c.dataset) hpl
  obtain ⟨rest, rfl⟩ : ∃ rest, merge = first :: rest := head?_eq_some_iff.mp hf
  obtain ⟨hk, ht⟩ := CompactionRun.merged_eq_true (h.built run c _ newChunk find phase)
  have hs : ∀ chunk ∈ first :: rest, chunk ∈ c.snapshot.chunkSet c.dataset :=
    fun chunk hc => hw.subset hc
  have hr : ∀ name id, newChunk.tables.find? name = some id → ∃ parts table,
      List.Forall₂ (fun chunk part => getTableReader s.db chunk name = .ok part)
        (first :: rest) parts ∧
      mergeTables parts c.params.sort = .ok table ∧ s.db.createTableReader id = .ok table := by
    intro name id hfn
    obtain ⟨table, hm, hr⟩ := ht name id hfn
    obtain ⟨parts, hpr, hm⟩ := bind_eq_ok.mp hm
    refine ⟨parts, table, ?_, hm, hr⟩
    refine (forall₂_iff_get.mpr ?_)
    obtain ⟨hlen, hg⟩ := forall₂_iff_get.mp (mapM_eq_ok.mp hpr)
    refine ⟨hlen, fun i hi hi' => ?_⟩
    have hmm : (first :: rest).get ⟨i, hi⟩ ∈ first :: rest := get_mem _ _
    rw [← h.reader_eq find (hs _ hmm) (hst _ hmm) name]
    exact hg i hi hi'
  refine ⟨?_, hr⟩
  intro chunk hc name
  constructor
  · intro hn
    rw [hk]
    have htr : IsTrans Chunk Covers := ⟨fun a b d hab hbd name hn => hab _ (hbd _ hn)⟩
    rcases mem_cons.mp hc with rfl | hc
    · exact hn
    · have hcv : (first :: rest).IsChain Covers := hch.imp fun _ _ hab => hab.1.covers
      exact rel_of_pairwise_cons (isChain_iff_pairwise.mp hcv) hc name hn
  · intro hn
    obtain ⟨id, hfn⟩ := Keyed.mem_keys.mp hn
    obtain ⟨parts, table, hpr, -⟩ := hr name id hfn
    obtain ⟨_, -, hpa⟩ := forall₂_left hpr chunk hc
    obtain ⟨id', hid', -⟩ := getTableReader_eq_ok.mp hpa
    exact Keyed.mem_keys.mpr ⟨id', hid'⟩

/-- A scan of the new chunk finds what scans of the planned chunks find. -/
theorem Node.Snapshots.merged_scan (h : s.Snapshots) (phase : c.phase = .built merge newChunk)
    (hs : ∀ chunk ∈ merge, chunk ∈ s.db.chunkSet c.dataset) {ρ : Type} {name : String}
    {reader : Table → Except Error (List ρ)} (hr : Concatenative reader)
    (hu : ∀ chunk ∈ merge, s.db.Unsorted name chunk) {rowss : List (List ρ)}
    (hrw : List.Forall₂ (fun chunk rows => s.db.scanTable chunk name reader = .ok rows)
      merge rowss) :
    s.db.scanTable newChunk name reader = .ok rowss.flatten := by
  obtain ⟨hn, ht⟩ := h.merged_tables find phase hs
  cases hf : newChunk.tables.find? name with
  | none =>
    -- No planned chunk has the table either, and a scan of a missing table finds nothing.
    have ha : ∀ chunk ∈ merge, chunk.tables.find? name = none := by
      intro chunk hc
      cases hid : chunk.tables.find? name with
      | none => rfl
      | some id =>
        have hin := (hn chunk hc name).mp (Keyed.mem_keys.mpr ⟨id, hid⟩)
        obtain ⟨id', hid'⟩ := Keyed.mem_keys.mp hin
        rw [hf] at hid'
        cases hid'
    have hnl : rowss.flatten = [] := by
      rw [flatten_eq_nil_iff]
      intro rows hmm
      obtain ⟨chunk, hc, hsn⟩ := forall₂_right hrw rows hmm
      rw [Db.scanTable, ha chunk hc] at hsn
      exact (Except.ok.inj hsn).symm
    rw [Db.scanTable, hf, hnl]
  | some id =>
    obtain ⟨parts, table, hp, hm, hrd⟩ := ht name id hf
    have hk : ∀ last ∈ parts.getLast?, last.sortKey = [] := by
      intro last hlast
      obtain ⟨chunk, hc, hpr⟩ := forall₂_right hp last (mem_of_getLast? hlast)
      exact hu chunk hc last hpr
    have hsc : List.Forall₂ (fun p rows => reader p = .ok rows) parts rowss := by
      refine forall₂_join hp hrw ?_
      intro chunk part rows hpr hsn
      obtain ⟨_, hid', hrd'⟩ := getTableReader_eq_ok.mp hpr
      rw [Db.scanTable, hid'] at hsn
      obtain ⟨_, hpr', hsn⟩ := bind_eq_ok.mp hsn
      cases hrd'.symm.trans hpr'
      exact hsn
    rw [Db.scanTable, hf]
    refine bind_eq_ok.mpr ⟨table, hrd, ?_⟩
    exact hr parts table rowss (mergeTables_concat hk hm).1 hsc

omit find

/-- A chunk whose scan finds what the chunks it replaces hold changes no scan of the dataset. -/
theorem Db.scanDataset_splice {ρ : Type} {db' : Db} {dataset : DatasetId} {name : String}
    {reader : Table → Except Error (List ρ)} {front back : List Chunk} {rowss : List (List ρ)}
    (hb : (db.chunkSet dataset).toList = front ++ merge ++ back)
    (ha : (db'.chunkSet dataset).toList = front ++ [newChunk] ++ back) (ht : db'.tables = db.tables)
    (hr : List.Forall₂ (fun chunk rows => db.scanTable chunk name reader = .ok rows) merge rowss)
    (hn : db.scanTable newChunk name reader = .ok rowss.flatten) :
    db'.scanDataset dataset name reader = db.scanDataset dataset name reader := by
  have hm := mapM_eq_ok.mpr hr
  have hs : (fun chunk => db'.scanTable chunk name reader) =
      fun chunk => db.scanTable chunk name reader :=
    funext fun chunk => scanTable_of_cells (fun id _ => Db.cells_of_tables ht id) _ _
  unfold Db.scanDataset
  rw [Db.listChunks_all, Db.listChunks_all, hb, ha, hs]
  simp only [mapM_append, hm, mapM_cons, mapM_nil, hn]
  cases front.mapM fun chunk => db.scanTable chunk name reader with
  | error => rfl
  | ok =>
    cases back.mapM fun chunk => db.scanTable chunk name reader with
    | error => rfl
    | ok => simp [bind, Except.bind, pure, Except.pure]

/-- A compaction commit, whatever happened since its snapshot, either leaves the database alone or
puts one chunk in the place of exactly the planned chunks, which are all still there. The new chunk
has their ends. Neither the finalized head nor a hash index changes, nor does the row sequence of
any table the planned chunks hold unsorted. -/
theorem compaction_is_transparent {s' : Node} {commit : Except Error Unit}
    (h : Node.machine.Reachable Node.Orderly s) (find : s.compactions.find? run = some c)
    (hstep : s.step (.compactionCommit run commit) = some s') :
    s'.db = s.db ∨ ∃ merge newChunk front back,
      prepareMergePlan c.params c.snapshot c.dataset = .ok merge ∧ Spans merge newChunk ∧
      s.db.listChunks c.dataset 0 none = front ++ merge ++ back ∧
      s'.db.listChunks c.dataset 0 none = front ++ [newChunk] ++ back ∧
      (∀ other, other ≠ c.dataset →
        s'.db.listChunks other 0 none = s.db.listChunks other 0 none) ∧
      (∃ label label', s.db.getLabel c.dataset = some label ∧
        s'.db.getLabel c.dataset = some label' ∧ label'.finalizedHead = label.finalizedHead) ∧
      s'.db.blockHashes = s.db.blockHashes ∧ s'.db.transactionHashes = s.db.transactionHashes ∧
      ∀ name, (∀ chunk ∈ merge, s.db.Unsorted name chunk) →
        s'.db.tableRows c.dataset name = s.db.tableRows c.dataset name := by
  cases Node.step_cases hstep with
  | @compactionRefused _ _ c' merge newChunk find' phase => exact Or.inl rfl
  | @compactionCommit _ _ c' merge front back newChunk label db' find' phase effect =>
    cases find.symm.trans find'
    have hsn := reachable_snapshots h
    have hp := c.planned
    rw [phase] at hp
    obtain ⟨hpl, -⟩ := compactionChunk_eq_some hp
    have hs : ∀ chunk ∈ merge, chunk ∈ s.db.chunkSet c.dataset := by
      intro chunk hc
      change chunk ∈ (s.db.chunkSet c.dataset).toList
      rw [effect.split]
      simp [hc]
    refine Or.inr ⟨merge, newChunk, front, back, hpl, CompactionRun.spans phase, ?_, ?_, ?_, ?_,
      effect.blockHashes, effect.transactionHashes, ?_⟩
    · rw [Db.listChunks_all]
      exact effect.split
    · rw [Db.listChunks_all]
      exact effect.chunkSet_self
    · intro other ho
      rw [Db.listChunks_all, Db.listChunks_all, effect.chunkSet_of_ne other ho]
    · exact ⟨label, label.bumpVersion, effect.label_eq, effect.getLabel, rfl⟩
    · intro name hu
      -- Every planned chunk that has the table could be read when it was merged.
      have hrd : ∀ chunk ∈ merge, ∃ rows,
          s.db.scanTable chunk name (fun t => .ok t.rows) = .ok rows := by
        intro chunk hc
        obtain ⟨hn, ht⟩ := hsn.merged_tables find phase hs
        cases hid : chunk.tables.find? name with
        | none => exact ⟨[], by rw [Db.scanTable, hid]⟩
        | some id =>
          have hnm := (hn chunk hc name).mp (Keyed.mem_keys.mpr ⟨id, hid⟩)
          obtain ⟨id', hid'⟩ := Keyed.mem_keys.mp hnm
          obtain ⟨parts, table, hpr, -⟩ := ht name id' hid'
          obtain ⟨part, -, hpa⟩ := forall₂_left hpr chunk hc
          obtain ⟨id'', hid'', hpa⟩ := getTableReader_eq_ok.mp hpa
          cases hid.symm.trans hid''
          refine ⟨part.rows, ?_⟩
          rw [Db.scanTable, hid]
          exact bind_eq_ok.mpr ⟨part, hpa, rfl⟩
      obtain ⟨_, hr⟩ := exists_forall₂ hrd
      exact Db.scanDataset_splice effect.split effect.chunkSet_self effect.tables hr
        (hsn.merged_scan find phase hs concatenative_rows hu hr)

end Compaction

end Content

/-! ### Two chunks merged into one -/

section Sample

def logTable (rows : List Value) (typed : rows.all DataType.uint64.admits = true) : Table where
  columns := [⟨⟨"block_number", .uint64, false⟩, rows, typed⟩]
  sortKey := []
  even := by simp [rowCount]
  named := by simp
  keyed := by simp

local instance logFormat : TableFormat := catalogFormat [
  ([[1]], logTable [.uint 0] (by decide)),
  ([[2]], logTable [.uint 1, .uint 1] (by decide)),
  ([[3]], logTable [.uint 0, .uint 1, .uint 1] (by decide))]

def logsOf (table : TableId) : TableMap := Keyed.put ∅ ("logs", table)

theorem zero_le_maxBlockNumber : 0 ≤ maxBlockNumber := by decide

theorem firstChunk_ordered : 0 ≤ 0 := le_rfl

def firstChunk : Chunk :=
  .v1 0 0 "0x0" "0x" none none (logsOf 1) firstChunk_ordered zero_le_maxBlockNumber

def secondChunk : Chunk := .v1 1 1 "0x1" "0x0" none none (logsOf 2) (by decide) (by decide)

def mergedInto : Chunk := .v1 0 1 "0x1" "0x" none none (logsOf 3) (by decide) (by decide)

def buildTable1 (table : TableId) (bytes : Bytes) : List NodeOp :=
  [.openTable table, .finishTable table [(.schema, bytes)], .closeTable table]

def compactionInputs : List NodeOp :=
  [.serve, .createDataset "main" "evm" (.ok ())] ++ buildTable1 1 [1] ++ buildTable1 2 [2] ++
  [.update "main" ⟨false, false⟩ [.insertFork firstChunk] (.ok ()),
    .update "main" ⟨false, false⟩ [.insertFork secondChunk] (.ok ()),
    .compactionStart 0 "main" ⟨10, fun _ _ => false, 10, fun _ => []⟩] ++ buildTable1 3 [3] ++
  [.compactionBuild 0 (logsOf 3)]

def beforeCompaction : Option Node :=
  Node.machine.run (Node.start Db.empty []) compactionInputs

def plannedCompaction : Option CompactionRun :=
  beforeCompaction.bind fun s => s.compactions.find? 0

def afterCompaction : Option Node :=
  beforeCompaction.bind fun s => s.step (.compactionCommit 0 (.ok ()))

theorem compaction_is_transparent_sample :
    ∃ s s', beforeCompaction = some s ∧ s.step (.compactionCommit 0 (.ok ())) = some s' ∧
      afterCompaction.map (fun s => s.db.listChunks "main" 0 none) = some [mergedInto] ∧
      s'.db.tableRows "main" "logs" = s.db.tableRows "main" "logs" := by
  obtain ⟨s, hs⟩ : ∃ s, beforeCompaction = some s := ⟨_, rfl⟩
  have hrn : (plannedCompaction.map fun c =>
      (c.dataset, prepareMergePlan c.params c.snapshot c.dataset)) =
      some ("main", .ok [firstChunk, secondChunk]) := by decide +kernel
  have htb : (beforeCompaction.map fun s =>
      (getTableReader s.db firstChunk "logs", getTableReader s.db secondChunk "logs")) =
      some (.ok (logTable [.uint 0] (by decide)),
        .ok (logTable [.uint 1, .uint 1] (by decide))) := by
    decide +kernel
  have ha : afterCompaction.map (fun s => s.db.listChunks "main" 0 none) = some [mergedInto] := by
    decide +kernel
  have hr : Node.machine.Reachable Node.Orderly s :=
    .run (.init rfl) (by decide +kernel : Node.machine.RunOk _ _ compactionInputs) hs
  simp only [plannedCompaction, afterCompaction, hs, Option.bind_some, Option.map_some,
    Option.map_eq_some_iff, Option.some.injEq, Prod.mk.injEq] at hrn htb ha ⊢
  obtain ⟨_, hc, hm, hp⟩ := hrn
  obtain ⟨s', hs', hcn⟩ := ha
  refine ⟨s, s', rfl, hs', ⟨s', hs', hcn⟩, ?_⟩
  rcases compaction_is_transparent hr hc hs' with
    hsm | ⟨merge, newChunk, front, back, hp', -, -, -, -, -, -, -, hrw⟩
  · rw [hsm]
  · cases hp.symm.trans hp'
    rw [hm] at hrw
    refine hrw "logs" fun chunk hch t ht => ?_
    rcases mem_cons.mp hch with rfl | hch
    · cases htb.1.symm.trans ht
      rfl
    · rw [mem_singleton.mp hch] at ht
      cases htb.2.symm.trans ht
      rfl

end Sample

end Storage
