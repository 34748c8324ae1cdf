import SqdData.Hotblocks.Finality

/-!
# Retention behind the head

With `Head(n)` retention the controller trims the window after each chunk it stores: when the
recorded head of the first chunk has fallen more than `n` blocks behind, it calls `retain` with the
floor `next_block - n`. The recorded head may be stale, since compactions move chunk boundaries,
also between the two transactions of one message. A run therefore takes the two apart.

For a stream of chunks that extends the head, the floor always lies inside a stored chunk. What
`retain` drops then ends below the floor, and it never drops the head.
-/

namespace Hotblocks

open List

open Storage

variable {chunk : Chunk}

section Handling

variable [TableFormat]

inductive FlushFloorUpdate where
  | unchanged
  | set (floor : Option Nat)
deriving DecidableEq, Repr

/-- `IngestMessage`, with the tables of a chunk already written. -/
inductive WriterMessage where
  | finalizedHead (head : BlockRef) (commit : Except Error Unit)
  | newChunk (flags : IndexFlags) (report : Option BlockRef) (chunk : Chunk)
      (commit abandon : Except Error Unit)
  | fork (prevBlocks : List BlockRef) (received : Bool)

omit [TableFormat] in
def WriterMessage.call : WriterMessage → Option Call
  | .finalizedHead head commit => some (.finalize head commit)
  | .newChunk flags report chunk commit abandon =>
    some (.newChunk flags report chunk commit abandon)
  | .fork _ _ => none

/-- Where `handle_ingest_msg` stands after its first transaction: it is done, or about to call
`retain`. -/
inductive Handled where
  | done (result : Except Error FlushFloorUpdate)
  | retain (floor : Nat)

namespace WriteController

omit [TableFormat] in
def trimDue (c : WriteController) : Option Nat → Handled
  | none => .done (.ok (.set none))
  | some n =>
    match trimFloor (c.firstChunkHead.map BlockRef.number) c.nextBlock n with
    | none => .done (.ok (.set none))
    | some floor => .retain floor

/-- The number after the head, of which `next_block` is the low 64 bits. -/
def afterHead (c : WriteController) : Nat :=
  match c.head with
  | some h => h.number + 1
  | none => c.firstBlock

/-- `handle_ingest_msg`, up to the call of `retain`. -/
def handleIngestMsg (c : WriteController) (db : Db) (retainFromHead : Option Nat) :
    WriterMessage → Db × WriteController × Handled
  | .finalizedHead head commit =>
    match c.call db (.finalize head commit) with
    | (db, c, result) => (db, c, .done (result.map fun _ => .unchanged))
  | .newChunk flags report chunk commit abandon =>
    match c.newChunk db flags report chunk commit abandon with
    | (db, c, .ok ()) => (db, c, c.trimDue retainFromHead)
    | (db, c, .error e) => (db, c, .done (.error e))
  | .fork prevBlocks received =>
    match c.computeRollback db prevBlocks with
    | .ok rollback =>
      (db, c, .done (.ok (.set (if received then rollback.reachAtLeast else none))))
    | .error e => (db, c, .done (.error e))

end WriteController

/-- A writer, and the floor its message handler is about to call `retain` with. -/
structure Ingestion where
  writer : Writer
  floor : Option Nat

/-- Inputs: whatever else happens to the writer, a message, and the second half of its handling. -/
inductive IngestionOp where
  | writer (op : WriterOp)
  | handle (msg : WriterMessage)
  | retain (commit : Except Error Unit)

namespace Ingestion

variable (dataset : DatasetId) (kind : DatasetKind) (n : Nat)

/-- Between the two halves of a message only the node moves; the rest abandons the second half. -/
def step (s : Ingestion) : IngestionOp → Option Ingestion
  | .writer op => do
    let writer ← s.writer.step dataset kind op
    match op with
    | .node _ => some ⟨writer, if writer.controller.isSome then s.floor else none⟩
    | _ => some ⟨writer, none⟩
  | .handle msg => do
    let c ← s.writer.controller
    if s.floor.isSome then none
    else
      match c.handleIngestMsg s.writer.node.db (some n) msg with
      | (db, c, .done _) => some ⟨⟨{ s.writer.node with db }, some c⟩, none⟩
      | (db, c, .retain floor) => some ⟨⟨{ s.writer.node with db }, some c⟩, some floor⟩
  | .retain commit => do
    let floor ← s.floor
    let writer ← s.writer.step dataset kind (.call (.retain floor none commit))
    some ⟨writer, none⟩

def machine : Machine Ingestion IngestionOp where
  init := fun s => s = ⟨⟨Node.start Db.empty [], none⟩, none⟩
  step := step dataset kind n

end Ingestion

/-- A chunk starts right after the head, if there is one. -/
def ExtendsHead (w : Writer) (chunk : Chunk) : Prop :=
  ∀ c ∈ w.controller, ∀ head ∈ c.head, chunk.firstBlock = head.number + 1

/-- Inputs of a writer whose new chunks extend the head. -/
def Appends (dataset : DatasetId) (w : Writer) (op : WriterOp) : Prop :=
  Writer.KeepsDataset dataset w op ∧
    ∀ flags report chunk commit abandon,
      op = .call (.newChunk flags report chunk commit abandon) → ExtendsHead w chunk

/-- Inputs under which the messages carry a tiling stream of chunks. -/
def TilingStream (dataset : DatasetId) (s : Ingestion) : IngestionOp → Prop
  | .writer op => Appends dataset s.writer op
  | .handle (.newChunk _ _ chunk _ _) => ExtendsHead s.writer chunk
  | _ => True

/-- In such a run, inputs that are messages, compactions and whatever else the node does. -/
def MessagesOnly (dataset : DatasetId) (s : Ingestion) (op : IngestionOp) : Prop :=
  TilingStream dataset s op ∧ ∀ call, op ≠ .writer (.call call)

def Stored (dataset : DatasetId) (db : Db) (number : Nat) : Prop :=
  ∃ chunk ∈ db.listChunks dataset 0 none, chunk.firstBlock ≤ number ∧ number ≤ chunk.lastBlock

section Invariants

variable {dataset : DatasetId} {kind : DatasetKind} {n : Nat} {db db' : Db}
  {c c' : WriteController} {call : Call} {w w' : Writer} {op : WriterOp} {s s' : Ingestion}

/-! ### The recorded head of the first chunk -/

/-- It is present when the window is not empty, and lies neither below the first stored chunk nor
below the start of the window. -/
def Framed (dataset : DatasetId) (db : Db) (c : WriteController) : Prop :=
  ∀ first ∈ (db.chunkSet dataset).toList.head?, ∃ h ∈ c.firstChunkHead,
    first.firstBlock ≤ h.number ∧ c.firstBlock ≤ h.number

omit [TableFormat] in
theorem Mirrors.head_eq_none (h : Mirrors dataset db c) :
    (db.chunkSet dataset).toList = [] ↔ c.head = none := by
  rw [h.head, Db.getLastChunk_eq, Option.map_eq_none_iff, getLast?_eq_none_iff]

omit [TableFormat] in
theorem Mirrors.afterHead (h : Mirrors dataset db c) {last : Chunk}
    (hlast : last ∈ (db.chunkSet dataset).toList.getLast?) :
    c.head = some (getChunkHead last) ∧ c.afterHead = last.lastBlock + 1 := by
  have hh : c.head = some (getChunkHead last) := by
    rw [h.head, Db.getLastChunk_eq, Option.mem_def.mp hlast]
    rfl
  exact ⟨hh, by rw [WriteController.afterHead, hh]; rfl⟩

omit [TableFormat] in
theorem Mirrors.head_le_max (h : Mirrors dataset db c) :
    ∀ head ∈ c.head, head.number ≤ maxBlockNumber := by
  intro head hh
  rw [h.head, Option.mem_def, Option.map_eq_some_iff] at hh
  obtain ⟨last, -, rfl⟩ := hh
  exact last.last_le_max

variable {label : DatasetLabel}

/-- A chunk that extends the head replaces nothing. -/
theorem NewChunkCommitted.appended {flags : IndexFlags} {report : Option BlockRef}
    {update : FinalityUpdate} {forked : Db}
    (h : NewChunkCommitted db c flags report chunk db' update label forked)
    (hm : Mirrors dataset db c) (hext : ∀ head ∈ c.head, chunk.firstBlock = head.number + 1) :
    (db'.chunkSet dataset).toList = (db.chunkSet dataset).toList ++ [chunk] := by
  obtain ⟨_, dropped, hs, ha, -, haf⟩ := h.chunks
  rw [hm.datasetId] at hs haf
  suffices hn : dropped = [] by
    rw [haf, hs, hn, append_nil]
  by_contra hne
  have hlast : dropped.getLast hne ∈ (db.chunkSet dataset).toList.getLast? := by
    rw [hs, getLast?_append, getLast?_eq_some_getLast hne]
    rfl
  have hst := hext _ (hm.afterHead hlast).1
  have ha := ha _ (getLast_mem hne)
  have := (dropped.getLast hne).first_le_last
  simp only [getChunkHead] at hst
  omega

theorem NewChunkCommitted.framed {flags : IndexFlags} {report : Option BlockRef}
    {update : FinalityUpdate} {forked : Db}
    (h : NewChunkCommitted db c flags report chunk db' update label forked)
    (hm : Mirrors dataset db c) (hext : ∀ head ∈ c.head, chunk.firstBlock = head.number + 1)
    (hf : Framed dataset db c) : Framed dataset db' (c.applyNewChunk chunk update.1) := by
  intro first hfr
  rw [h.appended hm hext] at hfr
  rw [(c.applyNewChunk_fields chunk update.1).2.1]
  cases hl : (db.chunkSet dataset).toList with
  | nil =>
    -- The first chunk of an empty window, which starts at or above the logical floor.
    rw [hl] at hfr
    obtain rfl : chunk = first := by simpa using hfr
    have hn : c.firstChunkHead = none := by
      refine Option.eq_none_iff_forall_not_mem.mpr fun h' hh => ?_
      obtain ⟨head, hhd, -⟩ := hm.firstChunkHead h' hh
      rw [hm.head_eq_none.mp hl] at hhd
      cases hhd
    have hs := (checkPosition_eq_ok.mp h.position).1
    rw [windowStart_eq, hm.datasetId, hl] at hs
    have hle : c.firstBlock ≤ chunk.firstBlock := hs
    have hlast := chunk.first_le_last
    refine ⟨getChunkHead chunk, ?_, hlast, hle.trans hlast⟩
    simp [WriteController.applyNewChunk, WriteController.setHead,
      WriteController.setFinalizedHead, hn]
  | cons a =>
    rw [hl] at hfr
    obtain rfl : a = first := by simpa using hfr
    obtain ⟨h', hh, hle⟩ := hf a (by rw [hl]; rfl)
    obtain ⟨head, hhd, _⟩ := hm.firstChunkHead h' hh
    have hs := hext head hhd
    refine ⟨h', ?_, hle⟩
    have hnot : ¬ chunk.firstBlock ≤ h'.number := by omega
    simp [WriteController.applyNewChunk, WriteController.setHead,
      WriteController.setFinalizedHead, Option.mem_def.mp hh, hnot]

theorem Retained.framed {r : Retention} {status : RetainStatus}
    (h : Retained db dataset r label db' status) :
    Framed dataset db' (c.applyRetain r status).1 := by
  intro first hf
  cases h with
  | kept _ chunk _ _ _ holds _ chunks _ status_eq =>
    rw [chunks] at hf
    obtain rfl : chunk = first := by simpa using hf
    subst status_eq
    exact ⟨getChunkHead chunk, rfl, chunk.first_le_last, holds.2⟩
  | cleared chunks =>
    rw [chunks] at hf
    cases hf

omit [TableFormat] in
theorem Framed.of_first (h : Framed dataset db c)
    (hf : (db'.chunkSet dataset).toList.head?.map Chunk.firstBlock =
      (db.chunkSet dataset).toList.head?.map Chunk.firstBlock) : Framed dataset db' c := by
  intro first hm
  rw [Option.mem_def.mp hm] at hf
  obtain ⟨old, hold, heq⟩ := Option.map_eq_some_iff.mp hf.symm
  obtain ⟨h', hh, hle, hfl⟩ := h old hold
  exact ⟨h', hh, heq ▸ hle, hfl⟩

theorem CallEffect.framed (h : CallEffect c db call db' c') (hm : Mirrors dataset db c)
    (hf : Framed dataset db c) (hext : ∀ flags report chunk commit abandon,
      call = .newChunk flags report chunk commit abandon →
        ∀ head ∈ c.head, chunk.firstBlock = head.number + 1) : Framed dataset db' c' := by
  cases h with
  | idle => exact hf
  | inserted h => exact h.framed hm (hext _ _ _ _ _ rfl) hf
  | applied _ h => exact hf.of_first (by rw [h.chunks])
  | ignored _ h => exact hf.of_first (by rw [h.chunks])
  | retained _ _ _ h =>
    rw [hm.datasetId] at h
    exact h.framed

omit [TableFormat] in
theorem Writer.Opened.framed (h : Writer.Opened dataset db c label) : Framed dataset db c := by
  intro first hf
  rw [← Db.getFirstChunk_eq] at hf
  refine ⟨getChunkHead first, by rw [h.firstChunkHead, Option.mem_def.mp hf]; rfl,
    first.first_le_last, ?_⟩
  rw [h.firstBlock, Option.mem_def.mp hf]
  exact first.first_le_last

theorem datasetStep_first {s : Node} {op : NodeOp} (h : Node.DatasetStep dataset s op db')
    (hk : ∀ commit, op ≠ .dropDataset dataset commit) :
    (db'.chunkSet dataset).toList.head?.map Chunk.firstBlock =
      (s.db.chunkSet dataset).toList.head?.map Chunk.firstBlock := by
  cases h with
  | same _ chunks => rw [chunks]
  | created _ _ _ chunks => rw [chunks]
  | dropped commit op_eq => exact absurd op_eq (hk commit)
  | compacted _ _ _ _ _ spans effect =>
    rw [effect.split, effect.chunkSet_self, spans.start_eq]

theorem reachable_framed (h : (Writer.machine dataset kind).Reachable (Appends dataset) w) :
    ∀ c, w.controller = some c → Framed dataset w.node.db c := by
  refine h.invariant (P := fun w => ∀ c, w.controller = some c → Framed dataset w.node.db c) ?_ ?_
  · rintro w rfl c hc
    cases hc
  · intro w op w' hr hf hok hs c hc
    have hm := reachable_mirrored (hr.mono fun _ _ hok => hok.1)
    cases Writer.step_effect hok.1.1 hs with
    | node _ effect controller =>
      rcases controller with hsm | hn
      · refine (hf c (hsm ▸ hc)).of_first (datasetStep_first effect ?_)
        rintro commit rfl
        exact hok.1.2 commit rfl
      · rw [hn] at hc
        cases hc
    | opened _ _ controller =>
      obtain ⟨_, ho⟩ := controller c hc
      exact ho.framed
    | dropped => cases hc
    | failed _ _ same => exact (hf c hc).of_first (by rw [same.chunkSet])
    | called controller effect =>
      cases hc
      refine effect.framed (hm _ controller) (hf _ controller) ?_
      rintro flags report chunk commit abandon rfl
      exact hok.2 flags report chunk commit abandon rfl _ controller

/-! ### Trimming inside the window -/

/-- Without a hash to check, the loop stops at the chunk that holds the floor. -/
theorem retainLoop_range {r : Retention} (hp : r.parentBlockHash = none)
    {gone rest : List Chunk} (hgn : ∀ g ∈ gone, g.lastBlock < r.fromBlock)
    (hh : chunk.firstBlock ≤ r.fromBlock ∧ r.fromBlock ≤ chunk.lastBlock)
    {status status' : RetainStatus} {upd upd' : DatasetUpdate}
    (h : retainLoop dataset r (gone ++ chunk :: rest) status upd = .ok (upd', status')) :
    ∃ first head fin, status' = .range first head fin := by
  induction gone generalizing upd with
  | nil =>
    rw [nil_append, retainLoop, if_neg (by omega), if_neg (by omega)] at h
    obtain ⟨_, hc, h⟩ := bind_eq_ok.mp h
    rw [Retention.hashCheck, hp] at hc
    cases hc
    dsimp only at h
    split at h
    · cases h
    · cases h
      exact ⟨_, _, _, rfl⟩
  | cons g _ ih =>
    rw [cons_append, retainLoop, if_pos (hgn g mem_cons_self)] at h
    obtain ⟨_, -, h⟩ := bind_eq_ok.mp h
    exact ih (fun g' hg => hgn g' (mem_cons_of_mem g hg)) h

/-- A floor strictly above the recorded head of the first chunk and not above the head. -/
structure Due (n floor : Nat) (c : WriteController) : Prop where
  next : floor + n = c.afterHead
  above : ∃ first ∈ c.firstChunkHead, first.number < floor

variable {floor : Nat}

/-- A retention with a floor that is due keeps the head: it drops chunks that end below the floor
and stops at the one that holds it. -/
theorem Due.retain {commit : Except Error Unit} {keptHead : Bool} (hd : Due n floor c)
    (hn : 1 ≤ n) (hm : Mirrors dataset db c)
    (ht : chunkSegments.Tiles (db.chunkSet dataset).toList) (hf : Framed dataset db c)
    (h : c.retain db floor none commit = .ok (db', c', keptHead)) :
    keptHead = true ∧ ∃ gone chunk rest,
      (db.chunkSet dataset).toList = gone ++ chunk :: rest ∧
      (db'.chunkSet dataset).toList = chunk :: rest ∧
      (∀ g ∈ gone, g.lastBlock < floor) ∧ chunk.firstBlock ≤ floor ∧ floor ≤ chunk.lastBlock := by
  obtain ⟨recorded, hr, hab⟩ := hd.above
  obtain ⟨head, hhd, -⟩ := hm.firstChunkHead recorded hr
  have hne : (db.chunkSet dataset).toList ≠ [] := by
    intro hnl
    rw [hm.head_eq_none.mp hnl] at hhd
    cases hhd
  have hlast := getLast?_eq_some_getLast hne
  have hfr := head?_eq_some_head hne
  have hnx := hd.next
  rw [(hm.afterHead hlast).2] at hnx
  obtain ⟨h', hh, hlw, _⟩ := hf _ hfr
  obtain rfl : recorded = h' := Option.some.inj (hr.symm.trans hh)
  -- The floor lies between the ends of the window, so a chunk holds it.
  have hlw : ∀ a ∈ (db.chunkSet dataset).toList.head?, chunkSegments.first a ≤ floor := by
    intro a ha
    cases hfr.symm.trans ha
    exact hlw.trans hab.le
  have hhg : floor ≤ chunkSegments.last ((db.chunkSet dataset).toList.getLast hne) := by
    change floor ≤ Chunk.lastBlock _
    omega
  obtain ⟨_, _, _, hs, hgn, hhl⟩ := ht.split_at hlw ⟨_, hlast, hhg⟩
  rcases retainImpl_eq_ok h with ⟨hsm, -⟩ | ⟨-, label, status, htx, -, hrt, hap⟩
  · -- The window does not start at the floor yet.
    simp only [WriteController.startsAt, Bool.and_eq_true, decide_eq_true_eq] at hsm
    have hat : c.firstBlock = floor := hsm.1
    omega
  · rw [hm.datasetId] at htx hrt
    obtain ⟨_, _, -, hl, -, -⟩ := Db.updateDataset_eq_ok.mp htx
    rw [Db.listChunks_all, hs] at hl
    obtain ⟨first, top, fin, rfl⟩ := retainLoop_range (r := ⟨floor, none, true⟩) rfl hgn hhl hl
    refine ⟨(congrArg Prod.snd hap).symm, ?_⟩
    cases hrt with
    | kept gone' chunk' rest' _ split holds _ chunks =>
      refine ⟨gone', chunk', rest', split, chunks, ?_, holds⟩
      intro g hg
      rw [split] at ht
      have hlt := (pairwise_append.mp ht.pairwise).2.2 g hg chunk' mem_cons_self
      exact lt_of_lt_of_le hlt holds.1
    | cleared _ _ status_ne => exact absurd rfl (status_ne first top fin)

/-! ### Runs -/

omit [TableFormat] in
/-- The arithmetic of `trim_floor` wraps around twice or not at all: a floor it gives is `n` behind
the number after the head. -/
theorem Mirrors.due (hm : Mirrors dataset db c) (hn : 1 ≤ n)
    (h : trimFloor (c.firstChunkHead.map BlockRef.number) c.nextBlock n = some floor) :
    Due n floor c := by
  cases hf : c.firstChunkHead with
  | none =>
    rw [hf] at h
    cases h
  | some first =>
    obtain ⟨head, hh, hle⟩ := hm.firstChunkHead first hf
    have hmax : head.number < 2 ^ 64 := Nat.lt_of_le_pred (by decide) (hm.head_le_max head hh)
    rw [hf, Option.map_some, trimFloor] at h
    obtain ⟨hlt, h⟩ := Option.ite_none_right_eq_some.mp h
    cases h
    have hafter : c.afterHead = head.number + 1 := by
      rw [WriteController.afterHead, Option.mem_def.mp hh]
    have hnext : c.nextBlock = Wrapping.succ 64 head.number := by
      rw [WriteController.nextBlock, Option.mem_def.mp hh]
    rcases Wrapping.succ_cases hmax with hs | ⟨htop, hs⟩ <;> rw [hs] at hnext
    · rw [hnext, Wrapping.sub_of_le (by omega) (hs ▸ Wrapping.succ_lt)] at hlt
      have hsub : Wrapping.sub 64 c.nextBlock n = head.number + 1 - n := by
        rw [hnext, Wrapping.sub_of_le (by omega) (hs ▸ Wrapping.succ_lt)]
      rw [hsub]
      exact ⟨by omega, first, hf, by omega⟩
    · -- The first chunk does not end at block 0, or the difference would be 0.
      have hpos : 0 < first.number := by
        by_contra hz
        have hz : first.number = 0 := by omega
        rw [hnext, hz, Wrapping.sub_of_le le_rfl (by decide)] at hlt
        omega
      rw [hnext, Wrapping.zero_sub hpos (by omega)] at hlt
      have hsub : Wrapping.sub 64 c.nextBlock n = 2 ^ 64 - n := by
        rw [hnext, Wrapping.zero_sub hn (by omega)]
      rw [hsub]
      exact ⟨by omega, first, hf, by omega⟩

variable {msg : WriterMessage}

theorem handleIngestMsg_retain (h : c.handleIngestMsg db (some n) msg = (db', c', .retain floor)) :
    trimFloor (c'.firstChunkHead.map BlockRef.number) c'.nextBlock n = some floor := by
  cases msg with
  | finalizedHead => cases h
  | fork =>
    dsimp only [WriteController.handleIngestMsg] at h
    split at h <;> cases h
  | newChunk flags report chunk commit abandon =>
    dsimp only [WriteController.handleIngestMsg] at h
    split at h
    · rw [Prod.mk.injEq, Prod.mk.injEq] at h
      obtain ⟨-, rfl, h⟩ := h
      dsimp only [WriteController.trimDue] at h
      split at h
      · cases h
      · rename_i ht
        cases h
        exact ht
    · cases h

/-- A message runs its transaction, or nothing at all. -/
theorem handleIngestMsg_call {ha : Handled}
    (h : c.handleIngestMsg db (some n) msg = (db', c', ha)) :
    (∃ call r, msg.call = some call ∧ c.call db call = (db', c', r)) ∨ db' = db ∧ c' = c := by
  cases msg with
  | finalizedHead =>
    cases h
    exact Or.inl ⟨_, _, rfl, rfl⟩
  | newChunk flags report chunk commit abandon =>
    dsimp only [WriteController.handleIngestMsg] at h
    split at h
    all_goals
      rename_i hc
      obtain ⟨rfl, rfl, -⟩ := h
      exact Or.inl ⟨_, _, rfl, hc⟩
  | fork =>
    dsimp only [WriteController.handleIngestMsg] at h
    split at h
    all_goals
      cases h
      exact Or.inr ⟨rfl, rfl⟩

/-- A message is a step of the writer that asks for no retention, or changes nothing. -/
theorem handle_writer (hok : TilingStream dataset s (.handle msg))
    (h : (Ingestion.machine dataset kind n).step s (.handle msg) = some s') :
    (s'.writer = s.writer ∨ ∃ call, call.retention = none ∧ Appends dataset s.writer (.call call) ∧
      s.writer.step dataset kind (.call call) = some s'.writer) ∧
    ∀ floor ∈ s'.floor, ∃ c, s'.writer.controller = some c ∧
      trimFloor (c.firstChunkHead.map BlockRef.number) c.nextBlock n = some floor := by
  obtain ⟨c, hc, h⟩ := Option.bind_eq_some_iff.mp h
  obtain ⟨-, h⟩ := Option.ite_none_left_eq_some.mp h
  obtain ⟨db', c', ha, hm⟩ : ∃ db' c' ha,
      c.handleIngestMsg s.writer.node.db (some n) msg = (db', c', ha) := ⟨_, _, _, rfl⟩
  have hw : s'.writer = ⟨{ s.writer.node with db := db' }, some c'⟩ := by
    rw [hm] at h
    cases ha <;> cases h <;> rfl
  refine ⟨?_, ?_⟩
  · rw [hw]
    rcases handleIngestMsg_call hm with ⟨call, _, hcl, heq⟩ | ⟨rfl, rfl⟩
    · refine Or.inr ⟨call, ?_, ⟨?_, ?_⟩, by simp [Writer.step, hc, heq]⟩
      · cases msg <;> cases hcl <;> rfl
      · simp [Writer.KeepsDataset, Writer.SoleWriter]
      · rintro _ _ _ _ _ ⟨⟩
        cases msg <;> cases hcl
        exact hok
    · exact Or.inl (by rw [← hc])
  · intro floor hf
    rw [hw]
    refine ⟨c', rfl, ?_⟩
    rw [hm] at h
    cases ha with
    | done =>
      cases h
      cases hf
    | retain =>
      cases h
      cases hf
      exact handleIngestMsg_retain hm

/-- A reachable ingestion runs on a reachable writer, and the floor it is about to use is due. -/
theorem reachable_due (hn : 1 ≤ n)
    (h : (Ingestion.machine dataset kind n).Reachable (TilingStream dataset) s) :
    (Writer.machine dataset kind).Reachable (Appends dataset) s.writer ∧
      ∀ floor ∈ s.floor, ∃ c, s.writer.controller = some c ∧ Due n floor c := by
  refine h.invariant (P := fun s => (Writer.machine dataset kind).Reachable (Appends dataset)
    s.writer ∧ ∀ floor ∈ s.floor, ∃ c, s.writer.controller = some c ∧ Due n floor c) ?_ ?_
  · rintro s rfl
    exact ⟨.init rfl, fun floor hf => by cases hf⟩
  · rintro s op t - ⟨hr, hdu⟩ hok hs
    cases op with
    | writer op =>
      obtain ⟨writer, hw, hs⟩ := Option.bind_eq_some_iff.mp hs
      have hr' := hr.step hok hw
      cases op with
      | node op =>
        cases hs
        refine ⟨hr', fun floor hf => ?_⟩
        split at hf
        · rename_i hso
          obtain ⟨c, hc, hd⟩ := hdu floor hf
          cases Writer.step_effect hok.1.1 hw with
          | node _ _ controller =>
            rcases controller with hsm | hn
            · exact ⟨c, hsm.trans hc, hd⟩
            · rw [hn] at hso
              cases hso
        · cases hf
      | new =>
        cases hs
        exact ⟨hr', fun floor hf => by cases hf⟩
      | drop =>
        cases hs
        exact ⟨hr', fun floor hf => by cases hf⟩
      | call =>
        cases hs
        exact ⟨hr', fun floor hf => by cases hf⟩
    | handle =>
      obtain ⟨hwr, htrim⟩ := handle_writer hok hs
      have hr' : (Writer.machine dataset kind).Reachable (Appends dataset) t.writer := by
        rcases hwr with hsm | ⟨_, -, ha, hw⟩
        · exact hsm ▸ hr
        · exact hr.step ha hw
      refine ⟨hr', fun floor hf => ?_⟩
      obtain ⟨c, hc, htr⟩ := htrim floor hf
      exact ⟨c, hc, (reachable_mirrored (hr'.mono fun _ _ hok => hok.1) c hc).due hn htr⟩
    | retain commit =>
      obtain ⟨floor, -, hs⟩ := Option.bind_eq_some_iff.mp hs
      obtain ⟨writer, hw, hs⟩ := Option.bind_eq_some_iff.mp hs
      have ha : Appends dataset s.writer (.call (.retain floor none commit)) := by
        simp [Appends, Writer.KeepsDataset, Writer.SoleWriter]
      cases hs
      exact ⟨hr.step ha hw, fun floor hf => by cases hf⟩

theorem datasetStep_keepsWindow {s : Node} {op : NodeOp} (h : Node.DatasetStep dataset s op db')
    (hk : ∀ commit, op ≠ .dropDataset dataset commit)
    (ht : chunkSegments.Tiles (s.db.chunkSet dataset).toList) :
    chunkSegments.KeepsWindow n (s.db.chunkSet dataset).toList (db'.chunkSet dataset).toList := by
  cases h with
  | same _ chunks =>
    rw [chunks]
    exact .refl n _
  | created _ _ _ chunks =>
    rw [chunks]
    exact .refl n _
  | dropped commit op_eq => exact absurd op_eq (hk commit)
  | compacted _ _ _ _ _ spans effect =>
    rw [effect.split] at ht ⊢
    rw [effect.chunkSet_self]
    exact ht.apart.keepsWindow_merge spans.nonempty spans.firstBlock spans.lastBlock

/-- Every step of the writer but a retention keeps the window. -/
theorem writer_keepsWindow (h : (Writer.machine dataset kind).Reachable (Appends dataset) w)
    (hok : Appends dataset w op) (hc : ∀ call, op = .call call → call.retention = none)
    (hs : w.step dataset kind op = some w') :
    chunkSegments.KeepsWindow n (w.node.db.chunkSet dataset).toList
      (w'.node.db.chunkSet dataset).toList := by
  have hm := reachable_mirrored (h.mono fun _ _ hok => hok.1)
  have ht := (reachable_tiled (h.mono fun _ _ hok => hok.1.1)).chunks
  have ht' := (reachable_tiled ((h.step hok hs).mono fun _ _ hok => hok.1.1)).chunks
  cases Writer.step_effect hok.1.1 hs with
  | node _ effect =>
    refine datasetStep_keepsWindow effect ?_ ht
    rintro commit rfl
    exact hok.1.2 commit rfl
  | opened _ effect => exact datasetStep_keepsWindow effect (by simp) ht
  | dropped => exact .refl n _
  | failed _ _ same =>
    rw [same.chunkSet]
    exact .refl n _
  | @called call c c' db' controller effect =>
    cases effect with
    | idle => exact .refl n _
    | inserted h =>
      have hext := hok.2 _ _ _ _ _ rfl c controller
      rw [h.appended (hm c controller) hext] at ht' ⊢
      exact ht'.apart.keepsWindow_concat
    | applied _ h =>
      rw [h.chunks]
      exact .refl n _
    | ignored _ h =>
      rw [h.chunks]
      exact .refl n _
    | retained retention =>
      rw [hc call rfl] at retention
      cases retention

variable (hn : 1 ≤ n)

include hn

variable (h : (Ingestion.machine dataset kind n).Reachable (TilingStream dataset) s)

include h

/-- What is known of the writer when the second half of a message runs. -/
theorem due_retain (hf : s.floor = some floor) (hc : s.writer.controller = some c)
    {commit : Except Error Unit} {keptHead : Bool}
    (hrt : c.retain s.writer.node.db floor none commit = .ok (db', c', keptHead)) :
    keptHead = true ∧ ∃ gone chunk rest,
      (s.writer.node.db.chunkSet dataset).toList = gone ++ chunk :: rest ∧
      (db'.chunkSet dataset).toList = chunk :: rest ∧
      (∀ g ∈ gone, g.lastBlock < floor) ∧ chunk.firstBlock ≤ floor ∧ floor ≤ chunk.lastBlock := by
  obtain ⟨hr, hd⟩ := reachable_due hn h
  obtain ⟨c₁, hc₁, hd⟩ := hd floor hf
  obtain rfl : c = c₁ := Option.some.inj (hc.symm.trans hc₁)
  have hm := reachable_mirrored (hr.mono fun _ _ hok => hok.1) c hc
  have ht := (reachable_tiled (hr.mono fun _ _ hok => hok.1.1)).chunks
  exact hd.retain hn hm ht (reachable_framed hr c hc) hrt

theorem step_keepsWindow {op : IngestionOp} (hok : MessagesOnly dataset s op)
    (hst : (Ingestion.machine dataset kind n).step s op = some s') :
    chunkSegments.KeepsWindow n (s.writer.node.db.chunkSet dataset).toList
      (s'.writer.node.db.chunkSet dataset).toList := by
  obtain ⟨hr, hdu⟩ := reachable_due hn h
  cases op with
  | writer op =>
    obtain ⟨writer, hw, hst⟩ := Option.bind_eq_some_iff.mp hst
    have hsm : s'.writer = writer := by
      cases op <;> cases hst <;> rfl
    rw [hsm]
    exact writer_keepsWindow hr hok.1 (fun call hcl => absurd (by rw [hcl]) (hok.2 call)) hw
  | handle =>
    obtain ⟨hsm | ⟨_, hcl, ha, hw⟩, -⟩ := handle_writer hok.1 hst
    · rw [hsm]
      exact .refl n _
    · exact writer_keepsWindow hr ha (by rintro _ ⟨⟩; exact hcl) hw
  | retain commit =>
    obtain ⟨floor, hf, hst⟩ := Option.bind_eq_some_iff.mp hst
    obtain ⟨c, hc, hd⟩ := hdu floor hf
    have hdb : s'.writer.node.db = (c.call s.writer.node.db (.retain floor none commit)).1 := by
      obtain ⟨_, hw, hst⟩ := Option.bind_eq_some_iff.mp hst
      rw [Writer.step, hc] at hw
      cases hw
      cases hst
      rfl
    rw [hdb, WriteController.call]
    cases hrt : c.retain s.writer.node.db floor none commit with
    | error => exact .refl n _
    | ok result =>
      obtain ⟨db', _, _⟩ := result
      obtain ⟨-, gone, chunk, rest, hs, haf, hg, -⟩ := due_retain hn h hf hc hrt
      have hm := reachable_mirrored (hr.mono fun _ _ hok => hok.1) c hc
      have ht := (reachable_tiled (hr.mono fun _ _ hok => hok.1.1)).chunks
      rw [hs] at ht ⊢
      change chunkSegments.KeepsWindow n _ (db'.chunkSet dataset).toList
      rw [haf]
      refine ht.apart.keepsWindow_drop hg ?_
      intro last hlast
      have hlast' : last ∈ (s.writer.node.db.chunkSet dataset).toList.getLast? := by
        rw [hs, getLast?_append, Option.mem_def.mp hlast]
        rfl
      rw [hd.next, (hm.afterHead hlast').2]
      exact le_rfl

theorem run_keepsWindow {inputs : List IngestionOp}
    (hok : (Ingestion.machine dataset kind n).RunOk (MessagesOnly dataset) s inputs)
    (hrn : (Ingestion.machine dataset kind n).run s inputs = some s') :
    chunkSegments.KeepsWindow n (s.writer.node.db.chunkSet dataset).toList
      (s'.writer.node.db.chunkSet dataset).toList := by
  induction inputs generalizing s with
  | nil =>
    cases hrn
    exact .refl n _
  | cons _ _ ih =>
    obtain ⟨t, hs, hrn⟩ := Option.bind_eq_some_iff.mp hrn
    have hr := h.step hok.1.1 hs
    exact (step_keepsWindow hn h hok.1 hs).trans (ih hr (hok.2 t hs) hrn)

omit h

omit hn

theorem runOk_mono {inputs : List IngestionOp}
    (hok : (Ingestion.machine dataset kind n).RunOk (MessagesOnly dataset) s inputs) :
    (Ingestion.machine dataset kind n).RunOk (TilingStream dataset) s inputs := by
  induction inputs generalizing s with
  | nil => trivial
  | cons _ _ ih => exact ⟨hok.1.1, fun t ht => ih (hok.2 t ht)⟩

/-- Retention `n` blocks behind the head, over any stream of messages whose chunks extend the head
and with compactions at any point. What was stored and is still less than `n` behind the next block
stays stored. The first stored block never moves down. The floor that is handed to `retain` is `n`
behind the next block; `retain` reports that it kept the head, does keep it, and leaves the chunk
that holds the floor in front. -/
theorem head_retention_keeps_the_window (hn : 1 ≤ n) {inputs : List IngestionOp}
    (h : (Ingestion.machine dataset kind n).Reachable (TilingStream dataset) s)
    (hok : (Ingestion.machine dataset kind n).RunOk (MessagesOnly dataset) s inputs)
    (hrun : (Ingestion.machine dataset kind n).run s inputs = some s')
    (hc : s'.writer.controller = some c) :
    (∀ number, Stored dataset s.writer.node.db number → c.afterHead - n ≤ number →
      Stored dataset s'.writer.node.db number) ∧
    (∀ first ∈ s.writer.node.db.getFirstChunk dataset,
      ∃ first' ∈ s'.writer.node.db.getFirstChunk dataset, first.firstBlock ≤ first'.firstBlock) ∧
    ∀ floor, s'.floor = some floor → floor + n = c.afterHead ∧
      ∀ commit db' c' keptHead,
        c.retain s'.writer.node.db floor none commit = .ok (db', c', keptHead) →
          keptHead = true ∧
          db'.getLastChunk dataset = s'.writer.node.db.getLastChunk dataset ∧
          ∃ first ∈ db'.getFirstChunk dataset,
            first.firstBlock ≤ floor ∧ floor ≤ first.lastBlock := by
  have hk := run_keepsWindow hn h hok hrun
  have hr := h.run (runOk_mono hok) hrun
  have hm := reachable_mirrored ((reachable_due hn hr).1.mono fun _ _ hok => hok.1) c hc
  refine ⟨?_, ?_, ?_⟩
  · intro number hs hnx
    unfold Stored at hs ⊢
    rw [Db.listChunks_all] at hs ⊢
    refine hk.covers number hs fun last hlast => ?_
    rw [(hm.afterHead hlast).2] at hnx
    change last.lastBlock < number + n
    omega
  · rw [Db.getFirstChunk_eq, Db.getFirstChunk_eq]
    exact hk.first
  · intro floor hf
    obtain ⟨c₁, hc₁, hd⟩ := (reachable_due hn hr).2 floor hf
    obtain rfl : c = c₁ := Option.some.inj (hc.symm.trans hc₁)
    refine ⟨hd.next, ?_⟩
    intro commit db' c' keptHead hrt
    obtain ⟨hkp, _, chunk, rest, hsp, ha, -, hh⟩ :=
      due_retain hn hr hf hc hrt
    refine ⟨hkp, ?_, chunk, ?_, hh⟩
    · rw [Db.getLastChunk_eq, Db.getLastChunk_eq, hsp, ha, getLast?_append,
        getLast?_eq_some_getLast (cons_ne_nil chunk rest)]
      rfl
    · rw [Db.getFirstChunk_eq, ha]
      rfl

end Invariants

end Handling

/-! ### Two chunks, and a window of three blocks -/

section Sample

local instance retentionFormat : TableFormat := catalogFormat []

def storeMessage (chunk : Chunk) : IngestionOp :=
  .handle (.newChunk ⟨false, false⟩ none chunk (.ok ()) (.ok ()))

theorem extendsHead_of_next {w : Writer}
    (h : (w.controller.bind WriteController.head).all fun head =>
      chunk.firstBlock = head.number + 1) :
    ExtendsHead w chunk := by
  intro c hc head hh
  rw [Option.mem_def.mp hc, Option.bind_some, Option.mem_def.mp hh] at h
  simpa using h

theorem storeMessage_ok {s : Ingestion} (chunk : Chunk)
    (h : (s.writer.controller.bind WriteController.head).all fun head =>
      chunk.firstBlock = head.number + 1) :
    (Ingestion.machine "main" "evm" 3).RunOk (MessagesOnly "main") s [storeMessage chunk] :=
  ⟨⟨extendsHead_of_next h, by simp [storeMessage]⟩, fun _ _ => trivial⟩

theorem low_chunk_reachable {s : Ingestion}
    (h : (Ingestion.machine "main" "evm" 3).run ⟨⟨Node.start Db.empty [], none⟩, none⟩
      [.writer (.node .serve), .writer (.new ⟨none, 0⟩ ⟨none, 0⟩ (.ok ())),
        storeMessage lowChunk] = some s) :
    (Ingestion.machine "main" "evm" 3).Reachable (TilingStream "main") s := by
  refine .run (.init rfl) ?_ h
  refine ⟨?_, fun s hs => ⟨?_, fun t ht => ⟨?_, fun _ _ => trivial⟩⟩⟩
  · simp [TilingStream, Appends, Writer.KeepsDataset, Writer.SoleWriter]
  · simp [TilingStream, Appends, Writer.KeepsDataset, Writer.SoleWriter]
  · cases hs
    cases ht
    exact extendsHead_of_next (by decide +kernel)

theorem high_chunk_trims_low_chunk :
    ∃ s c, (Ingestion.machine "main" "evm" 3).run ⟨⟨Node.start Db.empty [], none⟩, none⟩
        [.writer (.node .serve), .writer (.new ⟨none, 0⟩ ⟨none, 0⟩ (.ok ())),
          storeMessage lowChunk, storeMessage highChunk] = some s ∧
      s.writer.controller = some c ∧ s.floor = some 13 ∧
      ((c.retain s.writer.node.db 13 none (.ok ())).map fun r =>
        (r.1.listChunks "main" 0 none, r.2.2)) = .ok ([highChunk], true) ∧
      ∀ commit db' c' keptHead,
        c.retain s.writer.node.db 13 none commit = .ok (db', c', keptHead) → keptHead = true := by
  refine ⟨_, _, rfl, rfl, by decide +kernel, by decide +kernel, ?_⟩
  intro commit db' c' keptHead hr
  have hk := head_retention_keeps_the_window (by decide) (low_chunk_reachable rfl)
    (storeMessage_ok highChunk (by decide +kernel)) rfl rfl
  exact ((hk.2.2 13 (by decide +kernel)).2 commit db' c' keptHead hr).1

end Sample

end Hotblocks
