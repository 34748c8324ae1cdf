import SqdData.Hotblocks.Finality

/-!
# Bounds of the finalized head

The finalized head never leaves the window of stored chunks. The bound against the logical floor,
the first block the controller reports, is weaker: retention drops whole chunks, and it keeps a
finalized head at or above the start of the chunk that holds the floor, also when the head is below
the floor. Apart from such retentions both bounds are invariant.
-/

namespace Hotblocks

open List

open Storage

section Bounds

variable [TableFormat] {dataset : DatasetId} {kind : DatasetKind} {db db' : Db}
  {c c' : WriteController} {call : Call} {w w' : Writer} {op : WriterOp} {n : Nat}

/-- The height `n` lies between the ends of a list of chunks. -/
structure InWindow (chunks : List Chunk) (n : Nat) : Prop where
  start : ∃ first ∈ chunks.head?.map Chunk.firstBlock, first ≤ n
  stop : ∃ head ∈ chunks.getLast?.map getChunkHead, n ≤ head.number

variable {chunk : Chunk}

omit [TableFormat] in
theorem inWindow_of_covers {chunks : List Chunk} (ht : chunkSegments.Tiles chunks)
    (hm : chunk ∈ chunks) (hf : chunk.firstBlock ≤ n) (hlast : n ≤ chunk.lastBlock) :
    InWindow chunks n := by
  have hne : chunks ≠ [] := ne_nil_of_mem hm
  constructor
  · refine ⟨_, by rw [head?_eq_some_head hne]; rfl, ?_⟩
    cases chunks with
    | nil => cases hm
    | cons a =>
      rcases mem_cons.mp hm with rfl | hr
      · exact hf
      · have hlt : a.firstBlock < chunk.firstBlock := rel_of_pairwise_cons ht.sorted_first hr
        simp only [head_cons]
        omega
  · refine ⟨_, by rw [getLast?_eq_some_getLast hne]; rfl, ?_⟩
    change n ≤ (chunks.getLast hne).lastBlock
    rw [← dropLast_append_getLast hne] at hm ht
    rcases mem_append.mp hm with hfr | he
    · have hlt : chunk.lastBlock < (chunks.getLast hne).firstBlock :=
        (pairwise_append.mp ht.pairwise).2.2 chunk hfr _ (mem_singleton_self _)
      have := (chunks.getLast hne).first_le_last
      omega
    · rw [← mem_singleton.mp he]
      exact hlast

omit [TableFormat] in
/-- Replacing a run of chunks by one with the same ends keeps the window. -/
theorem InWindow.merge {front merge back : List Chunk} {newChunk : Chunk}
    (hs : Spans merge newChunk) (h : InWindow (front ++ merge ++ back) n) :
    InWindow (front ++ [newChunk] ++ back) n := by
  obtain ⟨⟨first, hf, hle⟩, head, hh, hge⟩ := h
  refine ⟨⟨first, ?_, hle⟩, head, ?_, hge⟩
  · rw [hs.start_eq]
    exact hf
  · rw [hs.head_eq]
    exact hh

omit [TableFormat] in
/-- A fork that does not start below the window keeps its start. -/
theorem InWindow.fork {kept dropped : List Chunk} (h : InWindow (kept ++ dropped) n)
    (ha : ∀ d ∈ dropped, chunk.firstBlock ≤ d.firstBlock)
    (hst : ∀ first ∈ (kept ++ dropped).head?.map Chunk.firstBlock, first ≤ chunk.firstBlock)
    (hlast : n ≤ chunk.lastBlock) : InWindow (kept ++ [chunk]) n := by
  obtain ⟨⟨first, hf, hle⟩, -⟩ := h
  refine ⟨?_, getChunkHead chunk, by simp, hlast⟩
  cases kept with
  | cons => exact ⟨first, hf, hle⟩
  | nil =>
    cases dropped with
    | nil => cases hf
    | cons d =>
      have hd := ha d mem_cons_self
      have hs := hst d.firstBlock rfl
      obtain rfl : d.firstBlock = first := Option.some.inj hf
      exact ⟨chunk.firstBlock, rfl, by omega⟩

/-- The finalized head lies in the window of stored chunks. -/
def Anchored (dataset : DatasetId) (db : Db) : Prop :=
  ∀ label, db.getLabel dataset = some label → ∀ fin ∈ label.finalizedHead,
    InWindow (db.chunkSet dataset).toList fin.number

theorem Anchored.datasetStep {s : Node} {op : NodeOp} (h : Anchored dataset s.db)
    (hs : Node.DatasetStep dataset s op db') : Anchored dataset db' := by
  intro label hl fin hf
  cases hs with
  | same label' chunks =>
    rw [chunks]
    exact h label (label'.symm.trans hl) fin hf
  | created _ _ label' =>
    rw [label'] at hl
    cases hl
    cases hf
  | dropped _ _ label' =>
    rw [label'] at hl
    cases hl
  | compacted _ _ _ _ label₁ spans effect =>
    cases effect.getLabel.symm.trans hl
    have hold := h label₁ effect.label_eq fin hf
    rw [effect.split] at hold
    rw [effect.chunkSet_self]
    exact hold.merge spans

/-- A block found at a height, in the chunk that is being inserted or below it, lies in the window
that the insertion leaves. -/
theorem found_inWindow {kept dropped : List Chunk} {head : BlockRef}
    (ht : chunkSegments.Tiles (kept ++ dropped))
    (hsp : (db.chunkSet dataset).toList = kept ++ dropped)
    (ht' : chunkSegments.Tiles (kept ++ [chunk]))
    (ha : ∀ d ∈ dropped, chunk.firstBlock ≤ d.firstBlock)
    (hst : ∀ first ∈ (kept ++ dropped).head?.map Chunk.firstBlock, first ≤ chunk.firstBlock)
    (hle : head.number ≤ chunk.lastBlock) (hfn : FoundBlock db dataset (some chunk) head) :
    InWindow (kept ++ [chunk]) head.number := by
  rcases hfn with ⟨owner, ho, hf, hlast, -⟩ | ⟨-, hs⟩
  · cases ho
    exact inWindow_of_covers ht' (by simp) hf hlast
  · obtain ⟨owner, hm, hf, hlast, -⟩ := findStoredBlockHash_eq_some hs
    have hm' : owner ∈ kept ++ dropped := hsp ▸ hm
    exact (inWindow_of_covers ht hm' hf hlast).fork ha hst hle

variable {label : DatasetLabel}

theorem NewChunkCommitted.anchored {flags : IndexFlags} {report : Option BlockRef}
    {update : FinalityUpdate} {forked : Db}
    (h : NewChunkCommitted db c flags report chunk db' update label forked)
    (ht : chunkSegments.Tiles (db.chunkSet c.datasetId).toList)
    (han : Anchored c.datasetId db) : Anchored c.datasetId db' := by
  obtain ⟨kept, dropped, hs, hab, hl, haf⟩ := h.chunks
  have hst : ∀ first ∈ (kept ++ dropped).head?.map Chunk.firstBlock, first ≤ chunk.firstBlock := by
    intro first hf
    have hp := (checkPosition_eq_ok.mp h.position).1
    rw [windowStart_eq, hs, Option.mem_def.mp hf] at hp
    exact hp
  rw [hs] at ht
  have ht' := ht.of_append_left.concat hl
  intro label' hl' fin hfi
  rw [h.result, Db.getLabel_writeLabel_self] at hl'
  cases hl'
  rw [haf]
  rcases resolveReport_cases h.resolved with hsm | ⟨head, hh, ha⟩
  · have hfi' : fin ∈ label.finalizedHead := hsm ▸ hfi
    have hold := han label h.label_eq fin hfi'
    rw [hs] at hold
    refine hold.fork hab hst ?_
    by_cases hle : chunk.firstBlock ≤ fin.number
    · exact (checkFinalizedHistory_eq_ok.mp h.history fin hfi' hle).1
    · have := chunk.first_le_last
      omega
  · obtain rfl : head = fin := Option.some.inj (hh.symm.trans hfi)
    rcases ha.found with rfl | hfn
    · exact inWindow_of_covers ht' (by simp) chunk.first_le_last le_rfl
    · exact found_inWindow ht hs ht' hab hst ha.le_post hfn

theorem FinalizeCommitted.anchored {head report : BlockRef} {decision : FinalityDecision}
    (h : FinalizeCommitted db c head report db' decision label)
    (ht : chunkSegments.Tiles (db.chunkSet c.datasetId).toList)
    (han : Anchored c.datasetId db) : Anchored c.datasetId db' := by
  intro label' hl' fin hfn
  rw [h.chunks]
  obtain ⟨label₁, hl₁, hc⟩ := h.label_after
  obtain rfl : label₁ = label' := Option.some.inj (hl₁.symm.trans hl')
  rcases hc with ⟨applied, rfl, hn⟩ | ⟨-, hsm⟩
  · obtain rfl : applied = fin := Option.some.inj (hn.symm.trans hfn)
    obtain ⟨_, ha⟩ := resolveFinality_applied h.resolved
    rcases ha.stored with ⟨last, hm, rfl⟩ | hs
    · exact inWindow_of_covers ht hm last.first_le_last le_rfl
    · obtain ⟨_, hm, hf, hlast, -⟩ := findStoredBlockHash_eq_some hs
      exact inWindow_of_covers ht hm hf hlast
  · exact han label h.label_eq fin (hsm ▸ hfn)

variable {r : Retention}

theorem Retained.anchored {status : RetainStatus} (h : Retained db dataset r label db' status)
    (hl : db.getLabel dataset = some label) (ha : Anchored dataset db) : Anchored dataset db' := by
  intro label' hl' fin hfn
  cases h with
  | kept _ chunk _ _ split _ fin_eq chunks label_eq =>
    rw [label_eq] at hl'
    cases hl'
    have hf : label.finalizedHead.filter (fun h => chunk.firstBlock ≤ h.number) = some fin :=
      fin_eq.symm.trans hfn
    obtain ⟨hm, hge⟩ := Option.filter_eq_some_iff.mp hf
    obtain ⟨-, head, hh, hs⟩ := ha label hl fin hm
    rw [split, getLast?_append_of_ne_nil _ (cons_ne_nil _ _)] at hh
    rw [chunks]
    exact ⟨⟨chunk.firstBlock, rfl, by simpa using hge⟩, head, hh, hs⟩
  | cleared _ label_eq =>
    rw [label_eq] at hl'
    cases hl'
    cases hfn

theorem CallEffect.anchored (h : CallEffect c db call db' c')
    (ht : chunkSegments.Tiles (db.chunkSet c.datasetId).toList)
    (ha : Anchored c.datasetId db) : Anchored c.datasetId db' := by
  cases h with
  | idle => exact ha
  | inserted h => exact h.anchored ht ha
  | applied _ h => exact h.anchored ht ha
  | ignored _ h => exact h.anchored ht ha
  | retained _ _ label_eq h => exact h.anchored label_eq ha

theorem reachable_anchored
    (h : (Writer.machine dataset kind).Reachable (Writer.SoleWriter dataset) w) :
    Anchored dataset w.node.db := by
  refine h.invariant (P := fun w => Anchored dataset w.node.db) ?_ ?_
  · rintro w rfl label hl
    cases hl
  · intro w op w' hr hw hok hs
    have ht := reachable_tiled hr
    cases Writer.step_effect hok hs with
    | node _ effect => exact hw.datasetStep effect
    | opened _ effect => exact hw.datasetStep effect
    | dropped => exact hw
    | failed _ _ same =>
      intro label hl fin hf
      rw [same.chunkSet]
      exact hw label (same.getLabel.symm.trans hl) fin hf
    | called controller effect =>
      obtain rfl := ht.own _ controller
      exact effect.anchored ht.chunks hw

/-- Inputs of runs in which no retention puts the floor above a finalized head that lies in the
chunk holding the floor. -/
def FloorBelowFinalized (dataset : DatasetId) (w : Writer) (op : WriterOp) : Prop :=
  Writer.KeepsDataset dataset w op ∧
    ∀ c call r, w.controller = some c → op = .call call → call.retention = some r →
      c.startsAt r.fromBlock r.parentBlockHash = false →
      ∀ chunk ∈ w.node.db.chunkSet dataset,
        chunk.firstBlock ≤ r.fromBlock → r.fromBlock ≤ chunk.lastBlock →
        ∀ fin ∈ c.finalizedHead, chunk.firstBlock ≤ fin.number → r.fromBlock ≤ fin.number

/-- The finalized head of the controller is not below its floor. -/
def AboveFloor (w : Writer) : Prop :=
  ∀ c, w.controller = some c → ∀ fin ∈ c.finalizedHead, c.firstBlock ≤ fin.number

omit [TableFormat] in
/-- Under the condition on retentions, filtering by the start of the kept chunk is filtering by the
floor. -/
theorem Retained.finalizedHead_eq (hf : chunk.firstBlock ≤ r.fromBlock)
    (hc : ∀ fin ∈ label.finalizedHead, chunk.firstBlock ≤ fin.number → r.fromBlock ≤ fin.number) :
    label.finalizedHead.filter (fun h => chunk.firstBlock ≤ h.number) =
      label.finalizedHead.filter (fun h => r.fromBlock ≤ h.number) := by
  cases hfn : label.finalizedHead with
  | none => rfl
  | some fin =>
    have hi : chunk.firstBlock ≤ fin.number ↔ r.fromBlock ≤ fin.number :=
      ⟨hc fin hfn, fun h => hf.trans h⟩
    simp [Option.filter, hi]

theorem Retained.applied {status : RetainStatus} (h : Retained db dataset r label db' status)
    (hc : ∀ chunk ∈ db.chunkSet dataset, chunk.firstBlock ≤ r.fromBlock →
      r.fromBlock ≤ chunk.lastBlock → ∀ fin ∈ label.finalizedHead,
        chunk.firstBlock ≤ fin.number → r.fromBlock ≤ fin.number) :
    ((c.applyRetain r status).2 = true ∧ (c.applyRetain r status).1.finalizedHead =
        label.finalizedHead.filter fun fin => r.fromBlock ≤ fin.number) ∨
      ((c.applyRetain r status).2 = false ∧ (c.applyRetain r status).1.finalizedHead = none) := by
  cases h with
  | kept _ chunk _ _ split holds fin_eq _ _ status_eq =>
    left
    subst status_eq
    refine ⟨rfl, ?_⟩
    have hm : chunk ∈ db.chunkSet dataset := by
      change chunk ∈ (db.chunkSet dataset).toList
      rw [split]
      simp
    have heq := Retained.finalizedHead_eq holds.1 (hc chunk hm holds.1 holds.2)
    exact fin_eq.trans heq
  | cleared _ _ status_ne =>
    right
    cases status with
    | range chunk head fin => exact absurd rfl (status_ne chunk head fin)
    | hashMismatch => exact ⟨rfl, rfl⟩
    | gap => exact ⟨rfl, rfl⟩
    | clear => exact ⟨rfl, rfl⟩

theorem CallEffect.aboveFloor (h : CallEffect c db call db' c') (hm : Mirrors dataset db c)
    (hf : ∀ fin ∈ c.finalizedHead, c.firstBlock ≤ fin.number)
    (hc : ∀ r, call.retention = some r → c.startsAt r.fromBlock r.parentBlockHash = false →
      ∀ chunk ∈ db.chunkSet dataset,
        chunk.firstBlock ≤ r.fromBlock → r.fromBlock ≤ chunk.lastBlock →
        ∀ fin ∈ c.finalizedHead, chunk.firstBlock ≤ fin.number → r.fromBlock ≤ fin.number) :
    ∀ fin ∈ c'.finalizedHead, c'.firstBlock ≤ fin.number := by
  obtain ⟨_, hl, hmr⟩ := hm.finalizedHead
  have ho := hm.datasetId
  intro fin hfn
  cases h with
  | idle => exact hf fin hfn
  | @inserted flags report chunk _ _ _ _ update label₁ h =>
    obtain ⟨-, hfr, -, hn, -⟩ := c.applyNewChunk_fields chunk update.1
    rw [hfr]
    rw [hn] at hfn
    rcases resolveReport_cases h.resolved with hs | ⟨head, hh, ha⟩
    · have hl₁ := h.label_eq
      rw [ho, hl] at hl₁
      cases hl₁
      exact hf fin (hmr ▸ hs ▸ hfn)
    · obtain rfl : head = fin := Option.some.inj (hh.symm.trans hfn)
      exact ha.floor_le
  | applied _ h =>
    cases hfn
    obtain ⟨_, ha⟩ := resolveFinality_applied h.resolved
    exact ha.floor_le
  | ignored => exact hf fin hfn
  | @retained _ r _ status label₁ retention moved label_eq h =>
    rw [ho, hl] at label_eq
    cases label_eq
    rw [ho] at h
    have hc' := hc r retention moved
    rw [hmr] at hc'
    have hfr : (c.applyRetain r status).1.firstBlock = r.fromBlock := by
      cases status <;> rfl
    rw [hfr]
    rcases h.applied (c := c) hc' with ⟨-, heq⟩ | ⟨-, heq⟩
    · rw [heq] at hfn
      simpa using (Option.filter_eq_some_iff.mp hfn).2
    · rw [heq] at hfn
      cases hfn

theorem reachable_aboveFloor
    (h : (Writer.machine dataset kind).Reachable (FloorBelowFinalized dataset) w) :
    AboveFloor w := by
  refine h.invariant ?_ ?_
  · rintro w rfl c hc
    cases hc
  · intro w op w' hr hw hok hs
    have hk := hr.mono fun _ _ hok => hok.1
    have hsl := hk.mono fun _ _ hok => hok.1
    have ha := reachable_anchored (hsl.step hok.1.1 hs)
    intro c hc
    cases Writer.step_effect hok.1.1 hs with
    | node _ _ controller =>
      rcases controller with hsm | hn
      · exact hw c (hsm ▸ hc)
      · rw [hn] at hc
        cases hc
    | opened _ _ controller =>
      obtain ⟨label, ho⟩ := controller c hc
      intro fin hfn
      rw [ho.finalizedHead] at hfn
      obtain ⟨first, hf, hle⟩ := (ha label ho.label_eq fin hfn).start
      rw [ho.firstBlock, Db.getFirstChunk_eq, Option.mem_def.mp hf]
      exact hle
    | dropped => cases hc
    | failed => exact hw c hc
    | called controller effect =>
      cases hc
      refine effect.aboveFloor (reachable_mirrored hk _ controller) (hw _ controller) ?_
      intro r hr' hm
      exact hok.2 _ _ r controller rfl hr' hm

/-- In runs without such retentions the finalized head lies between the logical first block and the
head, and a retention that keeps the head keeps the finalized head exactly when it is not below the
new floor. -/
theorem finalized_head_in_bounds
    (h : (Writer.machine dataset kind).Reachable (FloorBelowFinalized dataset) w)
    (hc : w.controller = some c) :
    (∀ fin ∈ c.finalizedHead,
      c.startBlock ≤ fin.number ∧ ∃ head ∈ c.head, fin.number ≤ head.number) ∧
    ∀ fromBlock parentBlockHash commit db' c',
      FloorBelowFinalized dataset w (.call (.retain fromBlock parentBlockHash commit)) →
      c.retain w.node.db fromBlock parentBlockHash commit = .ok (db', c', true) →
      c'.finalizedHead = c.finalizedHead.filter fun fin => fromBlock ≤ fin.number := by
  have hk := h.mono fun _ _ hok => hok.1
  have hm := reachable_mirrored hk c hc
  have hf := reachable_aboveFloor h c hc
  have ha := reachable_anchored (hk.mono fun _ _ hok => hok.1)
  obtain ⟨label, hl, hmr⟩ := hm.finalizedHead
  constructor
  · intro fin hfn
    refine ⟨hf fin hfn, ?_⟩
    obtain ⟨-, head, hh, hle⟩ := ha label hl fin (hmr ▸ hfn)
    refine ⟨head, ?_, hle⟩
    rw [hm.head, Db.getLastChunk_eq]
    exact hh
  · intro fromBlock parentBlockHash commit db' c' hok hrt
    rcases retainImpl_eq_ok hrt with
      ⟨hs, rfl, rfl, -⟩ | ⟨hmv, label₁, status, -, hl₁, hr, heq⟩
    · -- The window already starts there: nothing changes, and the floor is not above the head.
      have hfr : c'.firstBlock = fromBlock := by
        simp only [WriteController.startsAt, Bool.and_eq_true, decide_eq_true_eq] at hs
        exact hs.1
      cases hfn : c'.finalizedHead with
      | none => rfl
      | some fin =>
        have hle := hf fin hfn
        rw [hfr] at hle
        simp [Option.filter, hle]
    · rw [hm.datasetId, hl] at hl₁
      cases hl₁
      rw [hm.datasetId] at hr
      have hcn := hok.2 c _ _ hc rfl rfl hmv
      rw [hmr] at hcn
      rcases hr.applied (c := c) hcn with ⟨-, hn⟩ | ⟨hfl, -⟩
      · rw [heq] at hn
        rw [hmr]
        exact hn
      · rw [heq] at hfl
        cases hfl

end Bounds

/-! ### A floor inside a chunk -/

section Sample

/-- A table of the given blocks. -/
def tableOfBlocks (rows : List (Nat × Hash)) : Table where
  columns := [
    ⟨⟨"number", .uint64, false⟩, rows.map fun row => .uint (row.1 % 2 ^ 64),
      by simp [DataType.admits, Nat.mod_lt]⟩,
    ⟨⟨"hash", .utf8, false⟩, rows.map fun row => .text row.2, by simp [DataType.admits]⟩]
  sortKey := []
  even := by simp [rowCount]
  named := by simp
  keyed := by simp

/-- Three blocks of a chain that skips heights. -/
def sparseBlocks : Table := tableOfBlocks [(10, "0xa"), (12, "0xc"), (20, "0x14")]

local instance sparseFormat : TableFormat := catalogFormat [([[1]], sparseBlocks)]

theorem sparseChunk_ordered : 10 ≤ 20 := by decide

theorem sparseChunk_bounded : 20 ≤ maxBlockNumber := by decide

def sparseChunk : Chunk :=
  .v1 10 20 "0x14" "0x9" none none (Keyed.put ∅ ("blocks", 7)) sparseChunk_ordered
    sparseChunk_bounded

/-- Builds a table of three blocks, stores it in a chunk and finalizes the second one. -/
def sparseInputs : List WriterOp :=
  [.node .serve, .node (.openTable 7), .node (.finishTable 7 [(.schema, [1])]),
    .node (.closeTable 7), .new ⟨none, 0⟩ ⟨none, 0⟩ (.ok ()),
    .call (.newChunk ⟨false, false⟩ (some ⟨12, "0xc"⟩) sparseChunk (.ok ()) (.ok ()))]

theorem sparseInputs_reachable {w : Writer}
    (h : (Writer.machine "main" "evm").run ⟨Node.start Db.empty [], none⟩ sparseInputs = some w) :
    (Writer.machine "main" "evm").Reachable (FloorBelowFinalized "main") w := by
  refine .run (.init rfl) (Machine.runOk_of_forall ?_ _) h
  intro op hop w
  simp only [sparseInputs, mem_cons, not_mem_nil, or_false] at hop
  constructor
  · rcases hop with rfl | rfl | rfl | rfl | rfl | rfl <;>
      simp [Writer.KeepsDataset, Writer.SoleWriter]
  · rintro c call r - rfl hr
    rcases hop with hop | hop | hop | hop | hop | hop <;> cases hop
    cases hr

def sparseRetain : WriterOp := .call (.retain 11 none (.ok ()))

/-- A floor inside the chunk and not above the finalized block. -/
theorem sparseRetain_ok {w : Writer}
    (h : (Writer.machine "main" "evm").run ⟨Node.start Db.empty [], none⟩ sparseInputs = some w) :
    FloorBelowFinalized "main" w sparseRetain := by
  have hf : ∀ w ∈ (Writer.machine "main" "evm").run ⟨Node.start Db.empty [], none⟩ sparseInputs,
      ∀ c ∈ w.controller, ∀ fin ∈ c.finalizedHead, 11 ≤ fin.number := by
    decide +kernel
  refine ⟨by simp [sparseRetain, Writer.KeepsDataset, Writer.SoleWriter], ?_⟩
  rintro c call r hc ⟨⟩ ⟨⟩ - chunk - - - fin hfin -
  exact hf w h c hc fin hfin

theorem finalized_head_in_bounds_sample :
    ∃ w w' c c', (Writer.machine "main" "evm").run ⟨Node.start Db.empty [], none⟩ sparseInputs =
        some w ∧ w.controller = some c ∧ c.startBlock = 0 ∧
      (Writer.machine "main" "evm").run w [sparseRetain] = some w' ∧ w'.controller = some c' ∧
      c'.startBlock = 11 ∧ c'.finalizedHead = some ⟨12, "0xc"⟩ ∧
      (c'.startBlock ≤ 12 ∧ ∃ head ∈ c'.head, 12 ≤ head.number) ∧
      c'.finalizedHead = c.finalizedHead.filter fun fin => 11 ≤ fin.number := by
  have hr := sparseInputs_reachable rfl
  have hok := sparseRetain_ok rfl
  obtain ⟨hbounds, -⟩ := finalized_head_in_bounds (hr.step hok rfl) rfl
  refine ⟨_, _, _, _, rfl, rfl, by decide +kernel, rfl, rfl, by decide +kernel, by decide +kernel,
    hbounds ⟨12, "0xc"⟩ (by decide +kernel), ?_⟩
  exact (finalized_head_in_bounds hr rfl).2 11 none (.ok ()) _ _ hok rfl

/-- Trimming to a floor above the finalized head, inside the chunk that holds it, succeeds and
keeps the head. -/
theorem retain_keeps_head_below_floor :
    ∃ w c db' c',
      (Writer.machine "main" "evm").Reachable (Writer.KeepsDataset "main") w ∧
      w.controller = some c ∧ c.retain w.node.db 15 none (.ok ()) = .ok (db', c', true) ∧
      c'.startBlock = 15 ∧ c'.finalizedHead = some ⟨12, "0xc"⟩ := by
  refine ⟨_, _, _, _, (sparseInputs_reachable rfl).mono fun _ _ hok => hok.1, rfl, rfl, ?_⟩
  exact ⟨by decide +kernel, by decide +kernel⟩

end Sample

end Hotblocks
