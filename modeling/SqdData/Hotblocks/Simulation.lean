import SqdData.Hotblocks.Writer
import SqdData.Storage.ChunkRows

/-!
# Controller calls as dataset updates

Every call of the controller is a dataset update of the node, or gives up the tables of a refused
chunk, or changes nothing. So a run of the writer is a run of the node, and what is known of tables
and snapshots along runs of the node holds here.
-/

namespace Hotblocks

open List

open Storage

variable [TableFormat] {dataset : DatasetId} {kind : DatasetKind} {db db' : Db}
  {c c' : WriteController} {call : Call} {w w' : Writer} {op : WriterOp}
  {P : Db → Chunk → Prop}

/-! ### Staged edits -/

variable {flags : IndexFlags}

theorem staged_of_forall {Q : Db → Edit → Db → Prop} {edits : List Edit}
    (h : ∀ edit ∈ edits, ∀ db db', Q db edit db') (upd : DatasetUpdate) :
    Db.Staged Q flags dataset upd edits := by
  induction edits generalizing upd with
  | nil => trivial
  | cons edit _ ih =>
    intro upd' _
    refine ⟨h edit mem_cons_self _ _, ih ?_ upd'⟩
    exact fun e he => h e (mem_cons_of_mem _ he)

variable {label : DatasetLabel}

theorem update_of_edits {edits : List Edit} {upd : DatasetUpdate}
    (hl : db.getLabel dataset = some label)
    (hf : edits.foldlM (Db.applyEdit flags dataset) ⟨db, label⟩ = .ok upd) :
    db.update dataset flags edits (.ok ()) = .ok (upd.finish dataset, ()) :=
  Db.updateDataset_eq_ok.mpr ⟨label, upd, hl, bind_eq_ok.mpr ⟨upd, hf, rfl⟩, rfl, rfl⟩

variable {gone : List Chunk}

/-- Removing chunks one by one, then setting the finalized head. -/
theorem foldlM_deleteChunk (flags : IndexFlags) (upd : DatasetUpdate) {mid : Db}
    (fin : Option BlockRef) (h : Db.removeChunks dataset gone upd.db = .ok mid) :
    (gone.map Edit.deleteChunk ++ [Edit.setFinalizedHead fin]).foldlM
        (Db.applyEdit flags dataset) upd =
      .ok ⟨mid, upd.label.setFinalizedHead fin⟩ := by
  induction gone generalizing upd with
  | nil =>
    cases h
    rfl
  | cons _ _ ih =>
    obtain ⟨db₁, h₁, h₂⟩ := bind_eq_ok.mp (by simpa [Db.removeChunks] using h)
    refine bind_eq_ok.mpr ⟨{ upd with db := db₁ }, ?_, ih { upd with db := db₁ } h₂⟩
    exact bind_eq_ok.mpr ⟨db₁, h₁, rfl⟩

variable {s : Node}

/-- Chunks removed from the front of the dataset are found where they are removed. -/
theorem staged_deleteChunk {rest : List Chunk} {upd : DatasetUpdate} {fin : Option BlockRef}
    (h : (upd.db.chunkSet dataset).toList = gone ++ rest) :
    Db.Staged (fun db edit _ => s.EditOk dataset db edit) flags dataset upd
      (gone.map Edit.deleteChunk ++ [Edit.setFinalizedHead fin]) := by
  induction gone generalizing upd with
  | nil => exact fun _ _ => ⟨trivial, trivial⟩
  | cons chunk gone ih =>
    intro upd' hu
    obtain ⟨_, h₁, hu⟩ := bind_eq_ok.mp hu
    cases hu
    refine ⟨?_, ih ?_⟩
    · change chunk ∈ (upd.db.chunkSet dataset).toList
      rw [h]
      exact mem_cons_self
    · have hf : (upd.db.chunkSet dataset).toList = [chunk] ++ (gone ++ rest) := h
      rw [(Db.removeChunk_removed h₁).chunkSet_self]
      exact Keyed.toList_eraseAll_front hf

/-! ### The run of the node -/

namespace Writer

/-- Inputs of a run in which the controller is the only one to update the dataset, tables are handed
over by those who built them, and chunks of other datasets are inserted apart. -/
def Orderly (dataset : DatasetId) (w : Writer) (op : WriterOp) : Prop :=
  SoleWriter dataset w op ∧
    match op with
    | .node op => w.node.Orderly op
    | .call (.newChunk _ _ chunk _ _) => ∀ id ∈ chunk.tables.values, w.node.Usable id
    | _ => True

/-- Orderly inputs in which every chunk that is brought in satisfies `P`. -/
def Fed (P : Db → Chunk → Prop) (dataset : DatasetId) (w : Writer) (op : WriterOp) : Prop :=
  Orderly dataset w op ∧
    match op with
    | .node op => w.node.Supplies P op
    | .call (.newChunk _ _ chunk _ _) => P w.node.db chunk
    | _ => True

instance (dataset : DatasetId) (w : Writer) (op : WriterOp) :
    Decidable (SoleWriter dataset w op) :=
  match op with
  | .node (.update updated flags edits commit) =>
    decidable_of_iff (updated ≠ dataset)
      ⟨fun hne flags edits commit heq => hne (by cases heq; rfl),
        fun ha heq => ha flags edits commit (by rw [heq])⟩
  | .node (.openTable _) | .node (.flush ..) | .node (.finishTable ..) | .node (.writeStatistic ..)
  | .node (.closeTable _) | .node (.dropBuilder _) | .node (.deleteTables ..)
  | .node (.compactionStart ..) | .node (.compactionBuild ..) | .node (.compactionStop _)
  | .node (.compactionCommit ..) | .node (.compactionAbandon ..) | .node (.createDataset ..)
  | .node (.createDatasetIfNotExists ..) | .node (.dropDataset ..) | .node (.purgeHashBatch ..)
  | .node .finishDrop | .node .scanDeleted | .node .scanOrphans | .node (.purgeScanned _)
  | .node (.reclaim _ _) | .node .serve | .node .crash => isTrue fun _ _ _ h => by cases h
  | .new .. | .drop | .call _ => isTrue trivial

instance (dataset : DatasetId) (w : Writer) (op : WriterOp) : Decidable (Orderly dataset w op) := by
  unfold Orderly
  refine @instDecidableAnd _ _ inferInstance ?_
  cases op with
  | call call => cases call <;> dsimp only <;> infer_instance
  | _ => dsimp only; infer_instance

instance [∀ db chunk, Decidable (P db chunk)] (dataset : DatasetId) (w : Writer) (op : WriterOp) :
    Decidable (Fed P dataset w op) := by
  unfold Fed
  refine @instDecidableAnd _ _ inferInstance ?_
  cases op with
  | call call => cases call <;> dsimp only <;> infer_instance
  | _ => dsimp only; infer_instance

def Matched (P : Db → Chunk → Prop) (s s' : Node) : Prop :=
  ∃ inputs, Node.machine.RunOk (Node.Fed P) s inputs ∧ Node.machine.run s inputs = some s'

theorem matched_refl (s : Node) : Matched P s s := ⟨[], trivial, rfl⟩

theorem matched_step {s' : Node} {op : NodeOp} (h : s.step op = some s') (hok : s.Fed P op) :
    Matched P s s' := by
  refine ⟨[op], ⟨hok, fun _ _ => trivial⟩, ?_⟩
  change (s.step op >>= some) = some s'
  rw [h]
  rfl

/-- A dataset update as a step of the node. -/
theorem matched_update (flags : IndexFlags) (edits : List Edit) (upd : DatasetUpdate)
    (hs : s.serving = true) (hl : s.db.getLabel dataset = some label)
    (hf : edits.foldlM (Db.applyEdit flags dataset) ⟨s.db, label⟩ = .ok upd)
    (hok : Db.Staged (fun db edit _ => s.EditOk dataset db edit) flags dataset ⟨s.db, label⟩ edits)
    (hsp : ∀ edit ∈ edits, ∀ chunk, edit ≠ .insertChunk chunk)
    (hfd : ∀ edit ∈ edits, ∀ chunk ∈ edit.inserted, P s.db chunk) :
    Matched P s { s with db := upd.finish dataset } := by
  have hst : s.step (.update dataset flags edits (.ok ())) =
      some { s with db := upd.finish dataset } := by
    simp only [Node.step, hs, update_of_edits hl hf]
    rfl
  refine matched_step hst ⟨⟨?_, ?_⟩, hfd⟩
  · intro label' hl'
    cases hl.symm.trans hl'
    exact hok
  · intro label' _
    refine staged_of_forall (fun edit he db db' => ?_) _
    cases edit with
    | insertChunk chunk => exact absurd rfl (hsp _ he chunk)
    | insertFork => exact trivial
    | deleteChunk => exact trivial
    | setFinalizedHead => exact trivial

theorem matched_trimmed {rest : List Chunk} {fin : Option BlockRef} (hs : s.serving = true)
    (hl : s.db.getLabel dataset = some label) (hsp : (s.db.chunkSet dataset).toList = gone ++ rest)
    (h : Trimmed s.db dataset gone label fin db') : Matched P s { s with db := db' } := by
  obtain ⟨_, hm, rfl⟩ := h
  have hn : ∀ edit ∈ gone.map Edit.deleteChunk ++ [Edit.setFinalizedHead fin],
      edit.inserted = none := by
    intro edit he
    rcases mem_append.mp he with he | he
    · obtain ⟨g, -, rfl⟩ := mem_map.mp he
      rfl
    · rw [mem_singleton.mp he]
      rfl
  refine matched_update ⟨false, false⟩ _ _ hs hl
    (foldlM_deleteChunk _ ⟨s.db, label⟩ fin hm) (staged_deleteChunk hsp) ?_ ?_
  · rintro edit he chunk rfl
    cases hn _ he
  · intro edit he chunk hc
    rw [hn edit he] at hc
    cases hc

/-- A call that succeeded is an update of the node. -/
theorem matched_called (hs : s.serving = true) (h : CallEffect c s.db call db' c')
    (hok : ∀ flags report chunk commit abandon,
      call = .newChunk flags report chunk commit abandon →
        (∀ id ∈ chunk.tables.values, s.Usable id) ∧ P s.db chunk) :
    Matched P s { s with db := db' } := by
  cases h with
  | idle => exact matched_refl s
  | @inserted flags report chunk commit abandon _ forked update label h =>
    rw [h.result]
    refine matched_update flags [.setFinalizedHead update.1, .insertFork chunk]
      ⟨forked, label.setFinalizedHead update.1⟩ hs h.label_eq ?_ ?_ (by simp) ?_
    · refine bind_eq_ok.mpr ⟨⟨s.db, label.setFinalizedHead update.1⟩, rfl, ?_⟩
      exact bind_eq_ok.mpr ⟨_, bind_eq_ok.mpr ⟨forked, h.fork, rfl⟩, rfl⟩
    · rintro upd hu
      cases hu
      refine ⟨trivial, fun upd' _ => ⟨?_, trivial⟩⟩
      exact (hok flags report chunk commit abandon rfl).1
    · intro edit he g hg
      have hfd := (hok flags report chunk commit abandon rfl).2
      rcases mem_cons.mp he with rfl | he
      · cases hg
      · rw [mem_singleton.mp he] at hg
        cases hg
        exact hfd
  | @applied head report fin commit _ label head_eq h =>
    rcases h.result with ⟨fin', hf, hdb⟩ | ⟨⟨reason, hr⟩, -⟩
    · cases hf
      rw [hdb]
      refine matched_update ⟨false, false⟩ [.setFinalizedHead (some fin)]
        ⟨s.db, label.setFinalizedHead (some fin)⟩ hs h.label_eq rfl ?_ (by simp)
        (by simp [Edit.inserted])
      exact fun _ _ => ⟨trivial, trivial⟩
    · cases hr
  | @ignored head report reason commit _ label head_eq h =>
    rcases h.result with ⟨_, hf, -⟩ | ⟨-, hdb⟩
    · cases hf
    · rw [hdb]
      exact matched_update ⟨false, false⟩ [] ⟨s.db, label⟩ hs h.label_eq rfl trivial
        (by simp) (by simp)
  | @retained _ r _ status label retention moved label_eq h =>
    cases h with
    | kept _ _ _ _ split _ _ _ _ _ trimmed =>
      exact matched_trimmed hs label_eq split trimmed
    | cleared _ _ _ trimmed =>
      exact matched_trimmed hs label_eq (append_nil _).symm trimmed

/-- There is a controller only while the node serves. -/
theorem reachable_serving {ok : Writer → WriterOp → Prop}
    (h : (machine dataset kind).Reachable ok w) : ∀ c, w.controller = some c →
      w.node.serving = true := by
  refine h.invariant (P := fun w => ∀ c, w.controller = some c → w.node.serving = true) ?_ ?_
  · rintro w rfl c hc
    cases hc
  · intro w op w' _ hw _ hs c hc
    cases op with
    | node =>
      obtain ⟨_, -, hs⟩ := Option.bind_eq_some_iff.mp hs
      cases hs
      by_contra hnot
      simp [hnot] at hc
    | new =>
      obtain ⟨hcn, hs⟩ := Option.ite_none_right_eq_some.mp hs
      cases hs
      simp only [Bool.and_eq_true] at hcn
      exact hcn.1.1
    | drop =>
      cases hs
      cases hc
    | call =>
      obtain ⟨c₀, hc₀, hs⟩ := Option.bind_eq_some_iff.mp hs
      cases hs
      exact hw c₀ hc₀

theorem step_matched (hs : ∀ c, w.controller = some c → w.node.serving = true)
    (hok : Fed P dataset w op) (hst : w.step dataset kind op = some w') :
    Matched P w.node w'.node := by
  obtain ⟨⟨hsl, ho⟩, hf⟩ := hok
  cases step_effect hsl hst with
  | node step => exact matched_step step ⟨ho, hf⟩
  | opened step => exact matched_step step ⟨⟨trivial, trivial⟩, trivial⟩
  | dropped => exact matched_refl _
  | @failed call c db' e controller result same =>
    cases call with
    | newChunk _ _ chunk _ abandon =>
      obtain ⟨-, rfl⟩ := newChunk_eq_error result
      have hst : w.node.step (.deleteTables chunk.tables.values abandon) = some _ := rfl
      exact matched_step hst ⟨⟨ho, trivial⟩, trivial⟩
    | finalize =>
      obtain ⟨rfl, -⟩ := settle_eq_error result
      exact matched_refl _
    | retain =>
      obtain ⟨rfl, -⟩ := settle_eq_error result
      exact matched_refl _
    | initRetention =>
      obtain ⟨rfl, -⟩ := settle_eq_error result
      exact matched_refl _
  | called controller effect =>
    refine matched_called (hs _ controller) effect ?_
    rintro flags report chunk commit abandon rfl
    exact ⟨ho, hf⟩

/-- A run of the writer is a run of its node. -/
theorem reachable_node (h : (machine dataset kind).Reachable (Fed P dataset) w) :
    Node.machine.Reachable (Node.Fed P) w.node := by
  refine h.simulate (f := Writer.node) ?_ ?_
  · rintro w rfl
    rfl
  · intro w op w' hr _ hok hs
    exact step_matched (reachable_serving hr) hok hs

end Writer

end Hotblocks
