import SqdData.Hotblocks.WriteController
import SqdData.Storage.TransactionSpecs

/-!
# What the controller's transactions do

One specification per transaction of the write controller: the label it read, the checks it passed
and the chunks and label it left. The rest of the development reasons from these and does not
unfold the transactions again.
-/

namespace Hotblocks

open Storage

variable [TableFormat] {db db' : Db} {c : WriteController} {commit : Except Error Unit}

/-- What a committed `new_chunk` transaction went through. -/
structure NewChunkCommitted (db : Db) (c : WriteController) (flags : IndexFlags)
    (report : Option BlockRef) (chunk : Chunk) (db' : Db) (update : FinalityUpdate)
    (label : DatasetLabel) (forked : Db) : Prop where
  label_eq : db.getLabel c.datasetId = some label
  position : checkPosition db c.datasetId c.firstBlock chunk = .ok ()
  history : checkFinalizedHistory db c.datasetId label.finalizedHead chunk = .ok ()
  resolved : resolveReport db c.datasetId label.finalizedHead chunk c.firstBlock report = .ok update
  fork : db.insertFork flags c.datasetId chunk = .ok forked
  result : db' = forked.writeLabel c.datasetId (label.setFinalizedHead update.1).bumpVersion

theorem newChunkTx_eq_ok {flags : IndexFlags} {report : Option BlockRef} {chunk : Chunk}
    {update : FinalityUpdate} :
    newChunkTx db c flags report chunk commit = .ok (db', update) ↔
      commit = .ok () ∧
        ∃ label forked, NewChunkCommitted db c flags report chunk db' update label forked := by
  unfold newChunkTx
  rw [Db.updateDataset_eq_ok]
  constructor
  · rintro ⟨label, _, hl, hcb, hc, rfl⟩
    obtain ⟨_, hp, hcb⟩ := bind_eq_ok.mp hcb
    obtain ⟨_, hh, hcb⟩ := bind_eq_ok.mp hcb
    obtain ⟨⟨fin, ignored⟩, hr, hcb⟩ := bind_eq_ok.mp hcb
    obtain ⟨forked, hf, hcb⟩ := bind_eq_ok.mp hcb
    cases hcb
    exact ⟨hc, label, forked, hl, hp, hh, hr, hf, rfl⟩
  · rintro ⟨hc, label, forked, h⟩
    refine ⟨label, ⟨forked, label.setFinalizedHead update.1⟩, h.label_eq, ?_, hc, h.result⟩
    refine bind_eq_ok.mpr ⟨(), h.position, bind_eq_ok.mpr ⟨(), h.history, ?_⟩⟩
    exact bind_eq_ok.mpr ⟨update, h.resolved, bind_eq_ok.mpr ⟨forked, h.fork, rfl⟩⟩

/-- What a committed `finalize` transaction went through. -/
structure FinalizeCommitted (db : Db) (c : WriteController) (head report : BlockRef) (db' : Db)
    (decision : FinalityDecision) (label : DatasetLabel) : Prop where
  label_eq : db.getLabel c.datasetId = some label
  current : label.finalizedHead = c.finalizedHead
  head_eq : ∃ chunk, db.getLastChunk c.datasetId = some chunk ∧ chunk.lastBlockHash = head.hash
  resolved : resolveFinality db c.datasetId label.finalizedHead none c.firstBlock report =
    .ok decision
  result : (∃ h, decision = .applied h ∧
      db' = db.writeLabel c.datasetId (label.setFinalizedHead (some h)).bumpVersion) ∨
    ((∃ reason, decision = .ignored reason) ∧
      db' = db.writeLabel c.datasetId label.bumpVersion)

theorem finalizeTx_eq_ok {head report : BlockRef} {decision : FinalityDecision}
    (h : finalizeTx db c head report commit = .ok (db', decision)) :
    ∃ label, FinalizeCommitted db c head report db' decision label := by
  obtain ⟨label, _, hl, hcb, -, rfl⟩ := Db.updateDataset_eq_ok.mp h
  obtain ⟨_, hc, hcb⟩ := bind_eq_ok.mp hcb
  obtain ⟨_, hh, hcb⟩ := bind_eq_ok.mp hcb
  obtain ⟨dec, hr, hcb⟩ := bind_eq_ok.mp hcb
  have hh' : ∃ chunk, db.getLastChunk c.datasetId = some chunk ∧
      chunk.lastBlockHash = head.hash := by
    simpa [Option.any_eq_true, Db.getLastChunk] using hh
  have hc' : label.finalizedHead = c.finalizedHead := by simpa using hc
  cases dec with
  | applied newHead =>
    cases hcb
    exact ⟨label, hl, hc', hh', hr, Or.inl ⟨newHead, rfl, rfl⟩⟩
  | ignored reason =>
    cases hcb
    exact ⟨label, hl, hc', hh', hr, Or.inr ⟨⟨reason, rfl⟩, rfl⟩⟩
  | integrityFault => cases hcb

/-- The two ways a retention loop ends: at a chunk that holds the floor, with everything before it
removed, or with all chunks removed. -/
inductive RetainOutcome (dataset : DatasetId) (r : Retention) (chunks : List Chunk)
    (upd upd' : DatasetUpdate) (status : RetainStatus) : Prop where
  | kept (gone : List Chunk) (chunk : Chunk) (rest : List Chunk) (fin : Option BlockRef)
      (split : chunks = gone ++ chunk :: rest)
      (holds : chunk.firstBlock ≤ r.fromBlock ∧ r.fromBlock ≤ chunk.lastBlock)
      (removed : Db.removeChunks dataset gone upd.db = .ok upd'.db)
      (fin_eq : fin = upd.label.finalizedHead.filter fun h => chunk.firstBlock ≤ h.number)
      (label_eq : upd'.label = upd.label.setFinalizedHead fin)
      (status_eq : status =
        .range chunk ((chunk :: rest).getLast (List.cons_ne_nil _ _)) fin)
  | cleared (removed : Db.removeChunks dataset chunks upd.db = .ok upd'.db)
      (label_eq : upd'.label = upd.label.setFinalizedHead none)
      (status_ne : ∀ chunk head fin, status ≠ .range chunk head fin)

omit [TableFormat] in
/-- Clearing the finalized head when a filter drops it is storing the filtered head. -/
theorem setFinalizedHead_filter (upd : DatasetUpdate) (p : BlockRef → Bool) :
    (if (upd.label.finalizedHead.filter p).isNone then upd.setFinalizedHead none else upd) =
      { upd with label := upd.label.setFinalizedHead (upd.label.finalizedHead.filter p) } := by
  obtain ⟨_, _, _, fin⟩ := upd
  cases hf : fin.filter p with
  | none => simp [DatasetUpdate.setFinalizedHead, DatasetLabel.setFinalizedHead]
  | some h =>
    have hfn : fin = some h := (Option.filter_eq_some_iff.mp hf).1
    simp [DatasetLabel.setFinalizedHead, hfn]

variable {dataset : DatasetId} {r : Retention} {status : RetainStatus}

/-- A loop that removed one more chunk in front. -/
theorem RetainOutcome.cons {chunk : Chunk} {chunks : List Chunk} {upd upd' : DatasetUpdate}
    {db₁ : Db} (h₁ : upd.db.removeChunk dataset chunk = .ok db₁)
    (h : RetainOutcome dataset r chunks { upd with db := db₁ } upd' status) :
    RetainOutcome dataset r (chunk :: chunks) upd upd' status := by
  cases h with
  | kept gone first rest fin split holds removed fin_eq label_eq status_eq =>
    refine .kept (chunk :: gone) first rest fin (by rw [split]; rfl) holds ?_ fin_eq label_eq
      status_eq
    simp only [Db.removeChunks]
    exact bind_eq_ok.mpr ⟨db₁, h₁, removed⟩
  | cleared removed label_eq status_ne =>
    refine .cleared ?_ label_eq status_ne
    simp only [Db.removeChunks]
    exact bind_eq_ok.mpr ⟨db₁, h₁, removed⟩

theorem retainLoop_outcome {chunks : List Chunk} {upd upd' : DatasetUpdate}
    {status' : RetainStatus} (hl : (upd.db.chunkSet dataset).toList = chunks)
    (hs : ∀ chunk head fin, status ≠ .range chunk head fin)
    (h : retainLoop dataset r chunks status upd = .ok (upd', status')) :
    RetainOutcome dataset r chunks upd upd' status' := by
  induction chunks generalizing status upd with
  | nil =>
    cases h
    exact .cleared rfl rfl hs
  | cons chunk chunks ih =>
    -- Removing the first chunk leaves the listing the rest of the loop runs over.
    have hn : ∀ db₁, upd.db.removeChunk dataset chunk = .ok db₁ →
        (db₁.chunkSet dataset).toList = chunks := by
      intro db₁ h₁
      rw [(Db.removeChunk_removed h₁).chunkSet_self]
      exact Keyed.toList_eraseAll_front hl
    unfold retainLoop at h
    by_cases hb : chunk.lastBlock < r.fromBlock
    · rw [if_pos hb] at h
      obtain ⟨db₁, h₁, h₂⟩ := bind_eq_ok.mp h
      exact (ih (hn db₁ h₁) hs h₂).cons h₁
    · rw [if_neg hb] at h
      by_cases hg : r.fromBlock < chunk.firstBlock
      · rw [if_pos hg] at h
        split at h
        · obtain ⟨db₁, h₁, h₂⟩ := bind_eq_ok.mp h
          refine (ih (hn db₁ h₁) ?_ h₂).cons h₁
          intro first head fin
          split
          · simp
          · exact hs first head fin
        · cases h
      · rw [if_neg hg] at h
        obtain ⟨check, -, h⟩ := bind_eq_ok.mp h
        cases check with
        | some =>
          dsimp only at h
          split at h
          · obtain ⟨db₁, h₁, h₂⟩ := bind_eq_ok.mp h
            exact (ih (hn db₁ h₁) (by simp) h₂).cons h₁
          · cases h
        | none =>
          dsimp only at h
          rw [Db.listChunksReversed_all, List.head?_reverse, hl,
            List.getLast?_eq_some_getLast (List.cons_ne_nil _ _)] at h
          rw [setFinalizedHead_filter] at h
          cases h
          exact .kept [] chunk chunks _ rfl ⟨by omega, by omega⟩ rfl rfl rfl rfl

/-- The chunks `gone` were removed one by one, and the label was written with `fin`. -/
def Trimmed (db : Db) (dataset : DatasetId) (gone : List Chunk) (label : DatasetLabel)
    (fin : Option BlockRef) (db' : Db) : Prop :=
  ∃ mid, Db.removeChunks dataset gone db = .ok mid ∧
    db' = mid.writeLabel dataset (label.setFinalizedHead fin).bumpVersion

/-- What a committed retention left of the dataset. -/
inductive Retained (db : Db) (dataset : DatasetId) (r : Retention) (label : DatasetLabel)
    (db' : Db) (status : RetainStatus) : Prop where
  | kept (gone : List Chunk) (chunk : Chunk) (rest : List Chunk) (fin : Option BlockRef)
      (split : (db.chunkSet dataset).toList = gone ++ chunk :: rest)
      (holds : chunk.firstBlock ≤ r.fromBlock ∧ r.fromBlock ≤ chunk.lastBlock)
      (fin_eq : fin = label.finalizedHead.filter fun h => chunk.firstBlock ≤ h.number)
      (chunks : (db'.chunkSet dataset).toList = chunk :: rest)
      (label_eq : db'.getLabel dataset = some (label.setFinalizedHead fin).bumpVersion)
      (status_eq : status =
        .range chunk ((chunk :: rest).getLast (List.cons_ne_nil _ _)) fin)
      (trimmed : Trimmed db dataset gone label fin db')
  | cleared (chunks : (db'.chunkSet dataset).toList = [])
      (label_eq : db'.getLabel dataset = some (label.setFinalizedHead none).bumpVersion)
      (status_ne : ∀ chunk head fin, status ≠ .range chunk head fin)
      (trimmed : Trimmed db dataset (db.chunkSet dataset).toList label none db')

theorem retainTx_eq_ok (h : retainTx db dataset r commit = .ok (db', status)) :
    ∃ label upd, db.getLabel dataset = some label ∧
      RetainOutcome dataset r (db.chunkSet dataset).toList ⟨db, label⟩ upd status ∧
      db' = upd.finish dataset := by
  obtain ⟨label, upd, hl, hcb, -, rfl⟩ := Db.updateDataset_eq_ok.mp h
  rw [Db.listChunks_all] at hcb
  exact ⟨label, upd, hl, retainLoop_outcome rfl (by simp) hcb, rfl⟩

theorem retainTx_retained (h : retainTx db dataset r commit = .ok (db', status)) :
    ∃ label, db.getLabel dataset = some label ∧ Retained db dataset r label db' status := by
  obtain ⟨label, upd, hl, ho, rfl⟩ := retainTx_eq_ok h
  refine ⟨label, hl, ?_⟩
  have hw : (upd.finish dataset).getLabel dataset = some upd.label.bumpVersion :=
    Db.getLabel_writeLabel_self
  cases ho with
  | kept gone chunk rest fin split holds removed fin_eq label_eq status_eq =>
    refine .kept gone chunk rest fin split holds fin_eq ?_ (by rw [hw, label_eq]) status_eq
      ⟨upd.db, removed, by rw [Db.finish_eq, label_eq]⟩
    have hc := (Db.removeChunks_removed removed).chunkSet_self
    rw [Db.finish_eq, Db.chunkSet_writeLabel, hc]
    exact Keyed.toList_eraseAll_front split
  | cleared removed label_eq status_ne =>
    refine .cleared ?_ (by rw [hw, label_eq]) status_ne
      ⟨upd.db, removed, by rw [Db.finish_eq, label_eq]⟩
    have hc := (Db.removeChunks_removed removed).chunkSet_self
    have ha : (db.chunkSet dataset).toList = (db.chunkSet dataset).toList ++ [] := by simp
    rw [Db.finish_eq, Db.chunkSet_writeLabel, hc]
    exact Keyed.toList_eraseAll_front ha

end Hotblocks
