import SqdData.Hotblocks.Effects
import SqdData.Storage.NodeSpecs

/-!
# A dataset and its writer

The write controller of one dataset on a storage node. A step is a step of the node or a call of
the controller, so a run interleaves the controller with compactions, table builds, other datasets,
cleanup and crashes. A crash takes the controller with it, and the next one is built from what the
database holds.
-/

namespace Hotblocks

open Storage

variable [TableFormat]

/-- The mutating operations of the controller. -/
inductive Call where
  | newChunk (flags : IndexFlags) (report : Option BlockRef) (chunk : Chunk)
      (commit abandon : Except Error Unit)
  | finalize (report : BlockRef) (commit : Except Error Unit)
  | retain (fromBlock : Nat) (parentBlockHash : Option Hash) (commit : Except Error Unit)
  | initRetention (fromBlock : Nat) (parentBlockHash : Option Hash) (commit : Except Error Unit)

omit [TableFormat] in
def Call.retention : Call → Option Retention
  | .retain fromBlock parentBlockHash _ => some ⟨fromBlock, parentBlockHash, true⟩
  | .initRetention fromBlock parentBlockHash _ => some ⟨fromBlock, parentBlockHash, false⟩
  | _ => none

namespace WriteController

omit [TableFormat] in
def settle (db : Db) (c : WriteController) : Except Error (Db × WriteController) →
    Db × WriteController × Except Error Unit
  | .ok (db, c) => (db, c, .ok ())
  | .error e => (db, c, .error e)

/-- Runs a call: the database and the controller it leaves behind, and its result. -/
def call (c : WriteController) (db : Db) : Call → Db × WriteController × Except Error Unit
  | .newChunk flags report chunk commit abandon =>
    c.newChunk db flags report chunk commit abandon
  | .finalize report commit => settle db c (c.finalize db report commit)
  | .retain fromBlock parentBlockHash commit =>
    settle db c ((c.retain db fromBlock parentBlockHash commit).map fun r => (r.1, r.2.1))
  | .initRetention fromBlock parentBlockHash commit =>
    settle db c ((c.initRetention db fromBlock parentBlockHash commit).map fun r => (r.1, r.2.1))

end WriteController

/-- What a call that succeeded did. -/
inductive CallEffect (c : WriteController) (db : Db) : Call → Db → WriteController → Prop where
  | idle {call : Call} : CallEffect c db call db c
  | inserted {flags : IndexFlags} {report : Option BlockRef} {chunk : Chunk}
      {commit abandon : Except Error Unit} {db' forked : Db} {update : FinalityUpdate}
      {label : DatasetLabel}
      (h : NewChunkCommitted db c flags report chunk db' update label forked) :
      CallEffect c db (.newChunk flags report chunk commit abandon) db'
        (c.applyNewChunk chunk update.1)
  | applied {head report fin : BlockRef} {commit : Except Error Unit} {db' : Db}
      {label : DatasetLabel} (head_eq : c.head = some head)
      (h : FinalizeCommitted db c head report db' (.applied fin) label) :
      CallEffect c db (.finalize report commit) db' (c.setFinalizedHead (some fin))
  | ignored {head report : BlockRef} {reason : FinalityIgnoreReason} {commit : Except Error Unit}
      {db' : Db} {label : DatasetLabel} (head_eq : c.head = some head)
      (h : FinalizeCommitted db c head report db' (.ignored reason) label) :
      CallEffect c db (.finalize report commit) db' c
  | retained {call : Call} {r : Retention} {db' : Db} {status : RetainStatus}
      {label : DatasetLabel} (retention : call.retention = some r)
      (moved : c.startsAt r.fromBlock r.parentBlockHash = false)
      (label_eq : db.getLabel c.datasetId = some label)
      (h : Retained db c.datasetId r label db' status) :
      CallEffect c db call db' (c.applyRetain r status).1

variable {c c' : WriteController} {db db' : Db} {call : Call}

variable {commit : Except Error Unit} {u : Unit} {e : Error}

/-- A retention that succeeds found the window as asked for, or moved it. -/
theorem retainImpl_eq_ok {r : Retention} {keptHead : Bool}
    (h : c.retainImpl db r commit = .ok (db', c', keptHead)) :
    (c.startsAt r.fromBlock r.parentBlockHash = true ∧ db' = db ∧ c' = c ∧ keptHead = true) ∨
      (c.startsAt r.fromBlock r.parentBlockHash = false ∧ ∃ label status,
        retainTx db c.datasetId r commit = .ok (db', status) ∧
        db.getLabel c.datasetId = some label ∧ Retained db c.datasetId r label db' status ∧
        c.applyRetain r status = (c', keptHead)) := by
  unfold WriteController.retainImpl at h
  split at h
  · rename_i hs
    cases h
    exact Or.inl ⟨hs, rfl, rfl, rfl⟩
  · rename_i hm
    obtain ⟨⟨_, status⟩, htx, h⟩ := bind_eq_ok.mp h
    cases h
    obtain ⟨label, hl, hr⟩ := retainTx_retained htx
    exact Or.inr ⟨by simpa using hm, label, status, htx, hl, hr, rfl⟩

theorem retainImpl_effect {r : Retention} {keptHead : Bool}
    (hr : call.retention = some r) (h : c.retainImpl db r commit = .ok (db', c', keptHead)) :
    CallEffect c db call db' c' := by
  rcases retainImpl_eq_ok h with
    ⟨-, rfl, rfl, -⟩ | ⟨hm, label, status, -, hl, hrt, heq⟩
  · exact .idle
  · have hc : (c.applyRetain r status).1 = c' := by rw [heq]
    rw [← hc]
    exact .retained hr hm hl hrt

theorem finalize_effect {report : BlockRef} (h : c.finalize db report commit = .ok (db', c')) :
    CallEffect c db (.finalize report commit) db' c' := by
  unfold WriteController.finalize at h
  cases hh : c.head with
  | none =>
    rw [hh] at h
    cases h
    exact .idle
  | some =>
    rw [hh] at h
    obtain ⟨⟨_, _⟩, htx, h⟩ := bind_eq_ok.mp h
    obtain ⟨label, hc⟩ := finalizeTx_eq_ok htx
    rcases hc.result with ⟨_, rfl, -⟩ | ⟨⟨_, rfl⟩, -⟩
    · cases h
      exact .applied hh hc
    · cases h
      exact .ignored hh hc

variable {r : Except Error (Db × WriteController)}

omit [TableFormat] in
theorem settle_eq_ok (h : WriteController.settle db c r = (db', c', .ok u)) :
    r = .ok (db', c') := by
  cases r with
  | error => cases h
  | ok =>
    cases h
    rfl

omit [TableFormat] in
theorem settle_eq_error (h : WriteController.settle db c r = (db', c', .error e)) :
    db' = db ∧ c' = c := by
  cases r with
  | error => cases h; exact ⟨rfl, rfl⟩
  | ok => cases h

theorem newChunk_committed {flags : IndexFlags} {report : Option BlockRef} {chunk : Chunk}
    {abandon : Except Error Unit}
    (h : c.newChunk db flags report chunk commit abandon = (db', c', .ok u)) :
    ∃ update label forked, NewChunkCommitted db c flags report chunk db' update label forked ∧
      c' = c.applyNewChunk chunk update.1 := by
  unfold WriteController.newChunk at h
  split at h
  · rename_i db₁ fin ignored htx
    cases h
    obtain ⟨-, label, forked, hc⟩ := newChunkTx_eq_ok.mp htx
    exact ⟨_, label, forked, hc, rfl⟩
  · cases h

omit [TableFormat] in
theorem abandonTables_eq (db : Db) (chunk : Chunk) (commit : Except Error Unit) :
    WriteController.abandonTables db chunk commit =
      Node.orSame db (db.deleteTables chunk.tables.values commit) := by
  unfold WriteController.abandonTables
  cases db.deleteTables chunk.tables.values commit <;> rfl

theorem newChunk_eq_error {flags : IndexFlags} {report : Option BlockRef} {chunk : Chunk}
    {abandon : Except Error Unit}
    (h : c.newChunk db flags report chunk commit abandon = (db', c', .error e)) :
    c' = c ∧ db' = Node.orSame db (db.deleteTables chunk.tables.values abandon) := by
  unfold WriteController.newChunk at h
  split at h
  · cases h
  · cases h
    exact ⟨rfl, abandonTables_eq db chunk abandon⟩

theorem call_eq_ok (h : c.call db call = (db', c', .ok u)) : CallEffect c db call db' c' := by
  cases call with
  | newChunk =>
    obtain ⟨_, _, _, hc, rfl⟩ := newChunk_committed h
    exact .inserted hc
  | finalize => exact finalize_effect (settle_eq_ok h)
  | retain =>
    obtain ⟨⟨db₁, c₁, keptHead⟩, hr, heq⟩ := map_eq_ok (settle_eq_ok h)
    cases heq
    exact retainImpl_effect rfl hr
  | initRetention =>
    obtain ⟨⟨_, _, _⟩, hr, heq⟩ := map_eq_ok (settle_eq_ok h)
    cases heq
    exact retainImpl_effect rfl hr

/-- A failed call leaves the controller alone, and of the database it can only mark the tables of
a refused chunk. -/
theorem call_eq_error (h : c.call db call = (db', c', .error e)) : c' = c ∧ SameData db db' := by
  cases call with
  | newChunk =>
    obtain ⟨rfl, rfl⟩ := newChunk_eq_error h
    exact ⟨rfl, Node.deleteTables_same⟩
  | finalize =>
    obtain ⟨rfl, rfl⟩ := settle_eq_error h
    exact ⟨rfl, SameData.refl _⟩
  | retain =>
    obtain ⟨rfl, rfl⟩ := settle_eq_error h
    exact ⟨rfl, SameData.refl _⟩
  | initRetention =>
    obtain ⟨rfl, rfl⟩ := settle_eq_error h
    exact ⟨rfl, SameData.refl _⟩

/-- A storage node and, if there is one, the controller of the dataset. -/
structure Writer where
  node : Node
  controller : Option WriteController

/-- An input of the machine. A new controller takes over the channels it is given. -/
inductive WriterOp where
  | node (op : NodeOp)
  | new (headSender finalizedHeadSender : Watch) (commit : Except Error Unit)
  | drop
  | call (call : Call)

namespace Writer

variable (dataset : DatasetId) (kind : DatasetKind)

def step (w : Writer) : WriterOp → Option Writer
  | .node op => do
    let node ← w.node.step op
    some { node, controller := if node.serving then w.controller else none }
  | .new headSender finalizedHeadSender commit =>
    if w.node.serving && w.node.lifecycle.isNone && w.controller.isNone then
      let (db, result) :=
        WriteController.new w.node.db dataset kind headSender finalizedHeadSender commit
      some { node := { w.node with db }, controller := result.toOption }
    else none
  | .drop => some { w with controller := none }
  | .call call => do
    let c ← w.controller
    let (db, c, _) := c.call w.node.db call
    some { node := { w.node with db }, controller := some c }

/-- The writer of `dataset` as a machine. It starts on an empty database. -/
def machine : Machine Writer WriterOp where
  init := fun w => w = ⟨Node.start Db.empty [], none⟩
  step := step dataset kind

/-- Inputs of a run in which the controller is the only one to update the dataset. -/
def SoleWriter (_ : Writer) : WriterOp → Prop
  | .node op => ∀ flags edits commit, op ≠ .update dataset flags edits commit
  | _ => True

/-- In such a run, inputs that also leave the dataset in place. -/
def KeepsDataset (w : Writer) (op : WriterOp) : Prop :=
  SoleWriter dataset w op ∧ ∀ commit, op ≠ .node (.dropDataset dataset commit)

/-- A controller that has just been built from the database. -/
structure Opened (db : Db) (c : WriteController) (label : DatasetLabel) : Prop where
  datasetId : c.datasetId = dataset
  label_eq : db.getLabel dataset = some label
  firstBlock : c.firstBlock = ((db.getFirstChunk dataset).map Chunk.firstBlock).getD 0
  parentBlockHash : c.parentBlockHash = (db.getFirstChunk dataset).map Chunk.parentBlockHash
  firstChunkHead : c.firstChunkHead = (db.getFirstChunk dataset).map getChunkHead
  head : c.head = (db.getLastChunk dataset).map getChunkHead
  finalizedHead : c.finalizedHead = label.finalizedHead
  headSender : c.headSender.value = c.head
  finalizedHeadSender : c.finalizedHeadSender.value = c.finalizedHead

variable {dataset kind} {w w' : Writer} {op : WriterOp} {headSender finalizedHeadSender : Watch}
  {commit : Except Error Unit}

omit [TableFormat] in
theorem createDatasetIfNotExists_getLabel {u : Unit}
    (h : db.createDatasetIfNotExists dataset kind commit = (db', .ok u)) :
    ∃ label, db'.getLabel dataset = some label := by
  dsimp only [Db.createDatasetIfNotExists] at h
  split at h
  · rename_i db₁ htx
    cases h
    unfold Db.createDatasetIfNotExistsTx at htx
    cases hl : (db.purgeStaleHashIndexes dataset).getLabel dataset with
    | some label =>
      rw [hl] at htx
      obtain ⟨_, -, htx⟩ := bind_eq_ok.mp htx
      obtain ⟨_, -, htx⟩ := bind_eq_ok.mp htx
      cases htx
      exact ⟨label, hl⟩
    | none =>
      rw [hl] at htx
      obtain ⟨_, -, htx⟩ := bind_eq_ok.mp htx
      cases htx
      exact ⟨_, Db.getLabel_writeLabel_self⟩
  · cases h

omit [TableFormat] in
theorem new_eq {r : Except Error WriteController}
    (h : WriteController.new db dataset kind headSender finalizedHeadSender commit = (db', r)) :
    db' = (db.createDatasetIfNotExists dataset kind commit).1 ∧
      ∀ c, r = .ok c → ∃ label, Opened dataset db' c label := by
  unfold WriteController.new at h
  split at h
  · rename_i db₁ e hcr
    cases h
    rw [hcr]
    exact ⟨rfl, fun c hc => by cases hc⟩
  · rename_i db₁ hcr
    cases h
    rw [hcr]
    refine ⟨rfl, ?_⟩
    intro c hc
    cases hc
    obtain ⟨label, hl⟩ := createDatasetIfNotExists_getLabel hcr
    exact ⟨label, rfl, hl, rfl, rfl, rfl, rfl, by rw [hl]; rfl, Watch.publish_value _ _,
      Watch.publish_value _ _⟩

/-- What a step of the writer can do to its dataset and its controller. -/
inductive StepEffect (dataset : DatasetId) (w : Writer) : WriterOp → Writer → Prop where
  | node {op : NodeOp} {w' : Writer} (step : w.node.step op = some w'.node)
      (effect : Node.DatasetStep dataset w.node op w'.node.db)
      (controller : w'.controller = w.controller ∨ w'.controller = none) :
      StepEffect dataset w (.node op) w'
  | opened {headSender finalizedHeadSender : Watch} {commit : Except Error Unit} {w' : Writer}
      {kind : DatasetKind}
      (step : w.node.step (.createDatasetIfNotExists dataset kind commit) = some w'.node)
      (effect : Node.DatasetStep dataset w.node (.createDatasetIfNotExists dataset kind commit)
        w'.node.db)
      (controller : ∀ c, w'.controller = some c → ∃ label, Opened dataset w'.node.db c label) :
      StepEffect dataset w (.new headSender finalizedHeadSender commit) w'
  | dropped : StepEffect dataset w .drop { w with controller := none }
  | failed {call : Call} {c : WriteController} {db' : Db} {e : Error}
      (controller : w.controller = some c) (result : c.call w.node.db call = (db', c, .error e))
      (same : SameData w.node.db db') :
      StepEffect dataset w (.call call) { w with node := { w.node with db := db' } }
  | called {call : Call} {c c' : WriteController} {db' : Db} (controller : w.controller = some c)
      (effect : CallEffect c w.node.db call db' c') :
      StepEffect dataset w (.call call)
        { node := { w.node with db := db' }, controller := some c' }

theorem step_effect (hop : SoleWriter dataset w op) (h : w.step dataset kind op = some w') :
    StepEffect dataset w op w' := by
  cases op with
  | node =>
    obtain ⟨_, hn, h⟩ := Option.bind_eq_some_iff.mp h
    cases h
    refine .node hn (Node.step_datasetStep hop hn) ?_
    split
    · exact Or.inl rfl
    · exact Or.inr rfl
  | new headSender finalizedHeadSender commit =>
    cases hr : WriteController.new w.node.db dataset kind headSender finalizedHeadSender commit with
    | mk db' r =>
      simp only [step, hr] at h
      obtain ⟨hcn, h⟩ := Option.ite_none_right_eq_some.mp h
      cases h
      obtain ⟨hdb, hct⟩ := new_eq hr
      have hn : w.node.step (.createDatasetIfNotExists dataset kind commit) =
          some { w.node with db := db' } := by
        rw [hdb]
        simp only [Bool.and_eq_true] at hcn
        exact if_pos hcn.1.2
      refine .opened hn (Node.step_datasetStep (by simp) hn) ?_
      intro c hc
      refine hct c ?_
      cases r with
      | error => cases hc
      | ok =>
        cases hc
        rfl
  | drop =>
    cases h
    exact .dropped
  | call call =>
    obtain ⟨c, hc, h⟩ := Option.bind_eq_some_iff.mp h
    cases hr : c.call w.node.db call with
    | mk _ r =>
      obtain ⟨_, result⟩ := r
      rw [hr] at h
      cases h
      cases result with
      | error =>
        obtain ⟨rfl, hs⟩ := call_eq_error hr
        rw [← hc]
        exact .failed hc hr hs
      | ok => exact .called hc (call_eq_ok hr)

end Writer

end Hotblocks
