import SqdData.Query.Relations
import SqdData.Query.StatsPruning
import SqdData.Slots

/-!
# Query plans

A plan scans tables, feeds the selected rows to relations and collects rows for its outputs, one for
each table. This module has the tables a plan is about, the calls that build a plan, and the first
two stages of its execution, which select the rows of each output.
-/

namespace Query

open List

open Arrow Storage

inductive ColumnWeight where
  | fixed (weight : Nat)
  | stored (column : String)
deriving DecidableEq

/-- A table as a plan knows it. A child names the table and its columns that hold the key. -/
structure Table where
  name : String
  primaryKey : List String
  columnWeights : List (String × ColumnWeight)
  resultItemName : String
  children : List (String × List String)
  keyed : primaryKey ≠ []
  childKeys : ∀ child ∈ children, child.2.length = primaryKey.length

/-- `TableSet`: no name is defined twice, and the block headers come first. -/
structure TableSet where
  tables : List Table
  names : (tables.map (·.name)).Nodup
  header : ∀ t ∈ tables.head?, t.primaryKey.length = 1

namespace TableSet

/-- `get_index`. It panics when there is no such table. -/
def getIndex (s : TableSet) (name : String) : Option Nat :=
  s.tables.findIdx? fun t => t.name == name

def get (s : TableSet) (name : String) : Option Table :=
  s.tables.find? fun t => t.name == name

end TableSet

structure Scan where
  table : String
  predicate : Option RowPredicate
  relations : List Nat
  output : Option Nat

/-- The expression of an output is given by the columns it reads. -/
structure Output where
  table : String
  key : List String
  projection : List String
  weightPerRow : Nat
  weightColumns : List String
  exp : List String
  itemName : String

structure Plan where
  tables : TableSet
  scans : List Scan
  relations : List Rel
  outputs : List Output
  includeAllBlocks : Bool
  parentBlockHash : Option String
  firstBlock : Option Nat
  lastBlock : Option Nat

/-- `PlanBuilder` has the fields of a plan. -/
abbrev PlanBuilder := Plan

namespace PlanBuilder

def new (tables : TableSet) : PlanBuilder where
  tables := tables
  scans := []
  relations := []
  outputs := tables.tables.map fun table =>
    { table := table.name
      key := table.primaryKey
      projection := []
      weightPerRow := 0
      weightColumns := []
      exp := []
      itemName := table.resultItemName }
  includeAllBlocks := false
  parentBlockHash := none
  firstBlock := none
  lastBlock := none

def addScan (b : PlanBuilder) (table : String) : Option PlanBuilder := do
  let output ← b.tables.getIndex table
  return { b with scans := b.scans ++ [⟨table, none, [], some output⟩] }

def setProjection (b : PlanBuilder) (table : String) (exp : List String) : Option PlanBuilder := do
  let idx ← b.tables.getIndex table
  return { b with outputs := b.outputs.modify idx fun o => { o with exp } }

def setIncludeAllBlocks (b : PlanBuilder) (yes : Bool) : PlanBuilder :=
  { b with includeAllBlocks := yes }

def setParentBlockHash (b : PlanBuilder) (hash : Option String) : PlanBuilder :=
  { b with parentBlockHash := hash }

def setFirstBlock (b : PlanBuilder) (blockNumber : Option Nat) : PlanBuilder :=
  { b with firstBlock := blockNumber }

def setLastBlock (b : PlanBuilder) (blockNumber : Option Nat) : PlanBuilder :=
  { b with lastBlock := blockNumber }

/-- `add_rel`: the position of a relation, which is added unless it is there. -/
def addRel (b : PlanBuilder) (rel : Rel) : PlanBuilder × Nat :=
  match b.relations.findIdx? (· = rel) with
  | some idx => (b, idx)
  | none => ({ b with relations := b.relations ++ [rel] }, b.relations.length)

/-! The calls of a `ScanBuilder`. It panics when there is no scan at its index. -/

/-- `scan_mut`. -/
def modifyScan (b : PlanBuilder) (scanIdx : Nat) (f : Scan → Scan) : Option PlanBuilder :=
  if scanIdx < b.scans.length then some { b with scans := b.scans.modify scanIdx f } else none

def withPredicate (b : PlanBuilder) (scanIdx : Nat) (predicate : RowPredicate) :
    Option PlanBuilder :=
  b.modifyScan scanIdx fun scan => { scan with predicate := some predicate }

def withNoOutput (b : PlanBuilder) (scanIdx : Nat) : Option PlanBuilder :=
  b.modifyScan scanIdx fun scan => { scan with output := none }

/-- Adds a relation and lets the scan feed it. -/
def feed (b : PlanBuilder) (scanIdx : Nat) (rel : Rel) : Option PlanBuilder :=
  (b.addRel rel).1.modifyScan scanIdx fun scan =>
    { scan with relations := scan.relations ++ [(b.addRel rel).2] }

def join (b : PlanBuilder) (scanIdx : Nat) (outputTable : String)
    (outputKey scanKey : List String) : Option PlanBuilder := do
  let scan ← b.scans[scanIdx]?
  b.feed scanIdx (.join scan.table scanKey outputTable outputKey)

def includeChildren (b : PlanBuilder) (scanIdx : Nat) : Option PlanBuilder := do
  let scan ← b.scans[scanIdx]?
  let table ← b.tables.get scan.table
  b.feed scanIdx (.children scan.table table.primaryKey)

def includeParents (b : PlanBuilder) (scanIdx : Nat) : Option PlanBuilder := do
  let scan ← b.scans[scanIdx]?
  let table ← b.tables.get scan.table
  b.feed scanIdx (.parents scan.table table.primaryKey)

def includeForeignChildren (b : PlanBuilder) (scanIdx : Nat) (outputTable : String)
    (outputKey scanKey : List String) : Option PlanBuilder := do
  let scan ← b.scans[scanIdx]?
  b.feed scanIdx (.foreignChildren scan.table scanKey outputTable outputKey)

def includeForeignParents (b : PlanBuilder) (scanIdx : Nat) (outputTable : String)
    (outputKey scanKey : List String) : Option PlanBuilder := do
  let scan ← b.scans[scanIdx]?
  b.feed scanIdx (.foreignParents scan.table scanKey outputTable outputKey)

end PlanBuilder

/-- The public calls that build a plan. Those on a scan are about the scan that was added last. -/
inductive BuilderCall where
  | addScan (table : String)
  | setProjection (table : String) (exp : List String)
  | setIncludeAllBlocks (yes : Bool)
  | setParentBlockHash (hash : Option String)
  | setFirstBlock (blockNumber : Option Nat)
  | setLastBlock (blockNumber : Option Nat)
  | withPredicate (predicate : RowPredicate)
  | withNoOutput
  | join (outputTable : String) (outputKey scanKey : List String)
  | includeChildren
  | includeParents
  | includeForeignChildren (outputTable : String) (outputKey scanKey : List String)
  | includeForeignParents (outputTable : String) (outputKey scanKey : List String)

namespace PlanBuilder

def call (b : PlanBuilder) : BuilderCall → Option PlanBuilder
  | .addScan table => b.addScan table
  | .setProjection table exp => b.setProjection table exp
  | .setIncludeAllBlocks yes => some (b.setIncludeAllBlocks yes)
  | .setParentBlockHash hash => some (b.setParentBlockHash hash)
  | .setFirstBlock blockNumber => some (b.setFirstBlock blockNumber)
  | .setLastBlock blockNumber => some (b.setLastBlock blockNumber)
  | .withPredicate predicate => b.withPredicate (b.scans.length - 1) predicate
  | .withNoOutput => b.withNoOutput (b.scans.length - 1)
  | .join outputTable outputKey scanKey =>
    b.join (b.scans.length - 1) outputTable outputKey scanKey
  | .includeChildren => b.includeChildren (b.scans.length - 1)
  | .includeParents => b.includeParents (b.scans.length - 1)
  | .includeForeignChildren outputTable outputKey scanKey =>
    b.includeForeignChildren (b.scans.length - 1) outputTable outputKey scanKey
  | .includeForeignParents outputTable outputKey scanKey =>
    b.includeForeignParents (b.scans.length - 1) outputTable outputKey scanKey

/-- A plan built by a sequence of calls, none of which panics. -/
def ofCalls (tables : TableSet) (calls : List BuilderCall) : Option PlanBuilder :=
  calls.foldlM call (new tables)

end PlanBuilder

/-! ## Selecting rows -/

/-- An index that is out of bounds panics. -/
def checkIndex {α : Type} : Option α → Except Error α
  | some a => .ok a
  | none => .error (.text "index out of bounds")

theorem checkIndex_eq_ok {α : Type} {o : Option α} {a : α} : checkIndex o = .ok a ↔ o = some a := by
  cases o <;> simp [checkIndex]

structure Inputs where
  relations : List (Finset Nat)
  outputs : List (Finset Nat)

section Execution

variable [Casts]

def Scan.rows (scan : Scan) (chunk : Chunk) : Except Error (Finset Nat) := do
  let batch ← chunk.scanTable scan.table
  match scan.predicate with
  | none => .ok (Finset.range batch.numRows)
  | some p => do
    let mask ← p.evaluate batch
    return (Finset.range batch.numRows).filter (IsSet mask ·)

def executeScan (chunk : Chunk) (inputs : Inputs) (scan : Scan) : Except Error Inputs := do
  let rows ← scan.rows chunk
  let relations ← checkIndex (Slots.joinAll inputs.relations (scan.relations.map (·, rows)))
  let outputs ← checkIndex (Slots.joinAll inputs.outputs (scan.output.toList.map (·, rows)))
  return { relations, outputs }

namespace Plan

def executeScans (plan : Plan) (chunk : Chunk) : Except Error Inputs :=
  plan.scans.foldlM (executeScan chunk)
    { relations := plan.relations.map fun _ => ∅, outputs := plan.outputs.map fun _ => ∅ }

def getOutputIndex (plan : Plan) (table : String) : Option Nat :=
  plan.outputs.findIdx? fun o => o.table == table

/-- A relation with no input rows is not evaluated. -/
def executeRelation (plan : Plan) (chunk : Chunk) (outputs : List (Finset Nat))
    (relation : Rel × Finset Nat) : Except Error (List (Finset Nat)) :=
  if relation.2 = ∅ then .ok outputs
  else do
    let idx ← checkIndex (plan.getOutputIndex relation.1.outputTable)
    let rows ← relation.1.eval chunk relation.2
    checkIndex (Slots.joinAt outputs (idx, rows.toFinset))

def executeRelations (plan : Plan) (chunk : Chunk) (inputs : Inputs) :
    Except Error (List (Finset Nat)) :=
  (plan.relations.zip inputs.relations).foldlM (plan.executeRelation chunk) inputs.outputs

def selectedRows (plan : Plan) (chunk : Chunk) : Except Error (List (Finset Nat)) := do
  let inputs ← plan.executeScans chunk
  plan.executeRelations chunk inputs

end Plan

/-! ## What is selected -/

def Scan.selected (scan : Scan) (chunk : Chunk) : Finset Nat :=
  match scan.rows chunk with
  | .ok rows => rows
  | .error _ => ∅

variable {chunk : Chunk}

theorem Scan.selected_eq {scan : Scan} {rows : Finset Nat} (h : scan.rows chunk = .ok rows) :
    scan.selected chunk = rows := by
  simp [Scan.selected, h]

def Rel.selected (rel : Rel) (chunk : Chunk) (input : Finset Nat) : Finset Nat :=
  match rel.eval chunk input with
  | .ok rows => rows.toFinset
  | .error _ => ∅

omit [Casts] in
theorem Rel.selected_eq {rel : Rel} {input : Finset Nat} {rows : List Nat}
    (h : rel.eval chunk input = .ok rows) : rel.selected chunk input = rows.toFinset := by
  simp [Rel.selected, h]

omit [Casts] in
theorem prime_mem (row : Nat) : Slots.Prime fun rows : Finset Nat => row ∈ rows := by
  intro a b
  exact Finset.mem_union

/-- The rows of a scan, as updates of the inputs of relations. -/
def Scan.relationUpdates (chunk : Chunk) (scan : Scan) : List (Nat × Finset Nat) :=
  scan.relations.map (·, scan.selected chunk)

/-- The rows of a scan, as updates of the outputs. -/
def Scan.outputUpdates (chunk : Chunk) (scan : Scan) : List (Nat × Finset Nat) :=
  scan.output.toList.map (·, scan.selected chunk)

variable {inputs : Inputs}

theorem executeScan_joined {scan : Scan} {inputs' : Inputs}
    (h : executeScan chunk inputs scan = .ok inputs') :
    (∃ rows, scan.rows chunk = .ok rows) ∧ ∀ row,
      Slots.Joined (row ∈ ·) inputs.relations (scan.relationUpdates chunk) inputs'.relations ∧
        Slots.Joined (row ∈ ·) inputs.outputs (scan.outputUpdates chunk) inputs'.outputs := by
  obtain ⟨rows, hrw, h⟩ := bind_eq_ok.mp h
  obtain ⟨relations, hr, h⟩ := bind_eq_ok.mp h
  obtain ⟨_, ho, h⟩ := bind_eq_ok.mp h
  cases h
  rw [checkIndex_eq_ok, ← Scan.selected_eq hrw] at hr ho
  exact ⟨⟨rows, hrw⟩, fun row =>
    ⟨Slots.joined_joinAll (prime_mem row) hr, Slots.joined_joinAll (prime_mem row) ho⟩⟩

theorem foldlM_executeScan_joined {scans : List Scan} {inputs' : Inputs}
    (h : scans.foldlM (executeScan chunk) inputs = .ok inputs') :
    (∀ scan ∈ scans, ∃ rows, scan.rows chunk = .ok rows) ∧ ∀ row,
      Slots.Joined (row ∈ ·) inputs.relations (scans.flatMap (·.relationUpdates chunk))
          inputs'.relations ∧
        Slots.Joined (row ∈ ·) inputs.outputs (scans.flatMap (·.outputUpdates chunk))
          inputs'.outputs := by
  induction scans generalizing inputs with
  | nil =>
    cases h
    exact ⟨by simp, fun _ => ⟨Slots.joined_nil _, Slots.joined_nil _⟩⟩
  | cons _ _ ih =>
    rw [foldlM_cons] at h
    obtain ⟨_, h₁, h₂⟩ := bind_eq_ok.mp h
    obtain ⟨hr, hj⟩ := executeScan_joined h₁
    obtain ⟨hrs, hjR⟩ := ih h₂
    refine ⟨forall_mem_cons.mpr ⟨hr, hrs⟩, fun row => ?_⟩
    rw [flatMap_cons, flatMap_cons]
    exact ⟨(hj row).1.append (hjR row).1, (hj row).2.append (hjR row).2⟩

theorem exists_executeScan {scan : Scan} (hrw : ∃ rows, scan.rows chunk = .ok rows)
    (hrl : ∀ i ∈ scan.relations, i < inputs.relations.length)
    (hou : ∀ o ∈ scan.output, o < inputs.outputs.length) :
    ∃ inputs', executeScan chunk inputs scan = .ok inputs' := by
  obtain ⟨rows, hrw⟩ := hrw
  have hr : ∀ u ∈ scan.relations.map (·, rows), u.1 < inputs.relations.length := by
    intro u hu
    obtain ⟨i, hi, rfl⟩ := mem_map.mp hu
    exact hrl i hi
  have ho : ∀ u ∈ scan.output.toList.map (·, rows), u.1 < inputs.outputs.length := by
    intro u hu
    obtain ⟨o, ho, rfl⟩ := mem_map.mp hu
    exact hou o (by simpa using ho)
  obtain ⟨relations, hrl⟩ := Slots.exists_joinAll hr
  obtain ⟨outputs, hot⟩ := Slots.exists_joinAll ho
  refine ⟨⟨relations, outputs⟩, ?_⟩
  simp only [executeScan, hrw, hrl, hot, checkIndex, bind, Except.bind]
  rfl

namespace Plan

/-- Every scan can be read, and what it feeds exists. -/
def ScansRun (plan : Plan) (chunk : Chunk) : Prop :=
  ∀ scan ∈ plan.scans, (∃ rows, scan.rows chunk = .ok rows) ∧
    (∀ i ∈ scan.relations, i < plan.relations.length) ∧
    ∀ o ∈ scan.output, o < plan.outputs.length

def input (plan : Plan) (chunk : Chunk) (i : Nat) : Finset Nat :=
  (plan.scans.filter (i ∈ ·.relations)).foldr (fun scan rows => scan.selected chunk ∪ rows) ∅

variable {plan : Plan}

theorem mem_input {i row : Nat} :
    row ∈ plan.input chunk i ↔
      ∃ scan ∈ plan.scans, i ∈ scan.relations ∧ row ∈ scan.selected chunk := by
  have hf : ∀ scans : List Scan, row ∈ scans.foldr (fun scan rows => scan.selected chunk ∪ rows) ∅ ↔
        ∃ scan ∈ scans, row ∈ scan.selected chunk := by
    intro scans
    induction scans with
    | nil => simp
    | cons _ _ ih => simp [ih]
  simp only [input, hf, mem_filter, decide_eq_true_eq, and_assoc]

theorem exists_executeScans (h : plan.ScansRun chunk) :
    ∃ inputs, plan.executeScans chunk = .ok inputs := by
  have hrn : ∀ (scans : List Scan) (inputs : Inputs), (∀ scan ∈ scans, scan ∈ plan.scans) →
      inputs.relations.length = plan.relations.length →
      inputs.outputs.length = plan.outputs.length →
      ∃ inputs', scans.foldlM (executeScan chunk) inputs = .ok inputs' := by
    intro scans
    induction scans with
    | nil => exact fun inputs _ _ _ => ⟨inputs, rfl⟩
    | cons scan _ ih =>
      intro inputs hm hrl hot
      obtain ⟨hrw, hr, ho⟩ := h scan (hm scan mem_cons_self)
      obtain ⟨inputs₁, h₁⟩ := exists_executeScan hrw (fun i hi => by rw [hrl]; exact hr i hi)
        (fun o ho' => by rw [hot]; exact ho o ho')
      have hj := (executeScan_joined h₁).2 0
      obtain ⟨inputs', h'⟩ := ih inputs₁ (fun s hs => hm s (mem_cons_of_mem scan hs))
        (hj.1.length.trans hrl) (hj.2.length.trans hot)
      refine ⟨inputs', ?_⟩
      rw [foldlM_cons, h₁]
      exact h'
  exact hrn plan.scans _ (fun _ hs => hs) (by simp) (by simp)

/-- What the scans collect. -/
theorem executeScans_spec (h : plan.executeScans chunk = .ok inputs) :
    (∀ scan ∈ plan.scans, ∃ rows, scan.rows chunk = .ok rows) ∧
      inputs.relations = (List.range plan.relations.length).map (plan.input chunk) ∧
      inputs.outputs.length = plan.outputs.length ∧
      ∀ o output, inputs.outputs[o]? = some output → ∀ row,
        row ∈ output ↔ ∃ scan ∈ plan.scans, scan.output = some o ∧ row ∈ scan.selected chunk := by
  obtain ⟨hr, hj⟩ := foldlM_executeScan_joined h
  have hl : inputs.relations.length = plan.relations.length := by
    simpa using (hj 0).1.length
  refine ⟨hr, ?_, by simpa using (hj 0).2.length, ?_⟩
  · apply ext_getElem
    · simp [hl]
    · intro i hi _
      ext row
      obtain ⟨before, hb, hif⟩ := (hj row).1.holds i _ (getElem?_eq_getElem hi)
      obtain ⟨_, _, rfl⟩ := mem_map.mp (mem_of_getElem? hb)
      rw [hif, getElem_map, getElem_range, mem_input]
      constructor
      · rintro (hn | ⟨u, hu, rfl, hrw⟩)
        · simp at hn
        · obtain ⟨scan, hs, hu⟩ := mem_flatMap.mp hu
          obtain ⟨_, hf, rfl⟩ := mem_map.mp hu
          exact ⟨scan, hs, hf, hrw⟩
      · rintro ⟨scan, hs, hi, hrw⟩
        exact Or.inr ⟨(i, scan.selected chunk), mem_flatMap.mpr
          ⟨scan, hs, mem_map.mpr ⟨i, hi, rfl⟩⟩, rfl, hrw⟩
  · intro o output ho row
    obtain ⟨_, hb, hif⟩ := (hj row).2.holds o output ho
    obtain ⟨_, _, rfl⟩ := mem_map.mp (mem_of_getElem? hb)
    rw [hif]
    constructor
    · rintro (hn | ⟨_, hu, rfl, hrw⟩)
      · simp at hn
      · obtain ⟨scan, hs, hu⟩ := mem_flatMap.mp hu
        obtain ⟨_, hot, rfl⟩ := mem_map.mp hu
        exact ⟨scan, hs, by simpa using hot, hrw⟩
    · rintro ⟨scan, hs, ho, hrw⟩
      exact Or.inr ⟨(o, scan.selected chunk), mem_flatMap.mpr
        ⟨scan, hs, mem_map.mpr ⟨o, by simp [ho], rfl⟩⟩, rfl, hrw⟩

/-- The rows of a relation, as updates of the outputs. -/
def updates (plan : Plan) (chunk : Chunk) (relation : Rel × Finset Nat) :
    List (Nat × Finset Nat) :=
  if relation.2 = ∅ then []
  else (plan.getOutputIndex relation.1.outputTable).toList.map
    (·, relation.1.selected chunk relation.2)

/-- A relation with input rows can be evaluated, and its output exists. -/
def RelationRuns (plan : Plan) (chunk : Chunk) (relation : Rel × Finset Nat) : Prop :=
  relation.2 ≠ ∅ → (∃ o, plan.getOutputIndex relation.1.outputTable = some o) ∧
    ∃ rows, relation.1.eval chunk relation.2 = .ok rows

omit [Casts] in
theorem getOutputIndex_lt {table : String} {o : Nat} (h : plan.getOutputIndex table = some o) :
    o < plan.outputs.length := by
  obtain ⟨hlt, _⟩ := findIdx?_eq_some_iff_getElem.mp h
  exact hlt

variable {outputs : List (Finset Nat)}

variable {outputs' : List (Finset Nat)}

omit [Casts] in
theorem executeRelation_joined {relation : Rel × Finset Nat}
    (h : plan.executeRelation chunk outputs relation = .ok outputs') :
    plan.RelationRuns chunk relation ∧
      ∀ row, Slots.Joined (row ∈ ·) outputs (plan.updates chunk relation) outputs' := by
  unfold executeRelation at h
  unfold updates
  split at h
  · rename_i he
    cases h
    refine ⟨absurd he, fun row => ?_⟩
    rw [if_pos he]
    exact Slots.joined_nil _
  · rename_i hne
    obtain ⟨o, ho, h⟩ := bind_eq_ok.mp h
    obtain ⟨rows, hr, h⟩ := bind_eq_ok.mp h
    rw [checkIndex_eq_ok] at ho h
    refine ⟨fun _ => ⟨⟨o, ho⟩, rows, hr⟩, fun row => ?_⟩
    rw [if_neg hne, ho, Rel.selected_eq hr]
    exact Slots.joined_joinAt (prime_mem row) h

variable {relations : List (Rel × Finset Nat)}

omit [Casts] in
theorem foldlM_executeRelation_joined
    (h : relations.foldlM (plan.executeRelation chunk) outputs = .ok outputs') :
    (∀ relation ∈ relations, plan.RelationRuns chunk relation) ∧
      ∀ row, Slots.Joined (row ∈ ·) outputs (relations.flatMap (plan.updates chunk)) outputs' := by
  induction relations generalizing outputs with
  | nil =>
    cases h
    exact ⟨by simp, fun _ => Slots.joined_nil _⟩
  | cons _ _ ih =>
    rw [foldlM_cons] at h
    obtain ⟨_, h₁, h₂⟩ := bind_eq_ok.mp h
    obtain ⟨hr, hj⟩ := executeRelation_joined h₁
    obtain ⟨hrs, hjR⟩ := ih h₂
    refine ⟨forall_mem_cons.mpr ⟨hr, hrs⟩, fun row => ?_⟩
    rw [flatMap_cons]
    exact (hj row).append (hjR row)

omit [Casts] in
theorem exists_executeRelation {relation : Rel × Finset Nat}
    (h : plan.RelationRuns chunk relation) (hl : outputs.length = plan.outputs.length) :
    ∃ outputs', plan.executeRelation chunk outputs relation = .ok outputs' := by
  unfold executeRelation
  split
  · exact ⟨outputs, rfl⟩
  · rename_i hne
    obtain ⟨⟨o, ho⟩, _, hr⟩ := h hne
    have hlt : o < outputs.length := by
      rw [hl]
      exact getOutputIndex_lt ho
    simp only [ho, hr, checkIndex, bind, Except.bind, Slots.joinAt, if_pos hlt]
    exact ⟨_, rfl⟩

omit [Casts] in
theorem exists_foldlM_executeRelation (h : ∀ relation ∈ relations, plan.RelationRuns chunk relation)
    (hl : outputs.length = plan.outputs.length) :
    ∃ outputs', relations.foldlM (plan.executeRelation chunk) outputs = .ok outputs' := by
  induction relations generalizing outputs with
  | nil => exact ⟨outputs, rfl⟩
  | cons relation _ ih =>
    obtain ⟨_, h₁⟩ := exists_executeRelation (h relation mem_cons_self) hl
    have hl₁ := ((executeRelation_joined h₁).2 0).length.trans hl
    obtain ⟨outputs', h'⟩ := ih (fun r hr => h r (mem_cons_of_mem relation hr)) hl₁
    refine ⟨outputs', ?_⟩
    rw [foldlM_cons, h₁]
    exact h'

/-- The plan selects a row for an output: a scan does, or a relation does from what it is fed. -/
def Selects (plan : Plan) (chunk : Chunk) (o row : Nat) : Prop :=
  (∃ scan ∈ plan.scans, scan.output = some o ∧ row ∈ scan.selected chunk) ∨
    ∃ i rel, plan.relations[i]? = some rel ∧ plan.getOutputIndex rel.outputTable = some o ∧
      plan.input chunk i ≠ ∅ ∧ row ∈ rel.selected chunk (plan.input chunk i)

omit [Casts] in
theorem mem_zip_map_range {α β : Type} {l : List α} {f : Nat → β} {a : α} {b : β} :
    (a, b) ∈ l.zip ((List.range l.length).map f) ↔ ∃ i : Nat, l[i]? = some a ∧ f i = b := by
  rw [mem_iff_getElem?]
  refine exists_congr fun i => ?_
  rw [getElem?_zip_eq_some, and_congr_right_iff]
  intro ha
  obtain ⟨hlt, _⟩ := List.getElem?_eq_some_iff.mp ha
  simp [getElem?_range hlt]

/-- The rows that are selected. -/
theorem selectedRows_spec (h : plan.selectedRows chunk = .ok outputs) :
    (∀ i rel, plan.relations[i]? = some rel → plan.RelationRuns chunk (rel, plan.input chunk i)) ∧
      outputs.length = plan.outputs.length ∧
      ∀ o output, outputs[o]? = some output → ∀ row, row ∈ output ↔ plan.Selects chunk o row := by
  obtain ⟨_, hin, h⟩ := bind_eq_ok.mp h
  obtain ⟨_, hr, hot, hs⟩ := executeScans_spec hin
  unfold executeRelations at h
  rw [hr] at h
  obtain ⟨hrn, hj⟩ := foldlM_executeRelation_joined h
  refine ⟨fun i rel hre => hrn _ (mem_zip_map_range.mpr ⟨i, hre, rfl⟩),
    (hj 0).length.trans hot, fun o output ho row => ?_⟩
  obtain ⟨before, hb, hif⟩ := (hj row).holds o output ho
  rw [hif, hs o before hb row]
  refine or_congr_right ?_
  constructor
  · rintro ⟨_, hu, rfl, hrw⟩
    obtain ⟨⟨rel, input⟩, hrl, hu⟩ := mem_flatMap.mp hu
    obtain ⟨i, hre, rfl⟩ := mem_zip_map_range.mp hrl
    unfold updates at hu
    split at hu
    · cases hu
    · rename_i hne
      obtain ⟨o, hi, rfl⟩ := mem_map.mp hu
      exact ⟨i, rel, hre, by simpa using hi, hne, hrw⟩
  · rintro ⟨i, rel, hre, hi, hne, hrw⟩
    refine ⟨(o, rel.selected chunk (plan.input chunk i)), mem_flatMap.mpr
      ⟨(rel, plan.input chunk i), mem_zip_map_range.mpr ⟨i, hre, rfl⟩, ?_⟩, rfl, hrw⟩
    simp [updates, hne, hi]

/-- A plan that can run selects rows. -/
theorem exists_selectedRows (hs : plan.ScansRun chunk)
    (hrn : ∀ i rel, plan.relations[i]? = some rel →
      plan.RelationRuns chunk (rel, plan.input chunk i)) :
    ∃ outputs, plan.selectedRows chunk = .ok outputs := by
  obtain ⟨inputs, hi⟩ := exists_executeScans hs
  obtain ⟨_, hr, ho, _⟩ := executeScans_spec hi
  have hru : ∀ relation ∈ plan.relations.zip inputs.relations,
      plan.RelationRuns chunk relation := by
    rw [hr]
    rintro ⟨rel, _⟩ hrl
    obtain ⟨i, hre, rfl⟩ := mem_zip_map_range.mp hrl
    exact hrn i rel hre
  obtain ⟨outputs, h⟩ := exists_foldlM_executeRelation hru ho
  refine ⟨outputs, ?_⟩
  unfold selectedRows
  rw [hi]
  exact h

end Plan

end Execution

end Query
