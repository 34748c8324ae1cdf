import SqdData.Query.Plan

/-!
# Plan simplification

`simplify` replaces what a plan selects in full by scans without predicate: it marks the outputs and
relations that get all rows, removes the relations into full outputs, renumbers the others, drops
the scans that only fed what is full, and adds one scan for each table that is full.

A plan built by the public calls keeps its scans and relations apart by table, and simplification
keeps that. It also keeps the selected rows, except for the children of a scan that has no predicate
and no output: the children of all rows are taken to be all rows, but a row without a parent is no
child.
-/

namespace Query

open List

open Arrow Storage

/-! ## Plans that are built -/

theorem TableSet.getIndex_lt {s : TableSet} {name : String} {idx : Nat}
    (h : s.getIndex name = some idx) : idx < s.tables.length := by
  obtain ⟨hlt, _⟩ := findIdx?_eq_some_iff_getElem.mp h
  exact hlt

/-- What a scan feeds is about its own table. -/
structure Scan.Fits (scan : Scan) (tables : TableSet) (relations : List Rel) : Prop where
  defined : ∃ idx, tables.getIndex scan.table = some idx
  output : ∀ o, scan.output = some o → tables.getIndex scan.table = some o
  relations : ∀ i ∈ scan.relations, ∃ rel, relations[i]? = some rel ∧ rel.inputTable = scan.table

/-- Scans feed relations of their own table, and there is one output for each table. -/
structure Plan.WellFormed (plan : Plan) : Prop where
  scans : ∀ scan ∈ plan.scans, scan.Fits plan.tables plan.relations
  outputs : plan.outputs.map (·.table) = plan.tables.tables.map (·.name)

theorem Scan.Fits.mono {scan : Scan} {tables : TableSet} {relations more : List Rel}
    (h : scan.Fits tables relations) : scan.Fits tables (relations ++ more) where
  defined := h.defined
  output := h.output
  relations := by
    intro i hi
    obtain ⟨rel, hr, ht⟩ := h.relations i hi
    obtain ⟨hlt, _⟩ := List.getElem?_eq_some_iff.mp hr
    exact ⟨rel, by rw [getElem?_append_left hlt]; exact hr, ht⟩

namespace PlanBuilder

variable {b b' : PlanBuilder}

theorem modifyScan_wellFormed {scanIdx : Nat} {f : Scan → Scan} (hb : b.WellFormed)
    (hf : ∀ scan, b.scans[scanIdx]? = some scan → (f scan).Fits b.tables b.relations)
    (h : b.modifyScan scanIdx f = some b') : b'.WellFormed := by
  unfold modifyScan at h
  split at h <;> cases h
  refine ⟨fun scan hs => ?_, hb.outputs⟩
  obtain ⟨_, hi⟩ := mem_iff_getElem?.mp hs
  rw [getElem?_modify] at hi
  obtain ⟨before, hbf, rfl⟩ := Option.map_eq_some_iff.mp hi
  split
  · rename_i heq
    exact hf before (by rw [heq]; exact hbf)
  · exact hb.scans before (mem_of_getElem? hbf)

/-- An added relation is where its index says, and the others stay. -/
theorem addRel_spec (b : PlanBuilder) (rel : Rel) :
    ∃ more, (b.addRel rel).1 = { b with relations := b.relations ++ more } ∧
      (b.relations ++ more)[(b.addRel rel).2]? = some rel := by
  unfold addRel
  split
  · rename_i idx hi
    obtain ⟨hlt, hr, _⟩ := findIdx?_eq_some_iff_getElem.mp hi
    have hf : b.relations[idx]? = some rel := by
      rw [getElem?_eq_getElem hlt]
      exact congrArg some (by simpa using hr)
    exact ⟨[], by simp, by simpa using hf⟩
  · exact ⟨[rel], rfl, by simp⟩

theorem feed_wellFormed {scanIdx : Nat} {rel : Rel} (hb : b.WellFormed)
    (ht : ∀ scan, b.scans[scanIdx]? = some scan → rel.inputTable = scan.table)
    (h : b.feed scanIdx rel = some b') : b'.WellFormed := by
  unfold feed at h
  obtain ⟨more, hm, hr⟩ := addRel_spec b rel
  generalize (b.addRel rel).2 = idx at h hr
  rw [hm] at h
  have hg : Plan.WellFormed { b with relations := b.relations ++ more } :=
    ⟨fun scan hs => (hb.scans scan hs).mono, hb.outputs⟩
  refine modifyScan_wellFormed hg ?_ h
  intro scan hs
  have hf := hg.scans scan (mem_of_getElem? hs)
  refine ⟨hf.defined, hf.output, fun i hi => ?_⟩
  rcases mem_append.mp hi with hi | hi
  · exact hf.relations i hi
  · obtain rfl := mem_singleton.mp hi
    exact ⟨rel, hr, ht scan hs⟩

/-- Every public call keeps scans and relations apart by table. -/
theorem call_wellFormed {call : BuilderCall} (hb : b.WellFormed) (h : b.call call = some b') :
    b'.WellFormed := by
  have hft : ∀ {scan : Scan} {idx : Nat}, b.scans[idx]? = some scan →
      scan.Fits b.tables b.relations := fun hs => hb.scans _ (mem_of_getElem? hs)
  have hf : ∀ {scan : Scan} {scanIdx : Nat} {rel : Rel}, b.scans[scanIdx]? = some scan →
      rel.inputTable = scan.table → b.feed scanIdx rel = some b' → b'.WellFormed := by
    intro scan scanIdx rel hs ht hf
    refine feed_wellFormed hb (fun scan' hs' => ?_) hf
    rw [ht, Option.some.inj (hs.symm.trans hs')]
  cases call with
  | addScan =>
    obtain ⟨output, hot, h⟩ := Option.bind_eq_some_iff.mp h
    cases h
    refine ⟨fun scan hs => ?_, hb.outputs⟩
    rcases mem_append.mp hs with hs | hs
    · exact hb.scans scan hs
    · obtain rfl := mem_singleton.mp hs
      refine ⟨⟨output, hot⟩, fun o ho => ?_, by simp⟩
      rw [← Option.some.inj ho]
      exact hot
  | setProjection =>
    obtain ⟨_, _, h⟩ := Option.bind_eq_some_iff.mp h
    cases h
    refine ⟨hb.scans, ?_⟩
    rw [← hb.outputs]
    apply ext_getElem?
    intro i
    simp only [getElem?_map, getElem?_modify]
    cases b.outputs[i]? with
    | none => rfl
    | some =>
      simp only [Option.map_eq_map, Option.map_some]
      split <;> rfl
  | setIncludeAllBlocks _ | setParentBlockHash _ | setFirstBlock _ | setLastBlock _ =>
    cases h
    exact ⟨hb.scans, hb.outputs⟩
  | withPredicate =>
    refine modifyScan_wellFormed hb (fun scan hs => ?_) h
    exact ⟨(hft hs).defined, (hft hs).output, (hft hs).relations⟩
  | withNoOutput =>
    refine modifyScan_wellFormed hb (fun scan hs => ?_) h
    exact ⟨(hft hs).defined, by simp, (hft hs).relations⟩
  | join =>
    obtain ⟨scan, hs, h⟩ := Option.bind_eq_some_iff.mp h
    exact hf hs rfl h
  | includeChildren =>
    obtain ⟨scan, hs, h⟩ := Option.bind_eq_some_iff.mp h
    obtain ⟨table, _, h⟩ := Option.bind_eq_some_iff.mp h
    exact hf hs rfl h
  | includeParents =>
    obtain ⟨scan, hs, h⟩ := Option.bind_eq_some_iff.mp h
    obtain ⟨table, _, h⟩ := Option.bind_eq_some_iff.mp h
    exact hf hs rfl h
  | includeForeignChildren =>
    obtain ⟨scan, hs, h⟩ := Option.bind_eq_some_iff.mp h
    exact hf hs rfl h
  | includeForeignParents =>
    obtain ⟨_, hs, h⟩ := Option.bind_eq_some_iff.mp h
    exact hf hs rfl h

theorem ofCalls_wellFormed {tables : TableSet} {calls : List BuilderCall}
    (h : ofCalls tables calls = some b) : b.WellFormed := by
  have hr : ∀ (calls : List BuilderCall) (b₀ : PlanBuilder), b₀.WellFormed →
      calls.foldlM call b₀ = some b → b.WellFormed := by
    intro calls
    induction calls with
    | nil =>
      intro b₀ hb₀ h
      cases h
      exact hb₀
    | cons _ _ ih =>
      intro b₀ hb₀ h
      rw [foldlM_cons] at h
      obtain ⟨b₁, h₁, h⟩ := Option.bind_eq_some_iff.mp h
      exact ih b₁ (call_wellFormed hb₀ h₁) h
  refine hr calls _ ⟨by simp [new], ?_⟩ h
  simp [new]

/-! ## Simplification -/

/-- `is_full_rel`: whether full input implies full output. -/
def isFullRel (b : PlanBuilder) : Rel → Option Bool
  | .join inputTable inputKey outputTable outputKey => do
    let inputDesc ← b.tables.get inputTable
    return decide (inputKey = inputDesc.primaryKey) &&
      decide (inputDesc.children.lookup outputTable = some outputKey)
  | .children _ _ => some true
  | .parents _ _ => some true
  | _ => some false

/-- Marks are joined in the order of `Bool`. The complete lattice, which is found first, does not
compute. -/
local instance marksJoin : SemilatticeSup Bool := LinearOrder.toLattice.toSemilatticeSup

/-- The outputs and relations that are known to get all rows. -/
structure Marks where
  isFull : List Bool
  isFullRel : List Bool

def markRel (b : PlanBuilder) (marks : Marks) (relIdx : Nat) : Option Marks := do
  let isFullRel ← Slots.joinAt marks.isFullRel (relIdx, true)
  let rel ← b.relations[relIdx]?
  let full ← b.isFullRel rel
  if full then do
    let idx ← b.tables.getIndex rel.outputTable
    let isFull ← Slots.joinAt marks.isFull (idx, true)
    return { isFull, isFullRel }
  else return { marks with isFullRel }

/-- A scan without predicate selects the entire table. -/
def markScan (b : PlanBuilder) (marks : Marks) (scan : Scan) : Option Marks :=
  if scan.predicate.isSome then some marks
  else do
    let isFull ← Slots.joinAll marks.isFull (scan.output.toList.map (·, true))
    scan.relations.foldlM b.markRel { marks with isFull }

def marks (b : PlanBuilder) : Option Marks :=
  b.scans.foldlM b.markScan
    { isFull := b.outputs.map fun _ => false, isFullRel := b.relations.map fun _ => false }

/-- The relations that point to fully populated outputs. -/
def relationsRemoveMask (b : PlanBuilder) (marks : Marks) : Option (List Bool) :=
  b.relations.mapM fun rel => do
    let idx ← b.tables.getIndex rel.outputTable
    marks.isFull[idx]?

/-- `remove_relations`: the scans feed the relations that are left, under their new numbers. -/
def removeRelations (b : PlanBuilder) (removeMask : List Bool) : Option PlanBuilder := do
  let scans ← b.scans.mapM fun scan => do
    let relations ← scan.relations.mapM fun relIdx => (Slots.indexMap 0 removeMask)[relIdx]?
    return { scan with relations := relations.reduceOption }
  return { b with scans, relations := Slots.removeElements b.relations removeMask }

def retainOutput (isFull : List Bool) : Option Nat → Option (Option Nat)
  | none => some none
  | some o => (isFull[o]?).map fun full => if full then none else some o

/-- A scan without what is full anyway. It is dropped if nothing is left. -/
def retainScan (isFull isFullRel : List Bool) (scan : Scan) : Option (Option Scan) := do
  let output ← retainOutput isFull scan.output
  let full ← scan.relations.mapM fun i => isFullRel[i]?
  let relations := Slots.removeElements scan.relations full
  return if scan.predicate.isSome && (!relations.isEmpty || output.isSome) then
    some { scan with output, relations }
  else none

/-- A scan of each table whose output is full. -/
def outputScans (b : PlanBuilder) (isFull : List Bool) : List Scan :=
  ((b.outputs.zip isFull).zipIdx).filterMap fun out =>
    if out.1.2 then some ⟨out.1.1.table, none, [], some out.2⟩ else none

/-- The scan of a relation's input table also feeds the relation. -/
def addFullRel (scans : List Scan) (rel : (Rel × Bool) × Nat) : List Scan :=
  if rel.1.2 then
    if scans.any fun scan => scan.table = rel.1.1.inputTable then
      scans.map fun scan =>
        if scan.table = rel.1.1.inputTable then
          { scan with relations := scan.relations ++ [rel.2] }
        else scan
    else scans ++ [⟨rel.1.1.inputTable, none, [rel.2], none⟩]
  else scans

/-- The scans that populate what is full. -/
def newScans (b : PlanBuilder) (isFull isFullRel : List Bool) : List Scan :=
  ((b.relations.zip isFullRel).zipIdx).foldl addFullRel (b.outputScans isFull)

def assertScanRelationInvariant (b : PlanBuilder) : Option PlanBuilder :=
  if b.scans.all fun scan => scan.relations.all fun relIdx =>
      (b.relations[relIdx]?).any fun rel => rel.inputTable = scan.table then
    some b
  else none

/-- `simplify`. It panics on a relation to a table that is not defined. -/
def simplify (b : PlanBuilder) : Option PlanBuilder :=
  if b.scans.all (·.predicate.isSome) then some b
  else do
    let marks ← b.marks
    let removeMask ← b.relationsRemoveMask marks
    let isFullRel := Slots.removeElements marks.isFullRel removeMask
    let b ← b.removeRelations removeMask
    let retained ← b.scans.mapM (retainScan marks.isFull isFullRel)
    assertScanRelationInvariant
      { b with scans := retained.reduceOption ++ b.newScans marks.isFull isFullRel }

/-! ## What is marked -/

theorem prime_true : Slots.Prime fun full : Bool => full = true := by
  intro a b
  cases a <;> cases b <;> simp

/-- The output that is full if a relation's input is. -/
def fullUpdates (b : PlanBuilder) (relIdx : Nat) : List (Nat × Bool) :=
  match b.relations[relIdx]? with
  | some rel =>
    if b.isFullRel rel = some true then
      (b.tables.getIndex rel.outputTable).toList.map (·, true)
    else []
  | none => []

variable {m m' : Marks}

theorem markRel_joined {relIdx : Nat} (h : b.markRel m relIdx = some m') :
    Slots.Joined (· = true) m.isFull (b.fullUpdates relIdx) m'.isFull ∧
      Slots.Joined (· = true) m.isFullRel [(relIdx, true)] m'.isFullRel := by
  obtain ⟨_, hr, h⟩ := Option.bind_eq_some_iff.mp h
  obtain ⟨rel, hf, h⟩ := Option.bind_eq_some_iff.mp h
  obtain ⟨full, hfl, h⟩ := Option.bind_eq_some_iff.mp h
  have hj := Slots.joined_joinAt prime_true hr
  simp only [fullUpdates, hf, hfl]
  cases full with
  | false =>
    cases h
    exact ⟨Slots.joined_nil _, hj⟩
  | true =>
    obtain ⟨_, hi, h⟩ := Option.bind_eq_some_iff.mp h
    obtain ⟨isFull, hs, h⟩ := Option.bind_eq_some_iff.mp h
    cases h
    rw [hi]
    exact ⟨Slots.joined_joinAt prime_true hs, hj⟩

theorem foldlM_markRel_joined {relations : List Nat} (h : relations.foldlM b.markRel m = some m') :
    Slots.Joined (· = true) m.isFull (relations.flatMap b.fullUpdates) m'.isFull ∧
      Slots.Joined (· = true) m.isFullRel (relations.map (·, true)) m'.isFullRel := by
  induction relations generalizing m with
  | nil =>
    cases h
    exact ⟨Slots.joined_nil _, Slots.joined_nil _⟩
  | cons _ _ ih =>
    rw [foldlM_cons] at h
    obtain ⟨_, h₁, h₂⟩ := Option.bind_eq_some_iff.mp h
    have hs := markRel_joined h₁
    have hr := ih h₂
    exact ⟨hs.1.append hr.1, hs.2.append hr.2⟩

def outputMarks (b : PlanBuilder) (scan : Scan) : List (Nat × Bool) :=
  if scan.predicate.isSome then []
  else scan.output.toList.map (·, true) ++ scan.relations.flatMap b.fullUpdates

def relationMarks (scan : Scan) : List (Nat × Bool) :=
  if scan.predicate.isSome then [] else scan.relations.map (·, true)

theorem markScan_joined {scan : Scan} (h : b.markScan m scan = some m') :
    Slots.Joined (· = true) m.isFull (b.outputMarks scan) m'.isFull ∧
      Slots.Joined (· = true) m.isFullRel (relationMarks scan) m'.isFullRel := by
  unfold markScan at h
  unfold outputMarks relationMarks
  split at h
  · rename_i hp
    cases h
    simp only [hp, if_true]
    exact ⟨Slots.joined_nil _, Slots.joined_nil _⟩
  · rename_i hp
    obtain ⟨_, hf, h⟩ := Option.bind_eq_some_iff.mp h
    have hr := foldlM_markRel_joined h
    simp only [hp]
    exact ⟨(Slots.joined_joinAll prime_true hf).append hr.1, hr.2⟩

theorem foldlM_markScan_joined {scans : List Scan} (h : scans.foldlM b.markScan m = some m') :
    Slots.Joined (· = true) m.isFull (scans.flatMap b.outputMarks) m'.isFull ∧
      Slots.Joined (· = true) m.isFullRel (scans.flatMap relationMarks) m'.isFullRel := by
  induction scans generalizing m with
  | nil =>
    cases h
    exact ⟨Slots.joined_nil _, Slots.joined_nil _⟩
  | cons _ _ ih =>
    rw [foldlM_cons] at h
    obtain ⟨_, h₁, h₂⟩ := Option.bind_eq_some_iff.mp h
    have hs := markScan_joined h₁
    have hr := ih h₂
    exact ⟨hs.1.append hr.1, hs.2.append hr.2⟩

/-- A relation gets all rows of its input table from a scan. -/
def FullRel (b : PlanBuilder) (i : Nat) : Prop :=
  ∃ scan ∈ b.scans, scan.predicate = none ∧ i ∈ scan.relations

/-- An output is taken to get all rows, from a scan or from a relation. -/
def FullOutput (b : PlanBuilder) (o : Nat) : Prop :=
  (∃ scan ∈ b.scans, scan.predicate = none ∧ scan.output = some o) ∨
    ∃ i rel, b.FullRel i ∧ b.relations[i]? = some rel ∧ b.isFullRel rel = some true ∧
      b.tables.getIndex rel.outputTable = some o

theorem mem_fullUpdates {i o : Nat} {full : Bool} : (o, full) ∈ b.fullUpdates i ↔
    full = true ∧ ∃ rel, b.relations[i]? = some rel ∧ b.isFullRel rel = some true ∧
      b.tables.getIndex rel.outputTable = some o := by
  unfold fullUpdates
  cases b.relations[i]? with
  | none => simp
  | some rel =>
    by_cases hf : b.isFullRel rel = some true
    · simp [hf, and_comm, eq_comm]
    · simp [hf]

theorem mem_outputMarks {o : Nat} : (o, true) ∈ b.scans.flatMap b.outputMarks ↔ b.FullOutput o := by
  have hs : ∀ scan : Scan, (o, true) ∈ b.outputMarks scan ↔ scan.predicate = none ∧
      (scan.output = some o ∨ ∃ i ∈ scan.relations, ∃ rel, b.relations[i]? = some rel ∧
        b.isFullRel rel = some true ∧ b.tables.getIndex rel.outputTable = some o) := by
    intro scan
    unfold outputMarks
    cases scan.predicate with
    | some => simp
    | none =>
      simp only [Option.isSome_none, Bool.false_eq_true, if_false, mem_append,
        mem_flatMap, mem_fullUpdates, true_and]
      simp
  simp only [mem_flatMap, hs, FullOutput, FullRel]
  constructor
  · rintro ⟨scan, hm, hn, ho | ⟨i, hi, rel, hr⟩⟩
    · exact Or.inl ⟨scan, hm, hn, ho⟩
    · exact Or.inr ⟨i, rel, ⟨scan, hm, hn, hi⟩, hr⟩
  · rintro (⟨scan, hm, hn, ho⟩ | ⟨i, rel, ⟨scan, hm, hn, hi⟩, hr⟩)
    · exact ⟨scan, hm, hn, Or.inl ho⟩
    · exact ⟨scan, hm, hn, Or.inr ⟨i, hi, rel, hr⟩⟩

theorem mem_relationMarks {i : Nat} : (i, true) ∈ b.scans.flatMap relationMarks ↔ b.FullRel i := by
  simp only [mem_flatMap, FullRel]
  refine exists_congr fun scan => and_congr_right fun _ => ?_
  unfold relationMarks
  cases scan.predicate <;> simp

/-- The marks say which outputs and relations are full. -/
structure MarksSpec (b : PlanBuilder) (m : Marks) : Prop where
  outputsLength : m.isFull.length = b.outputs.length
  relationsLength : m.isFullRel.length = b.relations.length
  outputs : ∀ o full, m.isFull[o]? = some full → (full = true ↔ b.FullOutput o)
  relations : ∀ i full, m.isFullRel[i]? = some full → (full = true ↔ b.FullRel i)

theorem marks_spec (h : b.marks = some m) : b.MarksSpec m := by
  obtain ⟨hf, hr⟩ := foldlM_markScan_joined h
  have hup : ∀ {updates : List (Nat × Bool)} {i : Nat},
      (∃ u ∈ updates, u.1 = i ∧ u.2 = true) ↔ (i, true) ∈ updates := by
    intro updates i
    constructor
    · rintro ⟨⟨_, _⟩, hu, rfl, rfl⟩
      exact hu
    · intro hu
      exact ⟨(i, true), hu, rfl, rfl⟩
  refine ⟨by simpa using hf.length, by simpa using hr.length, ?_, ?_⟩
  · intro o full ho
    obtain ⟨before, hb, hif⟩ := hf.holds o full ho
    obtain ⟨_, _, rfl⟩ := mem_map.mp (mem_of_getElem? hb)
    rw [hif, hup, mem_outputMarks]
    simp
  · intro i full hi
    obtain ⟨_, hb, hif⟩ := hr.holds i full hi
    obtain ⟨_, _, rfl⟩ := mem_map.mp (mem_of_getElem? hb)
    rw [hif, hup, mem_relationMarks]
    simp

def RelationsDefined (b : PlanBuilder) : Prop :=
  ∀ rel ∈ b.relations, ∃ idx, b.tables.getIndex rel.outputTable = some idx

theorem outputs_length (hb : b.WellFormed) : b.outputs.length = b.tables.tables.length := by
  have hl := congrArg length hb.outputs
  simpa using hl

theorem get_of_getIndex {s : TableSet} {name : String} {idx : Nat}
    (h : s.getIndex name = some idx) : ∃ t, s.get name = some t := by
  unfold TableSet.get
  obtain ⟨hlt, hn, _⟩ := findIdx?_eq_some_iff_getElem.mp h
  have hs : (s.tables.find? fun t => t.name == name).isSome := by
    rw [find?_isSome]
    exact ⟨s.tables[idx], getElem_mem hlt, hn⟩
  exact Option.isSome_iff_exists.mp hs

theorem exists_isFullRel {rel : Rel} (h : ∃ idx, b.tables.getIndex rel.inputTable = some idx) :
    ∃ full, b.isFullRel rel = some full := by
  obtain ⟨_, hi⟩ := h
  cases rel with
  | join =>
    obtain ⟨_, ht⟩ := get_of_getIndex hi
    simp only [Rel.inputTable] at ht
    simp [isFullRel, ht]
  | foreignChildren _ _ _ _ | foreignParents _ _ _ _ | children _ _ | parents _ _ => exact ⟨_, rfl⟩

theorem exists_markRel {i : Nat} {rel : Rel} (hr : b.relations[i]? = some rel)
    (hi : ∃ idx, b.tables.getIndex rel.inputTable = some idx)
    (ho : ∃ idx, b.tables.getIndex rel.outputTable = some idx)
    (hoL : m.isFull.length = b.tables.tables.length)
    (hrL : m.isFullRel.length = b.relations.length) : ∃ m', b.markRel m i = some m' := by
  obtain ⟨full, hf⟩ := exists_isFullRel hi
  obtain ⟨idx, hid⟩ := ho
  obtain ⟨_, _⟩ := List.getElem?_eq_some_iff.mp hr
  obtain ⟨isFullRel, hsR⟩ := Slots.exists_joinAt (u := (i, true))
    (show i < m.isFullRel.length by omega)
  obtain ⟨_, hs⟩ := Slots.exists_joinAt (u := (idx, true))
    (show idx < m.isFull.length by rw [hoL]; exact TableSet.getIndex_lt hid)
  unfold markRel
  cases full <;> simp [hsR, hr, hf, hid, hs]

theorem exists_marks (hb : b.WellFormed) (hd : b.RelationsDefined) : ∃ m, b.marks = some m := by
  have hr : ∀ (relations : List Nat) (m : Marks),
      (∀ i ∈ relations, ∃ rel, b.relations[i]? = some rel ∧
        ∃ idx, b.tables.getIndex rel.inputTable = some idx) →
      m.isFull.length = b.tables.tables.length → m.isFullRel.length = b.relations.length →
      ∃ m', relations.foldlM b.markRel m = some m' := by
    intro relations
    induction relations with
    | nil => exact fun m _ _ _ => ⟨m, rfl⟩
    | cons i _ ih =>
      intro m hm hoL hrL
      obtain ⟨rel, hrl, hin⟩ := hm i mem_cons_self
      obtain ⟨m₁, h₁⟩ := exists_markRel hrl hin (hd rel (mem_of_getElem? hrl)) hoL hrL
      have hjn := markRel_joined h₁
      obtain ⟨m', h'⟩ := ih m₁ (fun j hj => hm j (mem_cons_of_mem i hj))
        (hjn.1.length.trans hoL) (hjn.2.length.trans hrL)
      exact ⟨m', by rw [foldlM_cons, h₁]; exact h'⟩
  have hsc : ∀ (scans : List Scan) (m : Marks), (∀ scan ∈ scans, scan ∈ b.scans) →
      m.isFull.length = b.tables.tables.length → m.isFullRel.length = b.relations.length →
      ∃ m', scans.foldlM b.markScan m = some m' := by
    intro scans
    induction scans with
    | nil => exact fun m _ _ _ => ⟨m, rfl⟩
    | cons scan _ ih =>
      intro m hm hoL hrL
      have hf := hb.scans scan (hm scan mem_cons_self)
      have hst : ∃ m₁, b.markScan m scan = some m₁ := by
        unfold markScan
        split
        · exact ⟨m, rfl⟩
        · have hot : ∀ u ∈ scan.output.toList.map (·, true), u.1 < m.isFull.length := by
            intro u hu
            obtain ⟨o, ho, rfl⟩ := mem_map.mp hu
            rw [hoL]
            exact TableSet.getIndex_lt (hf.output o (by simpa using ho))
          obtain ⟨isFull, hfl⟩ := Slots.exists_joinAll hot
          have hl := (Slots.joined_joinAll prime_true hfl).length
          obtain ⟨m₁, h₁⟩ := hr scan.relations { m with isFull } (fun i hi => by
            obtain ⟨rel, hrl, ht⟩ := hf.relations i hi
            exact ⟨rel, hrl, by rw [ht]; exact hf.defined⟩)
            (hl.trans hoL) hrL
          exact ⟨m₁, by rw [hfl]; exact h₁⟩
      obtain ⟨m₁, h₁⟩ := hst
      have hjn := markScan_joined h₁
      obtain ⟨m', h'⟩ := ih m₁ (fun s hs => hm s (mem_cons_of_mem scan hs))
        (hjn.1.length.trans hoL) (hjn.2.length.trans hrL)
      exact ⟨m', by rw [foldlM_cons, h₁]; exact h'⟩
  exact hsc b.scans _ (fun _ hs => hs) (by simpa using outputs_length hb) (by simp)

end PlanBuilder

end Query
