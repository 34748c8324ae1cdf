import SqdData.Query.Simplified
import SqdData.Query.TraceTrees

/-!
# Simplification keeps the selected rows

A plan and its simplified version select the same rows on a chunk in which a child row has its
parent row exactly if what is taken to be full is full: where a scan without predicate asks for
children or parents, every row of the table must be selected by something. A row without ancestor is
not selected as a child.
-/

namespace Query

open List

open Arrow Storage

variable {row : Nat}

section Scans

variable [Casts] {scan scan' : Scan} {chunk : Chunk} {batch : RecordBatch}

theorem Scan.rows_of_none (hb : chunk.scanTable scan.table = .ok batch)
    (hn : scan.predicate = none) : scan.rows chunk = .ok (Finset.range batch.numRows) := by
  unfold Scan.rows
  rw [hb]
  simp only [bind, Except.bind, hn]

theorem Scan.selected_of_none (hb : chunk.scanTable scan.table = .ok batch)
    (hn : scan.predicate = none) : scan.selected chunk = Finset.range batch.numRows :=
  Scan.selected_eq (Scan.rows_of_none hb hn)

/-- A scan selects rows of its table. -/
theorem Scan.lt_of_mem_selected (hb : chunk.scanTable scan.table = .ok batch)
    (h : row ∈ scan.selected chunk) : row < batch.numRows := by
  cases hp : scan.predicate with
  | none =>
    rw [Scan.selected_of_none hb hp] at h
    exact Finset.mem_range.mp h
  | some p =>
    unfold Scan.selected Scan.rows at h
    rw [hb] at h
    simp only [bind, Except.bind, hp] at h
    cases hm : p.evaluate batch with
    | error => simp [hm] at h
    | ok =>
      rw [hm] at h
      exact Finset.mem_range.mp (Finset.mem_filter.mp h).1

theorem Scan.rows_congr (ht : scan'.table = scan.table)
    (hp : scan'.predicate = scan.predicate) : scan'.rows chunk = scan.rows chunk := by
  unfold Scan.rows
  rw [ht, hp]

theorem Scan.selected_congr (ht : scan'.table = scan.table)
    (hp : scan'.predicate = scan.predicate) : scan'.selected chunk = scan.selected chunk := by
  unfold Scan.selected
  rw [Scan.rows_congr ht hp]

end Scans

theorem Rel.lt_of_mem_selected {rel : Rel} {chunk : Chunk} {batch : RecordBatch}
    {input : Finset Nat} (hb : chunk.scanTable rel.outputTable = .ok batch)
    (h : row ∈ rel.selected chunk input) : row < batch.numRows := by
  unfold Rel.selected at h
  cases heval : rel.eval chunk input with
  | error => simp [heval] at h
  | ok =>
    rw [heval] at h
    exact Rel.lt_of_mem_eval hb heval row (mem_toFinset.mp h)

/-- Whether a relation leads to rows of its own table. -/
def Rel.isTree : Rel → Bool
  | .children _ _ | .parents _ _ => true
  | _ => false

def HasTables (tables : TableSet) (chunk : Chunk) : Prop :=
  ∀ t ∈ tables.tables, ∃ batch, chunk.scanTable t.name = .ok batch

/-- Each row of a declared child has its parent row. -/
def ChildrenHaveParents (tables : TableSet) (chunk : Chunk) : Prop :=
  ∀ t ∈ tables.tables, ∀ child ∈ t.children, ∀ parentBatch childBatch,
    chunk.scanTable t.name = .ok parentBatch → chunk.scanTable child.1 = .ok childBatch →
      HasParents parentBatch t.primaryKey childBatch child.2

theorem TableSet.exists_of_getIndex {s : TableSet} {name : String} {idx : Nat}
    (h : s.getIndex name = some idx) : ∃ t ∈ s.tables, t.name = name := by
  obtain ⟨hlt, hn, _⟩ := findIdx?_eq_some_iff_getElem.mp h
  exact ⟨s.tables[idx], getElem_mem hlt, by simpa using hn⟩

theorem HasTables.scan {tables : TableSet} {chunk : Chunk} (h : HasTables tables chunk)
    {name : String} {idx : Nat} (hi : tables.getIndex name = some idx) :
    ∃ batch, chunk.scanTable name = .ok batch := by
  obtain ⟨t, ht, rfl⟩ := TableSet.exists_of_getIndex hi
  exact h t ht

theorem TableSet.name_eq_of_getIndex {s : TableSet} {name name' : String} {idx : Nat}
    (h : s.getIndex name = some idx) (h' : s.getIndex name' = some idx) : name = name' := by
  obtain ⟨_, hn, _⟩ := findIdx?_eq_some_iff_getElem.mp h
  obtain ⟨_, hn', _⟩ := findIdx?_eq_some_iff_getElem.mp h'
  exact (by simpa using hn : s.tables[idx].name = name).symm.trans (by simpa using hn')

namespace PlanBuilder

variable {b b' : PlanBuilder} {chunk : Chunk}

/-- The table is an output of a scan without predicate. -/
def ScannedInFull (b : PlanBuilder) (table : String) : Prop :=
  ∃ scan ∈ b.scans, scan.predicate = none ∧ scan.table = table ∧ scan.output ≠ none

section Meaning

variable [Casts]

/-- What selects a row of a table. Of all rows those with an ancestor are children, and those with a
group are parents. -/
inductive Covers (b : PlanBuilder) (chunk : Chunk) (table : String) (batch : RecordBatch)
    (row : Nat) : Prop
  | scan (scan : Scan) (hm : scan ∈ b.scans) (ht : scan.table = table) (ho : scan.output ≠ none)
      (hr : row ∈ scan.selected chunk)
  | child (i : Nat) (key : List String) (hf : b.FullRel i)
      (hi : b.relations[i]? = some (.children table key)) (hr : HasAncestor batch key row)
  | parent (i : Nat) (key : List String) (hf : b.FullRel i)
      (hi : b.relations[i]? = some (.parents table key)) (hr : HasGroup batch key row)
  | relation (i : Nat) (rel : Rel) (hi : b.relations[i]? = some rel) (ht : rel.outputTable = table)
      (htree : b.FullRel i → rel.isTree = false) (hne : b.input chunk i ≠ ∅)
      (hr : row ∈ rel.selected chunk (b.input chunk i))

/-- Where all children or all parents of a table are asked for, there is something to select each of
its rows. -/
def TreesCovered (b : PlanBuilder) (chunk : Chunk) : Prop :=
  ∀ i rel, b.FullRel i → b.relations[i]? = some rel → rel.isTree = true →
    ∀ batch, chunk.scanTable rel.outputTable = .ok batch → ∀ row < batch.numRows,
      b.Covers chunk rel.outputTable batch row

variable {batch : RecordBatch}

/-- All rows of the input table are fed to a relation that is marked full. -/
theorem input_of_fullRel (hb : b.WellFormed) {i : Nat} {rel : Rel} (hf : b.FullRel i)
    (hr : b.relations[i]? = some rel) (hbt : chunk.scanTable rel.inputTable = .ok batch) :
    b.input chunk i = Finset.range batch.numRows := by
  have ht : ∀ scan ∈ b.scans, i ∈ scan.relations → scan.table = rel.inputTable := by
    intro scan hs hi
    obtain ⟨_, hr', ht⟩ := (hb.scans scan hs).relations i hi
    rw [← ht, Option.some.inj (hr'.symm.trans hr)]
  obtain ⟨full, hs, hn, hi⟩ := hf
  ext row
  rw [Plan.mem_input, Finset.mem_range]
  constructor
  · rintro ⟨scan, hs, hi, hrw⟩
    exact Scan.lt_of_mem_selected (by rw [ht scan hs hi]; exact hbt) hrw
  · intro hrw
    refine ⟨full, hs, hi, ?_⟩
    rw [Scan.selected_of_none (by rw [ht full hs hi]; exact hbt) hn]
    exact Finset.mem_range.mpr hrw

variable {table : String} {o : Nat}

/-- A plan selects rows of the output's table. -/
theorem lt_of_selects (hb : b.WellFormed) (hi : b.tables.getIndex table = some o)
    (hbt : chunk.scanTable table = .ok batch) (h : b.Selects chunk o row) :
    row < batch.numRows := by
  rcases h with ⟨scan, hs, ho, hr⟩ | ⟨_, _, _, ho, _, hr⟩
  · have ht := TableSet.name_eq_of_getIndex ((hb.scans scan hs).output o ho) hi
    exact Scan.lt_of_mem_selected (by rw [ht]; exact hbt) hr
  · rw [getOutputIndex_eq hb] at ho
    have ht := TableSet.name_eq_of_getIndex ho hi
    exact Rel.lt_of_mem_selected (by rw [ht]; exact hbt) hr

theorem selects_of_scannedInFull (hb : b.WellFormed) (hi : b.tables.getIndex table = some o)
    (hbt : chunk.scanTable table = .ok batch) (h : b.ScannedInFull table)
    (hr : row < batch.numRows) :
    b.Selects chunk o row := by
  obtain ⟨scan, hs, hn, ht, hsm⟩ := h
  obtain ⟨o', ho'⟩ := Option.ne_none_iff_exists'.mp hsm
  have hi' := (hb.scans scan hs).output o' ho'
  rw [ht, hi] at hi'
  refine Or.inl ⟨scan, hs, by rw [ho', hi'], ?_⟩
  rw [Scan.selected_of_none (by rw [ht]; exact hbt) hn]
  exact Finset.mem_range.mpr hr

/-- A relation that is marked full is evaluated on all rows of its table, if there are any. -/
theorem selected_of_fullRel (hb : b.WellFormed) {i : Nat} {rel : Rel}
    (hrn : b.RelationRuns chunk (rel, b.input chunk i)) (hf : b.FullRel i)
    (hr : b.relations[i]? = some rel) (hbt : chunk.scanTable rel.inputTable = .ok batch)
    (hrows : 0 < batch.numRows) :
    b.input chunk i ≠ ∅ ∧ ∃ rows, rel.eval chunk (Finset.range batch.numRows) = .ok rows ∧
      rel.selected chunk (b.input chunk i) = rows.toFinset := by
  have hin := input_of_fullRel hb hf hr hbt
  have hne : b.input chunk i ≠ ∅ := by
    rw [hin]
    exact Finset.ne_empty_of_mem (Finset.mem_range.mpr hrows)
  obtain ⟨-, rows, hrw⟩ := hrn hne
  exact ⟨hne, rows, hin ▸ hrw, Rel.selected_eq hrw⟩

section Outputs

variable (hb : b.WellFormed)
  (hrn : ∀ i rel, b.relations[i]? = some rel → b.RelationRuns chunk (rel, b.input chunk i))

include hb hrn

/-- A row is selected as `Covers` says. -/
theorem selects_iff_covers (hi : b.tables.getIndex table = some o)
    (hbt : chunk.scanTable table = .ok batch) (hro : row < batch.numRows) :
    b.Selects chunk o row ↔ b.Covers chunk table batch row := by
  have hpos : 0 < batch.numRows := by omega
  constructor
  · rintro (⟨scan, hs, ho, hr⟩ | ⟨i, rel, hrl, ho, hne, hr⟩)
    · exact .scan scan hs (TableSet.name_eq_of_getIndex ((hb.scans scan hs).output o ho) hi)
        (by simp [ho]) hr
    · rw [getOutputIndex_eq hb] at ho
      obtain rfl := TableSet.name_eq_of_getIndex ho hi
      by_cases hf : b.FullRel i
      · cases rel with
        | join _ _ _ _ | foreignChildren _ _ _ _ | foreignParents _ _ _ _ =>
          exact .relation i _ hrl rfl (fun _ => rfl) hne hr
        | children table key =>
          obtain ⟨-, rows, hrw, hsel⟩ := selected_of_fullRel hb (hrn i _ hrl) hf hrl hbt hpos
          rw [hsel, mem_toFinset, evalChildren_all hbt hrw] at hr
          exact .child i key hf hrl hr.2
        | parents table key =>
          obtain ⟨-, rows, hrw, hsel⟩ := selected_of_fullRel hb (hrn i _ hrl) hf hrl hbt hpos
          rw [hsel, mem_toFinset, evalParents_all hbt hrw] at hr
          exact .parent i key hf hrl hr.2
      · exact .relation i rel hrl rfl (fun h => absurd h hf) hne hr
  · intro hc
    cases hc with
    | scan scan hs ht ho hr =>
      obtain ⟨o', ho'⟩ := Option.ne_none_iff_exists'.mp ho
      have hi' := (hb.scans scan hs).output o' ho'
      rw [ht, hi] at hi'
      exact Or.inl ⟨scan, hs, by rw [ho', hi'], hr⟩
    | child i key hf hrl hr =>
      obtain ⟨hne, rows, hrw, hsel⟩ := selected_of_fullRel hb (hrn i _ hrl) hf hrl hbt hpos
      refine Or.inr ⟨i, _, hrl, by rw [getOutputIndex_eq hb]; exact hi, hne, ?_⟩
      rw [hsel, mem_toFinset, evalChildren_all hbt hrw]
      exact ⟨hro, hr⟩
    | parent i key hf hrl hr =>
      obtain ⟨hne, rows, hrw, hsel⟩ := selected_of_fullRel hb (hrn i _ hrl) hf hrl hbt hpos
      refine Or.inr ⟨i, _, hrl, by rw [getOutputIndex_eq hb]; exact hi, hne, ?_⟩
      rw [hsel, mem_toFinset, evalParents_all hbt hrw]
      exact ⟨hro, hr⟩
    | relation i rel hrl ht _ hne hr =>
      exact Or.inr ⟨i, rel, hrl, by rw [getOutputIndex_eq hb, ht]; exact hi, hne, hr⟩

/-- A join from all rows of a table to its children reaches all of them. -/
theorem selects_of_fullJoin {i : Nat} {inputTable : String} {inputKey outputKey : List String}
    (htb : HasTables b.tables chunk) (hp : ChildrenHaveParents b.tables chunk)
    (hi : b.tables.getIndex table = some o) (hbt : chunk.scanTable table = .ok batch)
    (hf : b.FullRel i) (hrl : b.relations[i]? = some (.join inputTable inputKey table outputKey))
    (hfull : b.isFullRel (.join inputTable inputKey table outputKey) = some true)
    (hro : row < batch.numRows) : b.Selects chunk o row := by
  obtain ⟨t, ht, hd⟩ := Option.bind_eq_some_iff.mp hfull
  have hnm : t.name = inputTable := by simpa using find?_some ht
  have hm : t ∈ b.tables.tables := mem_of_find?_eq_some ht
  simp only [pure, Option.some.injEq, Bool.and_eq_true, decide_eq_true_eq] at hd
  obtain ⟨hky, hch⟩ := hd
  obtain ⟨_, _, hsp, _⟩ := lookup_eq_some_iff.mp hch
  have hcM : (table, outputKey) ∈ t.children := by
    rw [hsp]
    simp
  obtain ⟨parentBatch, hpB⟩ := htb t hm
  have hl := hp t hm _ hcM parentBatch batch hpB hbt
  rw [hnm] at hpB
  obtain ⟨_, _, _, _, _, parentRow, hlt, _⟩ := hl row hro
  obtain ⟨hne, rows, hrw, hsel⟩ :=
    selected_of_fullRel hb (hrn i _ hrl) hf hrl hpB (Nat.zero_lt_of_lt hlt)
  refine Or.inr ⟨i, _, hrl, by rw [getOutputIndex_eq hb]; exact hi, hne, ?_⟩
  rw [hsel, mem_toFinset]
  exact evalJoin_full hpB hbt (by rw [hky]; exact hl) hrw row hro

/-- Everything is selected for each output that is taken to be full exactly if what trees leave out
is. -/
theorem fullOutputs_selected_iff (htb : HasTables b.tables chunk)
    (hp : ChildrenHaveParents b.tables chunk) :
    (∀ table o batch, b.FullOutput o → b.tables.getIndex table = some o →
      chunk.scanTable table = .ok batch → ∀ row < batch.numRows, b.Selects chunk o row) ↔
      b.TreesCovered chunk := by
  constructor
  · intro h i rel hf hrl htree batch hbt row hro
    obtain ⟨scan, hs, hn, hi⟩ := hf
    obtain ⟨rel', hrl', ht⟩ := (hb.scans scan hs).relations i hi
    cases hrl'.symm.trans hrl
    obtain ⟨o, ho⟩ := (hb.scans scan hs).defined
    have htable : rel.inputTable = rel.outputTable := by cases rel <;> first | rfl | cases htree
    rw [← ht, htable] at ho
    have hfull : b.isFullRel rel = some true := by cases rel <;> first | rfl | cases htree
    exact (selects_iff_covers hb hrn ho hbt hro).mp
      (h _ o batch (Or.inr ⟨i, rel, ⟨scan, hs, hn, hi⟩, hrl, hfull, ho⟩) ho hbt row hro)
  · rintro hc table o batch (⟨scan, hsc, hn, ho⟩ | ⟨i, rel, hf, hrl, hfull, ho⟩) hi hbt row hro
    · have hta := TableSet.name_eq_of_getIndex ((hb.scans scan hsc).output o ho) hi
      exact selects_of_scannedInFull hb hi hbt ⟨scan, hsc, hn, hta, by simp [ho]⟩ hro
    · obtain rfl := TableSet.name_eq_of_getIndex hi ho
      cases rel with
      | join _ _ _ _ => exact selects_of_fullJoin hb hrn htb hp hi hbt hf hrl hfull hro
      | foreignChildren _ _ _ _ | foreignParents _ _ _ _ => cases hfull
      | children _ _ | parents _ _ =>
        exact (selects_iff_covers hb hrn hi hbt hro).mpr (hc i _ hf hrl rfl batch hbt row hro)

end Outputs

variable {renumber : Nat → Nat → Prop}

variable (h : Simplified b b' renumber)

include h

omit [Casts] in
theorem Simplified.wellFormed (hb : b.WellFormed) : b'.WellFormed :=
  ⟨h.fits hb, by rw [h.tables, h.outputs]; exact hb.outputs⟩

/-- A relation that is kept gets the same input. -/
theorem Simplified.input_eq (hb : b.WellFormed) (htb : HasTables b.tables chunk) {i j : Nat}
    (hij : renumber i j) {rel : Rel} (hr : b.relations[i]? = some rel) :
    b'.input chunk j = b.input chunk i := by
  by_cases hf : b.FullRel i
  · -- a full relation is fed by a new scan of its input table, before and after
    obtain ⟨scan, hs, hn, hi⟩ := hf
    obtain ⟨rel', hr', ht⟩ := (hb.scans scan hs).relations i hi
    cases hr'.symm.trans hr
    obtain ⟨_, hid⟩ := (hb.scans scan hs).defined
    obtain ⟨batch, hbt⟩ := htb.scan hid
    rw [← ht] at hbt
    obtain ⟨scan', hs', hn', hj⟩ := h.fullRelation i j hij ⟨scan, hs, hn, hi⟩
    rw [input_of_fullRel hb ⟨scan, hs, hn, hi⟩ hr hbt,
      input_of_fullRel (h.wellFormed hb) ⟨scan', hs', hn', hj⟩ ((h.same i j hij).trans hr) hbt]
  · ext row
    rw [Plan.mem_input, Plan.mem_input]
    constructor
    · rintro ⟨scan', hs', hj, hrw⟩
      by_cases hn : scan'.predicate = none
      · obtain ⟨_, _, hnw⟩ := h.new scan' hs' hn
        obtain ⟨i', _, hij', hf', _⟩ := hnw j hj
        rw [h.injective i' i j hij' hij] at hf'
        exact absurd hf' hf
      · obtain ⟨scan, hs, ht, hsm, _, hk⟩ := h.kept scan' hs' hn
        obtain ⟨i', hi', hij', _⟩ := hk j hj
        rw [h.injective i' i j hij' hij] at hi'
        exact ⟨scan, hs, hi', by rwa [Scan.selected_congr ht hsm] at hrw⟩
    · rintro ⟨scan, hs, hi, _⟩
      have hp : scan.predicate ≠ none := fun hn =>
        hf ⟨scan, hs, hn, hi⟩
      obtain ⟨scan', hs', ht, hsm, hj⟩ := h.keptRelation scan hs hp i hi j hij hf
      exact ⟨scan', hs', hj, by rwa [Scan.selected_congr ht hsm]⟩

/-- The simplified plan selects the same rows for an output that is not full. -/
theorem Simplified.selects_iff_of_not_full (hb : b.WellFormed) (ht : HasTables b.tables chunk)
    (hnot : ¬ b.FullOutput o) : b'.Selects chunk o row ↔ b.Selects chunk o row := by
  have hb' := h.wellFormed hb
  constructor
  · rintro (⟨scan', hs', ho, hrw⟩ | ⟨j, rel, hr, ho, hne, hrw⟩)
    · by_cases hn : scan'.predicate = none
      · exact absurd ((h.new scan' hs' hn).2.1 o ho).1 hnot
      · obtain ⟨scan, hs, htb, hsm, hk, _⟩ := h.kept scan' hs' hn
        exact Or.inl ⟨scan, hs, (hk o ho).1, by rwa [Scan.selected_congr htb hsm] at hrw⟩
    · obtain ⟨i, hij⟩ := h.origin j rel hr
      have hr' := (h.same i j hij).symm.trans hr
      rw [getOutputIndex_eq hb', h.tables] at ho
      rw [h.input_eq hb ht hij hr'] at hne hrw
      exact Or.inr ⟨i, rel, hr', by rw [getOutputIndex_eq hb]; exact ho, hne, hrw⟩
  · rintro (⟨scan, hs, ho, hrw⟩ | ⟨i, rel, hr, ho, _, _⟩)
    · have hp : scan.predicate ≠ none := fun hn =>
        hnot (Or.inl ⟨scan, hs, hn, ho⟩)
      obtain ⟨scan', hs', htb, hsm, hk⟩ := h.keptOutput scan hs hp o ho hnot
      exact Or.inl ⟨scan', hs', hk, by rwa [Scan.selected_congr htb hsm]⟩
    · rw [getOutputIndex_eq hb] at ho
      obtain ⟨j, hij⟩ := (h.survives i rel o hr ho).mp hnot
      refine Or.inr ⟨j, rel, (h.same i j hij).trans hr, ?_, ?_, ?_⟩
      · rw [getOutputIndex_eq hb', h.tables]
        exact ho
      · rwa [h.input_eq hb ht hij hr]
      · rwa [h.input_eq hb ht hij hr]

omit [Casts] in
/-- A new scan covers each full output. -/
theorem Simplified.scannedInFull (hb : b.WellFormed) (hi : b.tables.getIndex table = some o)
    (hf : b.FullOutput o) : b'.ScannedInFull table := by
  have hlt : o < b.outputs.length := by
    rw [outputs_length hb]
    exact TableSet.getIndex_lt hi
  obtain ⟨scan', hs', hn, ho⟩ := h.fullOutput o hlt hf
  have hi' := ((h.new scan' hs' hn).2.1 o ho).2
  exact ⟨scan', hs', hn, TableSet.name_eq_of_getIndex hi' hi, by simp [ho]⟩

/-- A plan that selects rows does so when it is simplified. -/
theorem Simplified.exists_selectedRows (hb : b.WellFormed) (ht : HasTables b.tables chunk)
    {outputs : List (Finset Nat)} (hr : b.selectedRows chunk = .ok outputs) :
    ∃ outputs', b'.selectedRows chunk = .ok outputs' := by
  have hb' := h.wellFormed hb
  obtain ⟨hrn, -, -⟩ := Plan.selectedRows_spec hr
  have hsc : ∀ scan ∈ b.scans, ∃ rows, scan.rows chunk = .ok rows := by
    obtain ⟨_, hin, _⟩ := bind_eq_ok.mp hr
    exact (Plan.executeScans_spec hin).1
  refine Plan.exists_selectedRows (fun scan' hsn' => ?_) fun j rel hrl hne => ?_
  · have hft := hb'.scans scan' hsn'
    refine ⟨?_, fun j hj => ?_, fun o ho => ?_⟩
    · by_cases hn : scan'.predicate = none
      · obtain ⟨_, hid⟩ := (h.new scan' hsn' hn).1
        obtain ⟨batch, hbt⟩ := ht.scan hid
        exact ⟨_, Scan.rows_of_none hbt hn⟩
      · obtain ⟨scan, hsn, htb, hsm, _⟩ := h.kept scan' hsn' hn
        rw [Scan.rows_congr htb hsm]
        exact hsc scan hsn
    · obtain ⟨rel, hrl, _⟩ := hft.relations j hj
      exact (List.getElem?_eq_some_iff.mp hrl).1
    · rw [outputs_length hb']
      exact TableSet.getIndex_lt (hft.output o ho)
  · obtain ⟨i, hij⟩ := h.origin j rel hrl
    have hrl' := (h.same i j hij).symm.trans hrl
    have hip := h.input_eq hb ht hij hrl'
    simp only [hip] at hne ⊢
    obtain ⟨⟨o, ho⟩, heval⟩ := hrn i rel hrl' hne
    refine ⟨⟨o, ?_⟩, heval⟩
    rw [getOutputIndex_eq hb] at ho
    rw [getOutputIndex_eq hb', h.tables]
    exact ho

/-- The simplified plan selects all rows for an output that is full. -/
theorem Simplified.selects_iff_of_full (hb : b.WellFormed) (hi : b.tables.getIndex table = some o)
    (hbt : chunk.scanTable table = .ok batch) (hf : b.FullOutput o) :
    b'.Selects chunk o row ↔ row < batch.numRows := by
  have hb' := h.wellFormed hb
  have hi' : b'.tables.getIndex table = some o := by
    rw [h.tables]
    exact hi
  exact ⟨lt_of_selects hb' hi' hbt, selects_of_scannedInFull hb' hi' hbt (h.scannedInFull hb hi hf)⟩

theorem Simplified.selectedRows_eq_iff (hb : b.WellFormed) (ht : HasTables b.tables chunk)
    (hp : ChildrenHaveParents b.tables chunk) {outputs : List (Finset Nat)}
    (hr : b.selectedRows chunk = .ok outputs) :
    b'.selectedRows chunk = .ok outputs ↔ b.TreesCovered chunk := by
  obtain ⟨hrn, hl, hs⟩ := Plan.selectedRows_spec hr
  obtain ⟨outputs', hr'⟩ := h.exists_selectedRows hb ht hr
  obtain ⟨-, hl', hs'⟩ := Plan.selectedRows_spec hr'
  rw [hr', Except.ok.injEq, ← fullOutputs_selected_iff hb hrn ht hp]
  constructor
  · rintro rfl table o batch hf hi hbt row hro
    have hlt : o < outputs'.length := by
      rw [hl, outputs_length hb]
      exact TableSet.getIndex_lt hi
    rw [← hs o _ (getElem?_eq_getElem hlt), hs' o _ (getElem?_eq_getElem hlt)]
    exact (h.selects_iff_of_full hb hi hbt hf).mpr hro
  · intro hall
    refine ext_getElem (by rw [hl, hl', h.outputs]) fun o ho' ho => ?_
    ext row
    rw [hs' o _ (getElem?_eq_getElem ho'), hs o _ (getElem?_eq_getElem ho)]
    by_cases hf : b.FullOutput o
    · have hlt : o < b.outputs.length := by omega
      have hi := @getIndex_of_output b hb o b.outputs[o].table
        (by rw [getElem?_eq_getElem hlt]; rfl)
      obtain ⟨batch, hbt⟩ := ht.scan hi
      rw [h.selects_iff_of_full hb hi hbt hf]
      exact ⟨hall _ o batch hf hi hbt row, lt_of_selects hb hi hbt⟩
    · exact h.selects_iff_of_not_full hb ht hf

omit h

/-- A plan built by the public calls selects the same rows before and after simplification exactly
if the trees that are taken to be full are covered, and its scans then feed relations that exist and
read the scan's table. Simplification panics on a relation to a table that is not defined, if there
is a scan without predicate. -/
theorem simplify_keeps_selected_rows {tables : TableSet} {calls : List BuilderCall}
    (hbuilt : ofCalls tables calls = some b) (htables : HasTables b.tables chunk)
    (hparents : ChildrenHaveParents b.tables chunk) :
    ((∃ b', b.simplify = some b') ↔
      (∀ scan ∈ b.scans, scan.predicate ≠ none) ∨ b.RelationsDefined) ∧
    ∀ b', b.simplify = some b' →
      (∀ outputs, b.selectedRows chunk = .ok outputs →
        (b'.selectedRows chunk = .ok outputs ↔ b.TreesCovered chunk)) ∧
      ∀ scan ∈ b'.scans, ∀ i ∈ scan.relations, ∃ rel, b'.relations[i]? = some rel ∧
        rel.inputTable = scan.table := by
  have hb := ofCalls_wellFormed hbuilt
  refine ⟨exists_simplify_iff hb, fun b' hs => ?_⟩
  rcases simplified_of_simplify hb hs with ⟨rfl, hall⟩ | ⟨_, h⟩
  · refine ⟨fun outputs hr => iff_of_true hr ?_, fun scan hsc => (hb.scans scan hsc).relations⟩
    rintro i rel ⟨scan, hsc, hn, -⟩
    exact absurd hn (hall scan hsc)
  · exact ⟨fun outputs hr => h.selectedRows_eq_iff hb htables hparents hr,
      fun scan hsc => (h.fits hb scan hsc).relations⟩

end Meaning

section Sample

/-- Blocks, and traces of transactions as the children of blocks. -/
def sampleTables : TableSet where
  tables := [
    { name := "blocks", primaryKey := ["number"], columnWeights := [], resultItemName := "blocks",
      children := [("traces", ["block_number"])], keyed := by decide, childKeys := by decide },
    { name := "traces", primaryKey := ["block_number", "trace_address"], columnWeights := [],
      resultItemName := "traces", children := [], keyed := by decide, childKeys := by decide }]
  names := by decide
  header := by decide

def sampleBlocks : RecordBatch where
  columns := [⟨⟨.int ⟨false, .w64⟩, [.int 1]⟩, "number"⟩]
  numRows := 1
  lengths := by decide

/-- A trace and its child. -/
def sampleTraces : RecordBatch where
  columns := [
    ⟨⟨.int ⟨false, .w64⟩, [.int 1, .int 1]⟩, "block_number"⟩,
    ⟨⟨.list (.int ⟨false, .w32⟩), [.list [], .list [.int 0]]⟩, "trace_address"⟩]
  numRows := 2
  lengths := by decide

def sampleChunk : Chunk where
  scanTable name :=
    if name = "blocks" then .ok sampleBlocks
    else if name = "traces" then .ok sampleTraces
    else .error (.text "table is missing")

theorem sampleChunk_hasTables : HasTables sampleTables sampleChunk := by
  intro t ht
  simp only [sampleTables, mem_cons, not_mem_nil, or_false] at ht
  rcases ht with rfl | rfl
  · exact ⟨sampleBlocks, rfl⟩
  · exact ⟨sampleTraces, rfl⟩

theorem sampleChunk_childrenHaveParents : ChildrenHaveParents sampleTables sampleChunk := by
  intro t ht child hc parentBatch childBatch hp hcB
  simp only [sampleTables, mem_cons, not_mem_nil, or_false] at ht
  rcases ht with rfl | rfl
  · obtain rfl := mem_singleton.mp hc
    cases hp
    cases hcB
    have hpC : keyColumns sampleBlocks ["number"] = .ok sampleBlocks.columns := by decide
    have hcC : keyColumns sampleTraces ["block_number"] =
        .ok (sampleTraces.columns.take 1) := by decide
    intro row hr
    refine ⟨_, _, hpC, hcC, ?_, 0, by decide, ?_⟩
    · have hcs : row = 0 ∨ row = 1 := by
        have : row < 2 := hr
        omega
      rcases hcs with rfl | rfl <;> decide
    · have hcs : row = 0 ∨ row = 1 := by
        have : row < 2 := hr
        omega
      rcases hcs with rfl | rfl <;> decide
  · cases hc

/-- All traces, with the children of all traces, as output. -/
def coveredCalls : List BuilderCall := [.addScan "traces", .includeChildren]

/-- The children of all traces, without the traces themselves. -/
def uncoveredCalls : List BuilderCall := [.addScan "traces", .includeChildren, .withNoOutput]

def sampleRel : Rel := .children "traces" ["block_number", "trace_address"]

def samplePlan (output : Option Nat) : PlanBuilder :=
  { new sampleTables with
    scans := [⟨"traces", none, [0], output⟩]
    relations := [sampleRel] }

local instance unusedCasts : Casts where
  castWithOptions := fun _ _ => .error (.text "cast is not supported")

theorem ofCalls_covered : ofCalls sampleTables coveredCalls = some (samplePlan (some 1)) := rfl

theorem ofCalls_uncovered : ofCalls sampleTables uncoveredCalls = some (samplePlan none) := rfl

theorem samplePlan_relationsDefined (output : Option Nat) :
    (samplePlan output).RelationsDefined := by
  intro rel hr
  rw [mem_singleton.mp hr]
  exact ⟨1, rfl⟩

theorem samplePlan_covered : (samplePlan (some 1)).TreesCovered sampleChunk := by
  rintro i rel ⟨_, hs, -, hi⟩ hr - batch hb row hro
  obtain rfl := mem_singleton.mp hs
  obtain rfl := mem_singleton.mp hi
  cases hr
  refine .scan _ mem_cons_self rfl (by simp) ?_
  rw [Scan.selected_of_none hb rfl]
  exact Finset.mem_range.mpr hro

/-- The traces and their children are the same before and after. -/
theorem covered_traces_kept : ∃ b', (samplePlan (some 1)).simplify = some b' ∧
    b'.selectedRows sampleChunk = .ok [∅, {0, 1}] := by
  have hrows : (samplePlan (some 1)).selectedRows sampleChunk = .ok [∅, {0, 1}] := by decide +kernel
  obtain ⟨hreturns, hkeeps⟩ := simplify_keeps_selected_rows ofCalls_covered sampleChunk_hasTables
    sampleChunk_childrenHaveParents
  obtain ⟨b', hs⟩ := hreturns.mpr (Or.inr (samplePlan_relationsDefined _))
  exact ⟨b', hs, ((hkeeps b' hs).1 _ hrows).mpr samplePlan_covered⟩

/-- The children of all traces are the second trace. After simplification they are both traces. -/
theorem children_of_all_rows_change : ∃ b b' : PlanBuilder,
    ofCalls sampleTables uncoveredCalls = some b ∧ b.simplify = some b' ∧
      HasTables b.tables sampleChunk ∧ ChildrenHaveParents b.tables sampleChunk ∧
      b.selectedRows sampleChunk = .ok [∅, {1}] ∧
      b'.selectedRows sampleChunk = .ok [∅, {0, 1}] := by
  refine ⟨samplePlan none, { samplePlan none with
    scans := [⟨"traces", none, [], some 1⟩]
    relations := [] }, ofCalls_uncovered, rfl, sampleChunk_hasTables,
    sampleChunk_childrenHaveParents, ?_, ?_⟩
  · decide +kernel
  · decide +kernel

end Sample

end PlanBuilder

end Query
