import SqdData.Query.Simplify

/-!
# The simplified plan

What the removal of relations, the retained scans and the new scans of `simplify` amount to:
relations into outputs that are not full are kept under a new number, scans with a predicate feed
what they fed before as far as it is not full, and what is full is fed by a scan without predicate.
-/

namespace Query

open List

open Arrow Storage

namespace PlanBuilder

variable {b b' : PlanBuilder}

/-- How a simplified plan is related to the plan, given the new number of each relation that is
kept. -/
structure Simplified (b b' : PlanBuilder) (renumber : Nat → Nat → Prop) : Prop where
  tables : b'.tables = b.tables
  outputs : b'.outputs = b.outputs
  same : ∀ i j, renumber i j → b'.relations[j]? = b.relations[i]?
  injective : ∀ i i' j, renumber i j → renumber i' j → i = i'
  origin : ∀ j rel, b'.relations[j]? = some rel → ∃ i, renumber i j
  survives : ∀ i rel o, b.relations[i]? = some rel → b.tables.getIndex rel.outputTable = some o →
    (¬ b.FullOutput o ↔ ∃ j, renumber i j)
  kept : ∀ scan' ∈ b'.scans, scan'.predicate ≠ none → ∃ scan ∈ b.scans,
    scan'.table = scan.table ∧ scan'.predicate = scan.predicate ∧
      (∀ o, scan'.output = some o → scan.output = some o ∧ ¬ b.FullOutput o) ∧
      ∀ j ∈ scan'.relations, ∃ i ∈ scan.relations, renumber i j ∧ ¬ b.FullRel i
  keptOutput : ∀ scan ∈ b.scans, scan.predicate ≠ none → ∀ o, scan.output = some o →
    ¬ b.FullOutput o → ∃ scan' ∈ b'.scans, scan'.table = scan.table ∧
      scan'.predicate = scan.predicate ∧ scan'.output = some o
  keptRelation : ∀ scan ∈ b.scans, scan.predicate ≠ none → ∀ i ∈ scan.relations, ∀ j,
    renumber i j → ¬ b.FullRel i → ∃ scan' ∈ b'.scans, scan'.table = scan.table ∧
      scan'.predicate = scan.predicate ∧ j ∈ scan'.relations
  new : ∀ scan' ∈ b'.scans, scan'.predicate = none →
    (∃ idx, b.tables.getIndex scan'.table = some idx) ∧
      (∀ o, scan'.output = some o → b.FullOutput o ∧ b.tables.getIndex scan'.table = some o) ∧
      ∀ j ∈ scan'.relations, ∃ i rel, renumber i j ∧ b.FullRel i ∧
        b.relations[i]? = some rel ∧ rel.inputTable = scan'.table
  fullOutput : ∀ o < b.outputs.length, b.FullOutput o →
    ∃ scan' ∈ b'.scans, scan'.predicate = none ∧ scan'.output = some o
  fullRelation : ∀ i j, renumber i j → b.FullRel i →
    ∃ scan' ∈ b'.scans, scan'.predicate = none ∧ j ∈ scan'.relations

/-! ## Retained scans -/

/-- A scan with what is left of its output and its relations. -/
structure Trimmed (output : Nat → Prop) (renumber : Nat → Nat → Prop) (keep : Nat → Prop)
    (scan : Scan) (retained : Option Scan) : Prop where
  some : ∀ scan', retained = some scan' → scan.predicate ≠ none ∧ scan'.table = scan.table ∧
    scan'.predicate = scan.predicate ∧
      (∀ o, scan'.output = Option.some o ↔ scan.output = Option.some o ∧ output o) ∧
      ∀ j, j ∈ scan'.relations ↔ (∃ i ∈ scan.relations, renumber i j) ∧ keep j
  none : retained = none → scan.predicate ≠ none →
    (∀ o, scan.output = Option.some o → ¬ output o) ∧
      ∀ i ∈ scan.relations, ∀ j, renumber i j → ¬ keep j

variable {isFull isFullRel : List Bool}

theorem exists_retainScan {scan : Scan} (ho : ∀ o ∈ scan.output, o < isFull.length)
    (hr : ∀ j ∈ scan.relations, j < isFullRel.length) :
    ∃ retained, retainScan isFull isFullRel scan = some retained := by
  have hf : ∀ j ∈ scan.relations, ∃ full, isFullRel[j]? = some full := fun j hj =>
    ⟨_, getElem?_eq_getElem (hr j hj)⟩
  obtain ⟨_, hf⟩ := Slots.exists_mapM hf
  unfold retainScan
  cases hot : scan.output with
  | none => simp [retainOutput, hf]
  | some o =>
    have hlt := ho o (by simp [hot])
    simp [retainOutput, hf, getElem?_eq_getElem hlt]

theorem retainScan_trimmed {scan : Scan} {retained : Option Scan}
    (h : retainScan isFull isFullRel scan = some retained) :
    Trimmed (fun o => isFull[o]? = some false) (fun i j => i = j)
      (fun j => isFullRel[j]? = some false) scan retained := by
  obtain ⟨output, hou, h⟩ := Option.bind_eq_some_iff.mp h
  obtain ⟨full, hfl, h⟩ := Option.bind_eq_some_iff.mp h
  have hot : ∀ o, output = some o ↔ scan.output = some o ∧ isFull[o]? = some false := by
    intro o
    cases hs : scan.output with
    | none =>
      rw [hs] at hou
      cases hou
      simp
    | some =>
      rw [hs] at hou
      obtain ⟨f, hf, rfl⟩ := Option.map_eq_some_iff.mp hou
      cases f with
      | true =>
        simp only [if_true, reduceCtorEq, false_iff, not_and]
        intro heq
        cases heq
        simp [hf]
      | false =>
        simp only [Bool.false_eq_true, if_false, Option.some.injEq, iff_self_and]
        rintro rfl
        exact hf
  have hr : ∀ j, j ∈ Slots.removeElements scan.relations full ↔
      (∃ i ∈ scan.relations, i = j) ∧ isFullRel[j]? = some false := by
    intro j
    rw [Slots.mem_removeElements (Slots.forall₂_of_mapM hfl)]
    simp
  simp only [pure, Option.some.injEq] at h
  split at h
  · rename_i hk
    subst h
    refine ⟨fun scan' hs' => ?_, by simp⟩
    cases hs'
    refine ⟨?_, rfl, rfl, hot, hr⟩
    intro hn
    simp [hn] at hk
  · rename_i hd
    subst h
    refine ⟨by simp, fun _ hp => ?_⟩
    have he : Slots.removeElements scan.relations full = [] ∧ output = none := by
      simpa [Option.isSome_iff_ne_none, hp] using hd
    refine ⟨fun o ho hnot => ?_, fun i hi j hij hnot => ?_⟩
    · have hsm := (hot o).mpr ⟨ho, hnot⟩
      rw [he.2] at hsm
      cases hsm
    · have hm := (hr j).mpr ⟨⟨i, hi, hij⟩, hnot⟩
      rw [he.1] at hm
      cases hm

structure Renumbered (renumber : Nat → Nat → Prop) (scan scan' : Scan) : Prop where
  table : scan'.table = scan.table
  predicate : scan'.predicate = scan.predicate
  output : scan'.output = scan.output
  relations : ∀ j, j ∈ scan'.relations ↔ ∃ i ∈ scan.relations, renumber i j

theorem Renumbered.trimmed {renumber : Nat → Nat → Prop} {output keep : Nat → Prop}
    {scan scan₁ : Scan} {retained : Option Scan} (h : Renumbered renumber scan scan₁)
    (h₁ : Trimmed output (fun i j => i = j) keep scan₁ retained) :
    Trimmed output renumber keep scan retained where
  some := by
    intro scan' hs'
    obtain ⟨hp, ht, hs, ho, hr⟩ := h₁.some scan' hs'
    refine ⟨by rwa [h.predicate] at hp, ht.trans h.table, hs.trans h.predicate,
      by rwa [h.output] at ho, fun j => ?_⟩
    rw [hr j, ← h.relations j]
    simp
  none := by
    intro hn hp
    obtain ⟨ho, hr⟩ := h₁.none hn (by rwa [h.predicate])
    refine ⟨by rwa [h.output] at ho, fun i hi j hij => ?_⟩
    exact hr j ((h.relations j).mpr ⟨i, hi, hij⟩) j rfl

/-- The new number of a relation that is kept. -/
def NewIndex (removeMask : List Bool) (i j : Nat) : Prop :=
  (Slots.indexMap 0 removeMask)[i]? = some (some j)

theorem removeRelations_spec {removeMask : List Bool} (h : b.removeRelations removeMask = some b') :
    ∃ scans, List.Forall₂ (Renumbered (NewIndex removeMask)) b.scans scans ∧
      b' = { b with scans, relations := Slots.removeElements b.relations removeMask } := by
  obtain ⟨scans, hs, h⟩ := Option.bind_eq_some_iff.mp h
  cases h
  refine ⟨scans, (Slots.forall₂_of_mapM hs).imp fun scan scan' hsc => ?_, rfl⟩
  obtain ⟨_, hrl, hsc⟩ := Option.bind_eq_some_iff.mp hsc
  cases hsc
  have ha := Slots.forall₂_of_mapM hrl
  refine ⟨rfl, rfl, rfl, fun j => ?_⟩
  rw [reduceOption_mem_iff]
  constructor
  · intro hj
    obtain ⟨i, hi, hij⟩ := forall₂_right ha _ hj
    exact ⟨i, hi, hij⟩
  · rintro ⟨i, hi, hij⟩
    obtain ⟨r, hr, hri⟩ := forall₂_left ha i hi
    rwa [Option.some.inj (hri.symm.trans hij)] at hr

theorem exists_removeRelations {removeMask : List Bool} (hb : b.WellFormed)
    (hl : removeMask.length = b.relations.length) :
    ∃ b', b.removeRelations removeMask = some b' := by
  have hsc : ∀ scan ∈ b.scans, ∃ scan', (do
      let relations ← scan.relations.mapM fun relIdx => (Slots.indexMap 0 removeMask)[relIdx]?
      return { scan with relations := relations.reduceOption : Scan }) = some scan' := by
    intro scan hsc
    have hin : ∀ i ∈ scan.relations, ∃ r, (Slots.indexMap 0 removeMask)[i]? = some r := by
      intro i hi
      obtain ⟨_, hrl, _⟩ := (hb.scans scan hsc).relations i hi
      obtain ⟨hlt, _⟩ := List.getElem?_eq_some_iff.mp hrl
      exact ⟨_, getElem?_eq_getElem (by rw [Slots.length_indexMap]; omega)⟩
    obtain ⟨_, hr⟩ := Slots.exists_mapM hin
    exact ⟨_, by rw [hr]; rfl⟩
  obtain ⟨_, hs⟩ := Slots.exists_mapM hsc
  unfold removeRelations
  rw [hs]
  exact ⟨_, rfl⟩

/-! ## New scans -/

/-- The scans of what is full, after some relations have been looked at. -/
structure Populates (outs : List Output) (isFull : List Bool) (rels : List ((Rel × Bool) × Nat))
    (scans : List Scan) : Prop where
  predicate : ∀ scan ∈ scans, scan.predicate = none
  output : ∀ scan ∈ scans, ∀ o, scan.output = some o →
    isFull[o]? = some true ∧ (outs[o]?).map (·.table) = some scan.table
  used : ∀ scan ∈ scans, scan.output = none → scan.relations ≠ []
  relations : ∀ scan ∈ scans, ∀ j ∈ scan.relations, ∃ rel, ((rel, true), j) ∈ rels ∧
    rel.inputTable = scan.table
  outputs : ∀ o < outs.length, isFull[o]? = some true → ∃ scan ∈ scans, scan.output = some o
  fed : ∀ rel j, ((rel, true), j) ∈ rels → ∃ scan ∈ scans, j ∈ scan.relations

theorem outputScans_populates (isFull : List Bool) :
    Populates b.outputs isFull [] (b.outputScans isFull) := by
  have hm : ∀ scan, scan ∈ b.outputScans isFull ↔ ∃ o out, b.outputs[o]? = some out ∧
      isFull[o]? = some true ∧ scan = ⟨out.table, none, [], some o⟩ := by
    intro scan
    unfold outputScans
    rw [mem_filterMap]
    constructor
    · rintro ⟨⟨⟨out, full⟩, o⟩, hz, hs⟩
      obtain ⟨hot, hf⟩ := getElem?_zip_eq_some.mp (mem_zipIdx_iff_getElem?.mp hz)
      cases full with
      | false => simp at hs
      | true => exact ⟨o, out, hot, hf, by simpa [eq_comm] using hs⟩
    · rintro ⟨o, out, hot, hf, rfl⟩
      refine ⟨((out, true), o), mem_zipIdx_iff_getElem?.mpr ?_, by simp⟩
      exact getElem?_zip_eq_some.mpr ⟨hot, hf⟩
  constructor
  · intro scan hs
    obtain ⟨_, _, _, _, rfl⟩ := (hm scan).mp hs
    rfl
  · intro scan hs o ho
    obtain ⟨_, _, hot, hf, rfl⟩ := (hm scan).mp hs
    cases ho
    exact ⟨hf, by simp [hot]⟩
  · intro scan hs hn
    obtain ⟨_, _, _, _, rfl⟩ := (hm scan).mp hs
    cases hn
  · intro scan hs j hj
    obtain ⟨_, _, _, _, rfl⟩ := (hm scan).mp hs
    cases hj
  · intro o ho hf
    exact ⟨_, (hm _).mpr ⟨o, _, getElem?_eq_getElem ho, hf, rfl⟩, rfl⟩
  · intro rel j h
    cases h

section AddFullRel

variable {outputs : List Output} {isFull : List Bool} {relations : List ((Rel × Bool) × Nat)}
  {scans : List Scan} (h : Populates outputs isFull relations scans)

include h

theorem Populates.fedBy (rel : (Rel × Bool) × Nat) :
    ∀ scan ∈ scans, ∀ j ∈ scan.relations, ∃ rel', ((rel', true), j) ∈ relations ++ [rel] ∧
      rel'.inputTable = scan.table := by
  intro scan hs j hj
  obtain ⟨rel', hr, ht⟩ := h.relations scan hs j hj
  exact ⟨rel', mem_append_left _ hr, ht⟩

/-- The table is scanned already, and its scan feeds one more relation. -/
theorem Populates.feed {rel : Rel} (j : Nat) (ha : ∃ scan ∈ scans, scan.table = rel.inputTable)
    {f : Scan → Scan} (hsm : ∀ scan, (f scan).table = scan.table ∧
      (f scan).predicate = scan.predicate ∧ (f scan).output = scan.output)
    (hfd : ∀ scan j', j' ∈ (f scan).relations ↔
      j' ∈ scan.relations ∨ (j' = j ∧ scan.table = rel.inputTable)) :
    Populates outputs isFull (relations ++ [((rel, true), j)]) (scans.map f) := by
  constructor <;> try simp only [forall_mem_map]
  · intro scan hs
    exact (hsm scan).2.1.trans (h.predicate scan hs)
  · intro scan hs o ho
    rw [(hsm scan).1]
    exact h.output scan hs o ((hsm scan).2.2 ▸ ho)
  · intro scan hs hn he
    refine h.used scan hs ((hsm scan).2.2 ▸ hn) (eq_nil_iff_forall_not_mem.mpr fun j' hj' => ?_)
    have hm := (hfd scan j').mpr (Or.inl hj')
    rw [he] at hm
    cases hm
  · intro scan hs j' hj'
    rw [(hsm scan).1]
    rcases (hfd scan j').mp hj' with hj' | ⟨rfl, heq⟩
    · exact h.fedBy _ scan hs j' hj'
    · exact ⟨rel, by simp, heq.symm⟩
  · intro o ho hfl
    obtain ⟨scan, hs, hot⟩ := h.outputs o ho hfl
    exact ⟨f scan, mem_map_of_mem hs, (hsm scan).2.2.trans hot⟩
  · intro rel' j' hm
    rcases mem_append.mp hm with hm | hm
    · obtain ⟨scan, hs, hj'⟩ := h.fed rel' j' hm
      exact ⟨f scan, mem_map_of_mem hs, (hfd scan j').mpr (Or.inl hj')⟩
    · obtain ⟨rfl, rfl⟩ : rel' = rel ∧ j' = j := by simpa using hm
      obtain ⟨scan, hs, ht⟩ := ha
      exact ⟨f scan, mem_map_of_mem hs, (hfd scan j').mpr (Or.inr ⟨rfl, ht⟩)⟩

/-- A new scan feeds the relation. -/
theorem Populates.newScan (rel : Rel) (j : Nat) :
    Populates outputs isFull (relations ++ [((rel, true), j)])
      (scans ++ [⟨rel.inputTable, none, [j], none⟩]) := by
  refine ⟨forall_mem_append.mpr ⟨h.predicate, forall_mem_singleton.mpr rfl⟩,
    forall_mem_append.mpr ⟨h.output, forall_mem_singleton.mpr nofun⟩,
    forall_mem_append.mpr ⟨h.used, forall_mem_singleton.mpr fun _ => by simp⟩,
    forall_mem_append.mpr ⟨h.fedBy _, forall_mem_singleton.mpr fun j' hj' => ?_⟩, ?_, ?_⟩
  · obtain rfl := mem_singleton.mp hj'
    exact ⟨rel, by simp, rfl⟩
  · intro o ho hfl
    obtain ⟨scan, hs, hot⟩ := h.outputs o ho hfl
    exact ⟨scan, mem_append_left _ hs, hot⟩
  · intro rel' j' hm
    rcases mem_append.mp hm with hm | hm
    · obtain ⟨scan, hs, hj'⟩ := h.fed rel' j' hm
      exact ⟨scan, mem_append_left _ hs, hj'⟩
    · obtain ⟨rfl, rfl⟩ : rel' = rel ∧ j' = j := by simpa using hm
      exact ⟨_, mem_append_right _ mem_cons_self, mem_cons_self⟩

theorem addFullRel_populates (rel : (Rel × Bool) × Nat) :
    Populates outputs isFull (relations ++ [rel]) (addFullRel scans rel) := by
  obtain ⟨⟨rel, full⟩, j⟩ := rel
  cases full with
  | false =>
    refine ⟨h.predicate, h.output, h.used, h.fedBy _, h.outputs, fun rel' j' hm => ?_⟩
    rcases mem_append.mp hm with hm | hm
    · exact h.fed rel' j' hm
    · simp at hm
  | true =>
    simp only [addFullRel, if_true]
    split
    · rename_i ha
      refine h.feed j (by simpa using ha) ?_ ?_
      · intro scan
        split <;> exact ⟨rfl, rfl, rfl⟩
      · intro scan j'
        split <;> simp [*]
    · exact h.newScan rel j

end AddFullRel

theorem newScans_populates (isFull isFullRel : List Bool) :
    Populates b.outputs isFull ((b.relations.zip isFullRel).zipIdx)
      (b.newScans isFull isFullRel) := by
  have hf : ∀ (rest done : List ((Rel × Bool) × Nat)) (scans : List Scan),
      Populates b.outputs isFull done scans →
        Populates b.outputs isFull (done ++ rest) (rest.foldl addFullRel scans) := by
    intro rest
    induction rest with
    | nil =>
      intro done scans h
      simpa using h
    | cons rel _ ih =>
      intro done scans h
      have hn := ih (done ++ [rel]) _ (addFullRel_populates h rel)
      simpa using hn
  exact hf _ [] _ (outputScans_populates isFull)

/-! ## Assembling the plan -/

/-- The output of a table is the output at the table's index. -/
theorem getOutputIndex_eq (hb : b.WellFormed) (table : String) :
    b.getOutputIndex table = b.tables.getIndex table := by
  have hn := congrArg (findIdx? (· == table)) hb.outputs
  rw [findIdx?_map, findIdx?_map] at hn
  exact hn

theorem getIndex_of_output (hb : b.WellFormed) {o : Nat} {table : String}
    (h : (b.outputs[o]?).map (·.table) = some table) : b.tables.getIndex table = some o := by
  have hn : (b.tables.tables.map (·.name))[o]? = some table := by
    rw [← hb.outputs, getElem?_map]
    exact h
  obtain ⟨_, ht, hnm⟩ := Option.map_eq_some_iff.mp (by rwa [getElem?_map] at hn)
  obtain ⟨hlt, hg⟩ := List.getElem?_eq_some_iff.mp ht
  refine findIdx?_eq_some_iff_getElem.mpr ⟨hlt, by simp [hg, hnm], fun j hj hs => ?_⟩
  have hj' : (b.tables.tables.map (·.name))[j]? = some table := by
    rw [getElem?_map, getElem?_eq_getElem (by omega)]
    exact congrArg some (by simpa using hs)
  have heq := (getElem?_inj (by simpa using (show j < b.tables.tables.length by omega))
    b.tables.names).mp (hj'.trans hn.symm)
  omega

section Stages

variable {m : Marks} {removeMask : List Bool}

/-- The mask tells which relations lead to a full output. -/
def RemovesFull (b : PlanBuilder) (m : Marks) (removeMask : List Bool) : Prop :=
  List.Forall₂ (fun rel remove => (do
    let idx ← b.tables.getIndex rel.outputTable
    m.isFull[idx]?) = some remove) b.relations removeMask

theorem MarksSpec.output_iff (hs : b.MarksSpec m) {o : Nat} (ho : o < b.outputs.length)
    (full : Bool) : m.isFull[o]? = some full ↔ (full = true ↔ b.FullOutput o) := by
  have hlt : o < m.isFull.length := by rw [hs.outputsLength]; exact ho
  have hg := getElem?_eq_getElem hlt
  have hi := hs.outputs o _ hg
  rw [hg, ← hi]
  cases m.isFull[o] <;> cases full <;> simp

theorem MarksSpec.relation_iff (hs : b.MarksSpec m) {i : Nat} (hi : i < b.relations.length)
    (full : Bool) : m.isFullRel[i]? = some full ↔ (full = true ↔ b.FullRel i) := by
  have hlt : i < m.isFullRel.length := by rw [hs.relationsLength]; exact hi
  have hg := getElem?_eq_getElem hlt
  have hif := hs.relations i _ hg
  rw [hg, ← hif]
  cases m.isFullRel[i] <;> cases full <;> simp

theorem NewIndex.lt {i j : Nat} (h : NewIndex removeMask i j) : i < removeMask.length := by
  obtain ⟨hlt, _⟩ := List.getElem?_eq_some_iff.mp h
  rwa [Slots.length_indexMap] at hlt

theorem NewIndex.relations (hm : RemovesFull b m removeMask) {i j : Nat}
    (h : NewIndex removeMask i j) :
    (Slots.removeElements b.relations removeMask)[j]? = b.relations[i]? :=
  (Slots.getElem?_removeElements hm.length_eq h).2

/-- The mark of a relation moves with its number. -/
theorem NewIndex.full_iff (hs : b.MarksSpec m) (hm : RemovesFull b m removeMask) {i j : Nat}
    (h : NewIndex removeMask i j) (full : Bool) :
    (Slots.removeElements m.isFullRel removeMask)[j]? = some full ↔
      (full = true ↔ b.FullRel i) := by
  have hl : m.isFullRel.length = removeMask.length := hs.relationsLength.trans hm.length_eq
  have hg := (Slots.getElem?_removeElements hl h).2
  rw [Nat.sub_zero] at hg
  rw [hg]
  exact hs.relation_iff (by rw [hm.length_eq]; exact h.lt) full

/-- What a scan without predicate can be replaced by is trimmed off each scan. -/
abbrev TrimmedBy (m : Marks) (removeMask : List Bool) : Scan → Option Scan → Prop :=
  Trimmed (fun o => m.isFull[o]? = some false) (NewIndex removeMask)
    (fun j => (Slots.removeElements m.isFullRel removeMask)[j]? = some false)

theorem output_lt (hb : b.WellFormed) {scan : Scan} (hs : scan ∈ b.scans) {o : Nat}
    (ho : scan.output = some o) : o < b.outputs.length := by
  rw [outputs_length hb]
  exact TableSet.getIndex_lt ((hb.scans scan hs).output o ho)

section Numbers

variable (hsp : b.MarksSpec m) (hm : RemovesFull b m removeMask)

include hsp hm

/-- Relations are kept unless they lead to a full output. -/
theorem NewIndex.survives (hb : b.WellFormed) {i o : Nat} {rel : Rel}
    (hr : b.relations[i]? = some rel) (ho : b.tables.getIndex rel.outputTable = some o) :
    ¬ b.FullOutput o ↔ ∃ j, NewIndex removeMask i j := by
  obtain ⟨remove, hrm, hmr⟩ := Slots.getElem?_of_forall₂ hm hr
  rw [ho] at hmr
  have hlt : o < b.outputs.length := by
    rw [outputs_length hb]
    exact TableSet.getIndex_lt ho
  have hif := (hsp.output_iff hlt remove).mp hmr
  obtain ⟨renumbered, hg, hn⟩ := @Slots.getElem?_indexMap removeMask 0 i remove hrm
  rw [← hif, ← hn]
  cases renumbered with
  | none => simp [NewIndex, hg]
  | some => simp [NewIndex, hg]

/-- Of the relations that are left, those that are marked were fed in full. -/
theorem NewIndex.exists_full {rel : Rel} {j : Nat}
    (h : ((rel, true), j) ∈ ((Slots.removeElements b.relations removeMask).zip
      (Slots.removeElements m.isFullRel removeMask)).zipIdx) :
    ∃ i, NewIndex removeMask i j ∧ b.FullRel i ∧ b.relations[i]? = some rel := by
  obtain ⟨hrl, hf⟩ := getElem?_zip_eq_some.mp (mem_zipIdx_iff_getElem?.mp h)
  obtain ⟨i, hij, hi⟩ := @Slots.exists_indexMap _ _ _ 0 _ _ hm.length_eq hrl
  rw [Nat.zero_add] at hij
  exact ⟨i, hij, by simpa using (NewIndex.full_iff hsp hm hij true).mp hf, hi⟩

/-- A trimmed scan feeds what is not full. -/
theorem TrimmedBy.kept (hb : b.WellFormed) {scan scan' : Scan} (hs : scan ∈ b.scans)
    (h : TrimmedBy m removeMask scan (some scan')) :
    scan'.table = scan.table ∧ scan'.predicate = scan.predicate ∧
      (∀ o, scan'.output = some o → scan.output = some o ∧ ¬ b.FullOutput o) ∧
      ∀ j ∈ scan'.relations, ∃ i ∈ scan.relations, NewIndex removeMask i j ∧ ¬ b.FullRel i := by
  obtain ⟨_, ht, hsm, hot, hrl⟩ := h.some scan' rfl
  refine ⟨ht, hsm, fun o ho => ?_, fun j hj => ?_⟩
  · obtain ⟨ho, hf⟩ := (hot o).mp ho
    exact ⟨ho, by simpa using (hsp.output_iff (output_lt hb hs ho) false).mp hf⟩
  · obtain ⟨⟨i, hi, hij⟩, hf⟩ := (hrl j).mp hj
    exact ⟨i, hi, hij, by simpa using (NewIndex.full_iff hsp hm hij false).mp hf⟩

/-- New scans populate what is full. -/
theorem Populates.fits_full (hb : b.WellFormed) {new : List Scan} (h : Populates b.outputs m.isFull
      (((Slots.removeElements b.relations removeMask).zip
        (Slots.removeElements m.isFullRel removeMask)).zipIdx) new)
    {scan' : Scan} (hs : scan' ∈ new) :
    (∃ idx, b.tables.getIndex scan'.table = some idx) ∧
      (∀ o, scan'.output = some o → b.FullOutput o ∧ b.tables.getIndex scan'.table = some o) ∧
      ∀ j ∈ scan'.relations, ∃ i rel, NewIndex removeMask i j ∧ b.FullRel i ∧
        b.relations[i]? = some rel ∧ rel.inputTable = scan'.table := by
  have hot : ∀ o, scan'.output = some o →
      b.FullOutput o ∧ b.tables.getIndex scan'.table = some o := by
    intro o ho
    obtain ⟨hf, ht⟩ := h.output scan' hs o ho
    have hin := getIndex_of_output hb ht
    have hlt : o < b.outputs.length := by
      rw [outputs_length hb]
      exact TableSet.getIndex_lt hin
    exact ⟨by simpa using (hsp.output_iff hlt true).mp hf, hin⟩
  have hrl : ∀ j ∈ scan'.relations, ∃ i rel, NewIndex removeMask i j ∧ b.FullRel i ∧
      b.relations[i]? = some rel ∧ rel.inputTable = scan'.table := by
    intro j hj
    obtain ⟨rel, hrl, ht⟩ := h.relations scan' hs j hj
    obtain ⟨i, hij, hf, hi⟩ := NewIndex.exists_full hsp hm hrl
    exact ⟨i, rel, hij, hf, hi, ht⟩
  refine ⟨?_, hot, hrl⟩
  cases hop : scan'.output with
  | some o => exact ⟨o, (hot o hop).2⟩
  | none =>
    obtain ⟨j, hj⟩ := exists_mem_of_ne_nil _ (h.used scan' hs hop)
    obtain ⟨i, rel, _, ⟨scan, hsc, _, hi⟩, hrl, ht⟩ := hrl j hj
    obtain ⟨_, hrl', ht'⟩ := (hb.scans scan hsc).relations i hi
    rw [Option.some.inj (hrl'.symm.trans hrl), ht] at ht'
    rw [ht']
    exact (hb.scans scan hsc).defined

/-- A full relation that is left gets a new scan. -/
theorem Populates.feeds_full {new : List Scan} (h : Populates b.outputs m.isFull
      (((Slots.removeElements b.relations removeMask).zip
        (Slots.removeElements m.isFullRel removeMask)).zipIdx) new)
    {i j : Nat} (hij : NewIndex removeMask i j) (hf : b.FullRel i) :
    ∃ scan' ∈ new, j ∈ scan'.relations := by
  have hmr := (NewIndex.full_iff hsp hm hij true).mpr (by simpa using hf)
  obtain ⟨rel, hrl⟩ : ∃ rel, b.relations[i]? = some rel :=
    ⟨_, getElem?_eq_getElem (by rw [hm.length_eq]; exact hij.lt)⟩
  have hnR := (NewIndex.relations hm hij).trans hrl
  exact h.fed rel j (mem_zipIdx_iff_getElem?.mpr (getElem?_zip_eq_some.mpr ⟨hnR, hmr⟩))

end Numbers

section Retained

variable {retained : List (Option Scan)}

/-- A scan with something left is retained. -/
theorem exists_retained (hrt : List.Forall₂ (TrimmedBy m removeMask) b.scans retained) {scan : Scan}
    (hs : scan ∈ b.scans) (hp : scan.predicate ≠ none)
    (h : (∃ o, scan.output = some o ∧ m.isFull[o]? = some false) ∨ ∃ i ∈ scan.relations, ∃ j,
      NewIndex removeMask i j ∧ (Slots.removeElements m.isFullRel removeMask)[j]? = some false) :
    ∃ scan' ∈ retained.reduceOption, TrimmedBy m removeMask scan (some scan') := by
  obtain ⟨r, hr, htm⟩ := forall₂_left hrt scan hs
  cases r with
  | some scan' => exact ⟨scan', reduceOption_mem_iff.mpr hr, htm⟩
  | none =>
    obtain ⟨hno, hnr⟩ := htm.none rfl hp
    rcases h with ⟨o, ho, hf⟩ | ⟨i, hi, j, hij, hf⟩
    · exact absurd hf (hno o ho)
    · exact absurd hf (hnr i hi j hij)

theorem exists_origin (hrt : List.Forall₂ (TrimmedBy m removeMask) b.scans retained) {scan' : Scan}
    (hs : scan' ∈ retained.reduceOption) :
    ∃ scan ∈ b.scans, TrimmedBy m removeMask scan (some scan') :=
  forall₂_right hrt _ (reduceOption_mem_iff.mp hs)

end Retained

theorem simplified_of_stages {retained : List (Option Scan)} (hb : b.WellFormed)
    (hsp : b.MarksSpec m) (hm : RemovesFull b m removeMask)
    (hrt : List.Forall₂ (TrimmedBy m removeMask) b.scans retained)
    {new : List Scan} (hnw : Populates b.outputs m.isFull
      (((Slots.removeElements b.relations removeMask).zip
        (Slots.removeElements m.isFullRel removeMask)).zipIdx) new) :
    Simplified b
      { b with
        relations := Slots.removeElements b.relations removeMask
        scans := retained.reduceOption ++ new } (NewIndex removeMask) where
  tables := rfl
  outputs := rfl
  same := fun i j hij => NewIndex.relations hm hij
  injective := fun i i' j hij hij' => Slots.indexMap_injective hij hij'
  origin := by
    intro j rel hrl
    obtain ⟨i, hij, _⟩ := @Slots.exists_indexMap _ _ _ 0 _ _ hm.length_eq hrl
    rw [Nat.zero_add] at hij
    exact ⟨i, hij⟩
  survives := fun i rel o hrl ho => NewIndex.survives hsp hm hb hrl ho
  kept := by
    intro scan' hs' hp
    rcases mem_append.mp hs' with hs' | hs'
    · obtain ⟨scan, hs, htm⟩ := exists_origin hrt hs'
      exact ⟨scan, hs, TrimmedBy.kept hsp hm hb hs htm⟩
    · exact absurd (hnw.predicate scan' hs') hp
  keptOutput := by
    intro scan hs hp o ho hnot
    have hf := (hsp.output_iff (output_lt hb hs ho) false).mpr (by simpa using hnot)
    obtain ⟨scan', hs', htm⟩ := exists_retained hrt hs hp (Or.inl ⟨o, ho, hf⟩)
    obtain ⟨_, ht, hsm, hot, _⟩ := htm.some scan' rfl
    exact ⟨scan', mem_append_left _ hs', ht, hsm, (hot o).mpr ⟨ho, hf⟩⟩
  keptRelation := by
    intro scan hs hp i hi j hij hnot
    have hf := (NewIndex.full_iff hsp hm hij false).mpr (by simpa using hnot)
    obtain ⟨scan', hs', htm⟩ := exists_retained hrt hs hp (Or.inr ⟨i, hi, j, hij, hf⟩)
    obtain ⟨_, ht, hsm, _, hrl⟩ := htm.some scan' rfl
    exact ⟨scan', mem_append_left _ hs', ht, hsm, (hrl j).mpr ⟨⟨i, hi, hij⟩, hf⟩⟩
  new := by
    intro scan' hs' hn
    rcases mem_append.mp hs' with hs' | hs'
    · obtain ⟨scan, _, htm⟩ := exists_origin hrt hs'
      obtain ⟨hp, _, hsm, _⟩ := htm.some scan' rfl
      exact absurd (hsm.symm.trans hn) hp
    · exact Populates.fits_full hsp hm hb hnw hs'
  fullOutput := by
    intro o ho hf
    obtain ⟨scan', hs', hot⟩ :=
      hnw.outputs o ho ((hsp.output_iff ho true).mpr (by simpa using hf))
    exact ⟨scan', mem_append_right _ hs', hnw.predicate scan' hs', hot⟩
  fullRelation := by
    intro i j hij hf
    obtain ⟨scan', hs', hj⟩ := Populates.feeds_full hsp hm hnw hij hf
    exact ⟨scan', mem_append_right _ hs', hnw.predicate scan' hs', hj⟩

end Stages

/-- Scans of a simplified plan feed relations of their own table. -/
theorem Simplified.fits {renumber : Nat → Nat → Prop} (hb : b.WellFormed)
    (h : Simplified b b' renumber) : ∀ scan' ∈ b'.scans, scan'.Fits b'.tables b'.relations := by
  intro scan' hs'
  rw [h.tables]
  by_cases hn : scan'.predicate = none
  · obtain ⟨hd, hot, hr⟩ := h.new scan' hs' hn
    refine ⟨hd, fun o ho => (hot o ho).2, fun j hj => ?_⟩
    obtain ⟨i, rel, hij, _, hi, ht⟩ := hr j hj
    exact ⟨rel, (h.same i j hij).trans hi, ht⟩
  · obtain ⟨scan, hs, ht, _, hot, hr⟩ := h.kept scan' hs' hn
    have hf := hb.scans scan hs
    refine ⟨by rw [ht]; exact hf.defined,
      fun o ho => by rw [ht]; exact hf.output o (hot o ho).1, fun j hj => ?_⟩
    obtain ⟨i, hi, hij, _⟩ := hr j hj
    obtain ⟨rel, hi, ht'⟩ := hf.relations i hi
    exact ⟨rel, (h.same i j hij).trans hi, ht'.trans ht.symm⟩

theorem assertScanRelationInvariant_of_fits
    (h : ∀ scan ∈ b.scans, scan.Fits b.tables b.relations) :
    b.assertScanRelationInvariant = some b := by
  refine if_pos (all_eq_true.mpr fun scan hs => all_eq_true.mpr fun i hi => ?_)
  obtain ⟨_, hr, ht⟩ := (h scan hs).relations i hi
  simp [hr, ht]

/-- Where a scan has no predicate, simplification does not panic, and gives a simplified plan. -/
theorem exists_simplified (hb : b.WellFormed) (hd : b.RelationsDefined)
    (ha : ¬ b.scans.all (·.predicate.isSome)) :
    ∃ b', b.simplify = some b' ∧ ∃ renumber, Simplified b b' renumber := by
  obtain ⟨m, hm⟩ := exists_marks hb hd
  have hsp := marks_spec hm
  have hmA : ∀ rel ∈ b.relations, ∃ remove, (do
      let idx ← b.tables.getIndex rel.outputTable
      m.isFull[idx]?) = some remove := by
    intro rel hrl
    obtain ⟨idx, hi⟩ := hd rel hrl
    have hlt : idx < m.isFull.length := by
      rw [hsp.outputsLength, outputs_length hb]
      exact TableSet.getIndex_lt hi
    exact ⟨_, by rw [hi]; exact getElem?_eq_getElem hlt⟩
  obtain ⟨removeMask, hrm⟩ : ∃ removeMask, b.relationsRemoveMask m = some removeMask :=
    Slots.exists_mapM hmA
  have hms : RemovesFull b m removeMask := Slots.forall₂_of_mapM hrm
  obtain ⟨_, hb₁⟩ := exists_removeRelations hb hms.length_eq.symm
  obtain ⟨scans₁, hs₁, rfl⟩ := removeRelations_spec hb₁
  have hre : ∀ scan₁ ∈ scans₁, ∃ retained, retainScan m.isFull
      (Slots.removeElements m.isFullRel removeMask) scan₁ = some retained := by
    intro scan₁ hsc₁
    obtain ⟨scan, hsc, hsm⟩ := forall₂_right hs₁ scan₁ hsc₁
    refine exists_retainScan (fun o ho => ?_) (fun j hj => ?_)
    · rw [hsp.outputsLength, outputs_length hb]
      exact TableSet.getIndex_lt ((hb.scans scan hsc).output o (hsm.output ▸ ho))
    · obtain ⟨i, _, hij⟩ := (hsm.relations j).mp hj
      by_cases hf : b.FullRel i
      · have hg := (NewIndex.full_iff hsp hms hij true).mpr (by simpa using hf)
        exact (List.getElem?_eq_some_iff.mp hg).1
      · have hg := (NewIndex.full_iff hsp hms hij false).mpr (by simpa using hf)
        exact (List.getElem?_eq_some_iff.mp hg).1
  obtain ⟨retained, hrt⟩ := Slots.exists_mapM hre
  have ht : List.Forall₂ (TrimmedBy m removeMask) b.scans retained :=
    forall₂_join hs₁.flip (Slots.forall₂_of_mapM hrt)
      fun scan₁ scan r hsm hr => hsm.trimmed (retainScan_trimmed hr)
  have hs := simplified_of_stages hb hsp hms ht
    (newScans_populates (b := { b with relations := Slots.removeElements b.relations removeMask })
      m.isFull (Slots.removeElements m.isFullRel removeMask))
  refine ⟨_, ?_, NewIndex removeMask, hs⟩
  unfold simplify
  rw [if_neg ha, hm]
  simp only [Option.bind_eq_bind, Option.bind_some, hrm, hb₁, hrt]
  exact assertScanRelationInvariant_of_fits (hs.fits hb)

theorem all_isSome_iff :
    b.scans.all (·.predicate.isSome) ↔ ∀ scan ∈ b.scans, scan.predicate ≠ none := by
  simp only [all_eq_true, Option.isSome_iff_ne_none]

/-- The mask of the relations to remove is computed for all of them. -/
theorem relationsDefined_of_simplify (h : b.simplify = some b')
    (ha : ¬ b.scans.all (·.predicate.isSome)) : b.RelationsDefined := by
  unfold simplify at h
  rw [if_neg ha] at h
  obtain ⟨m, -, h⟩ := Option.bind_eq_some_iff.mp h
  obtain ⟨removeMask, hm, -⟩ := Option.bind_eq_some_iff.mp h
  intro rel hr
  obtain ⟨_, -, hrm⟩ := forall₂_left (Slots.forall₂_of_mapM hm) rel hr
  obtain ⟨idx, hi, -⟩ := Option.bind_eq_some_iff.mp hrm
  exact ⟨idx, hi⟩

theorem exists_simplify_iff (hb : b.WellFormed) : (∃ b', b.simplify = some b') ↔
    (∀ scan ∈ b.scans, scan.predicate ≠ none) ∨ b.RelationsDefined := by
  rw [← all_isSome_iff]
  by_cases ha : b.scans.all (·.predicate.isSome) = true
  · exact iff_of_true ⟨b, if_pos ha⟩ (Or.inl ha)
  · rw [or_iff_right ha]
    constructor
    · rintro ⟨b', h⟩
      exact relationsDefined_of_simplify h ha
    · intro hd
      obtain ⟨b', h, -⟩ := exists_simplified hb hd ha
      exact ⟨b', h⟩

theorem simplified_of_simplify (hb : b.WellFormed) (h : b.simplify = some b') :
    (b' = b ∧ ∀ scan ∈ b.scans, scan.predicate ≠ none) ∨ ∃ renumber, Simplified b b' renumber := by
  by_cases ha : b.scans.all (·.predicate.isSome) = true
  · exact Or.inl ⟨(Option.some.inj ((if_pos ha).symm.trans h)).symm, all_isSome_iff.mp ha⟩
  · obtain ⟨_, h', hs⟩ := exists_simplified hb (relationsDefined_of_simplify h ha) ha
    cases h'.symm.trans h
    exact Or.inr hs

end PlanBuilder

end Query
