import SqdData.Storage.TableMerge

/-!
# What a merge of tables holds

An unsorted merge holds, column by column, what its parts hold one after the other. Widening an
index column changes its type and none of its values, so rows compare equal across the merge. The
two scans of the storage, over block hashes and over transaction hashes, then read off the merged
table what they read off the parts.
-/

namespace Storage

open List

/-! ### Columns -/

variable {target : DataType} {out values : List Value}

theorem mapM_castValue (h : values.mapM (castValue target) = .ok out) : out = values := by
  rw [mapM_eq_ok] at h
  induction h with
  | nil => rfl
  | cons hv _ ih =>
    unfold castValue at hv
    split at hv
    · cases hv
      rw [ih]
    · cases hv

theorem castItemIndex_eq_ok {src : DataType} (h : castItemIndex src target values = .ok out) :
    out = values := by
  unfold castItemIndex at h
  split at h <;> first | exact mapM_castValue h | cases h

/-- A cast changes the type of a column, not its values. -/
theorem readMaybeCasted_eq_ok {column : Column} (h : readMaybeCasted column target = .ok out) :
    out = column.values := by
  unfold readMaybeCasted at h
  split at h
  · cases h
    rfl
  · split at h
    · rename_i hn
      cases h
      exact hn.symm
    · exact castItemIndex_eq_ok h

/-- Column names are distinct, so a column is found under its name. -/
theorem Table.column?_of_mem {t : Table} {c : Column} (h : c ∈ t.columns) :
    t.column? c.field.name = some c := by
  cases hf : t.column? c.field.name with
  | none =>
    have hn := find?_eq_none.mp hf c h
    simp at hn
  | some =>
    obtain ⟨hd, hnm⟩ := column?_mem hf
    rw [inj_on_of_nodup_map t.named hd h hnm]

variable {name : String}

theorem chunkColumn_eq_ok {t : Table} {index : Nat} {c : Column}
    (h : TableMerge.chunkColumn t index name = .ok c) : t.column? name = some c := by
  unfold TableMerge.chunkColumn at h
  split at h
  · cases h
  · rename_i d hd
    split at h
    · rename_i hn
      cases h
      rw [← hn]
      exact Table.column?_of_mem (mem_of_getElem? hd)
    · split at h
      · rename_i e he
        cases h
        exact he
      · cases h

theorem readUnsortedColumn_eq_ok {m : TableMerge} {index : Nat} {field : Field}
    (h : m.readUnsortedColumn index field = .ok values) :
    ∃ parts : List Column,
      List.Forall₂ (fun t c => t.column? field.name = some c) m.chunks parts ∧
        values = (parts.map Column.values).flatten := by
  obtain ⟨_, hl, hf⟩ := bind_eq_ok.mp h
  cases hf
  clear h
  rw [mapM_eq_ok] at hl
  generalize m.chunks = chunks at hl ⊢
  induction hl with
  | nil => exact ⟨[], .nil, rfl⟩
  | cons hr _ ih =>
    obtain ⟨parts, hp, hv⟩ := ih
    obtain ⟨c, hc, hr⟩ := bind_eq_ok.mp hr
    rw [readMaybeCasted_eq_ok hr]
    refine ⟨c :: parts, .cons (chunkColumn_eq_ok hc) hp, ?_⟩
    simpa using hv

/-! ### Schemas -/

variable {base : List Field}

variable {out : List Field}

/-- Merging one field into a schema keeps the names, and the name was there. -/
theorem mergeField_eq_ok {newField : Field} (h : mergeField base newField = .ok out) :
    out.map Field.name = base.map Field.name ∧ newField.name ∈ base.map Field.name ∧
      ∀ f ∈ out, f ∈ base ∨ ∃ bf ∈ base, bf.name = newField.name ∧
        mergeFields bf newField = some f := by
  unfold mergeField at h
  split at h
  · cases h
  · rename_i bi hid
    obtain ⟨hlt, hn, -⟩ := findIdx?_eq_some_iff_getElem.mp hid
    have hn' : base[bi].name = newField.name := by simpa using hn
    have hmm : newField.name ∈ base.map Field.name := mem_map.mpr ⟨base[bi], getElem_mem hlt, hn'⟩
    rw [getElem?_eq_getElem hlt] at h
    dsimp only at h
    split at h
    · cases h
      exact ⟨rfl, hmm, fun f hf => Or.inl hf⟩
    · split at h
      · rename_i merged hm
        cases h
        have hs : merged.name = base[bi].name := by
          obtain ⟨_, -, rfl⟩ := Option.map_eq_some_iff.mp hm
          rfl
        refine ⟨?_, hmm, ?_⟩
        · rw [map_set, hs]
          refine ext_getElem (by simp) ?_
          intro i hi hi'
          rw [getElem_set]
          split
          · rename_i heq
            subst heq
            simp
          · rfl
        · intro f hf
          rcases mem_or_eq_of_mem_set hf with hf | rfl
          · exact Or.inl hf
          · exact Or.inr ⟨base[bi], getElem_mem hlt, hn', hm⟩
      · cases h

/-- A property of types that merging two types cannot break. -/
def MergeClosed (P : DataType → Prop) : Prop :=
  ∀ a b c : Field, P a.dataType → P b.dataType → mergeFields a b = some c → P c.dataType

/-- The fields of this name have the property. -/
def TypedAs (P : DataType → Prop) (name : String) (fields : List Field) : Prop :=
  ∀ f ∈ fields, f.name = name → P f.dataType

theorem mergeFields_name {a b c : Field} (h : mergeFields a b = some c) : c.name = a.name := by
  obtain ⟨_, -, rfl⟩ := Option.map_eq_some_iff.mp h
  rfl

variable {fields : List Field}

theorem mergeSchema_eq_ok (h : mergeSchema base fields = .ok out) :
    out.map Field.name = base.map Field.name ∧ (∀ f ∈ fields, f.name ∈ base.map Field.name) ∧
      ∀ P name, MergeClosed P → TypedAs P name base → TypedAs P name fields →
        TypedAs P name out := by
  unfold mergeSchema at h
  split at h
  · rename_i heq
    cases h
    subst heq
    exact ⟨rfl, fun f hf => mem_map_of_mem hf, fun P name _ hbs _ => hbs⟩
  · rename_i hne
    clear hne
    induction fields generalizing base with
    | nil =>
      cases h
      exact ⟨rfl, by simp, fun P name _ hbs _ => hbs⟩
    | cons newField _ ih =>
      rw [foldlM_cons] at h
      obtain ⟨_, hmd, h⟩ := bind_eq_ok.mp h
      obtain ⟨hn, hmm, hfl⟩ := mergeField_eq_ok hmd
      obtain ⟨hn', hmm', ht⟩ := ih h
      rw [hn] at hn' hmm'
      refine ⟨hn', ?_, ?_⟩
      · intro f hf
        rcases mem_cons.mp hf with rfl | hf
        · exact hmm
        · exact hmm' f hf
      · intro P name hc hbs hnw
        refine ht P name hc ?_ fun f hf => hnw f (mem_cons_of_mem _ hf)
        intro f hf hnm
        rcases hfl f hf with hold | ⟨bf, hbf, hb, hm⟩
        · exact hbs f hold hnm
        · have hbf' : bf.name = name := (mergeFields_name hm).symm.trans hnm
          exact hc bf newField f (hbs bf hbf hbf')
            (hnw newField mem_cons_self (hb.symm.trans hbf')) hm

theorem foldlM_mergeSchema {rest : List Table}
    (h : rest.foldlM (fun base t => mergeSchema base t.fields) base = .ok out) :
    out.map Field.name = base.map Field.name ∧
      (∀ t ∈ rest, ∀ f ∈ t.fields, f.name ∈ base.map Field.name) ∧
      ∀ P name, MergeClosed P → TypedAs P name base →
        (∀ t ∈ rest, TypedAs P name t.fields) → TypedAs P name out := by
  induction rest generalizing base with
  | nil =>
    cases h
    exact ⟨rfl, by simp, fun P name _ hb _ => hb⟩
  | cons t _ ih =>
    rw [foldlM_cons] at h
    obtain ⟨_, hmd, h⟩ := bind_eq_ok.mp h
    obtain ⟨hn, hm, ht⟩ := mergeSchema_eq_ok hmd
    obtain ⟨hn', hm', ht'⟩ := ih h
    rw [hn] at hn' hm'
    refine ⟨hn', ?_, ?_⟩
    · intro u hu
      rcases mem_cons.mp hu with rfl | hu
      · exact hm
      · exact hm' u hu
    · intro P name hc hb ha
      refine ht' P name hc ?_ fun u hu => ha u (mem_cons_of_mem _ hu)
      exact ht P name hc hb (ha t mem_cons_self)

/-- The target schema of a merge: every name of a part is in it, and its types are merged from the
types of the parts. -/
theorem prepare_eq_ok {chunks : List Table} {m : TableMerge}
    (h : TableMerge.prepare chunks = .ok m) :
    m.chunks = chunks ∧ chunks ≠ [] ∧ (∀ last ∈ chunks.getLast?, m.sortKey = last.sortKey) ∧
      (∀ t ∈ chunks, ∀ f ∈ t.fields, f.name ∈ m.fields.map Field.name) ∧
      ∀ P name, MergeClosed P → (∀ t ∈ chunks, TypedAs P name t.fields) →
        TypedAs P name m.fields := by
  unfold TableMerge.prepare at h
  split at h
  · cases h
  · rename_i last hlast
    obtain ⟨_, hfl, h⟩ := bind_eq_ok.mp h
    cases h
    have hne : chunks ≠ [] := by
      rintro rfl
      cases hlast
    have hrs : chunks.reverse = last :: chunks.reverse.drop 1 := by
      have hh : chunks.reverse.head? = some last := by rw [head?_reverse, hlast]
      cases hr : chunks.reverse with
      | nil =>
        rw [hr] at hh
        cases hh
      | cons =>
        rw [hr] at hh
        cases hh
        rfl
    obtain ⟨hn, hm, hty⟩ := foldlM_mergeSchema hfl
    have hs : ∀ t ∈ chunks, t = last ∨ t ∈ chunks.reverse.drop 1 := by
      intro t ht
      rw [← mem_reverse, hrs] at ht
      exact mem_cons.mp ht
    have hlM : last ∈ chunks := mem_of_getLast? hlast
    refine ⟨rfl, hne, ?_, ?_, ?_⟩
    · intro last' hlast'
      cases hlast.symm.trans hlast'
      rfl
    · intro t ht f hf
      rw [hn]
      rcases hs t ht with rfl | ht
      · exact mem_map_of_mem hf
      · exact hm t ht f hf
    · intro P name hc ha
      refine hty P name hc (ha last hlM) ?_
      intro t ht
      exact ha t (mem_reverse.mp (mem_of_mem_drop ht))

/-! ### The merged table -/

theorem buildColumns_eq_ok {values : List (List Value)} {columns : List Column}
    (h : buildColumns fields values = .ok columns) :
    columns.map Column.field = fields ∧ columns.map Column.values = values := by
  induction fields generalizing values columns with
  | nil =>
    cases values with
    | nil =>
      cases h
      exact ⟨rfl, rfl⟩
    | cons => cases h
  | cons _ _ ih =>
    cases values with
    | nil => cases h
    | cons =>
      unfold buildColumns at h
      split at h
      · obtain ⟨_, ht, h⟩ := bind_eq_ok.mp h
        cases h
        obtain ⟨hf, hv⟩ := ih ht
        exact ⟨by rw [map_cons, hf], by rw [map_cons, hv]⟩
      · cases h

theorem buildTable_eq_ok {sortKey : List Nat} {values : List (List Value)} {t : Table}
    (h : buildTable fields sortKey values = .ok t) :
    t.fields = fields ∧ t.columns.map Column.values = values ∧ t.sortKey = sortKey := by
  obtain ⟨_, hc, h⟩ := bind_eq_ok.mp h
  obtain ⟨hf, hv⟩ := buildColumns_eq_ok hc
  split at h
  · split at h
    · split at h
      · cases h
        exact ⟨hf, hv, rfl⟩
      · cases h
    · cases h
  · cases h

/-- Under every name, `t` holds what the tables `parts` hold one after the other. -/
structure Concat (parts : List Table) (t : Table) : Prop where
  nonempty : parts ≠ []
  column : ∀ name c, t.column? name = some c → ∃ columns : List Column,
    List.Forall₂ (fun p d => p.column? name = some d) parts columns ∧
      c.values = (columns.map Column.values).flatten
  names : ∀ p ∈ parts, ∀ name d, p.column? name = some d → ∃ c, t.column? name = some c
  typed : ∀ P name, MergeClosed P →
    (∀ p ∈ parts, ∀ d, p.column? name = some d → P d.field.dataType) →
    ∀ c, t.column? name = some c → P c.field.dataType

variable {parts : List Table}

/-- A merge of tables without a sort key. -/
theorem mergeTables_concat {sort : List (List Value) → List Nat} {t : Table}
    (hsr : ∀ last ∈ parts.getLast?, last.sortKey = []) (h : mergeTables parts sort = .ok t) :
    Concat parts t ∧ t.sortKey = [] := by
  obtain ⟨m, hm, hr⟩ := bind_eq_ok.mp h
  obtain ⟨values, hv, hb⟩ := bind_eq_ok.mp hr
  obtain ⟨rfl, hne, hk, hn, ht⟩ := prepare_eq_ok hm
  obtain ⟨hfd, hcl, hs⟩ := buildTable_eq_ok hb
  have hu : m.sortKey = [] := by
    rw [hk _ (getLast?_eq_some_getLast hne)]
    exact hsr _ (getLast?_eq_some_getLast hne)
  have hw : m.unsortedWrite = .ok values := by
    simpa [TableMerge.write, hu] using hv
  have hrd := mapM_eq_ok.mp hw
  refine ⟨⟨hne, ?_, ?_, ?_⟩, hs.trans hu⟩
  · intro name c hc
    obtain ⟨hmm, rfl⟩ := column?_mem hc
    obtain ⟨i, hi, rfl⟩ := getElem_of_mem hmm
    have hfi : m.fields[i]? = some t.columns[i].field := by
      rw [← hfd, Table.fields, getElem?_map, getElem?_eq_getElem hi]
      rfl
    have hvi : values[i]? = some t.columns[i].values := by
      rw [← hcl, getElem?_map, getElem?_eq_getElem hi]
      rfl
    obtain ⟨hfl, hfi⟩ := List.getElem?_eq_some_iff.mp hfi
    obtain ⟨hvl, hvi⟩ := List.getElem?_eq_some_iff.mp hvi
    have hco := (forall₂_iff_get.mp hrd).2 i (by simpa using hfl) hvl
    simp only [get_eq_getElem, getElem_zipIdx, Nat.zero_add, hfi, hvi] at hco
    exact readUnsortedColumn_eq_ok hco
  · intro p hp name d hd
    obtain ⟨hmm, rfl⟩ := column?_mem hd
    have hin : d.field.name ∈ t.fields.map Field.name := by
      rw [hfd]
      exact hn p hp d.field (mem_map_of_mem hmm)
    obtain ⟨f, hf, hnm⟩ := mem_map.mp hin
    obtain ⟨c, hc, rfl⟩ := mem_map.mp hf
    exact ⟨c, hnm ▸ Table.column?_of_mem hc⟩
  · intro P name hcs ha c hc
    obtain ⟨hmm, hnm⟩ := column?_mem hc
    refine ht P name hcs ?_ c.field (hfd ▸ mem_map_of_mem hmm) hnm
    rintro p hp f hf rfl
    obtain ⟨d, hd, rfl⟩ := mem_map.mp hf
    exact ha p hp d (Table.column?_of_mem hd)

/-! ### Rows -/

def rowsOf (n : Nat) (columns : String → Option (List Value)) : List (String → Option Value) :=
  (List.range n).map fun i name => (columns name).bind fun values => values[i]?

theorem Table.rows_eq (t : Table) :
    t.rows = rowsOf t.numRows fun name => (t.column? name).map Column.values := by
  refine map_congr_left fun i _ => funext fun name => ?_
  simp [Table.row, Option.bind_map]

/-- Rows of columns that continue, name by name, other columns. -/
theorem rowsOf_append {n m : Nat} {columns front back : String → Option (List Value)}
    (h : ∀ name, (columns name = none ∧ front name = none ∧ back name = none) ∨
      ∃ vs ws, columns name = some (vs ++ ws) ∧ front name = some vs ∧ back name = some ws ∧
        vs.length = n) : rowsOf (n + m) columns = rowsOf n front ++ rowsOf m back := by
  unfold rowsOf
  rw [range_add, map_append, map_map]
  congr 1
  · refine map_congr_left fun i hi => funext fun name => ?_
    have hlt : i < n := mem_range.mp hi
    rcases h name with ⟨hc, hf, -⟩ | ⟨vs, ws, hc, hf, -, hlen⟩
    · rw [hc, hf]
    · rw [hc, hf, Option.bind_some, Option.bind_some, getElem?_append_left (by omega)]
  · refine map_congr_left fun i _ => funext fun name => ?_
    rcases h name with ⟨hc, -, hb⟩ | ⟨_, _, hc, -, hb, hlen⟩
    · simp [hc, hb]
    · simp only [Function.comp_apply, hc, hb, Option.bind_some]
      rw [getElem?_append_right (by omega), hlen, Nat.add_sub_cancel_left]

theorem rowsOf_parts {columns : String → Option (List Value)}
    (h : ∀ name, (columns name = none ∧ ∀ p ∈ parts, p.column? name = none) ∨
      ∃ cs : List Column, List.Forall₂ (fun p c => p.column? name = some c) parts cs ∧
        columns name = some (cs.map Column.values).flatten) :
    rowsOf (parts.map Table.numRows).sum columns = parts.flatMap Table.rows := by
  induction parts generalizing columns with
  | nil => rfl
  | cons p parts ih =>
    -- What is left of each column behind the rows of the first part.
    have hr : rowsOf (parts.map Table.numRows).sum
        (fun name => (columns name).map (drop p.numRows)) = parts.flatMap Table.rows := by
      refine ih fun name => ?_
      rcases h name with ⟨hn, ha⟩ | ⟨cs, hcs, hs⟩
      · exact Or.inl ⟨by rw [hn]; rfl, fun q hq => ha q (mem_cons_of_mem p hq)⟩
      · obtain ⟨c, rest, hc, hr, rfl⟩ := forall₂_cons_left_iff.mp hcs
        have hlen := Table.length_of_column? hc
        refine Or.inr ⟨rest, hr, ?_⟩
        rw [hs, map_cons, flatten_cons, ← hlen, Option.map_some, drop_left]
    rw [map_cons, sum_cons, flatMap_cons, Table.rows_eq p, ← hr]
    refine rowsOf_append fun name => ?_
    rcases h name with ⟨hn, ha⟩ | ⟨_, hcs, hs⟩
    · exact Or.inl ⟨hn, by rw [ha p mem_cons_self]; rfl, by rw [hn]; rfl⟩
    · obtain ⟨c, rest, hc, -, rfl⟩ := forall₂_cons_left_iff.mp hcs
      have hlen := Table.length_of_column? hc
      refine Or.inr ⟨c.values, (rest.map Column.values).flatten, hs, by rw [hc]; rfl, ?_, hlen⟩
      rw [hs, map_cons, flatten_cons, ← hlen, Option.map_some, drop_left]

theorem sum_numRows {columns : List Column}
    (h : List.Forall₂ (fun p d => p.column? name = some d) parts columns) :
    (columns.map Column.values).flatten.length = (parts.map Table.numRows).sum := by
  induction h with
  | nil => rfl
  | cons hc _ ih =>
    rw [map_cons, flatten_cons, length_append, ih, Table.length_of_column? hc]
    rfl

namespace Concat

variable {parts : List Table} {t : Table}

theorem numRows (h : Concat parts t) : t.numRows = (parts.map Table.numRows).sum := by
  cases hcl : t.columns with
  | cons c =>
    have hc := Table.column?_of_mem (t := t) (c := c) (by rw [hcl]; exact mem_cons_self)
    obtain ⟨_, hpr, hv⟩ := h.column _ c hc
    rw [← Table.length_of_column? hc, hv, sum_numRows hpr]
  | nil =>
    -- A part with a column would have given the merged table one.
    have hzero : ∀ p ∈ parts, p.numRows = 0 := by
      intro p hp
      cases hp' : p.columns with
      | nil => simp [Table.numRows, rowCount, hp']
      | cons d =>
        have hd := Table.column?_of_mem (t := p) (c := d) (by rw [hp']; exact mem_cons_self)
        obtain ⟨_, hc⟩ := h.names p hp _ d hd
        have hm := (column?_mem hc).1
        rw [hcl] at hm
        cases hm
    have hsum : (parts.map Table.numRows).sum = 0 := by
      rw [map_congr_left hzero]
      simp
    rw [hsum]
    simp [Table.numRows, rowCount, hcl]

/-- The rows of the merged table are the rows of its parts. -/
theorem rows (h : Concat parts t) : t.rows = parts.flatMap Table.rows := by
  rw [Table.rows_eq, h.numRows]
  refine rowsOf_parts fun name => ?_
  cases hc : t.column? name with
  | none =>
    refine Or.inl ⟨rfl, fun p hp => ?_⟩
    cases hd : p.column? name with
    | none => rfl
    | some d =>
      obtain ⟨c, hc'⟩ := h.names p hp name d hd
      rw [hc] at hc'
      cases hc'
  | some c =>
    obtain ⟨columns, hpr, hv⟩ := h.column name c hc
    exact Or.inr ⟨columns, hpr, by rw [Option.map_some, hv]⟩

/-- A scan of the merged table reads what the scans of its parts read. -/
theorem scanned {α : Type} (h : Concat parts t) {types : List DataType} {R : Value → Prop}
    {f : Value → α} {reads : List (List α)} (hcs : MergeClosed (· ∈ types))
    (ha : List.Forall₂ (fun p read => p.Scanned name types R f read) parts reads) :
    t.Scanned name types R f reads.flatten := by
  obtain ⟨first, rest, hpr⟩ := exists_cons_of_ne_nil h.nonempty
  have hf : first ∈ parts := hpr ▸ mem_cons_self
  obtain ⟨_, -, d, hd, -⟩ := forall₂_left ha first hf
  obtain ⟨c, hc⟩ := h.names first hf name d hd
  obtain ⟨columns, hcl, hv⟩ := h.column name c hc
  refine ⟨c, hc, h.typed _ name hcs ?_ c hc, ?_⟩
  · intro p hp d hd
    obtain ⟨_, -, d', hd', ht, -⟩ := forall₂_left ha p hp
    cases hd.symm.trans hd'
    exact ht
  · rw [hv]
    clear hc hv hf hpr h
    induction ha generalizing columns with
    | nil =>
      cases hcl
      exact ⟨nofun, rfl⟩
    | cons hrd _ ih =>
      obtain ⟨_, rest, hd, hrs, rfl⟩ := forall₂_cons_left_iff.mp hcl
      obtain ⟨d', hd', -, hR, rfl⟩ := hrd
      cases hd.symm.trans hd'
      obtain ⟨hRs, hr⟩ := ih rest hrs
      simp only [map_cons, flatten_cons, map_append, forall_mem_append, hr]
      exact ⟨⟨hR, hRs⟩, trivial⟩

end Concat

/-! ### Scans -/

theorem mergeClosed_blockNumber : MergeClosed (· ∈ [.uint32, .uint64]) := by
  rintro ⟨_, _, _⟩ ⟨_, _, _⟩ _ ha hb h
  rcases mem_pair.mp ha with rfl | rfl <;> rcases mem_pair.mp hb with rfl | rfl <;>
    cases h <;> simp

theorem mergeClosed_transactionIndex : MergeClosed (· ∈ [.uint16, .uint32, .uint64]) := by
  rintro ⟨_, _, _⟩ ⟨_, _, _⟩ _ ha hb h
  simp only [mem_cons, not_mem_nil, or_false] at ha hb
  rcases ha with rfl | rfl | rfl <;> rcases hb with rfl | rfl | rfl <;> cases h <;> simp

theorem mergeClosed_utf8 : MergeClosed (· ∈ [.utf8]) := by
  rintro ⟨_, _, _⟩ ⟨_, _, _⟩ _ ha hb h
  cases mem_singleton.mp ha
  cases mem_singleton.mp hb
  cases h
  exact mem_singleton_self _

/-- Rows zipped part by part are the two readings of all parts zipped. -/
theorem zip_parts {ι α β : Type} {A : ι → List α → Prop} {B : ι → List β → Prop} {parts : List ι}
    {rowss : List (List (α × β))}
    (h : List.Forall₂ (fun p rows => ∃ a b, A p a ∧ B p b ∧ a.length = b.length ∧ rows = a.zip b)
      parts rowss) :
    ∃ as bs, List.Forall₂ A parts as ∧ List.Forall₂ B parts bs ∧
      rowss.flatten = as.flatten.zip bs.flatten := by
  induction h with
  | nil => exact ⟨[], [], .nil, .nil, rfl⟩
  | cons hp _ ih =>
    obtain ⟨a, b, ha, hb, hlen, rfl⟩ := hp
    obtain ⟨as, bs, has, hbs, hr⟩ := ih
    refine ⟨a :: as, b :: bs, .cons ha has, .cons hb hbs, ?_⟩
    rw [flatten_cons, flatten_cons, flatten_cons, hr, zip_append hlen]

namespace Concat

variable {parts : List Table} {t : Table}

/-- Block hashes read off a merged table are those of its parts. -/
theorem blockHashes (h : Concat parts t) {rowss : List (List (Nat × Hash))}
    (hr : List.Forall₂ (fun p rows => Storage.blockHashes p = .ok rows) parts rowss) :
    Storage.blockHashes t = .ok rowss.flatten := by
  obtain ⟨_, _, hnm, hh, hz⟩ := zip_parts <| hr.imp fun p rows hp => by
    obtain ⟨n, d, hn, hd, rfl⟩ := blockHashes_eq_ok.mp hp
    exact ⟨n, d, hn, hd, hn.length_eq.trans hd.length_eq.symm, rfl⟩
  exact blockHashes_eq_ok.mpr ⟨_, _, h.scanned mergeClosed_blockNumber hnm,
    h.scanned mergeClosed_utf8 hh, hz⟩

/-- So are transaction hashes. -/
theorem transactionHashes (h : Concat parts t) {rowss : List (List (Nat × Nat × Hash))}
    (hrw : List.Forall₂ (fun p rows => Storage.transactionHashes p = .ok rows) parts rowss) :
    Storage.transactionHashes t = .ok rowss.flatten := by
  obtain ⟨_, _, hnm, hr, hz⟩ := zip_parts (B := fun p rest => ∃ indexes hashes,
      p.Scanned "transaction_index" [.uint16, .uint32, .uint64]
        (fun v => v ≠ .null ∧ v.asUint < 2 ^ 32) Value.asUint indexes ∧
      p.Scanned "hash" [.utf8] (· ≠ .null) Value.asText hashes ∧
      indexes.length = hashes.length ∧ rest = indexes.zip hashes) <| hrw.imp fun p rows hp => by
    obtain ⟨n, i, d, hn, hi, hd, rfl⟩ := transactionHashes_eq_ok.mp hp
    have hid := hi.length_eq.trans hd.length_eq.symm
    refine ⟨n, i.zip d, hn, ⟨i, d, hi, hd, hid, rfl⟩, ?_, rfl⟩
    rw [length_zip, ← hid, Nat.min_self, hn.length_eq, hi.length_eq]
  obtain ⟨_, _, hin, hh, hz'⟩ := zip_parts hr
  exact transactionHashes_eq_ok.mpr ⟨_, _, _, h.scanned mergeClosed_blockNumber hnm,
    h.scanned mergeClosed_transactionIndex hin, h.scanned mergeClosed_utf8 hh,
    hz.trans (by rw [hz'])⟩

end Concat

end Storage
