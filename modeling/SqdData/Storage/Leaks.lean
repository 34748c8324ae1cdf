import SqdData.Storage.Snapshots

/-!
# Data that nothing refers to

A table that has data is accounted for while a chunk refers to it or it carries a mark, because the
sweep and the cleanup find it then. Two inputs leave data that is not accounted for: an insertion
that writes a chunk over another, and a reclamation that unlinks the tombstones of a purged table
and not its values. Along a run all data is accounted for exactly as long as neither happens.
-/

namespace Storage

open List

def Db.Accounted (db : Db) : Prop :=
  ∀ id, db.cells id ≠ ∅ → db.Live id ∨ id ∈ db.dirtyTables ∨ id ∈ db.deletedTables

section Leaks

variable [TableFormat] {s s' : Node} {op : NodeOp} {id : TableId}

theorem Node.Lifecycle.accounted (h : s.Lifecycle True) : s.db.Accounted := by
  intro id hc
  cases h.settled id with
  | fresh _ _ _ _ _ empty => exact absurd empty hc
  | opened _ _ _ _ _ empty => exact absurd empty hc
  | building _ _ dirty => exact Or.inr (Or.inl dirty)
  | claimed _ _ _ dirty => exact Or.inr (Or.inl dirty)
  | live dataset chunk _ _ _ _ _ owns =>
    obtain ⟨hch, hm⟩ := (owns (.chunk dataset chunk)).mpr rfl
    exact Or.inl ⟨dataset, chunk, hch, hm⟩
  | dead _ _ _ marked => exact Or.inr ((marked trivial).resolve_left hc)

/-- A table with data that no chunk refers to and no pass will find. -/
structure Node.Stray (s : Node) (id : TableId) : Prop where
  spent : (s.view id).Spent
  live : ¬ s.db.Live id
  dirty : id ∉ s.db.dirtyTables
  deleted : id ∉ s.db.deletedTables
  data : s.db.cells id ≠ ∅

theorem Node.Stray.not_accounted (h : s.Stray id) : ¬ s.db.Accounted := by
  intro ha
  rcases ha id h.data with hl | hd | hd
  · exact h.live hl
  · exact h.dirty hd
  · exact h.deleted hd

/-- Labels and hash indexes do not matter to strays. -/
theorem SameTables.stray {db' : Db} (h : SameTables s.db db') (hs : s.Stray id) :
    ({ s with db := db' } : Node).Stray id := by
  obtain ⟨hsp, hlv⟩ := h.spent hs.spent
  refine ⟨hsp, fun hl => hs.live (hlv hl), ?_, ?_, ?_⟩
  · change id ∉ db'.dirtyTables
    exact h.dirtyTables ▸ hs.dirty
  · change id ∉ db'.deletedTables
    exact h.deletedTables ▸ hs.deleted
  · change Keyed.owned db'.tables id ≠ ∅
    exact h.tables ▸ hs.data

section Update

variable {dataset : DatasetId} {flags : IndexFlags} {edit : Edit} {edits : List Edit}
  {upd upd' : DatasetUpdate} {tidy : Prop}

/-- The tables of a chunk that an insertion replaces are strays if they have data. -/
theorem insertChunk_stray {chunk c : Chunk}
    (hs : (({ s with db := upd.db } : Node).view id).Settled tidy)
    (hok : s.EditOk dataset upd.db (.insertChunk chunk))
    (h : Db.applyEdit flags dataset upd (.insertChunk chunk) = .ok upd')
    (hc : c ∈ upd.db.chunkSet dataset) (hl : c.lastBlock = chunk.lastBlock)
    (hid : id ∈ c.tables.values) (hd : upd.db.cells id ≠ ∅) :
    ({ s with db := upd'.db } : Node).Stray id := by
  obtain ⟨db₁, h₁, h⟩ := bind_eq_ok.mp h
  cases h
  obtain ⟨front, gone, back, hsp, hgone, hmarks⟩ := insertChunk_spliced h₁
  have hsp' : Spliced dataset front gone (some chunk) back
      ({ s with db := upd.db } : Node).db db₁ := hsp
  have how : (({ s with db := upd.db } : Node).view id).owns (.chunk dataset c) := ⟨hc, hid⟩
  obtain ⟨ha, hi, hdl, -, hif, hdr⟩ := hs.of_owned how
  have hspent : (({ s with db := upd.db } : Node).view id).Spent := by
    refine ⟨ha, hi, ?_, ?_⟩
    · intro run hr
      cases (hif (.run run)).mp hr
    · intro _ hd'
      obtain ⟨_, hr⟩ := hdr.mp hd'
      cases hr
  have hnew : ∀ g ∈ some chunk, id ∉ g.tables.values := by
    rintro _ ⟨⟩ hm
    exact (hok id hm).not_spent hspent
  obtain ⟨hspent', -⟩ := hsp'.spent hnew hspent
  refine ⟨hspent', ?_, ?_, ?_, ?_⟩
  · rintro ⟨other, d, hdc, hdd⟩
    -- The chunk that was replaced is the only one that referred to the table.
    have hu : ∀ other d, d ∈ upd.db.chunkSet other → id ∈ d.tables.values →
        Owner.chunk other d = .chunk dataset c := fun other d h h' =>
      (hif (.chunk other d)).mp ⟨h, h'⟩
    by_cases hot : other = dataset
    · subst hot
      rcases hsp.mem_iff.mp hdc with ⟨hold, hng⟩ | hin
      · cases hu other d hold hdd
        exact hng ((hgone c).mpr ⟨hc, hl⟩)
      · exact hnew d hin hdd
    · cases hu other d (hsp.others other hot ▸ hdc) hdd
      exact hot rfl
  · intro hd'
    obtain ⟨_, hr⟩ := hdr.mp ((hsp.dirtyTables id).mp hd').1
    cases hr
  · change id ∉ db₁.deletedTables
    rw [hmarks]
    exact hdl
  · exact hsp.cells_eq id ▸ hd

/-- No edit finds a stray. -/
theorem applyEdit_stray (hs : ({ s with db := upd.db } : Node).Stray id)
    (hok : s.EditOk dataset upd.db edit) (h : Db.applyEdit flags dataset upd edit = .ok upd') :
    ({ s with db := upd'.db } : Node).Stray id := by
  obtain ⟨hsp, hlv⟩ := applyEdit_spent hs.spent hok h
  rcases applyEdit_spliced hok h with heq | ⟨front, gone, new, back, hspl, -, -⟩
  · rw [heq]
    exact hs
  · refine ⟨hsp, fun hl => hs.live (hlv hl), fun hd => hs.dirty ((hspl.dirtyTables id).mp hd).1, ?_,
      hspl.cells_eq id ▸ hs.data⟩
    intro hd
    rcases hspl.deletedTables id hd with hd | ⟨g, hg, hgd⟩
    · exact hs.deleted hd
    · exact hs.live ⟨dataset, g, hspl.stored hg, hgd⟩

/-- An update with an untidy edit leaves a stray behind. -/
theorem staged_stray (hs : ∀ id, (({ s with db := upd.db } : Node).view id).Settled tidy)
    (hok : Db.Staged (fun db edit _ => s.EditOk dataset db edit) flags dataset upd edits)
    (ht : ¬ Db.Staged (fun db edit _ => edit.Tidy dataset db) flags dataset upd edits)
    (hf : edits.foldlM (Db.applyEdit flags dataset) upd = .ok upd') :
    ∃ id, ({ s with db := upd'.db } : Node).Stray id := by
  induction edits generalizing upd with
  | nil => exact absurd trivial ht
  | cons edit edits ih =>
    rw [foldlM_cons] at hf
    obtain ⟨upd₁, h₁, h₂⟩ := bind_eq_ok.mp hf
    obtain ⟨he, hr⟩ := hok upd₁ h₁
    by_cases htidy : edit.Tidy dataset upd.db
    · refine ih (applyEdit_settled hs he (fun _ => htidy) h₁) hr ?_ h₂
      intro hrest
      refine ht fun upd₂ h₂ => ?_
      cases h₁.symm.trans h₂
      exact ⟨htidy, hrest⟩
    · cases edit with
      | insertChunk chunk =>
        simp only [Edit.Tidy, not_forall] at htidy
        obtain ⟨c, hc, hl, id, hid, hd⟩ := htidy
        exact ⟨id, hr.preserves (P := fun db => ({ s with db := db } : Node).Stray id) h₂
          (insertChunk_stray (hs id) he h₁ hc hl hid hd) fun _ _ _ hs he h =>
            applyEdit_stray hs he h⟩
      | _ => exact absurd trivial htidy

theorem update_stray {commit : Except Error Unit} (hs : ∀ id, (s.view id).Settled tidy)
    (hok : s.Disciplined (.update dataset flags edits commit))
    (ht : ¬ s.Tidy (.update dataset flags edits commit)) :
    ∃ id, ({ s with
      db := Node.orSame s.db ((s.db.update dataset flags edits commit).map Prod.fst) } :
        Node).Stray id := by
  obtain ⟨hup, ht⟩ := Classical.not_imp.mp ht
  cases hu : s.db.update dataset flags edits commit with
  | error =>
    rw [hu] at hup
    cases hup
  | ok r =>
    obtain ⟨label, upd, hl, hf, hdb⟩ := Db.update_eq_ok hu
    have hst : ¬ Db.Staged (fun db edit _ => edit.Tidy dataset db) flags dataset ⟨s.db, label⟩
        edits := by
      intro hst
      refine ht fun label' hl' => ?_
      cases Option.mem_unique hl hl'
      exact hst
    obtain ⟨id, hstray⟩ := staged_stray hs (hok label hl) hst hf
    have hsm : SameTables upd.db r.1 := by
      rw [hdb, Db.finish_eq]
      exact ⟨rfl, rfl, rfl, rfl⟩
    exact ⟨id, SameTables.stray (s := { s with db := upd.db }) hsm hstray⟩

end Update

/-- A reclamation that brings back data of a table that is not marked leaves a stray behind. -/
theorem reclaim_stray {unlinked : TableId → TableKey → Bool} {revived : List (TableId × Cell)}
    (ht : ¬ s.Tidy (.reclaim unlinked revived)) :
    ¬ (s.db.reclaimDiskSpace unlinked revived).Accounted := by
  simp only [Node.Tidy, not_forall] at ht
  obtain ⟨⟨id, cell⟩, he, hb, hd⟩ := ht
  intro ha
  have hdata : (s.db.reclaimDiskSpace unlinked revived).cells id ≠ ∅ := by
    intro hc
    have hput : ∃ e ∈ revived.filter fun e => s.db.belowWatermark e.1,
        shelfKey cellPos e = shelfKey cellPos (id, cell) :=
      ⟨(id, cell), mem_filter.mpr ⟨he, hb⟩, rfl⟩
    obtain ⟨⟨id', cell'⟩, hm, hk⟩ := Keyed.exists_mem_foldl_put
      (s := s.db.tables.filter fun e => !(unlinked e.1 e.2.1 && s.db.belowWatermark e.1))
      (Or.inr hput)
    obtain ⟨rfl, -⟩ := shelfKey_eq_iff.mp hk
    have hin : cell' ∈ (s.db.reclaimDiskSpace unlinked revived).cells id' := Keyed.mem_owned.mpr hm
    rw [hc] at hin
    exact Keyed.not_mem_empty _ hin
  have hw : ¬ (s.db.Live id ∨ id ∈ s.db.dirtyTables) := by
    intro hw
    rw [belowWatermark_eq_false hw] at hb
    cases hb
  rcases ha id hdata with hl | hdr | hdl
  · exact hw (Or.inl hl)
  · exact hw (Or.inr hdr)
  · exact hd hdl

/-- After a step from a tidy history all data is accounted for iff the step was tidy. -/
theorem step_accounted_iff (h : s.Lifecycle True) (hok : s.Disciplined op)
    (hs : s.step op = some s') : s'.db.Accounted ↔ s.Tidy op := by
  refine ⟨fun ha => ?_, fun ht => (h.step hok (fun _ => ht) hs).accounted⟩
  by_contra ht
  cases Node.step_cases hs with
  | update =>
    obtain ⟨id, hstray⟩ := update_stray h.settled hok ht
    exact hstray.not_accounted ha
  | reclaim => exact reclaim_stray ht ha
  | _ => exact ht trivial

theorem run_accounted_iff {ops : List NodeOp} (h : s.Lifecycle True)
    (hok : Node.machine.RunOk Node.Disciplined s ops) (hr : Node.machine.run s ops = some s') :
    (∀ before, before <+: ops → ∀ t, Node.machine.run s before = some t → t.db.Accounted) ↔
      Node.machine.RunOk Node.Tidy s ops := by
  induction ops generalizing s with
  | nil =>
    refine iff_of_true ?_ trivial
    intro before hb t ht
    rw [prefix_nil.mp hb] at ht
    cases ht
    exact h.accounted
  | cons op ops ih =>
    obtain ⟨s₁, hs, hr₁⟩ := Option.bind_eq_some_iff.mp hr
    have hcons : ∀ before, Node.machine.run s (op :: before) = Node.machine.run s₁ before := by
      intro before
      rw [Machine.run, foldlM_cons, hs]
      rfl
    constructor
    · intro ha
      have hop : s.Tidy op := (step_accounted_iff h hok.1 hs).mp
        (ha [op] ⟨ops, rfl⟩ s₁ (hcons []))
      refine ⟨hop, fun t ht => ?_⟩
      cases hs.symm.trans ht
      refine (ih (h.step hok.1 (fun _ => hop) hs) (hok.2 s₁ hs) hr₁).mp fun before hb t ht => ?_
      exact ha (op :: before) ((prefix_cons_inj op).mpr hb) t ((hcons before).trans ht)
    · rintro ⟨hop, hrest⟩ before hb t ht
      rcases before with _ | ⟨o, before⟩
      · cases ht
        exact h.accounted
      · obtain ⟨heq, hb⟩ := cons_prefix_cons.mp hb
        rw [heq] at ht
        exact (ih (h.step hok.1 (fun _ => hop) hs) (hok.2 s₁ hs) hr₁).mpr (hrest s₁ hs) before hb t
          ((hcons before).symm.trans ht)

variable {ops : List NodeOp}

/-- At the end of every run a table that a committed chunk refers to carries neither mark, and no
step of any kind changes its data. In every state of the run a table that has data is live or
carries a mark, exactly if every input was tidy. -/
theorem live_tables_are_kept_and_nothing_leaks_iff
    (hok : Node.machine.RunOk Node.Disciplined (Node.start Db.empty []) ops)
    (hrun : Node.machine.run (Node.start Db.empty []) ops = some s) :
    (∀ id, s.db.Live id → id ∉ s.db.deletedTables ∧ id ∉ s.db.dirtyTables) ∧
      (∀ op s', s.step op = some s' → ∀ id, s.db.Live id → s'.db.cells id = s.db.cells id) ∧
      ((∀ before, before <+: ops → ∀ t,
          Node.machine.run (Node.start Db.empty []) before = some t → t.db.Accounted) ↔
        Node.machine.RunOk Node.Tidy (Node.start Db.empty []) ops) := by
  have hl := reachable_lifecycle (.run (.init rfl) hok hrun)
  refine ⟨?_, ?_, run_accounted_iff start_lifecycle hok hrun⟩
  · intro id hid
    obtain ⟨hdr, hd, -⟩ := hl.of_live hid
    exact ⟨hd, hdr⟩
  · intro op s' hs id hid
    exact hl.step_cells_of_live hid hs

/-! ### Recovery -/

omit [TableFormat] in
theorem deletedTables_foldl_purgeTable (db : Db) (tables : List TableId) :
    (tables.foldl Db.purgeTable db).deletedTables = db.deletedTables.eraseAll tables := by
  induction tables generalizing db with
  | nil => rfl
  | cons table _ ih => exact ih (db.purgeTable table)

omit [TableFormat] in
theorem cells_foldl_purgeTable (db : Db) (tables : List TableId) :
    (tables.foldl Db.purgeTable db).cells id = if id ∈ tables then ∅ else db.cells id := by
  induction tables generalizing db with
  | nil => simp
  | cons table _ ih =>
    rw [foldl_cons, ih]
    by_cases hid : id = table
    · have he : (db.purgeTable id).cells id = ∅ := Keyed.ext (by simp [Db.purgeTable, Db.cells])
      simp [← hid, he]
    · simp [hid, cells_purgeTable_of_ne hid]

/-- At startup the sweep of orphans and a cleanup can run to their end. They leave the data of the
tables that committed chunks refer to as it was. Any other table is empty then exactly if it was
empty or marked before, and after a tidy run that is every other table. -/
theorem recovery_keeps_live_tables_only (h : Node.machine.Reachable Node.Disciplined s)
    (hstartup : s.serving = false) :
    ∃ swept t,
      Node.machine.run s (.scanOrphans :: s.db.dirtyTables.toList.map .purgeScanned) =
        some swept ∧ swept.db = s.db.purgeOrphanDirtyTables ∧
      Node.machine.run swept (.scanDeleted :: swept.db.deletedTables.toList.map .purgeScanned) =
        some t ∧ t.db = swept.db.logicalCleanup ∧
      (∀ id, s.db.Live id → t.db.cells id = s.db.cells id) ∧
      (∀ id, ¬ s.db.Live id → (t.db.cells id = ∅ ↔
        s.db.cells id = ∅ ∨ id ∈ s.db.dirtyTables ∨ id ∈ s.db.deletedTables)) ∧
      (Node.machine.Reachable Node.Clean s → ∀ id, ¬ s.db.Live id → t.db.cells id = ∅) := by
  have hst : s.step .scanOrphans =
      some { s with purging := s.db.dirtyTables.toList ++ s.purging } := by
    simp [Node.step, hstartup]
  have hl := reachable_lifecycle h
  have hd : ∀ id, id ∈ (s.db.deletedTables.eraseAll s.db.dirtyTables.toList).toList ↔
      id ∈ s.db.deletedTables ∧ id ∉ s.db.dirtyTables := fun id => Keyed.mem_eraseAll
  -- Both passes together purge what carries a mark.
  have hcells : ∀ id, (s.db.purgeOrphanDirtyTables.logicalCleanup).cells id =
      if id ∈ s.db.dirtyTables ∨ id ∈ s.db.deletedTables then ∅ else s.db.cells id := by
    intro id
    unfold Db.logicalCleanup Db.purgeOrphanDirtyTables
    simp only [cells_foldl_purgeTable, deletedTables_foldl_purgeTable, hd, Keyed.mem_toList]
    by_cases hdr : id ∈ s.db.dirtyTables <;> simp [hdr]
  have hempty : ∀ id, (s.db.purgeOrphanDirtyTables.logicalCleanup).cells id = ∅ ↔
      s.db.cells id = ∅ ∨ id ∈ s.db.dirtyTables ∨ id ∈ s.db.deletedTables := by
    intro id
    rw [hcells]
    split_ifs with hm <;> simp [hm]
  refine ⟨_, _, run_pass hst, rfl, run_pass rfl, rfl, ?_, fun id _ => hempty id, ?_⟩
  · intro id hid
    obtain ⟨hdr, hdl, -⟩ := hl.of_live hid
    exact (hcells id).trans (if_neg (not_or.mpr ⟨hdr, hdl⟩))
  · intro hc id hid
    refine (hempty id).mpr (Classical.or_iff_not_imp_left.mpr fun hne => ?_)
    exact ((clean_lifecycle hc).accounted id hne).resolve_left hid

end Leaks

/-! The table of the dropped dataset, purged and brought back. -/

section Sample

local instance leakFormat : TableFormat := catalogFormat []

/-- A restart with a disk on which the tombstone of one cell of table 5 lies in an unlinked file. -/
def revivingRestart : List NodeOp := [.scanOrphans, .reclaim (fun _ _ => true) [(5, .schema, [1])]]

theorem purged_data_returns : ∃ s,
    Node.machine.RunOk Node.Disciplined (Node.start Db.empty [])
      (sampleInputs ++ sampleDrop ++ revivingRestart) ∧
    Node.machine.run (Node.start Db.empty []) (sampleInputs ++ sampleDrop ++ revivingRestart) =
      some s ∧ s.db.cells 5 ≠ ∅ ∧ 5 ∉ s.db.liveTables ∧ 5 ∉ s.db.dirtyTables ∧
    5 ∉ s.db.deletedTables :=
  ⟨_, by decide +kernel, rfl, by decide +kernel, by decide +kernel, by decide +kernel,
    by decide +kernel⟩

theorem live_tables_are_kept_sample : ∃ s,
    Node.machine.run (Node.start Db.empty []) (sampleInputs ++ sampleDrop ++ sampleRestart) =
      some s ∧ s.db.Live 7 ∧ 7 ∉ s.db.deletedTables ∧ 7 ∉ s.db.dirtyTables ∧
    (∀ op s', s.step op = some s' → s'.db.cells 7 = s.db.cells 7) ∧ s.db.Accounted := by
  have hok : Node.machine.RunOk Node.Disciplined (Node.start Db.empty [])
      (sampleInputs ++ sampleDrop ++ sampleRestart) := by
    decide +kernel
  have hlive : ∀ s, Node.machine.run (Node.start Db.empty [])
      (sampleInputs ++ sampleDrop ++ sampleRestart) = some s →
      sampleChunk 7 ∈ s.db.chunkSet "main" → s.db.Live 7 := fun s _ hc =>
        ⟨"main", sampleChunk 7, hc, by decide⟩
  obtain ⟨hmarks, hstep, hacc⟩ := live_tables_are_kept_and_nothing_leaks_iff hok rfl
  have hl := hlive _ rfl (by decide +kernel)
  exact ⟨_, rfl, hl, (hmarks 7 hl).1, (hmarks 7 hl).2, fun op s' hs => hstep op s' hs 7 hl,
    hacc.mpr (by decide +kernel) _ (prefix_refl _) _ rfl⟩

theorem table_outlives_recovery : ∃ s t : Node, s.serving = false ∧ s.db.Live 7 ∧
    t.db = s.db.purgeOrphanDirtyTables.logicalCleanup ∧ t.db.cells 7 = s.db.cells 7 ∧
    s.db.cells 5 ≠ ∅ ∧ t.db.cells 5 = ∅ := by
  -- A crash before the table of the dropped dataset is purged.
  have hok : Node.machine.RunOk Node.Clean (Node.start Db.empty [])
      (sampleInputs ++ [.dropDataset "side" (.ok ()), .crash]) := by
    decide +kernel
  have hr : Node.machine.Reachable Node.Clean _ := .run (.init rfl) hok rfl
  obtain ⟨swept, t, -, hsw, -, ht, hlive, -, hdead⟩ :=
    recovery_keeps_live_tables_only (hr.mono fun _ _ h => h.1) rfl
  refine ⟨_, t, rfl, ⟨"main", sampleChunk 7, by decide +kernel, by decide⟩, hsw ▸ ht,
    hlive 7 ⟨"main", sampleChunk 7, by decide +kernel, by decide⟩, by decide +kernel,
    hdead hr 5 ?_⟩
  rw [Db.live_iff]
  decide +kernel

end Sample

end Storage
