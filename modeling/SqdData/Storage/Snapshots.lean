import SqdData.Storage.Lifecycle
import SqdData.Storage.MergeSpecs
import SqdData.Storage.PlanSpecs

/-!
# Snapshots held by compactions

A compaction reads a snapshot while the node goes on. The tables of the chunks it read are written
once: as long as such a table is live its data is what the snapshot has, and once it is not live it
is never used again. So when the commit finds the planned chunks in place, the tables it built from
the snapshot are the merge of the tables those chunks have now.
-/

namespace Storage

open List

/-- A table that was stored or given up, and that nobody can hand over again. -/
structure TableView.Spent (v : TableView) : Prop where
  allocated : v.allocated
  idle : v.Idle
  unclaimed : ∀ run, ¬ v.owns (.run run)
  done : v.builder = some .finished → v.dirty → v.deleted

section Steps

variable [TableFormat] {s s' : Node} {op : NodeOp} {id : TableId} {tidy : Prop}

theorem Node.Usable.not_spent (h : s.Usable id) : ¬ (s.view id).Spent :=
  fun hs => h.deleted (hs.done h.builder h.dirty)

/-- A live table is spent. -/
theorem Node.Lifecycle.spent (h : s.Lifecycle tidy) (hid : s.db.Live id) : (s.view id).Spent := by
  obtain ⟨hd, -, -, hi⟩ := h.of_live hid
  obtain ⟨dataset, chunk, hc, hm⟩ := hid
  have ho : (s.view id).owns (.chunk dataset chunk) := ⟨hc, hm⟩
  obtain ⟨ha, -, -, -, hif, -⟩ := (h.settled id).of_owned ho
  refine ⟨ha, hi, ?_, fun _ h' => absurd h' hd⟩
  intro run hr
  cases (hif (.run run)).mp hr

/-- What it takes to stay spent. -/
theorem TableView.Spent.frame (h : (s.view id).Spent)
    (allocated : id ∈ s.allocated → id ∈ s'.allocated)
    (builder : s'.builders.find? id = s.builders.find? id ∨ s'.builders.find? id = none)
    (owns : ∀ run, s'.Owns id (.run run) → s.Owns id (.run run))
    (dirty : id ∈ s'.db.dirtyTables → id ∈ s.db.dirtyTables)
    (deleted : id ∈ s'.db.dirtyTables → id ∈ s.db.deletedTables → id ∈ s'.db.deletedTables) :
    (s'.view id).Spent := by
  refine ⟨allocated h.allocated, ?_, fun run hr => h.unclaimed run (owns run hr), ?_⟩
  · rcases builder with hs | hn
    · exact h.idle.imp hs.trans hs.trans
    · exact Or.inl hn
  · intro hf hd
    refine deleted hd (h.done ?_ (dirty hd))
    rcases builder with hs | hn
    · exact hs.symm.trans hf
    · rw [show s'.builders.find? id = some .finished from hf] at hn
      cases hn

/-- A splice that does not bring the table in keeps it spent, and does not revive it. -/
theorem Spliced.spent {db' : Db} {dataset : DatasetId} {front gone back : List Chunk}
    {new : Option Chunk} (h : Spliced dataset front gone new back s.db db')
    (hn : ∀ c ∈ new, id ∉ c.tables.values) (hs : (s.view id).Spent) :
    (({ s with db := db' } : Node).view id).Spent ∧ (db'.Live id → s.db.Live id) := by
  constructor
  · refine hs.frame (fun ha => ha) (Or.inl rfl) (fun _ ho => ho) ?_ ?_
    · intro hdr
      exact ((h.dirtyTables id).mp hdr).1
    · intro _ hdl
      exact h.marks id hdl
  · rintro ⟨d, chunk, hc, hid⟩
    by_cases hd : d = dataset
    · subst hd
      rcases h.mem_iff.mp hc with ⟨hold, -⟩ | hin
      · exact ⟨d, chunk, hold, hid⟩
      · exact absurd hid (hn chunk hin)
    · exact ⟨d, chunk, h.others d hd ▸ hc, hid⟩

/-- So does an edit of an update. -/
theorem applyEdit_spent {dataset : DatasetId} {flags : IndexFlags} {edit : Edit}
    {upd upd' : DatasetUpdate} (hs : (({ s with db := upd.db } : Node).view id).Spent)
    (hok : s.EditOk dataset upd.db edit) (h : Db.applyEdit flags dataset upd edit = .ok upd') :
    (({ s with db := upd'.db } : Node).view id).Spent ∧ (upd'.db.Live id → upd.db.Live id) := by
  rcases applyEdit_spliced hok h with heq | ⟨front, gone, new, back, hsp, hu, -⟩
  · rw [heq]
    exact ⟨hs, fun hl => hl⟩
  · have hsp' : Spliced dataset front gone new back
        ({ s with db := upd.db } : Node).db upd'.db := hsp
    exact hsp'.spent (fun c hc hid => (hu c hc id hid).not_spent hs) hs

/-- A change of the database that keeps chunks and marks. -/
theorem SameTables.spent {db' : Db} (h : SameTables s.db db') (hs : (s.view id).Spent) :
    (({ s with db := db' } : Node).view id).Spent ∧ (db'.Live id → s.db.Live id) := by
  constructor
  · refine hs.frame (fun ha => ha) (Or.inl rfl) (fun _ ho => ho) ?_ ?_
    · intro hdr
      rwa [← h.dirtyTables]
    · intro _ hd
      rwa [show ({ s with db := db' } : Node).db.deletedTables = _ from h.deletedTables]
  · rintro ⟨d, chunk, hc, hid⟩
    refine ⟨d, chunk, ?_, hid⟩
    unfold Db.chunkSet at hc ⊢
    rwa [← h.chunks]

variable {run : Nat} {c : CompactionRun}

/-- Starting, giving up or refusing a compaction hands no table to it. -/
theorem owns_of_put
    (hc : id ∈ c.tables → ∃ c₀, s.compactions.find? run = some c₀ ∧ id ∈ c₀.tables) {run' : Nat}
    (h : ({ s with compactions := s.compactions.put (run, c) } : Node).Owns id (.run run')) :
    s.Owns id (.run run') := by
  obtain ⟨c', hf, hid⟩ := h
  rcases Keyed.find?_put_eq_some.mp hf with ⟨rfl, rfl⟩ | ⟨-, hf⟩
  · exact hc hid
  · exact ⟨c', hf, hid⟩

theorem owns_of_erase {run' : Nat}
    (h : ({ s with compactions := s.compactions.erase run } : Node).Owns id (.run run')) :
    s.Owns id (.run run') := by
  obtain ⟨c', hf, hid⟩ := h
  exact ⟨c', (Keyed.find?_erase_eq_some.mp hf).2, hid⟩

theorem deleteTables_spent {tables : List TableId} {commit : Except Error Unit}
    (hs : (s.view id).Spent) :
    (({ s with db := Node.orSame s.db (s.db.deleteTables tables commit) } : Node).view id).Spent ∧
      ((Node.orSame s.db (s.db.deleteTables tables commit)).Live id → s.db.Live id) := by
  rcases @Node.deleteTables_cases s.db commit tables with hde | hde <;> rw [hde]
  · exact ⟨hs, fun hl => hl⟩
  · refine ⟨?_, fun hl => hl⟩
    refine hs.frame (fun ha => ha) (Or.inl rfl) (fun _ ho => ho) (fun hd => hd) ?_
    exact fun _ hdl => Keyed.mem_foldl_put_id.mpr (Or.inl hdl)

theorem writeBatch_spent {table : TableId} {cells : List Cell} {next : BuilderPhase}
    (hs : (s.view id).Spent) (h : s.writeBatch table cells next = some s') :
    (s'.view id).Spent ∧ (s'.db.Live id → s.db.Live id) := by
  have hne : ∀ phase, s.builders.find? table = some phase → phase ≠ .finished → id ≠ table := by
    rintro phase hfn hp rfl
    exact hp (hs.idle.eq_finished hfn)
  rcases Node.writeBatch_eq_some h with ⟨hfn, rfl⟩ | ⟨hfn, rfl⟩
  · have hid := hne _ hfn (by simp)
    refine ⟨?_, fun hl => hl⟩
    refine hs.frame (fun ha => ha) (Or.inl (Keyed.find?_put_of_ne hid)) (fun _ ho => ho) ?_
      fun _ hd => hd
    intro hdr
    exact (mem_markTableDirty.mp hdr).resolve_left hid
  · have hid := hne _ hfn (by simp)
    refine ⟨?_, fun hl => hl⟩
    exact hs.frame (fun ha => ha) (Or.inl (Keyed.find?_put_of_ne hid)) (fun _ ho => ho)
      (fun hd => hd) fun _ hd => hd

theorem update_spent {dataset : DatasetId} {flags : IndexFlags} {edits : List Edit}
    {commit : Except Error Unit} (hs : (s.view id).Spent)
    (hok : s.Disciplined (.update dataset flags edits commit)) :
    (({ s with db := Node.orSame s.db ((s.db.update dataset flags edits commit).map Prod.fst) } :
      Node).view id).Spent ∧
      ((Node.orSame s.db ((s.db.update dataset flags edits commit).map Prod.fst)).Live id →
        s.db.Live id) := by
  cases hu : s.db.update dataset flags edits commit with
  | error => exact ⟨hs, fun hlv => hlv⟩
  | ok r =>
    obtain ⟨label, upd, hlb, hfl, hdb⟩ := Db.update_eq_ok hu
    obtain ⟨hsp, hlv⟩ := (hok label hlb).preserves
      (P := fun db => (({ s with db := db } : Node).view id).Spent ∧
        (db.Live id → s.db.Live id)) hfl ⟨hs, fun hlv => hlv⟩
      fun _ _ _ hs he h => by
        obtain ⟨hsp, hlv⟩ := applyEdit_spent hs.1 he h
        exact ⟨hsp, fun hl => hs.2 (hlv hl)⟩
    have hsm : SameTables ({ s with db := upd.db } : Node).db r.1 := by
      rw [hdb, Db.finish_eq]
      exact ⟨rfl, rfl, rfl, rfl⟩
    obtain ⟨hsp', hlv'⟩ := hsm.spent hsp
    exact ⟨hsp', fun h => hlv (hlv' h)⟩

theorem compactionCommit_spent {run : Nat} {c : CompactionRun} {merge front back : List Chunk}
    {newChunk : Chunk} {label : DatasetLabel} {db' : Db} (hs : (s.view id).Spent)
    (find : s.compactions.find? run = some c) (phase : c.phase = .built merge newChunk)
    (effect : Compacted c.dataset merge newChunk front back label s.db db') :
    (({ s with db := db', compactions := s.compactions.erase run } : Node).view id).Spent ∧
      (db'.Live id → s.db.Live id) := by
  have hnw : ∀ g ∈ some newChunk, id ∉ g.tables.values := by
    rintro _ ⟨⟩ hid
    refine hs.unclaimed run ⟨c, find, ?_⟩
    simpa [CompactionRun.tables, phase] using hid
  obtain ⟨hsp, hlv⟩ := effect.spliced.spent hnw hs
  refine ⟨?_, hlv⟩
  exact hsp.frame (fun ha => ha) (Or.inl rfl) (fun run' ho => owns_of_erase ho)
    (fun hd => hd) fun _ hd => hd

section Builders

variable {table : TableId}

theorem openTable_spent (hs : (s.view id).Spent) (hok : table ∉ s.allocated) :
    (({ s with
      builders := s.builders.put (table, .opened)
      allocated := table :: s.allocated } : Node).view id).Spent := by
  have hid : id ≠ table := fun heq => hok (heq ▸ hs.allocated)
  exact hs.frame (mem_cons_of_mem _) (Or.inl (Keyed.find?_put_of_ne hid)) (fun _ ho => ho)
    (fun hd => hd) fun _ hd => hd

theorem closeTable_spent (hs : (s.view id).Spent) (find : s.builders.find? table = some .stats) :
    (({ s with builders := s.builders.put (table, .finished) } : Node).view id).Spent := by
  have hid : id ≠ table := by
    rintro rfl
    cases hs.idle.eq_finished find
  exact hs.frame (fun ha => ha) (Or.inl (Keyed.find?_put_of_ne hid)) (fun _ ho => ho)
    (fun hd => hd) fun _ hd => hd

theorem dropBuilder_spent (hs : (s.view id).Spent) :
    (({ s with builders := s.builders.erase table } : Node).view id).Spent := by
  refine hs.frame (fun ha => ha) ?_ (fun _ ho => ho) (fun hd => hd) fun _ hd => hd
  by_cases hid : id = table
  · subst hid
    exact Or.inr (Keyed.find?_erase_self _ _)
  · exact Or.inl (Keyed.find?_erase_of_ne hid)

theorem purgeTable_spent (hs : (s.view id).Spent) :
    (({ s with db := s.db.purgeTable table } : Node).view id).Spent := by
  refine hs.frame (fun ha => ha) (Or.inl rfl) (fun _ ho => ho) ?_ ?_
  · intro hdr
    exact (Keyed.mem_erase.mp hdr).1
  · intro hdr hdl
    exact Keyed.mem_erase.mpr ⟨hdl, (Keyed.mem_erase.mp hdr).2⟩

end Builders

/-- Compactions that own the table only if they owned it before. -/
theorem compactions_spent (hs : (s.view id).Spent) {compactions : Keyed.Map Nat CompactionRun}
    (ho : ∀ run, ({ s with compactions } : Node).Owns id (.run run) → s.Owns id (.run run)) :
    (({ s with compactions } : Node).view id).Spent :=
  hs.frame (fun ha => ha) (Or.inl rfl) ho (fun hd => hd) fun _ hd => hd

/-- No step revives a spent table or makes it usable. -/
theorem step_spent (hs : (s.view id).Spent) (hok : s.Disciplined op) (hst : s.step op = some s') :
    (s'.view id).Spent ∧ (s'.db.Live id → s.db.Live id) := by
  cases Node.step_cases hst with
  | openTable => exact ⟨openTable_spent hs hok, fun hlv => hlv⟩
  | flush batch => exact writeBatch_spent hs batch
  | finishTable batch => exact writeBatch_spent hs batch
  | closeTable find => exact ⟨closeTable_spent hs find, fun hlv => hlv⟩
  | dropBuilder => exact ⟨dropBuilder_spent hs, fun hlv => hlv⟩
  | update => exact update_spent hs hok
  | deleteTables => exact deleteTables_spent hs
  | @compactionStart run dataset params serving unused =>
    refine ⟨compactions_spent hs fun run' ho => owns_of_put (c := _) ?_ ho, fun hlv => hlv⟩
    intro hid
    cases hid
  | @compactionBuild run tables c built find phase build =>
    refine ⟨compactions_spent hs fun run' ho => owns_of_put (c := _) ?_ ho, fun hlv => hlv⟩
    intro hid
    rw [CompactionRun.build_tables build] at hid
    exact absurd hs (hok id hid).not_spent
  | compactionStop =>
    exact ⟨compactions_spent hs fun run' ho => owns_of_erase ho, fun hlv => hlv⟩
  | compactionCommit find phase effect => exact compactionCommit_spent hs find phase effect
  | @compactionRefused run commit c merge newChunk find phase =>
    refine ⟨compactions_spent hs fun run' ho => owns_of_put (c := _) ?_ ho, fun hlv => hlv⟩
    intro hid
    refine ⟨c, find, ?_⟩
    simpa [CompactionRun.tables, CompactionRun.refuse, phase] using hid
  | compactionAbandon =>
    obtain ⟨hsp, hlv⟩ := deleteTables_spent hs
    exact ⟨compactions_spent hsp fun run' ho => owns_of_erase ho, hlv⟩
  | createDataset => exact createDataset_sameTables.spent hs
  | createDatasetIfNotExists => exact createDatasetIfNotExists_sameTables.spent hs
  | @dropDataset dataset commit label lifecycle present =>
    exact (dropped_spliced s.db dataset).spent (by simp) hs
  | purgeScanned => exact ⟨purgeTable_spent hs, fun hlv => hlv⟩
  | crash =>
    refine ⟨?_, fun hlv => hlv⟩
    refine hs.frame (fun ha => ha) (Or.inr rfl) ?_ (fun hd => hd) fun _ hd => hd
    rintro _ ⟨_, hc, -⟩
    cases hc
  | _ =>
    refine ⟨?_, fun hlv => hlv⟩
    exact hs.frame (fun ha => ha) (Or.inl rfl) (fun _ ho => ho) (fun hd => hd) fun _ hd => hd

/-! ### Chunks apart -/

/-- A chunk given to `insert_chunk` lies apart from the stored ones. `insert_chunk` compares it
with the chunks that end at most one block above it and not with a larger one around it. -/
def Edit.Apart (dataset : DatasetId) (db : Db) : Edit → Prop
  | .insertChunk chunk => ∀ c ∈ db.chunkSet dataset,
      c.lastBlock < chunk.firstBlock ∨ chunk.lastBlock < c.firstBlock
  | _ => True

instance (dataset : DatasetId) (db : Db) (edit : Edit) : Decidable (edit.Apart dataset db) :=
  match edit with
  | .insertChunk chunk => inferInstanceAs (Decidable (∀ c ∈ (db.chunkSet dataset).toList,
      c.lastBlock < chunk.firstBlock ∨ chunk.lastBlock < c.firstBlock))
  | .insertFork _ | .deleteChunk _ | .setFinalizedHead _ => isTrue trivial

/-- Inputs that keep the chunks of every dataset apart. -/
def Node.Spaced (s : Node) : NodeOp → Prop
  | .update dataset flags edits _ => ∀ label ∈ s.db.getLabel dataset,
      Db.Staged (fun db edit _ => edit.Apart dataset db) flags dataset ⟨s.db, label⟩ edits
  | _ => True

instance (s : Node) (op : NodeOp) : Decidable (s.Spaced op) := by
  apply NodeOp.casesOn (motive := fun op => Decidable (s.Spaced op)) op <;> intros <;>
    dsimp only [Node.Spaced] <;> infer_instance

def Node.Orderly (s : Node) (op : NodeOp) : Prop := s.Disciplined op ∧ s.Spaced op

instance (s : Node) (op : NodeOp) : Decidable (s.Orderly op) :=
  inferInstanceAs (Decidable (s.Disciplined op ∧ s.Spaced op))

variable {db db' : Db} {dataset : DatasetId} {front gone back : List Chunk}

omit [TableFormat] in
theorem Spliced.disjoint {new : Option Chunk} (h : Spliced dataset front gone new back db db')
    (hd : db.Disjoint dataset) (hn : ∀ c ∈ new, (∀ a ∈ front, a.lastBlock < c.firstBlock) ∧
      ∀ b ∈ back, c.lastBlock < b.firstBlock) : db'.Disjoint dataset := by
  unfold Db.Disjoint at hd ⊢
  rw [h.before] at hd
  rw [h.after]
  exact hd.splice hn

omit [TableFormat] in
theorem forked_disjoint {chunk : Chunk} {kept dropped : List Chunk}
    (h : Db.Forked dataset chunk kept dropped db db') (hd : db.Disjoint dataset) :
    db'.Disjoint dataset := by
  refine h.spliced.disjoint hd ?_
  rintro _ ⟨⟩
  refine ⟨?_, by simp⟩
  intro a ha
  have hne : kept ≠ [] := ne_nil_of_mem ha
  unfold Db.Disjoint at hd
  rw [h.split] at hd
  have hle : a.lastBlock ≤ (kept.getLast hne).lastBlock :=
    Segments.Apart.le_getLast (pairwise_append.mp hd).1 hne ha
  have hl := (h.link _ (getLast?_eq_some_getLast hne)).1
  omega

omit [TableFormat] in
theorem compacted_disjoint {merge : List Chunk} {newChunk : Chunk} {label : DatasetLabel}
    (h : Compacted dataset merge newChunk front back label db db') (hs : Spans merge newChunk)
    (hd : db.Disjoint dataset) : db'.Disjoint dataset := by
  refine h.spliced.disjoint hd ?_
  rintro _ ⟨⟩
  unfold Db.Disjoint at hd
  rw [h.split] at hd
  obtain ⟨hfm, -, hbc⟩ := pairwise_append.mp hd
  obtain ⟨-, -, hf⟩ := pairwise_append.mp hfm
  constructor
  · intro a ha
    rw [hs.firstBlock]
    exact hf a ha _ (head_mem hs.nonempty)
  · intro b hb
    rw [hs.lastBlock]
    exact hbc _ (mem_append_right _ (getLast_mem hs.nonempty)) b hb

theorem applyEdit_disjoint {flags : IndexFlags} {edit : Edit} {upd upd' : DatasetUpdate}
    (hd : upd.db.Disjoint dataset) (hap : edit.Apart dataset upd.db)
    (h : Db.applyEdit flags dataset upd edit = .ok upd') : upd'.db.Disjoint dataset := by
  cases edit with
  | insertChunk chunk =>
    obtain ⟨db₁, h₁, h⟩ := bind_eq_ok.mp h
    cases h
    obtain ⟨front, gone, back, hs, -⟩ := insertChunk_spliced h₁
    have hsr := (db₁.chunkSet dataset).sorted
    rw [hs.after] at hsr
    obtain ⟨hfc, -, hbc⟩ := pairwise_append.mp hsr
    obtain ⟨-, -, hfr⟩ := pairwise_append.mp hfc
    have hst : ∀ c, c ∈ front ∨ c ∈ back → c ∈ upd.db.chunkSet dataset := by
      intro c hc
      change c ∈ (upd.db.chunkSet dataset).toList
      rw [hs.before]
      rcases hc with hc | hc <;> simp [hc]
    refine hs.disjoint hd ?_
    rintro _ ⟨⟩
    constructor
    · intro a ha
      have hlt : a.lastBlock < chunk.lastBlock := hfr a ha chunk (by simp)
      have := a.first_le_last
      rcases hap a (hst a (Or.inl ha)) with hbl | hab
      · exact hbl
      · omega
    · intro b hb
      have hlt : chunk.lastBlock < b.lastBlock := hbc chunk (by simp) b hb
      have := chunk.first_le_last
      rcases hap b (hst b (Or.inr hb)) with hbl | hab
      · omega
      · exact hab
  | insertFork =>
    obtain ⟨db₁, h₁, h⟩ := bind_eq_ok.mp h
    cases h
    obtain ⟨_, _, hf⟩ := Db.insertFork_forked h₁
    exact forked_disjoint hf hd
  | deleteChunk =>
    obtain ⟨_, h₁, h⟩ := bind_eq_ok.mp h
    cases h
    unfold Db.Disjoint
    rw [(Db.removeChunk_removed h₁).chunkSet_self]
    exact Pairwise.filter _ hd
  | setFinalizedHead =>
    cases h
    exact hd

/-- Chunks stay apart. -/
theorem step_disjoint (hd : ∀ dataset, s.db.Disjoint dataset) (hok : s.Orderly op)
    (hs : s.step op = some s') : ∀ dataset, s'.db.Disjoint dataset := by
  intro dataset
  have hsm : ∀ db' : Db, db'.chunkSet dataset = s.db.chunkSet dataset → db'.Disjoint dataset := by
    intro db' h
    unfold Db.Disjoint
    rw [h]
    exact hd dataset
  by_cases hop : ∃ flags edits commit, op = .update dataset flags edits commit
  · obtain ⟨flags, edits, commit, rfl⟩ := hop
    cases hu : s.db.update dataset flags edits commit with
    | error =>
      cases Node.step_cases hs with
      | update =>
        refine hsm _ ?_
        rw [hu]
        rfl
    | ok r =>
      obtain ⟨label, upd, hl, hf, hdb⟩ := Db.update_eq_ok hu
      have hup : upd.db.Disjoint dataset := (hok.2 label hl).preserves
          (P := fun db => db.Disjoint dataset) hf (hd dataset)
          fun _ _ _ hd he h => applyEdit_disjoint hd he h
      cases Node.step_cases hs with
      | update =>
        rw [hu]
        change r.1.Disjoint dataset
        rw [hdb]
        exact hup
  · have hs' := Node.step_datasetStep
      (fun flags edits commit heq => hop ⟨flags, edits, commit, heq⟩) hs
    cases hs' with
    | same _ chunks => exact hsm _ chunks
    | created _ _ _ chunks => exact hsm _ chunks
    | dropped _ _ _ chunks =>
      unfold Db.Disjoint
      rw [chunks]
      exact Pairwise.nil
    | compacted _ _ _ _ _ spans effect =>
      exact compacted_disjoint effect spans (hd dataset)

/-! ### What a compaction holds -/

/-- Where a compaction of the next state comes from. -/
inductive Node.RunOrigin (s : Node) (run : Nat) (c' : CompactionRun) (s' : Node) : Prop where
  | same (find : s.compactions.find? run = some c')
  | started (snapshot : c'.snapshot = s.db) (phase : c'.phase = .planning) (db : s'.db = s.db)
  | built (c : CompactionRun) (merge : List Chunk) (newChunk : Chunk)
      (find : s.compactions.find? run = some c) (params : c'.params = c.params)
      (snapshot : c'.snapshot = c.snapshot) (phase : c'.phase = .built merge newChunk)
      (merged : c.merged s.db merge newChunk.tables = true) (db : s'.db = s.db)
  | refused (c : CompactionRun) (newChunk : Chunk) (find : s.compactions.find? run = some c)
      (result : c' = c.refuse newChunk)

theorem Node.step_run {c' : CompactionRun} (hst : s.step op = some s')
    (hf : s'.compactions.find? run = some c') : s.RunOrigin run c' s' := by
  have hb : ∀ table cells next, s.writeBatch table cells next = some s' →
      s.RunOrigin run c' s' := by
    intro table cells next h
    rcases writeBatch_eq_some h with ⟨-, rfl⟩ | ⟨-, rfl⟩ <;> exact .same hf
  have he : ∀ run₀, (s.compactions.erase run₀).find? run = some c' →
      s.compactions.find? run = some c' := fun _ h => (Keyed.find?_erase_eq_some.mp h).2
  cases step_cases hst with
  | flush batch => exact hb _ _ _ batch
  | finishTable batch => exact hb _ _ _ batch
  | compactionStart =>
    rcases Keyed.find?_put_eq_some.mp hf with ⟨rfl, rfl⟩ | ⟨-, hold⟩
    · exact .started rfl rfl rfl
    · exact .same hold
  | @compactionBuild run₀ tables c built find phase build =>
    rcases Keyed.find?_put_eq_some.mp hf with ⟨rfl, rfl⟩ | ⟨-, hold⟩
    · obtain ⟨merge, newChunk, hc, hm, -, hp, hs, hph⟩ := CompactionRun.build_eq_some build
      obtain ⟨-, first, _, _, -, -, rfl⟩ := compactionChunk_eq_some hc
      exact .built c merge _ find hp hs hph hm rfl
    · exact .same hold
  | compactionStop => exact .same (he _ hf)
  | compactionCommit => exact .same (he _ hf)
  | @compactionRefused run₀ commit c merge newChunk find phase =>
    rcases Keyed.find?_put_eq_some.mp hf with ⟨rfl, rfl⟩ | ⟨-, hold⟩
    · exact .refused c newChunk find rfl
    · exact .same hold
  | compactionAbandon => exact .same (he _ hf)
  | crash => cases hf
  | _ => exact .same hf

theorem CompactionRun.merged_congr {c' : CompactionRun} {merge : List Chunk} {tables : TableMap}
    (hp : c'.params = c.params) (hs : c'.snapshot = c.snapshot)
    (hr : ∀ id ∈ tables.values, db'.createTableReader id = db.createTableReader id) :
    c'.merged db' merge tables = c.merged db merge tables := by
  have ha : ∀ name table,
      ((tables.find? name).any fun id => decide (db'.createTableReader id = .ok table)) =
        (tables.find? name).any fun id => decide (db.createTableReader id = .ok table) := by
    intro name table
    cases hf : tables.find? name with
    | none => rfl
    | some id =>
      have hid : id ∈ tables.values := Keyed.mem_values.mpr ⟨name, hf⟩
      simp only [Option.any_some, hr id hid]
  simp only [CompactionRun.merged, hp, hs, ha]

/-- What holds of the compactions of a node while it runs. -/
structure Node.Snapshots (s : Node) : Prop where
  disjoint : ∀ dataset, s.db.Disjoint dataset
  apart : ∀ run c, s.compactions.find? run = some c → ∀ dataset, c.snapshot.Disjoint dataset
  kept : ∀ run c, s.compactions.find? run = some c → ∀ id, c.snapshot.Live id →
    (s.view id).Spent ∧ (s.db.Live id → s.db.cells id = c.snapshot.cells id)
  built : ∀ run c merge newChunk, s.compactions.find? run = some c →
    c.phase = .built merge newChunk → c.merged s.db merge newChunk.tables = true

/-- No step changes what a live table reads as. -/
theorem Node.Lifecycle.step_cells_of_live (h : s.Lifecycle tidy) (hid : s.db.Live id)
    (hs : s.step op = some s') : s'.db.cells id = s.db.cells id := by
  obtain ⟨-, -, hp, hi⟩ := h.of_live hid
  exact step_cells hi hp (Or.inl hid) hs

/-- Nor what a table held by a compaction reads as. -/
theorem Node.Lifecycle.step_cells_of_run (h : s.Lifecycle tidy)
    (hf : s.compactions.find? run = some c) (hid : id ∈ c.tables) (hs : s.step op = some s') :
    s'.db.cells id = s.db.cells id := by
  have ho : (s.view id).owns (.run run) := ⟨c, hf, hid⟩
  obtain ⟨-, hi, -, hp, -, hd⟩ := (h.settled id).of_owned ho
  exact step_cells hi hp (Or.inr (hd.mpr ⟨run, rfl⟩)) hs

theorem Node.Snapshots.step (h : s.Snapshots) (hl : s.Lifecycle False) (hok : s.Orderly op)
    (hst : s.step op = some s') : s'.Snapshots := by
  have hl' := hl.step hok.1 False.elim hst
  -- What an older compaction knows of a table of its snapshot.
  have hk : ∀ run c, s.compactions.find? run = some c → ∀ id, c.snapshot.Live id →
      (s'.view id).Spent ∧ (s'.db.Live id → s'.db.cells id = c.snapshot.cells id) := by
    intro run c hf id hlv
    obtain ⟨hs, hc⟩ := h.kept run c hf id hlv
    obtain ⟨hs', hr⟩ := step_spent hs hok.1 hst
    refine ⟨hs', fun hn => ?_⟩
    rw [hl.step_cells_of_live (hr hn) hst, hc (hr hn)]
  refine ⟨step_disjoint h.disjoint hok hst, ?_, ?_, ?_⟩
  · intro run c' hf
    cases Node.step_run hst hf with
    | same find => exact h.apart run c' find
    | started snapshot =>
      rw [snapshot]
      exact h.disjoint
    | built c _ _ find _ snapshot =>
      rw [snapshot]
      exact h.apart run c find
    | refused c _ find result =>
      rw [result]
      exact h.apart run c find
  · intro run c' hf
    cases Node.step_run hst hf with
    | same find => exact hk run c' find
    | started snapshot _ db =>
      intro id hlv
      rw [snapshot, ← db] at hlv ⊢
      exact ⟨hl'.spent hlv, fun _ => rfl⟩
    | built c _ _ find _ snapshot =>
      rw [snapshot]
      exact hk run c find
    | refused c _ find result =>
      rw [result]
      exact hk run c find
  · intro run c' merge newChunk hf hp
    cases Node.step_run hst hf with
    | same find =>
      rw [← h.built run c' merge newChunk find hp]
      refine CompactionRun.merged_congr rfl rfl fun id hid => ?_
      have hh : id ∈ c'.tables := by
        simpa [CompactionRun.tables, hp] using hid
      unfold Db.createTableReader
      rw [hl.step_cells_of_run find hh hst]
    | started _ phase =>
      rw [phase] at hp
      cases hp
    | built _ _ _ _ params snapshot phase merged db =>
      rw [phase] at hp
      cases hp
      rw [← merged]
      exact CompactionRun.merged_congr params snapshot fun id _ => by rw [db]
    | refused _ _ _ result =>
      rw [result] at hp
      cases hp

theorem orderly_lifecycle (h : Node.machine.Reachable Node.Orderly s) : s.Lifecycle False :=
  reachable_lifecycle (h.mono fun _ _ hok => hok.1)

theorem reachable_snapshots (h : Node.machine.Reachable Node.Orderly s) : s.Snapshots := by
  refine h.invariant ?_ ?_
  · rintro s rfl
    refine ⟨fun dataset => Pairwise.nil, ?_, ?_, ?_⟩
    · intro run c hc
      cases hc
    · intro run c hc
      cases hc
    · intro run c merge newChunk hc
      cases hc
  · intro s op s' hr hs hok hst
    exact hs.step (orderly_lifecycle hr) hok hst

/-! ### Whole runs -/

variable {inputs : List NodeOp}

/-- Along a run a spent table is not revived, and while it stays live its data stays as it is. -/
theorem Node.Lifecycle.run_spent (h : s.Lifecycle False) (hs : (s.view id).Spent)
    (hok : Node.machine.RunOk Node.Disciplined s inputs)
    (hr : Node.machine.run s inputs = some s') :
    (s'.view id).Spent ∧ (s'.db.Live id → s.db.Live id ∧ s'.db.cells id = s.db.cells id) := by
  induction inputs generalizing s with
  | nil =>
    cases hr
    exact ⟨hs, fun hlv => ⟨hlv, rfl⟩⟩
  | cons _ _ ih =>
    obtain ⟨s₁, hst, hr⟩ := Option.bind_eq_some_iff.mp hr
    obtain ⟨hs₁, hlv₁⟩ := step_spent hs hok.1 hst
    obtain ⟨hs', hlv'⟩ := ih (h.step hok.1 False.elim hst) hs₁ (hok.2 s₁ hst) hr
    refine ⟨hs', fun hn => ?_⟩
    obtain ⟨hm, hc⟩ := hlv' hn
    exact ⟨hlv₁ hm, hc.trans (h.step_cells_of_live (hlv₁ hm) hst)⟩

/-- Once a committed chunk has referred to a table, a chunk that refers to it at any later time
finds the same data, and some chunk referred to it at every time in between. -/
theorem tables_are_written_once {t : Node} {later : List NodeOp}
    (h : Node.machine.Reachable Node.Disciplined s) (hid : s.db.Live id)
    (hok : Node.machine.RunOk Node.Disciplined s inputs)
    (hrun : Node.machine.run s inputs = some s')
    (hok' : Node.machine.RunOk Node.Disciplined s' later)
    (hrun' : Node.machine.run s' later = some t) (hlive : t.db.Live id) :
    s'.db.Live id ∧ t.db.cells id = s.db.cells id := by
  have hl := reachable_lifecycle h
  obtain ⟨hs', hc⟩ := hl.run_spent (hl.spent hid) hok hrun
  obtain ⟨-, hc'⟩ := (reachable_lifecycle (h.run hok hrun)).run_spent hs' hok' hrun'
  obtain ⟨hlv, ht⟩ := hc' hlive
  exact ⟨hlv, ht.trans (hc hlv).2⟩

end Steps

/-! Two tables, one of a dataset that is dropped, as an instance of the theorem above. -/

section Sample

local instance sampleFormat : TableFormat := catalogFormat []

def sampleChunk (table : TableId) : Chunk :=
  .v1 0 0 "0x0" "0x" none none (Keyed.put ∅ ("blocks", table)) (by decide) (by decide)

/-- A table is built and committed in a dataset of its own. -/
def sampleBuild (dataset : DatasetId) (table : TableId) : List NodeOp :=
  [.createDataset dataset "evm" (.ok ()), .openTable table, .flush table [(.schema, [1])],
    .finishTable table [(.page 0 0, [2])], .closeTable table,
    .update dataset ⟨false, false⟩ [.insertFork (sampleChunk table)] (.ok ())]

def sampleInputs : List NodeOp := .serve :: (sampleBuild "side" 5 ++ sampleBuild "main" 7)

/-- The other dataset is dropped, its table is purged, and the node starts again. -/
def sampleDrop : List NodeOp :=
  [.dropDataset "side" (.ok ()), .finishDrop, .scanDeleted, .purgeScanned 5, .crash]

def sampleRestart : List NodeOp := [.scanOrphans, .reclaim (fun _ _ => true) [], .serve]

theorem table_outlives_drop : ∃ s t,
    Node.machine.run (Node.start Db.empty []) sampleInputs = some s ∧
    Node.machine.run s (sampleDrop ++ sampleRestart) = some t ∧ t.db.cells 7 = s.db.cells 7 ∧
    s.db.cells 7 ≠ ∅ := by
  have hok : Node.machine.RunOk Node.Disciplined (Node.start Db.empty []) sampleInputs := by
    decide +kernel
  refine ⟨_, _, rfl, rfl, ?_, by decide +kernel⟩
  exact (@tables_are_written_once _ _ _ 7 sampleDrop _ sampleRestart (.run (.init rfl) hok rfl)
    ⟨"main", sampleChunk 7, by decide, by decide⟩ (by decide +kernel) rfl (by decide +kernel) rfl
    ⟨"main", sampleChunk 7, by decide, by decide⟩).2

end Sample

end Storage
