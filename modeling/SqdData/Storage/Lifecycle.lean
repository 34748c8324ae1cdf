import SqdData.Storage.Splices
import SqdData.Storage.TableView

/-!
# The lifecycle of tables

Every step of the node keeps every table settled, given that ids are drawn once and that tables are
handed to transactions by those who built them. So no live table is marked or purged. In a tidy
history no data is left behind that nothing refers to either.
-/

namespace Storage

open List

section Lifecycle

variable [TableFormat]

def CompactionRun.tables (c : CompactionRun) : List TableId :=
  match c.phase with
  | .planning => []
  | .built _ newChunk => newChunk.tables.values
  | .refused newChunk => newChunk.tables.values

variable {c : CompactionRun} {db : Db}

theorem CompactionRun.build_eq_some {built : CompactionRun} {tables : TableMap}
    (h : c.build db tables = some built) :
    ∃ merge newChunk, compactionChunk c.params c.snapshot c.dataset tables =
        some (merge, newChunk) ∧ c.merged db merge tables = true ∧ built.dataset = c.dataset ∧
      built.params = c.params ∧ built.snapshot = c.snapshot ∧
      built.phase = .built merge newChunk := by
  unfold CompactionRun.build at h
  split at h
  · rename_i merge newChunk hc
    split at h
    · rename_i hm
      cases h
      exact ⟨merge, newChunk, hc, hm, rfl, rfl, rfl, rfl⟩
    · cases h
  · cases h

theorem CompactionRun.build_tables {built : CompactionRun} {tables : TableMap}
    (h : c.build db tables = some built) : built.tables = tables.values := by
  obtain ⟨_, _, hc, -, -, -, -, hp⟩ := CompactionRun.build_eq_some h
  obtain ⟨-, first, last, ordered, -, -, rfl⟩ := compactionChunk_eq_some hc
  simp only [CompactionRun.tables, hp]
  rfl

def Node.Owns (s : Node) (id : TableId) : Owner → Prop
  | .chunk dataset chunk => chunk ∈ s.db.chunkSet dataset ∧ id ∈ chunk.tables.values
  | .run run => ∃ c, s.compactions.find? run = some c ∧ id ∈ c.tables

omit [TableFormat] in
/-- A table is live when a committed chunk of some dataset refers to it. -/
def Db.Live (db : Db) (id : TableId) : Prop :=
  ∃ dataset, ∃ chunk ∈ db.chunkSet dataset, id ∈ chunk.tables.values

omit [TableFormat] in
theorem Db.live_iff {id : TableId} : db.Live id ↔ id ∈ db.liveTables := by
  constructor
  · rintro ⟨dataset, chunk, hc, hid⟩
    exact mem_flatMap.mpr ⟨(dataset, chunk), Keyed.mem_owned.mp hc, hid⟩
  · intro hl
    obtain ⟨⟨dataset, chunk⟩, he, hid⟩ := mem_flatMap.mp hl
    exact ⟨dataset, chunk, Keyed.mem_owned.mpr he, hid⟩

def Node.view (s : Node) (id : TableId) : TableView where
  allocated := id ∈ s.allocated
  builder := s.builders.find? id
  dirty := id ∈ s.db.dirtyTables
  deleted := id ∈ s.db.deletedTables
  purging := id ∈ s.purging
  empty := s.db.cells id = ∅
  owns := s.Owns id

section Splice

variable {s : Node} {db' : Db} {dataset : DatasetId} {front gone back : List Chunk}
  {new : Option Chunk} {id : TableId} {tidy : Prop}

variable (h : Spliced dataset front gone new back s.db db')

include h

/-- A table of the new chunk becomes live. -/
theorem Spliced.settled_new {c : Chunk} (hc : c ∈ new) (hid : id ∈ c.tables.values)
    (hf : (s.view id).Free) : (({ s with db := db' } : Node).view id).Settled tidy := by
  have hnot : ∀ o, ¬ s.Owns id o := hf.free
  refine .live dataset c hf.allocated hf.idle ?_ ?_ hf.purging ?_
  · intro hdr
    exact ((h.dirtyTables id).mp hdr).2 c hc hid
  · intro hdl
    rcases h.deletedTables id hdl with hde | ⟨g, hg, hgd⟩
    · exact hf.deleted hde
    · exact hnot (.chunk dataset g) ⟨h.stored hg, hgd⟩
  · intro o
    constructor
    · intro ho
      cases o with
      | run run => exact absurd ho (hnot (.run run))
      | chunk other d =>
        obtain ⟨hd, hdd⟩ := ho
        by_cases hot : other = dataset
        · subst hot
          rcases h.mem_iff.mp hd with ⟨hold, -⟩ | hn
          · exact absurd ⟨hold, hdd⟩ (hnot (.chunk other d))
          · rw [Option.mem_unique hn hc]
        · have hold : d ∈ s.db.chunkSet other := h.others other hot ▸ hd
          exact absurd ⟨hold, hdd⟩ (hnot (.chunk other d))
    · rintro rfl
      exact ⟨h.mem_iff.mpr (Or.inr hc), hid⟩

/-- A table of a chunk that was taken out is dead. -/
theorem Spliced.settled_gone (hs : (s.view id).Settled tidy) (hn : ∀ c ∈ new, id ∉ c.tables.values)
    {g : Chunk} (hg : g ∈ gone) (hid : id ∈ g.tables.values)
    (hm : tidy → s.db.cells id = ∅ ∨ id ∈ db'.deletedTables) :
    (({ s with db := db' } : Node).view id).Settled tidy := by
  have how : (s.view id).owns (.chunk dataset g) := ⟨h.stored hg, hid⟩
  obtain ⟨ha, hi, -, -, hif, hdr⟩ := hs.of_owned how
  refine .dead ha hi ?_ ?_ ?_
  rotate_left
  · intro ht
    refine (hm ht).imp (fun he => ?_) Or.inr
    change db'.cells id = ∅
    rw [h.cells_eq, he]
  · intro _ hd
    obtain ⟨_, hr⟩ := hdr.mp ((h.dirtyTables id).mp hd).1
    cases hr
  have hu : ∀ o, s.Owns id o → o = .chunk dataset g := fun o => (hif o).mp
  intro o ho
  cases o with
  | run run => cases hu (.run run) ho
  | chunk other d =>
    obtain ⟨hd, hdd⟩ := ho
    by_cases hot : other = dataset
    · subst hot
      rcases h.mem_iff.mp hd with ⟨hold, hk⟩ | hin
      · cases hu (.chunk other d) ⟨hold, hdd⟩
        exact hk hg
      · exact hn d hin hdd
    · have hold : d ∈ s.db.chunkSet other := h.others other hot ▸ hd
      cases hu (.chunk other d) ⟨hold, hdd⟩
      exact hot rfl

/-- Any other table is as before. -/
theorem Spliced.view_eq (hn : ∀ c ∈ new, id ∉ c.tables.values)
    (hgn : ∀ c ∈ gone, id ∉ c.tables.values) :
    ({ s with db := db' } : Node).view id = s.view id := by
  have hdr : id ∈ db'.dirtyTables ↔ id ∈ s.db.dirtyTables := by
    rw [h.dirtyTables]
    exact ⟨fun hd => hd.1, fun hd => ⟨hd, hn⟩⟩
  have hdl : id ∈ db'.deletedTables ↔ id ∈ s.db.deletedTables := by
    refine ⟨fun hd => ?_, h.marks id⟩
    rcases h.deletedTables id hd with hd | ⟨g, hg, hgd⟩
    · exact hd
    · exact absurd hgd (hgn g hg)
  have how : ∀ o, ({ s with db := db' } : Node).Owns id o ↔ s.Owns id o := by
    intro o
    cases o with
    | run => exact Iff.rfl
    | chunk other d =>
      by_cases ho : other = dataset
      · subst ho
        change d ∈ db'.chunkSet other ∧ _ ↔ d ∈ s.db.chunkSet other ∧ _
        rw [h.mem_iff]
        constructor
        · rintro ⟨⟨hd, -⟩ | hin, hdd⟩
          · exact ⟨hd, hdd⟩
          · exact absurd hdd (hn d hin)
        · rintro ⟨hd, hdd⟩
          exact ⟨Or.inl ⟨hd, fun hg => hgn d hg hdd⟩, hdd⟩
      · change d ∈ db'.chunkSet other ∧ _ ↔ d ∈ s.db.chunkSet other ∧ _
        rw [h.others other ho]
  refine TableView.ext rfl rfl (propext hdr) (propext hdl) rfl ?_ (funext fun o => propext (how o))
  change (db'.cells id = ∅) = (s.db.cells id = ∅)
  rw [h.cells_eq]

/-- A splice keeps every table settled if the tables of the new chunk were free, and tidily so if
those of the chunks taken out are marked or have no data. -/
theorem Spliced.settled (hs : ∀ id, (s.view id).Settled tidy)
    (hm : tidy → ∀ g ∈ gone, ∀ id ∈ g.tables.values,
      s.db.cells id = ∅ ∨ id ∈ db'.deletedTables)
    (hf : ∀ c ∈ new, ∀ id ∈ c.tables.values, (s.view id).Free) (id : TableId) :
    (({ s with db := db' } : Node).view id).Settled tidy := by
  by_cases hn : ∃ c ∈ new, id ∈ c.tables.values
  · obtain ⟨c, hc, hid⟩ := hn
    exact h.settled_new hc hid (hf c hc id hid)
  · have hn' : ∀ c ∈ new, id ∉ c.tables.values := fun c hc hid => hn ⟨c, hc, hid⟩
    by_cases hgn : ∃ g ∈ gone, id ∈ g.tables.values
    · obtain ⟨g, hg, hid⟩ := hgn
      exact h.settled_gone (hs id) hn' hg hid fun ht => hm ht g hg id hid
    · rw [h.view_eq hn' fun g hg hid => hgn ⟨g, hg, hid⟩]
      exact hs id

omit h

end Splice

/-! ### Runs -/

/-- A table that a client has built and may hand to a transaction. -/
structure Node.Usable (s : Node) (id : TableId) : Prop where
  builder : s.builders.find? id = some .finished
  dirty : id ∈ s.db.dirtyTables
  deleted : id ∉ s.db.deletedTables
  free : ∀ o, ¬ s.Owns id o

/-- Usability in terms of the lists a node keeps. -/
theorem Node.usable_iff {s : Node} {id : TableId} :
    s.Usable id ↔ s.builders.find? id = some .finished ∧ id ∈ s.db.dirtyTables ∧
      id ∉ s.db.deletedTables ∧ id ∉ s.db.liveTables ∧
      ∀ e ∈ s.compactions.toList, id ∉ e.2.tables := by
  constructor
  · intro h
    refine ⟨h.builder, h.dirty, h.deleted, ?_, ?_⟩
    · intro hl
      obtain ⟨dataset, chunk, hc, hid⟩ := Db.live_iff.mpr hl
      exact h.free (.chunk dataset chunk) ⟨hc, hid⟩
    · intro e he hid
      exact h.free (.run e.1) ⟨e.2, Keyed.find?_eq_some.mpr he, hid⟩
  · rintro ⟨builder, dirty, deleted, live, runs⟩
    refine ⟨builder, dirty, deleted, ?_⟩
    intro o ho
    cases o with
    | chunk dataset chunk => exact live (Db.live_iff.mp ⟨dataset, chunk, ho⟩)
    | run run =>
      obtain ⟨c, hc, hid⟩ := ho
      exact runs (run, c) (Keyed.find?_eq_some.mp hc) hid

instance (s : Node) (id : TableId) : Decidable (s.Usable id) :=
  decidable_of_iff _ Node.usable_iff.symm

theorem Node.Usable.free_view {s : Node} {id : TableId} {tidy : Prop} (h : s.Usable id)
    (hs : (s.view id).Settled tidy) : (s.view id).Free := by
  have hi : (s.view id).Idle := Or.inr h.builder
  cases hs with
  | fresh _ _ dirty => exact absurd h.dirty dirty
  | opened _ _ dirty => exact absurd h.dirty dirty
  | building allocated _ dirty deleted purging free =>
    exact ⟨allocated, hi, dirty, deleted, purging, free⟩
  | claimed run _ _ _ _ _ owns =>
    exact absurd ((owns (.run run)).mpr rfl) (h.free (.run run))
  | live _ _ _ _ dirty => exact absurd h.dirty dirty
  | dead _ _ _ _ done => exact absurd (done h.builder h.dirty) h.deleted

/-- What a client of a dataset update has to see to, in the state staged so far: it inserts chunks
over tables of its own, and deletes chunks that it found. -/
def Node.EditOk (s : Node) (dataset : DatasetId) (db : Db) : Edit → Prop
  | .insertChunk chunk | .insertFork chunk =>
    ∀ id ∈ chunk.tables.values, ({ s with db } : Node).Usable id
  | .deleteChunk chunk => chunk ∈ db.chunkSet dataset
  | .setFinalizedHead _ => True

instance (s : Node) (dataset : DatasetId) (db : Db) (edit : Edit) :
    Decidable (s.EditOk dataset db edit) :=
  match edit with
  | .insertChunk chunk | .insertFork chunk =>
    inferInstanceAs (Decidable (∀ id ∈ chunk.tables.values, ({ s with db } : Node).Usable id))
  | .deleteChunk chunk => inferInstanceAs (Decidable (chunk ∈ db.chunkSet dataset))
  | .setFinalizedHead _ => isTrue trivial

/-- Every edit of an update satisfies `Q` between the states staged before and after it. -/
def Db.Staged (Q : Db → Edit → Db → Prop) (flags : IndexFlags) (dataset : DatasetId) :
    DatasetUpdate → List Edit → Prop
  | _, [] => True
  | upd, edit :: edits => ∀ upd', applyEdit flags dataset upd edit = .ok upd' →
      Q upd.db edit upd'.db ∧ Staged Q flags dataset upd' edits

instance decidableStaged (Q : Db → Edit → Db → Prop) [∀ db edit db', Decidable (Q db edit db')]
    (flags : IndexFlags) (dataset : DatasetId) :
    (upd : DatasetUpdate) → (edits : List Edit) → Decidable (Db.Staged Q flags dataset upd edits)
  | _, [] => isTrue trivial
  | upd, edit :: edits =>
    match h : Db.applyEdit flags dataset upd edit with
    | .error _ => isTrue fun upd' h' => by rw [h] at h'; cases h'
    | .ok upd' =>
      have := decidableStaged Q flags dataset upd' edits
      decidable_of_iff (Q upd.db edit upd'.db ∧ Db.Staged Q flags dataset upd' edits)
        ⟨fun hok upd₁ h₁ => by rw [h] at h₁; cases h₁; exact hok, fun hok => hok upd' h⟩

variable {edits : List Edit} {upd upd' : DatasetUpdate}

theorem Db.Staged.and {Q : Db → Edit → Db → Prop} {R : Db → Edit → Db → Prop} {p : Prop}
    {flags : IndexFlags} {dataset : DatasetId} (h : Staged Q flags dataset upd edits)
    (h' : p → Staged R flags dataset upd edits) :
    Staged (fun db edit db' => Q db edit db' ∧ (p → R db edit db')) flags dataset upd edits := by
  induction edits generalizing upd with
  | nil => trivial
  | cons edit _ ih =>
    intro upd₁ h₁
    obtain ⟨hQ, hr⟩ := h upd₁ h₁
    exact ⟨⟨hQ, fun hp => (h' hp upd₁ h₁).1⟩, ih hr fun hp => (h' hp upd₁ h₁).2⟩

/-- What each edit preserves, given its condition, the staged update preserves. -/
theorem Db.Staged.preserves {Q : Db → Edit → Db → Prop} {P : Db → Prop} {flags : IndexFlags}
    {dataset : DatasetId} (h : Staged Q flags dataset upd edits)
    (hf : edits.foldlM (applyEdit flags dataset) upd = .ok upd') (hP : P upd.db)
    (hs : ∀ upd edit upd', P upd.db → Q upd.db edit upd'.db →
      applyEdit flags dataset upd edit = .ok upd' → P upd'.db) :
    P upd'.db := by
  induction edits generalizing upd with
  | nil =>
    cases hf
    exact hP
  | cons edit _ ih =>
    rw [foldlM_cons] at hf
    obtain ⟨upd₁, h₁, h₂⟩ := bind_eq_ok.mp hf
    obtain ⟨hQ, hr⟩ := h upd₁ h₁
    exact ih hr h₂ (hs upd edit upd₁ hP hQ h₁)

/-- The discipline of the clients of a node: table ids are drawn once, and tables are handed over
by those who built them. -/
def Node.Disciplined (s : Node) : NodeOp → Prop
  | .openTable table => table ∉ s.allocated
  | .update dataset flags edits _ =>
    ∀ label ∈ s.db.getLabel dataset,
      Db.Staged (fun db edit _ => s.EditOk dataset db edit) flags dataset ⟨s.db, label⟩ edits
  | .deleteTables tables _ => ∀ id ∈ tables, s.Usable id
  | .compactionBuild _ tables => ∀ id ∈ tables.values, s.Usable id
  | _ => True

instance (s : Node) (op : NodeOp) : Decidable (s.Disciplined op) := by
  cases op <;> unfold Node.Disciplined <;> infer_instance

/-- An insertion that does not replace a chunk whose tables have data. `insert_chunk` overwrites a
stored chunk with the same last block without a look at its tables; its own check lets that happen
for chunks that end at the greatest block number. -/
def Edit.Tidy (dataset : DatasetId) (db : Db) : Edit → Prop
  | .insertChunk chunk => ∀ c ∈ db.chunkSet dataset, c.lastBlock = chunk.lastBlock →
      ∀ id ∈ c.tables.values, db.cells id = ∅
  | _ => True

/-- An input that leaves no data behind without a mark: an update that commits replaces no chunk
with data, and a reclamation brings back data of tables that are marked deleted only. -/
def Node.Tidy (s : Node) : NodeOp → Prop
  | .update dataset flags edits commit =>
    (s.db.update dataset flags edits commit).isOk → ∀ label ∈ s.db.getLabel dataset,
      Db.Staged (fun db edit _ => edit.Tidy dataset db) flags dataset ⟨s.db, label⟩ edits
  | .reclaim _ revived => ∀ e ∈ revived, s.db.belowWatermark e.1 → e.1 ∈ s.db.deletedTables
  | _ => True

instance (dataset : DatasetId) (db : Db) (edit : Edit) : Decidable (edit.Tidy dataset db) := by
  cases edit <;> unfold Edit.Tidy <;> infer_instance

instance (s : Node) (op : NodeOp) : Decidable (s.Tidy op) := by
  cases op <;> unfold Node.Tidy <;> infer_instance

/-- The invariant of the node: every table is settled, and before startup is over nothing builds
tables. -/
structure Node.Lifecycle (tidy : Prop) (s : Node) : Prop where
  settled : ∀ id, (s.view id).Settled tidy
  quiet : s.serving = false → s.builders = ∅ ∧ s.compactions = ∅

section Update

variable {s : Node} {dataset : DatasetId} {flags : IndexFlags} {tidy : Prop}

/-- What an edit does to the chunks: nothing, or a splice over usable tables. The chunks it takes
out are marked, unless an insertion replaces them. -/
theorem applyEdit_spliced {edit : Edit} (hok : s.EditOk dataset upd.db edit)
    (h : Db.applyEdit flags dataset upd edit = .ok upd') :
    upd'.db = upd.db ∨ ∃ front gone new back, Spliced dataset front gone new back upd.db upd'.db ∧
      (∀ c ∈ new, ∀ id ∈ c.tables.values, ({ s with db := upd.db } : Node).Usable id) ∧
      (Marked gone upd'.db ∨
        ∃ chunk, edit = .insertChunk chunk ∧ ∀ c ∈ gone, c.lastBlock = chunk.lastBlock) := by
  cases edit with
  | insertChunk chunk =>
    obtain ⟨db₁, h₁, h⟩ := bind_eq_ok.mp h
    cases h
    obtain ⟨front, gone, back, hs, hg, -⟩ := insertChunk_spliced h₁
    refine Or.inr ⟨front, gone, some chunk, back, hs, ?_,
      Or.inr ⟨chunk, rfl, fun c hc => ((hg c).mp hc).2⟩⟩
    rintro c ⟨⟩
    exact hok
  | insertFork chunk =>
    obtain ⟨db₁, h₁, h⟩ := bind_eq_ok.mp h
    cases h
    obtain ⟨kept, dropped, hf⟩ := Db.insertFork_forked h₁
    refine Or.inr ⟨kept, dropped, some chunk, [], hf.spliced, ?_,
      Or.inl (marked_of_iff hf.deletedTables)⟩
    rintro c ⟨⟩
    exact hok
  | deleteChunk chunk =>
    obtain ⟨_, h₁, h⟩ := bind_eq_ok.mp h
    cases h
    obtain ⟨front, back, hsp⟩ := append_of_mem hok
    have hsp' : (upd.db.chunkSet dataset).toList = front ++ [chunk] ++ back := by
      simpa using hsp
    have hr := Db.removeChunk_removed h₁
    refine Or.inr ⟨front, [chunk], none, back, hr.spliced hsp', ?_,
      Or.inl (marked_of_iff hr.deletedTables)⟩
    rintro _ ⟨⟩
  | setFinalizedHead =>
    cases h
    exact Or.inl rfl

theorem applyEdit_settled {edit : Edit}
    (hs : ∀ id, (({ s with db := upd.db } : Node).view id).Settled tidy)
    (hok : s.EditOk dataset upd.db edit) (ht : tidy → edit.Tidy dataset upd.db)
    (h : Db.applyEdit flags dataset upd edit = .ok upd') :
    ∀ id, (({ s with db := upd'.db } : Node).view id).Settled tidy := by
  rcases applyEdit_spliced hok h with heq | ⟨front, gone, new, back, hsp, hu, hm⟩
  · rw [heq]
    exact hs
  · have hsp' : Spliced dataset front gone new back ({ s with db := upd.db } : Node).db upd'.db :=
      hsp
    refine hsp'.settled hs ?_ fun c hc id hid => (hu c hc id hid).free_view (hs id)
    intro htidy g hg id hid
    rcases hm with hm | ⟨chunk, rfl, hl⟩
    · exact Or.inr (hm g hg id hid)
    · exact Or.inl (ht htidy g (hsp.stored hg) (hl g hg) id hid)

end Update

section Steps

variable {s s' : Node} {commit : Except Error Unit} {tidy : Prop}

variable (hs : ∀ id, (s.view id).Settled tidy)

include hs

/-- Marking free tables deleted makes them dead. -/
theorem deleteTables_settled {tables : List TableId} (hfr : ∀ id ∈ tables, (s.view id).Free) :
    ∀ id, (({ s with
      db := Node.orSame s.db (s.db.deleteTables tables commit) } : Node).view id).Settled tidy := by
  rcases @Node.deleteTables_cases s.db commit tables with hdl | hdl <;> rw [hdl]
  · exact hs
  · intro id
    have hm : id ∈ tables.foldl Keyed.put s.db.deletedTables ↔
        id ∈ s.db.deletedTables ∨ id ∈ tables := Keyed.mem_foldl_put_id
    by_cases hid : id ∈ tables
    · have hf := hfr id hid
      have hd := hm.mpr (Or.inr hid)
      exact .dead hf.allocated hf.idle hf.free (fun _ => Or.inr (Or.inr hd)) fun _ _ => hd
    · have hv : ({ s with db := { s.db with
          deletedTables := tables.foldl Keyed.put s.db.deletedTables } } : Node).view id =
          s.view id := by
        refine TableView.ext rfl rfl rfl (propext ?_) rfl rfl rfl
        exact hm.trans ⟨fun h => h.resolve_right hid, Or.inl⟩
      rw [hv]
      exact hs id

variable {run : Nat}

variable {id : TableId} {db' : Db} {dataset : DatasetId}

/-- Forgetting a compaction sets the tables it held free. -/
theorem erase_free (hf : s.compactions.find? run = some c) (hid : id ∈ c.tables) :
    (({ s with compactions := s.compactions.erase run } : Node).view id).Free := by
  have how : (s.view id).owns (.run run) := ⟨c, hf, hid⟩
  obtain ⟨ha, hi, hd, hp, hif, hdr⟩ := (hs id).of_owned how
  refine ⟨ha, hi, hdr.mpr ⟨run, rfl⟩, hd, hp, ?_⟩
  intro o ho
  cases o with
  | chunk dataset chunk => cases (hif (.chunk dataset chunk)).mp ho
  | run run' =>
    obtain ⟨c', hc', hid'⟩ := ho
    obtain ⟨hr, hc'⟩ := Keyed.find?_erase_eq_some.mp hc'
    cases (hif (.run run')).mp ⟨c', hc', hid'⟩
    exact hr rfl

omit hs in
/-- A change of the compactions that does not touch who holds the table. -/
theorem view_compactions {compactions : Keyed.Map Nat CompactionRun}
    (h : ∀ run, (∃ c, compactions.find? run = some c ∧ id ∈ c.tables) ↔
      ∃ c, s.compactions.find? run = some c ∧ id ∈ c.tables) :
    ({ s with compactions } : Node).view id = s.view id := by
  refine TableView.ext rfl rfl rfl rfl rfl rfl (funext fun o => propext ?_)
  cases o with
  | chunk => exact Iff.rfl
  | run run => exact h run

omit hs in
theorem view_erase (hid : ∀ c, s.compactions.find? run = some c → id ∉ c.tables) :
    ({ s with compactions := s.compactions.erase run } : Node).view id = s.view id := by
  refine view_compactions fun run' => ?_
  simp only [Keyed.find?_erase_eq_some]
  constructor
  · rintro ⟨c, ⟨-, hc⟩, hi⟩
    exact ⟨c, hc, hi⟩
  · rintro ⟨c, hc, hi⟩
    exact ⟨c, ⟨fun hr => hid c (hr ▸ hc) hi, hc⟩, hi⟩

theorem erase_settled (run : Nat) (id : TableId) :
    (({ s with compactions := s.compactions.erase run } : Node).view id).Settled tidy := by
  by_cases hid : ∃ c, s.compactions.find? run = some c ∧ id ∈ c.tables
  · obtain ⟨c, hf, hi⟩ := hid
    exact (erase_free hs hf hi).settled
  · rw [view_erase fun c hc hi => hid ⟨c, hc, hi⟩]
    exact hs id

omit hs in
theorem view_put
    (hid : id ∈ c.tables ↔ ∃ c₀, s.compactions.find? run = some c₀ ∧ id ∈ c₀.tables) :
    ({ s with compactions := s.compactions.put (run, c) } : Node).view id = s.view id := by
  refine view_compactions fun run' => ?_
  by_cases hr : run' = run
  · subst hr
    rw [Keyed.find?_put_self, ← hid]
    constructor
    · rintro ⟨_, hc', hi⟩
      cases hc'
      exact hi
    · intro hi
      exact ⟨c, rfl, hi⟩
  · rw [Keyed.find?_put_of_ne hr]

/-- A compaction that has built its tables holds them. -/
theorem put_settled {c₀ : CompactionRun} (hfn : s.compactions.find? run = some c₀)
    (he : c₀.tables = []) (hfr : ∀ id ∈ c.tables, (s.view id).Free) (id : TableId) :
    (({ s with compactions := s.compactions.put (run, c) } : Node).view id).Settled tidy := by
  by_cases hid : id ∈ c.tables
  · have hf := hfr id hid
    refine .claimed run hf.allocated hf.idle hf.dirty hf.deleted hf.purging ?_
    intro o
    constructor
    · intro ho
      cases o with
      | chunk dataset chunk => exact absurd ho (hf.free (.chunk dataset chunk))
      | run run' =>
        obtain ⟨c', hc', hi⟩ := ho
        rcases Keyed.find?_put_eq_some.mp hc' with ⟨rfl, -⟩ | ⟨-, hc'⟩
        · rfl
        · exact absurd ⟨c', hc', hi⟩ (hf.free (.run run'))
    · rintro rfl
      exact ⟨c, Keyed.find?_put_self _ _ _, hid⟩
  · rw [view_put]
    · exact hs id
    · refine ⟨fun h => absurd h hid, ?_⟩
      rintro ⟨_, hc₁, hi⟩
      rw [hfn] at hc₁
      cases hc₁
      rw [he] at hi
      cases hi

variable {table : TableId}

/-- A step that touches one table only. -/
theorem settled_of_others (ht : (s'.view table).Settled tidy)
    (ho : ∀ id ≠ table, s'.view id = s.view id)
    (id : TableId) : (s'.view id).Settled tidy := by
  by_cases hid : id = table
  · rw [hid]
    exact ht
  · rw [ho id hid]
    exact hs id

omit hs in
theorem view_builder {builders : Keyed.Map TableId BuilderPhase}
    (hb : builders.find? id = s.builders.find? id) (hc : db'.chunks = s.db.chunks)
    (hd : db'.deletedTables = s.db.deletedTables)
    (hdr : id ∈ db'.dirtyTables ↔ id ∈ s.db.dirtyTables) (hcl : db'.cells id = s.db.cells id) :
    ({ s with db := db', builders } : Node).view id = s.view id := by
  refine TableView.ext rfl hb (propext hdr) ?_ rfl ?_ (funext fun o => propext ?_)
  · change (id ∈ db'.deletedTables) = (id ∈ s.db.deletedTables)
    rw [hd]
  · change (db'.cells id = ∅) = (s.db.cells id = ∅)
    rw [hcl]
  · cases o with
    | run => exact Iff.rfl
    | chunk dataset chunk =>
      change chunk ∈ db'.chunkSet dataset ∧ _ ↔ chunk ∈ s.db.chunkSet dataset ∧ _
      unfold Db.chunkSet
      rw [hc]

variable {cells : List Cell}

omit [TableFormat] hs in
theorem cells_putCells_of_ne (hne : id ≠ table) :
    (db.putCells table cells).cells id = db.cells id := by
  unfold Db.putCells Db.cells
  dsimp only
  generalize db.tables = tables
  induction cells generalizing tables with
  | nil => rfl
  | cons _ _ ih => rw [foldl_cons, ih, Keyed.owned_put_of_ne hne]

omit [TableFormat] hs in
theorem mem_markTableDirty :
    id ∈ (db.markTableDirty table).dirtyTables ↔ id = table ∨ id ∈ db.dirtyTables := by
  change id ∈ db.dirtyTables.put table ↔ _
  rw [Keyed.mem_put]
  constructor
  · rintro (h | ⟨h, -⟩)
    · exact Or.inl h
    · exact Or.inr h
  · intro h
    by_cases heq : id = table
    · exact Or.inl heq
    · exact Or.inr ⟨h.resolve_left heq, heq⟩

theorem writeBatch_settled {next : BuilderPhase} (hn : next = .flushed ∨ next = .stats)
    (h : s.writeBatch table cells next = some s') : ∀ id, (s'.view id).Settled tidy := by
  have hbl : ∀ v : TableView, v.builder = some next → v.allocated → v.dirty → ¬ v.deleted →
      ¬ v.purging → (∀ o, ¬ v.owns o) → v.Settled tidy := by
    intro v hb ha hd hdl hp ho
    refine .building ha ?_ hd hdl hp ho
    rcases hn with rfl | rfl
    · exact Or.inl hb
    · exact Or.inr (Or.inl hb)
  rcases Node.writeBatch_eq_some h with ⟨hf, rfl⟩ | ⟨hf, rfl⟩
  · obtain ⟨ha, hdl, hp, ho, -⟩ := (hs table).writing hf (by simp)
    refine settled_of_others hs (hbl _ (Keyed.find?_put_self _ _ _) ha
      (mem_markTableDirty.mpr (Or.inl rfl)) hdl hp ho) fun id hid => ?_
    refine view_builder (Keyed.find?_put_of_ne hid) rfl rfl ?_ (cells_putCells_of_ne hid)
    exact mem_markTableDirty.trans ⟨fun h => h.resolve_left hid, Or.inr⟩
  · obtain ⟨ha, hdl, hp, ho, hd⟩ := (hs table).writing hf (by simp)
    refine settled_of_others hs (hbl _ (Keyed.find?_put_self _ _ _) ha (hd (by simp)) hdl hp ho)
      fun id hid => ?_
    exact view_builder (Keyed.find?_put_of_ne hid) rfl rfl Iff.rfl (cells_putCells_of_ne hid)

/-- Labels and hash indexes do not matter to tables. -/
structure SameTables (db db' : Db) : Prop where
  chunks : db'.chunks = db.chunks
  tables : db'.tables = db.tables
  dirtyTables : db'.dirtyTables = db.dirtyTables
  deletedTables : db'.deletedTables = db.deletedTables

theorem SameTables.settled (h : SameTables s.db db') :
    ∀ id, (({ s with db := db' } : Node).view id).Settled tidy := by
  intro id
  have hv : ({ s with db := db' } : Node).view id = s.view id := by
    obtain ⟨_, _, _, _, _, _, _⟩ := db'
    obtain ⟨rfl, rfl, rfl, rfl⟩ := h
    rfl
  rw [hv]
  exact hs id

omit [TableFormat] hs in
theorem SameTables.trans {db₁ db₂ db₃ : Db} (h : SameTables db₁ db₂) (h' : SameTables db₂ db₃) :
    SameTables db₁ db₃ :=
  ⟨h'.chunks.trans h.chunks, h'.tables.trans h.tables, h'.dirtyTables.trans h.dirtyTables,
    h'.deletedTables.trans h.deletedTables⟩

omit [TableFormat] hs in
theorem purgeStaleHashIndexes_sameTables (db : Db) (dataset : DatasetId) :
    SameTables db (db.purgeStaleHashIndexes dataset) := by
  unfold Db.purgeStaleHashIndexes
  split <;> exact ⟨rfl, rfl, rfl, rfl⟩

omit [TableFormat] hs in
theorem createDataset_sameTables {kind : DatasetKind} :
    SameTables db (Node.orSame (db.purgeStaleHashIndexes dataset)
      ((db.purgeStaleHashIndexes dataset).createDatasetTx dataset kind commit)) := by
  refine (purgeStaleHashIndexes_sameTables db dataset).trans ?_
  rcases @Node.createDatasetTx_cases dataset commit kind (db.purgeStaleHashIndexes dataset) with
    h | ⟨-, h⟩ <;> rw [h] <;> exact ⟨rfl, rfl, rfl, rfl⟩

omit [TableFormat] hs in
theorem createDatasetIfNotExists_sameTables {kind : DatasetKind} :
    SameTables db (db.createDatasetIfNotExists dataset kind commit).1 := by
  rw [Node.createDatasetIfNotExists_db]
  refine (purgeStaleHashIndexes_sameTables db dataset).trans ?_
  rcases @Node.createDatasetIfNotExistsTx_cases dataset commit kind
    (db.purgeStaleHashIndexes dataset) with h | ⟨-, h⟩ <;> rw [h] <;> exact ⟨rfl, rfl, rfl, rfl⟩

theorem update_settled {flags : IndexFlags}
    (hok : s.Disciplined (.update dataset flags edits commit))
    (ht : tidy → s.Tidy (.update dataset flags edits commit)) :
    ∀ id, (({ s with
      db := Node.orSame s.db ((s.db.update dataset flags edits commit).map Prod.fst) } :
        Node).view id).Settled tidy := by
  cases hu : s.db.update dataset flags edits commit with
  | error => exact hs
  | ok r =>
    obtain ⟨label, upd, hl, hf, hdb⟩ := Db.update_eq_ok hu
    have hst : ∀ id, (({ s with db := upd.db } : Node).view id).Settled tidy :=
      ((hok label hl).and fun htidy => ht htidy (by rw [hu]; rfl) label hl).preserves
        (P := fun db => ∀ id, (({ s with db := db } : Node).view id).Settled tidy) hf hs
        fun _ _ _ hs he h => applyEdit_settled hs he.1 he.2 h
    have hsm : SameTables upd.db r.1 := by
      rw [hdb, Db.finish_eq]
      exact ⟨rfl, rfl, rfl, rfl⟩
    have hdb' : SameTables ({ s with db := upd.db } : Node).db r.1 := hsm
    exact hdb'.settled hst

omit [TableFormat] hs in
/-- A reclamation leaves an empty table empty unless it brings data of that table back. -/
theorem cells_reclaimDiskSpace {unlinked : TableId → TableKey → Bool}
    {revived : List (TableId × Cell)} (he : db.cells id = ∅)
    (hr : ∀ e ∈ revived, db.belowWatermark e.1 → e.1 ≠ id) :
    (db.reclaimDiskSpace unlinked revived).cells id = ∅ := by
  unfold Db.reclaimDiskSpace Db.cells
  dsimp only
  rw [Keyed.owned_foldl_put, Keyed.owned_filter]
  · unfold Db.cells at he
    rw [he]
    rfl
  · intro e hm
    obtain ⟨hm, hb⟩ := mem_filter.mp hm
    exact hr e hm hb

theorem reclaim_settled {unlinked : TableId → TableKey → Bool} {revived : List (TableId × Cell)}
    (hq : s.builders = ∅) (hd : ∀ e ∈ revived, e.1 ∈ s.allocated)
    (ht : tidy → s.Tidy (.reclaim unlinked revived)) :
    ∀ id, (({ s with db := s.db.reclaimDiskSpace unlinked revived } :
      Node).view id).Settled tidy := by
  intro id
  have hb : (s.view id).builder = none := by
    change s.builders.find? id = none
    rw [hq]
    rfl
  refine (hs id).reclaim hb ?_ ?_
  · intro _ he
    by_cases hr : ∃ e ∈ revived, s.db.belowWatermark e.1 ∧ e.1 = id
    · obtain ⟨e, hm, hw, rfl⟩ := hr
      refine Or.inr ?_
      by_cases htidy : tidy
      · exact Or.inr (Or.inr (ht htidy e hm hw))
      · exact Or.inl htidy
    · exact Or.inl (cells_reclaimDiskSpace he fun e hm hw heq => hr ⟨e, hm, hw, heq⟩)
  · intro hn he
    exact cells_reclaimDiskSpace he fun e hm _ heq => hn (heq ▸ hd e hm)

omit [TableFormat] hs in
theorem cells_purgeTable_of_ne (hne : id ≠ table) :
    (db.purgeTable table).cells id = db.cells id := by
  apply Keyed.ext
  intro cell
  simp [Db.purgeTable, Db.cells, hne]

theorem purgeTable_settled (hq : table ∈ s.purging) :
    ∀ id, (({ s with db := s.db.purgeTable table } : Node).view id).Settled tidy := by
  refine settled_of_others hs ?_ fun id (hid : id ≠ table) => ?_
  · have hv : ({ s with db := s.db.purgeTable table } : Node).view table =
        { s.view table with dirty := False, deleted := False, empty := True } := by
      refine TableView.ext rfl rfl ?_ ?_ rfl ?_ rfl
      · exact propext ⟨fun h => (Keyed.mem_erase.mp h).2 rfl, False.elim⟩
      · exact propext ⟨fun h => (Keyed.mem_erase.mp h).2 rfl, False.elim⟩
      · refine propext ⟨fun _ => trivial, fun _ => ?_⟩
        apply Keyed.ext
        intro cell
        simp [Db.purgeTable, Db.cells]
    rw [hv]
    exact (hs table).purge hq
  · refine TableView.ext rfl rfl ?_ ?_ rfl ?_ rfl
    · exact propext (Keyed.mem_erase.trans ⟨fun h => h.1, fun h => ⟨h, hid⟩⟩)
    · exact propext (Keyed.mem_erase.trans ⟨fun h => h.1, fun h => ⟨h, hid⟩⟩)
    · change ((s.db.purgeTable table).cells id = ∅) = _
      rw [cells_purgeTable_of_ne hid]
      rfl

theorem openTable_settled (hn : table ∉ s.allocated) :
    ∀ id, (({ s with
      builders := s.builders.put (table, .opened)
      allocated := table :: s.allocated } : Node).view id).Settled tidy := by
  obtain ⟨-, hdr, hd, hp, he, hf⟩ := (hs table).unallocated hn
  refine settled_of_others hs
    (.opened mem_cons_self (Keyed.find?_put_self _ _ _) hdr hd hp he hf) fun id hid => ?_
  refine TableView.ext ?_ (Keyed.find?_put_of_ne hid) rfl rfl rfl rfl rfl
  exact propext ⟨fun h => (mem_cons.mp h).resolve_left hid, mem_cons_of_mem _⟩

theorem closeTable_settled (hf : s.builders.find? table = some .stats) :
    ∀ id, (({ s with
      builders := s.builders.put (table, .finished) } : Node).view id).Settled tidy := by
  obtain ⟨ha, hdl, hp, ho, hd⟩ := (hs table).writing hf (by simp)
  exact settled_of_others hs
    (.building ha (Or.inr (Or.inr (Keyed.find?_put_self _ _ _))) (hd (by simp)) hdl hp ho)
    fun id hid => view_builder (Keyed.find?_put_of_ne hid) rfl rfl Iff.rfl rfl

theorem writeStatistic_settled (hf : s.builders.find? table = some .stats) :
    ∀ id, (({ s with db := s.db.putCells table cells } : Node).view id).Settled tidy := by
  obtain ⟨ha, hdl, hp, ho, hd⟩ := (hs table).writing hf (by simp)
  exact settled_of_others hs (.building ha (Or.inr (Or.inl hf)) (hd (by simp)) hdl hp ho)
    fun id hid => view_builder rfl rfl rfl Iff.rfl (cells_putCells_of_ne hid)

theorem dropBuilder_settled :
    ∀ id, (({ s with builders := s.builders.erase table } : Node).view id).Settled tidy := by
  refine settled_of_others hs ?_ fun id (hid : id ≠ table) =>
    view_builder (Keyed.find?_erase_of_ne hid) rfl rfl Iff.rfl rfl
  have hv : ({ s with builders := s.builders.erase table } : Node).view table =
      { s.view table with builder := none } :=
    TableView.ext rfl (Keyed.find?_erase_self _ _) rfl rfl rfl rfl rfl
  rw [hv]
  exact (hs table).dropBuilder

theorem queue_settled {purging : List TableId}
    (hp : ∀ id ∈ purging, id ∈ s.purging ∨ id ∈ s.db.deletedTables ∨
      (id ∈ s.db.dirtyTables ∧ s.builders.find? id = none ∧ ∀ run, ¬ s.Owns id (.run run))) :
    ∀ id, (({ s with purging } : Node).view id).Settled tidy := fun id => (hs id).queue (hp id)

theorem crash_settled : ∀ id, ((Node.start s.db s.allocated).view id).Settled tidy := by
  intro id
  have hv : (Node.start s.db s.allocated).view id = { s.view id with
      builder := none
      purging := False
      owns := fun o => s.Owns id o ∧ ∀ run, o ≠ .run run } := by
    refine TableView.ext rfl rfl rfl rfl ?_ rfl ?_
    · exact propext ⟨fun h => absurd h not_mem_nil, False.elim⟩
    · funext o
      refine propext ?_
      cases o with
      | chunk => exact ⟨fun h => ⟨h, by simp⟩, fun h => h.1⟩
      | run run =>
        constructor
        · rintro ⟨_, hc, -⟩
          cases hc
        · rintro ⟨-, h⟩
          exact absurd rfl (h run)
  rw [hv]
  exact (hs id).crash fun o => Iff.rfl

/-- A compaction that commits hands its tables to the new chunk. -/
theorem compacted_settled {merge front back : List Chunk} {newChunk : Chunk} {label : DatasetLabel}
    (hf : s.compactions.find? run = some c) (hp : c.phase = .built merge newChunk)
    (he : Compacted c.dataset merge newChunk front back label s.db db') :
    ∀ id, (({ s with db := db', compactions := s.compactions.erase run } :
      Node).view id).Settled tidy := by
  have ht : c.tables = newChunk.tables.values := by
    unfold CompactionRun.tables
    rw [hp]
  have hsp : Spliced c.dataset front merge (some newChunk) back
      ({ s with compactions := s.compactions.erase run } : Node).db db' := he.spliced
  refine hsp.settled (erase_settled hs run) ?_ ?_
  · intro _ g hg id hid
    exact Or.inr (marked_of_iff he.deletedTables g hg id hid)
  rintro _ ⟨⟩ _ hid
  exact erase_free hs hf (ht ▸ hid)

omit hs

variable {op : NodeOp}

theorem step_settled (h : s.Lifecycle tidy) (hok : s.Disciplined op) (ht : tidy → s.Tidy op)
    (hst : s.step op = some s') :
    ∀ id, (s'.view id).Settled tidy := by
  have hs := h.settled
  cases Node.step_cases hst with
  | openTable => exact openTable_settled hs hok
  | flush batch => exact writeBatch_settled hs (Or.inl rfl) batch
  | finishTable batch => exact writeBatch_settled hs (Or.inr rfl) batch
  | writeStatistic find => exact writeStatistic_settled hs find
  | closeTable find => exact closeTable_settled hs find
  | dropBuilder => exact dropBuilder_settled hs
  | update => exact update_settled hs hok ht
  | deleteTables =>
    exact deleteTables_settled hs fun id hid => (hok id hid).free_view (hs id)
  | compactionStart _ unused =>
    intro id
    rw [view_put]
    · exact hs id
    · rw [unused]
      simp [CompactionRun.tables]
  | @compactionBuild run tables c built find phase build =>
    have hn : c.tables = [] := by
      unfold CompactionRun.tables
      rw [phase]
    refine put_settled hs find hn fun id hid => ?_
    exact (hok id (CompactionRun.build_tables build ▸ hid)).free_view (hs id)
  | @compactionStop run c find phase => exact erase_settled hs run
  | compactionCommit find phase effect => exact compacted_settled hs find phase effect
  | @compactionRefused run commit c merge newChunk find phase =>
    intro id
    rw [view_put]
    · exact hs id
    · have ht : (c.refuse newChunk).tables = c.tables := by
        simp only [CompactionRun.tables, CompactionRun.refuse, phase]
      rw [ht, find]
      simp
  | @compactionAbandon run commit c newChunk find phase =>
    have ht : c.tables = newChunk.tables.values := by
      unfold CompactionRun.tables
      rw [phase]
    refine deleteTables_settled (erase_settled hs run) fun id hid => ?_
    exact erase_free hs find (ht ▸ hid)
  | createDataset => exact createDataset_sameTables.settled hs
  | createDatasetIfNotExists => exact createDatasetIfNotExists_sameTables.settled hs
  | @dropDataset dataset commit label lifecycle present =>
    refine (dropped_spliced s.db dataset).settled hs ?_ (by simp)
    intro _ g hg id hid
    exact Or.inr (dropped_marked s.db dataset g hg id hid)
  | dropAbsent => exact hs
  | dropFailed => exact hs
  | purgeHashBatch => exact hs
  | finishDrop => exact hs
  | scanDeleted =>
    refine queue_settled hs fun id hid => ?_
    rcases mem_append.mp hid with hd | hq
    · exact Or.inr (Or.inl hd)
    · exact Or.inl hq
  | scanOrphans startup =>
    obtain ⟨hb, hcm⟩ := h.quiet startup
    refine queue_settled hs fun id hid => ?_
    rcases mem_append.mp hid with hd | hq
    · refine Or.inr (Or.inr ⟨hd, by rw [hb]; rfl, ?_⟩)
      rintro _ ⟨_, hc, -⟩
      rw [hcm] at hc
      cases hc
    · exact Or.inl hq
  | purgeScanned queued => exact purgeTable_settled hs queued
  | reclaim startup drawn => exact reclaim_settled hs (h.quiet startup).1 drawn ht
  | serve => exact queue_settled hs (by simp)
  | crash => exact crash_settled hs

theorem step_quiet (h : s.Lifecycle tidy) (hst : s.step op = some s') :
    s'.serving = false → s'.builders = ∅ ∧ s'.compactions = ∅ := by
  -- Inputs that need a builder or a compaction are not enabled during startup.
  have hn : ∀ table phase, s.serving = false → s.builders.find? table ≠ some phase := by
    intro table phase hs hf
    rw [(h.quiet hs).1] at hf
    cases hf
  have hnr : ∀ run c, s.serving = false → s.compactions.find? run ≠ some c := by
    intro run c hs hf
    rw [(h.quiet hs).2] at hf
    cases hf
  intro hs
  cases Node.step_cases hst with
  | openTable serving =>
    rw [hs] at serving
    cases serving
  | flush batch =>
    rcases Node.writeBatch_eq_some batch with ⟨hf, rfl⟩ | ⟨hf, rfl⟩ <;>
      exact absurd hf (hn _ _ hs)
  | finishTable batch =>
    rcases Node.writeBatch_eq_some batch with ⟨hf, rfl⟩ | ⟨hf, rfl⟩ <;>
      exact absurd hf (hn _ _ hs)
  | closeTable find => exact absurd find (hn _ _ hs)
  | dropBuilder =>
    obtain ⟨hb, hc⟩ := h.quiet hs
    exact ⟨by simp only [hb]; rfl, hc⟩
  | compactionStart serving =>
    rw [hs] at serving
    cases serving
  | compactionBuild find => exact absurd find (hnr _ _ hs)
  | compactionStop find => exact absurd find (hnr _ _ hs)
  | compactionCommit find => exact absurd find (hnr _ _ hs)
  | compactionRefused find => exact absurd find (hnr _ _ hs)
  | compactionAbandon find => exact absurd find (hnr _ _ hs)
  | serve => cases hs
  | crash => exact ⟨rfl, rfl⟩
  | _ => exact h.quiet hs

theorem Node.Lifecycle.step (h : s.Lifecycle tidy) (hok : s.Disciplined op)
    (ht : tidy → s.Tidy op) (hs : s.step op = some s') : s'.Lifecycle tidy :=
  ⟨step_settled h hok ht hs, step_quiet h hs⟩

theorem start_lifecycle : (Node.start Db.empty []).Lifecycle tidy := by
  refine ⟨fun id => ?_, fun _ => ⟨rfl, rfl⟩⟩
  refine .fresh not_mem_nil rfl not_mem_nil not_mem_nil not_mem_nil rfl ?_
  intro o ho
  cases o with
  | chunk => exact absurd ho.1 not_mem_nil
  | run =>
    obtain ⟨_, hc, -⟩ := ho
    cases hc

theorem reachable_lifecycle (h : Node.machine.Reachable Node.Disciplined s) :
    s.Lifecycle False := by
  refine h.invariant ?_ ?_
  · rintro s rfl
    exact start_lifecycle
  · intro s op s' _ hs hok hst
    exact hs.step hok False.elim hst

/-- Runs of disciplined clients over a disk that leaves no data behind. -/
def Node.Clean (s : Node) (op : NodeOp) : Prop := s.Disciplined op ∧ s.Tidy op

instance (s : Node) (op : NodeOp) : Decidable (s.Clean op) :=
  inferInstanceAs (Decidable (s.Disciplined op ∧ s.Tidy op))

theorem clean_lifecycle (h : Node.machine.Reachable Node.Clean s) : s.Lifecycle True := by
  refine h.invariant ?_ ?_
  · rintro s rfl
    exact start_lifecycle
  · intro s op s' _ hs hok hst
    exact hs.step hok.1 (fun _ => hok.2) hst

/-! ### Data of a table -/

omit [TableFormat] in
/-- The reclamation watermark is not above any live or dirty table. -/
theorem minLiveTableId_le (h : db.Live id ∨ id ∈ db.dirtyTables) :
    ∃ watermark, db.minLiveTableId = some watermark ∧ watermark ≤ id := by
  have hm : id ∈ db.liveTables ++ db.dirtyTables.toList := by
    rcases h with hl | hd
    · exact mem_append_left _ (Db.live_iff.mp hl)
    · exact mem_append_right _ hd
  unfold Db.minLiveTableId
  cases hmn : (db.liveTables ++ db.dirtyTables.toList).min? with
  | none =>
    rw [min?_eq_none_iff] at hmn
    rw [hmn] at hm
    cases hm
  | some watermark => exact ⟨watermark, rfl, (min?_eq_some_iff.mp hmn).2 id hm⟩

omit [TableFormat] in
theorem belowWatermark_eq_false (h : db.Live id ∨ id ∈ db.dirtyTables) :
    db.belowWatermark id = false := by
  obtain ⟨watermark, hm, hle⟩ := minLiveTableId_le h
  simp [Db.belowWatermark, hm, hle]

/-- No step changes the data of a table that is built, wanted and not queued for a purge. -/
theorem step_cells (hi : (s.view id).Idle) (hq : id ∉ s.purging)
    (hwn : s.db.Live id ∨ id ∈ s.db.dirtyTables) (hs : s.step op = some s') :
    s'.db.cells id = s.db.cells id := by
  have hw : ∀ table phase, s.builders.find? table = some phase → phase ≠ .finished →
      id ≠ table := by
    rintro table phase hfn hp rfl
    exact hp (hi.eq_finished hfn)
  have hb : ∀ table cells next s', s.writeBatch table cells next = some s' →
      s'.db.cells id = s.db.cells id := by
    intro table cells next s' h
    rcases Node.writeBatch_eq_some h with ⟨hfn, rfl⟩ | ⟨hfn, rfl⟩
    · exact cells_putCells_of_ne (hw _ _ hfn (by simp))
    · exact cells_putCells_of_ne (hw _ _ hfn (by simp))
  have ht : ∀ db' : Db, db'.tables = s.db.tables → db'.cells id = s.db.cells id := by
    intro db' h
    unfold Db.cells
    rw [h]
  cases Node.step_cases hs with
  | flush batch => exact hb _ _ _ _ batch
  | finishTable batch => exact hb _ _ _ _ batch
  | writeStatistic find => exact cells_putCells_of_ne (hw _ _ find (by simp))
  | @update dataset flags edits commit serving =>
    cases hu : s.db.update dataset flags edits commit with
    | error => rfl
    | ok r =>
      obtain ⟨upd, heq, he⟩ := Db.update_edited hu
      exact ht r.1 (by rw [heq]; exact he.tables)
  | deleteTables => exact ht _ Node.deleteTables_tables
  | compactionCommit _ _ effect => exact ht _ effect.tables
  | compactionAbandon => exact ht _ Node.deleteTables_tables
  | createDataset => exact ht _ createDataset_sameTables.tables
  | createDatasetIfNotExists =>
    exact ht _ createDatasetIfNotExists_sameTables.tables
  | @dropDataset dataset commit label lifecycle present =>
    exact ht _ (dropped_spliced s.db dataset).tables
  | purgeScanned queued =>
    exact cells_purgeTable_of_ne fun heq => hq (heq ▸ queued)
  | @reclaim unlinked revived startup drawn =>
    have hbw := belowWatermark_eq_false hwn
    change Keyed.owned (foldl _ _ _) id = Keyed.owned s.db.tables id
    rw [Keyed.owned_foldl_put, Keyed.owned_filter]
    · apply Keyed.ext
      intro cell
      simp [hbw]
    · intro e he heq
      rw [mem_filter, heq, hbw] at he
      cases he.2
  | _ => rfl

/-! ### Cleanup passes as runs -/

theorem run_purge {tables : List TableId} (h : ∀ id ∈ tables, id ∈ s.purging) :
    Node.machine.run s (tables.map .purgeScanned) =
      some { s with db := tables.foldl Db.purgeTable s.db } := by
  induction tables generalizing s with
  | nil => rfl
  | cons table _ ih =>
    have hs : Node.machine.step s (.purgeScanned table) =
        some { s with db := s.db.purgeTable table } := if_pos (h table mem_cons_self)
    rw [map_cons, Machine.run, foldlM_cons, hs]
    exact ih fun id hid => h id (mem_cons_of_mem _ hid)

/-- `logical_cleanup` and `purge_orphan_dirty_tables` are a scan followed by a purge of each table
it found. -/
theorem run_pass {tables : List TableId}
    (h : s.step op = some { s with purging := tables ++ s.purging }) :
    Node.machine.run s (op :: tables.map .purgeScanned) = some { s with
      db := tables.foldl Db.purgeTable s.db
      purging := tables ++ s.purging } := by
  rw [Machine.run, foldlM_cons, show Node.machine.step s op = _ from h]
  exact run_purge (s := { s with purging := tables ++ s.purging })
    fun id hid => mem_append_left _ hid

/-! ### The theorem -/

theorem Node.Lifecycle.of_live (h : s.Lifecycle tidy) (hid : s.db.Live id) :
    id ∉ s.db.dirtyTables ∧ id ∉ s.db.deletedTables ∧ id ∉ s.purging ∧ (s.view id).Idle := by
  obtain ⟨dataset, chunk, hc, hm⟩ := hid
  have ho : (s.view id).owns (.chunk dataset chunk) := ⟨hc, hm⟩
  obtain ⟨-, hi, hd, hp, -, hdr⟩ := (h.settled id).of_owned ho
  exact ⟨mt hdr.mp (by simp), hd, hp, hi⟩

end Steps

end Lifecycle

end Storage
