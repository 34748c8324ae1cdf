import SqdData.Storage.Node

/-!
# The states of one table

Whether a table is alive is spread over the chunk store, the dirty and the deleted marks, and the
volatile state of builders, compactions and cleanup passes. `TableView` collects what these say
about one table. `Settled` lists the states a table can be in: not drawn yet, opened, being built,
claimed by a compaction, live, or dead. The lemmas are the moves between them. Two things can leave
a dead table with data and no mark, a reclamation that brings data back and a chunk that is written
over another; a history without them is called tidy.
-/

namespace Storage

/-- What can refer to a table: a committed chunk, or a compaction that built it. -/
inductive Owner where
  | chunk (dataset : DatasetId) (chunk : Chunk)
  | run (run : Nat)

/-- All that the node knows about one table. -/
@[ext]
structure TableView where
  allocated : Prop
  builder : Option BuilderPhase
  dirty : Prop
  deleted : Prop
  purging : Prop
  empty : Prop
  owns : Owner → Prop

namespace TableView

def Idle (v : TableView) : Prop := v.builder = none ∨ v.builder = some .finished

theorem Idle.eq_finished {v : TableView} {phase : BuilderPhase} (h : v.Idle)
    (hb : v.builder = some phase) : phase = .finished := by
  rcases h with hn | hf
  · cases hb.symm.trans hn
  · exact Option.some.inj (hb.symm.trans hf)

/-- The states a table can be in. In a `tidy` history a dead table that has data carries a mark. -/
inductive Settled (tidy : Prop) (v : TableView) : Prop where
  | fresh (allocated : ¬ v.allocated) (builder : v.builder = none) (dirty : ¬ v.dirty)
      (deleted : ¬ v.deleted) (purging : ¬ v.purging) (empty : v.empty) (free : ∀ o, ¬ v.owns o)
  | opened (allocated : v.allocated) (builder : v.builder = some .opened) (dirty : ¬ v.dirty)
      (deleted : ¬ v.deleted) (purging : ¬ v.purging) (empty : v.empty) (free : ∀ o, ¬ v.owns o)
  | building (allocated : v.allocated)
      (builder : v.builder = some .flushed ∨ v.builder = some .stats ∨ v.builder = some .finished)
      (dirty : v.dirty) (deleted : ¬ v.deleted) (purging : ¬ v.purging) (free : ∀ o, ¬ v.owns o)
  | claimed (run : Nat) (allocated : v.allocated) (idle : v.Idle) (dirty : v.dirty)
      (deleted : ¬ v.deleted) (purging : ¬ v.purging) (owns : ∀ o, v.owns o ↔ o = .run run)
  | live (dataset : DatasetId) (chunk : Chunk) (allocated : v.allocated) (idle : v.Idle)
      (dirty : ¬ v.dirty) (deleted : ¬ v.deleted) (purging : ¬ v.purging)
      (owns : ∀ o, v.owns o ↔ o = .chunk dataset chunk)
  | dead (allocated : v.allocated) (idle : v.Idle) (free : ∀ o, ¬ v.owns o)
      (marked : tidy → v.empty ∨ v.dirty ∨ v.deleted)
      (done : v.builder = some .finished → v.dirty → v.deleted)

/-- A table that is built and at nobody's disposal yet. -/
structure Free (v : TableView) : Prop where
  allocated : v.allocated
  idle : v.Idle
  dirty : v.dirty
  deleted : ¬ v.deleted
  purging : ¬ v.purging
  free : ∀ o, ¬ v.owns o

variable {v v' : TableView} {tidy : Prop}

/-- What an owned table is like. -/
theorem Settled.of_owned (h : v.Settled tidy) {o : Owner} (ho : v.owns o) :
    v.allocated ∧ v.Idle ∧ ¬ v.deleted ∧ ¬ v.purging ∧ (∀ o', v.owns o' ↔ o' = o) ∧
      (v.dirty ↔ ∃ run, o = .run run) := by
  cases h with
  | fresh _ _ _ _ _ _ free => exact absurd ho (free o)
  | opened _ _ _ _ _ _ free => exact absurd ho (free o)
  | building _ _ _ _ _ free => exact absurd ho (free o)
  | claimed run allocated idle dirty deleted purging owns =>
    obtain rfl := (owns o).mp ho
    exact ⟨allocated, idle, deleted, purging, owns, iff_of_true dirty ⟨run, rfl⟩⟩
  | live _ _ allocated idle dirty deleted purging owns =>
    obtain rfl := (owns o).mp ho
    exact ⟨allocated, idle, deleted, purging, owns, iff_of_false dirty (by simp)⟩
  | dead _ _ free => exact absurd ho (free o)

theorem Free.settled (h : v.Free) : v.Settled tidy := by
  rcases h.idle with hn | hf
  · refine .dead h.allocated h.idle h.free (fun _ => Or.inr (Or.inl h.dirty)) ?_
    intro hb
    rw [hn] at hb
    cases hb
  · exact .building h.allocated (Or.inr (Or.inr hf)) h.dirty h.deleted h.purging h.free

/-- Only dead tables may be queued for a purge: those marked deleted, and those left dirty without
a builder or a compaction. -/
theorem Settled.queue (h : v.Settled tidy) {p : Prop}
    (hp : p → v.purging ∨ v.deleted ∨ (v.dirty ∧ v.builder = none ∧ ∀ run, ¬ v.owns (.run run))) :
    ({ v with purging := p } : TableView).Settled tidy := by
  have hn : ¬ v.purging → ¬ v.deleted →
      (v.dirty → v.builder = none → ∃ run, v.owns (.run run)) → ¬ p := by
    intro hq hd hr h
    obtain ⟨hdr, hb, ho⟩ := ((hp h).resolve_left hq).resolve_left hd
    obtain ⟨run, hown⟩ := hr hdr hb
    exact ho run hown
  cases h with
  | fresh allocated builder dirty deleted purging empty free =>
    exact .fresh allocated builder dirty deleted (hn purging deleted fun hd => absurd hd dirty)
      empty free
  | opened allocated builder dirty deleted purging empty free =>
    exact .opened allocated builder dirty deleted (hn purging deleted fun hd => absurd hd dirty)
      empty free
  | building allocated builder dirty deleted purging free =>
    refine .building allocated builder dirty deleted (hn purging deleted fun _ hb => ?_) free
    rw [hb] at builder
    simp at builder
  | claimed run allocated idle dirty deleted purging owns =>
    exact .claimed run allocated idle dirty deleted
      (hn purging deleted fun _ _ => ⟨run, (owns (.run run)).mpr rfl⟩) owns
  | live dataset chunk allocated idle dirty deleted purging owns =>
    exact .live dataset chunk allocated idle dirty deleted
      (hn purging deleted fun hd => absurd hd dirty) owns
  | dead allocated idle free marked done => exact .dead allocated idle free marked done

/-- The data of a table that nothing builds may be lost, and a dead one may get data back. -/
theorem Settled.reclaim (h : v.Settled tidy) {p : Prop} (hb : v.builder = none)
    (hp : v.allocated → v.empty → p ∨ ¬ tidy ∨ v.dirty ∨ v.deleted)
    (hf : ¬ v.allocated → v.empty → p) : ({ v with empty := p } : TableView).Settled tidy := by
  cases h with
  | fresh allocated builder dirty deleted purging empty free =>
    exact .fresh allocated builder dirty deleted purging (hf allocated empty) free
  | opened _ builder =>
    rw [hb] at builder
    cases builder
  | building allocated builder dirty deleted purging free =>
    exact .building allocated builder dirty deleted purging free
  | claimed run allocated idle dirty deleted purging owns =>
    exact .claimed run allocated idle dirty deleted purging owns
  | live dataset chunk allocated idle dirty deleted purging owns =>
    exact .live dataset chunk allocated idle dirty deleted purging owns
  | dead allocated idle free marked done =>
    refine .dead allocated idle free (fun ht => ?_) done
    rcases marked ht with he | hm
    · exact (hp allocated he).imp_right fun h => h.resolve_left (not_not_intro ht)
    · exact Or.inr hm

/-- A table that is queued for a purge is dead, and stays so when it is purged. -/
theorem Settled.purge (h : v.Settled tidy) (hq : v.purging) :
    ({ v with dirty := False, deleted := False, empty := True } : TableView).Settled tidy := by
  cases h with
  | fresh _ _ _ _ purging => exact absurd hq purging
  | opened _ _ _ _ purging => exact absurd hq purging
  | building _ _ _ _ purging => exact absurd hq purging
  | claimed _ _ _ _ _ purging => exact absurd hq purging
  | live _ _ _ _ _ _ purging => exact absurd hq purging
  | dead allocated idle free =>
    exact .dead allocated idle free (fun _ => Or.inl trivial) fun _ hd => hd.elim

/-- A crash loses builders, compactions and the queue. -/
theorem Settled.crash (h : v.Settled tidy) {owns' : Owner → Prop}
    (ho : ∀ o, owns' o ↔ v.owns o ∧ ∀ run, o ≠ .run run) :
    ({ v with builder := none, purging := False, owns := owns' } : TableView).Settled tidy := by
  have hfr : (∀ o, ¬ v.owns o) → ∀ o, ¬ owns' o := fun hf o h => hf o ((ho o).mp h).1
  cases h with
  | fresh allocated _ dirty deleted _ empty free =>
    exact .fresh allocated rfl dirty deleted id empty (hfr free)
  | opened allocated _ _ _ _ empty free =>
    exact .dead allocated (Or.inl rfl) (hfr free) (fun _ => Or.inl empty) fun h => by cases h
  | building allocated _ dirty _ _ free =>
    exact .dead allocated (Or.inl rfl) (hfr free)
      (fun _ => Or.inr (Or.inl dirty)) fun h => by cases h
  | claimed run allocated _ dirty _ _ owns =>
    refine .dead allocated (Or.inl rfl) ?_ (fun _ => Or.inr (Or.inl dirty)) fun h => by cases h
    intro o h
    obtain ⟨how, hr⟩ := (ho o).mp h
    exact hr run ((owns o).mp how)
  | live dataset chunk allocated _ dirty deleted _ owns =>
    refine .live dataset chunk allocated (Or.inl rfl) dirty deleted id ?_
    intro o
    change owns' o ↔ _
    rw [ho, owns]
    refine ⟨fun h => h.1, fun h => ⟨h, ?_⟩⟩
    rintro run rfl
    cases h
  | dead allocated _ free marked =>
    exact .dead allocated (Or.inl rfl) (hfr free) marked fun h => by cases h

/-- Giving a builder up leaves an orphan at most. -/
theorem Settled.dropBuilder (h : v.Settled tidy) :
    ({ v with builder := none } : TableView).Settled tidy := by
  cases h with
  | fresh allocated _ dirty deleted purging empty free =>
    exact .fresh allocated rfl dirty deleted purging empty free
  | opened allocated _ _ _ _ empty free =>
    exact .dead allocated (Or.inl rfl) free (fun _ => Or.inl empty) fun h => by cases h
  | building allocated _ dirty _ _ free =>
    exact .dead allocated (Or.inl rfl) free (fun _ => Or.inr (Or.inl dirty)) fun h => by cases h
  | claimed run allocated _ dirty deleted purging owns =>
    exact .claimed run allocated (Or.inl rfl) dirty deleted purging owns
  | live dataset chunk allocated _ dirty deleted purging owns =>
    exact .live dataset chunk allocated (Or.inl rfl) dirty deleted purging owns
  | dead allocated _ free marked =>
    exact .dead allocated (Or.inl rfl) free marked fun h => by cases h

/-- A table with a builder that still writes is opened or being built. -/
theorem Settled.writing {phase : BuilderPhase} (h : v.Settled tidy)
    (hp : v.builder = some phase) (hw : phase ≠ .finished) :
    v.allocated ∧ ¬ v.deleted ∧ ¬ v.purging ∧ (∀ o, ¬ v.owns o) ∧ (phase ≠ .opened → v.dirty) := by
  have hi : ¬ v.Idle := fun hi => hw (hi.eq_finished hp)
  cases h with
  | fresh _ builder =>
    rw [hp] at builder
    cases builder
  | opened allocated builder _ deleted purging _ free =>
    refine ⟨allocated, deleted, purging, free, ?_⟩
    rw [hp] at builder
    cases builder
    intro h
    exact absurd rfl h
  | building allocated _ dirty deleted purging free =>
    exact ⟨allocated, deleted, purging, free, fun _ => dirty⟩
  | claimed _ _ idle => exact absurd idle hi
  | live _ _ _ idle => exact absurd idle hi
  | dead _ idle => exact absurd idle hi

/-- A table that was not drawn yet has nothing. -/
theorem Settled.unallocated (h : v.Settled tidy) (hv : ¬ v.allocated) :
    v.builder = none ∧ ¬ v.dirty ∧ ¬ v.deleted ∧ ¬ v.purging ∧ v.empty ∧ ∀ o, ¬ v.owns o := by
  cases h with
  | fresh _ builder dirty deleted purging empty free =>
    exact ⟨builder, dirty, deleted, purging, empty, free⟩
  | opened allocated => exact absurd allocated hv
  | building allocated => exact absurd allocated hv
  | claimed _ allocated => exact absurd allocated hv
  | live _ _ allocated => exact absurd allocated hv
  | dead allocated => exact absurd allocated hv

end TableView

end Storage
