import SqdData.Storage.Database
import SqdData.Storage.Transactions

/-!
# The comparison with finalized history

`validate_finalized_prefix` walks over the blocks of a replacement with a cursor into the stored
ones, which opens one chunk after the other. On readable tables it finds no divergence exactly when
the two sequences are the same.
-/

namespace Storage

open List

namespace Db

variable [TableFormat] {db : Db} {dataset : DatasetId} {chunk : Chunk} {fromBlock upTo : Nat}
  {cursor : StoredCursor} {rest rows : List (Nat × Hash)}

/-- The stored blocks behind a cursor. -/
def StoredCursor.Reads (db : Db) (fromBlock upTo : Nat) (cursor : StoredCursor)
    (rest : List (Nat × Hash)) : Prop :=
  ∃ parts, Forall₂ (fun chunk rows => db.readBlockHashes chunk fromBlock upTo = .ok rows)
    cursor.chunks parts ∧ rest = cursor.stored ++ parts.flatten

/-- Opening chunks does not skip a block, and finds one if there is one. -/
theorem seekStored_reads {stored : List (Nat × Hash)} {chunks : List Chunk}
    (h : StoredCursor.Reads db fromBlock upTo ⟨stored, chunks⟩ rest) :
    ∃ cursor, db.seekStored fromBlock upTo stored chunks = .ok cursor ∧
      cursor.Reads db fromBlock upTo rest ∧ (cursor.stored = [] → rest = []) := by
  induction chunks generalizing stored with
  | nil =>
    obtain ⟨parts, hp, rfl⟩ := h
    obtain rfl := forall₂_nil_left_iff.mp hp
    cases stored with
    | nil => exact ⟨⟨[], []⟩, rfl, ⟨[], .nil, rfl⟩, fun _ => rfl⟩
    | cons block stored => exact ⟨⟨block :: stored, []⟩, rfl, ⟨[], .nil, rfl⟩, by simp⟩
  | cons next chunks ih =>
    cases stored with
    | cons block stored => exact ⟨⟨block :: stored, next :: chunks⟩, rfl, h, by simp⟩
    | nil =>
      obtain ⟨_, hp, rfl⟩ := h
      obtain ⟨rows, parts', hrd, hrs, rfl⟩ := forall₂_cons_left_iff.mp hp
      obtain ⟨cursor, hs, hr, he⟩ := ih ⟨parts', hrs, rfl⟩
      exact ⟨cursor, bind_eq_ok.mpr ⟨rows, hrd, hs⟩, hr, he⟩

/-- A block of the replacement up to `upTo` against the next stored one. -/
theorem compareStored_reads {number : Nat} (hash : Hash) (hn : number ≤ upTo)
    (h : cursor.Reads db fromBlock upTo rest) :
    ∃ state, db.compareStored fromBlock upTo (cursor, none) (number, hash) = .ok state ∧
      ((∃ rest', rest = (number, hash) :: rest' ∧ state.2 = none ∧
          state.1.Reads db fromBlock upTo rest') ∨
        (state.2.isSome = true ∧ ∀ rest', rest ≠ (number, hash) :: rest')) := by
  obtain ⟨cursor', hs, hr, he⟩ := seekStored_reads h
  have hrn : ((none : Option String).isSome || decide (upTo < number)) = false := by
    simpa using hn
  obtain ⟨stored, chunks⟩ := cursor'
  simp only [compareStored, hrn, Bool.false_eq_true, if_false, hs]
  cases stored with
  | nil =>
    refine ⟨_, rfl, Or.inr ⟨rfl, ?_⟩⟩
    intro rest' hrs
    cases (he rfl).symm.trans hrs
  | cons block stored =>
    obtain ⟨storedNumber, storedHash⟩ := block
    obtain ⟨parts, hp, rfl⟩ := hr
    by_cases heq : storedNumber = number ∧ storedHash = hash
    · obtain ⟨rfl, rfl⟩ := heq
      refine ⟨(⟨stored, chunks⟩, none), ?_, Or.inl ⟨_, rfl, rfl, parts, hp, rfl⟩⟩
      simp [bind, Except.bind, pure, Except.pure]
    · have hd : (decide (storedNumber = number) && decide (storedHash = hash)) = false := by
        simpa using heq
      simp only [bind, Except.bind, hd, Bool.false_eq_true, if_false]
      refine ⟨_, rfl, Or.inr ⟨rfl, ?_⟩⟩
      rintro rest' hrs
      cases hrs
      exact heq ⟨rfl, rfl⟩

theorem foldlM_compareStored_diverged {divergence : Option String}
    (hd : divergence.isSome = true) (blocks : List (Nat × Hash)) :
    blocks.foldlM (db.compareStored fromBlock upTo) (cursor, divergence) =
      .ok (cursor, divergence) := by
  induction blocks with
  | nil => rfl
  | cons _ _ ih =>
    rw [foldlM_cons]
    refine bind_eq_ok.mpr ⟨(cursor, divergence), ?_, ih⟩
    simp [compareStored, hd]

/-- The walk over the replacement: it ends without a divergence, past the blocks it compared, or
finds that they do not start the stored ones. -/
theorem foldlM_compareStored (rows : List (Nat × Hash)) (h : cursor.Reads db fromBlock upTo rest) :
    ∃ state, rows.foldlM (db.compareStored fromBlock upTo) (cursor, none) = .ok state ∧
      ((∃ rest', rest = rows.filter (fun row => row.1 ≤ upTo) ++ rest' ∧ state.2 = none ∧
          state.1.Reads db fromBlock upTo rest') ∨
        (state.2.isSome = true ∧
          ∀ rest', rest ≠ rows.filter (fun row => row.1 ≤ upTo) ++ rest')) := by
  induction rows generalizing cursor rest with
  | nil => exact ⟨(cursor, none), rfl, Or.inl ⟨rest, rfl, rfl, h⟩⟩
  | cons block rows ih =>
    obtain ⟨number, hash⟩ := block
    rw [foldlM_cons]
    by_cases hn : number ≤ upTo
    · have hf : ((number, hash) :: rows).filter (fun row => row.1 ≤ upTo) =
          (number, hash) :: rows.filter (fun row => row.1 ≤ upTo) :=
        filter_cons_of_pos (by simpa using hn)
      rw [hf]
      obtain ⟨⟨cursor', divergence⟩, hc, hcs⟩ := compareStored_reads hash hn h
      rcases hcs with ⟨rest', rfl, hnn, hr⟩ | ⟨hsm, hne⟩
      · obtain rfl : divergence = none := hnn
        obtain ⟨state, hfl, hs⟩ := ih hr
        refine ⟨state, bind_eq_ok.mpr ⟨_, hc, hfl⟩, ?_⟩
        simpa using hs
      · refine ⟨(cursor', divergence), ?_, Or.inr ⟨hsm, ?_⟩⟩
        · exact bind_eq_ok.mpr ⟨_, hc, foldlM_compareStored_diverged hsm rows⟩
        · exact fun rest' => hne _
    · have hf : ((number, hash) :: rows).filter (fun row => row.1 ≤ upTo) =
          rows.filter (fun row => row.1 ≤ upTo) :=
        filter_cons_of_neg (by simpa using hn)
      rw [hf]
      obtain ⟨state, hfl, hs⟩ := ih h
      refine ⟨state, bind_eq_ok.mpr ⟨(cursor, none), ?_, hfl⟩, hs⟩
      have hsk : upTo < number := by omega
      simp [compareStored, hsk]

/-- On readable tables there is an answer, and it is that of comparing the two sequences. -/
theorem validateFinalizedPrefix_spec {table : Table} (ht : db.blocksTable chunk = .ok table)
    (hrw : Storage.blockHashes table = .ok rows) (hs : StoredCursor.Reads db chunk.firstBlock upTo
      ⟨[], db.listChunks dataset chunk.firstBlock (some upTo)⟩ rest) :
    ∃ divergence, db.validateFinalizedPrefix dataset chunk upTo = .ok divergence ∧
      (divergence = none ↔ rows.filter (fun row => row.1 ≤ upTo) = rest) := by
  obtain ⟨⟨_, divergence⟩, hf, hc⟩ := foldlM_compareStored rows hs
  simp only [validateFinalizedPrefix, ht, hrw, hf, bind, Except.bind]
  rcases hc with ⟨_, rfl, hn, hr⟩ | ⟨hsm, hne⟩
  · obtain rfl : divergence = none := hn
    obtain ⟨⟨stored, _⟩, hsk, hr', he⟩ := seekStored_reads hr
    simp only [Option.isSome_none, Bool.false_eq_true, if_false, hsk]
    cases stored with
    | nil => exact ⟨none, rfl, by simpa using he rfl⟩
    | cons =>
      obtain ⟨_, -, rfl⟩ := hr'
      exact ⟨_, rfl, by simp⟩
  · obtain ⟨text, rfl⟩ := Option.isSome_iff_exists.mp hsm
    refine ⟨some text, rfl, iff_of_false nofun fun heq => hne [] ?_⟩
    rw [heq, append_nil]

end Db

end Storage
