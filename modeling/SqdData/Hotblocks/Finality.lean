import SqdData.Hotblocks.Window

/-!
# What a finality report can do

Specifications of the checks around finality: which reports are applied, and what the guards of
`new_chunk` on position and on finalized history establish.
-/

namespace Hotblocks

open List

open Storage

variable [TableFormat] {dataset : DatasetId} {db db' : Db} {current : Option BlockRef}
  {replacement : Option Chunk} {floor : Nat} {report head : BlockRef}

omit [TableFormat] in
/-- A report passes the comparison with the current finalized head only if it is above it. -/
theorem checkCurrent_eq_none (h : checkCurrent current report = none) :
    ∀ cur ∈ current, cur.number < report.number := by
  intro cur hc
  rw [Option.mem_def.mp hc] at h
  unfold checkCurrent at h
  dsimp only at h
  split at h
  · cases h
  · split at h
    · split at h <;> cases h
    · omega

omit [TableFormat] in
theorem checkCurrent_ne_applied : checkCurrent current report ≠ some (.applied head) := by
  unfold checkCurrent
  split
  · simp
  · split
    · simp
    · split
      · split <;> simp
      · simp

omit [TableFormat] in
theorem matchReport_eq_applied {hash : Hash} {reason : UnapplicableForkReason} {detail : String}
    (h : matchReport report hash reason detail = .applied head) :
    head = report ∧ hash = report.hash := by
  unfold matchReport at h
  split at h
  · cases h
    exact ⟨rfl, ‹_›⟩
  · cases h

/-- The block a report names, found in the replacement or in stored history. -/
def FoundBlock (db : Db) (dataset : DatasetId) (replacement : Option Chunk) (head : BlockRef) :
    Prop :=
  (∃ chunk ∈ replacement, chunk.firstBlock ≤ head.number ∧ head.number ≤ chunk.lastBlock ∧
    db.findBlockHashInChunk chunk head.number = .ok (some head.hash)) ∨
  ((∀ chunk ∈ replacement, head.number ≤ chunk.lastBlock → head.number < chunk.firstBlock) ∧
    db.findStoredBlockHash dataset head.number = .ok (some head.hash))

theorem resolveExact_applied
    (h : resolveExact db dataset replacement report = .ok (.applied head)) :
    head = report ∧ FoundBlock db dataset replacement head := by
  unfold resolveExact at h
  split at h
  · rename_i chunk hc
    obtain ⟨hm, hr⟩ := Option.filter_eq_some_iff.mp hc
    obtain ⟨inChunk, hin, h⟩ := bind_eq_ok.mp h
    cases inChunk with
    | some =>
      obtain ⟨rfl, rfl⟩ := matchReport_eq_applied (Except.ok.inj h)
      have hr' : chunk.firstBlock ≤ head.number ∧ head.number ≤ chunk.lastBlock := by
        simpa using hr
      exact ⟨rfl, Or.inl ⟨chunk, hm, hr'.1, hr'.2, hin⟩⟩
    | none =>
      obtain ⟨inStore, -, h⟩ := bind_eq_ok.mp h
      cases inStore <;> cases h
  · rename_i hn
    obtain ⟨inStore, hin, h⟩ := bind_eq_ok.mp h
    cases inStore with
    | some =>
      obtain ⟨rfl, rfl⟩ := matchReport_eq_applied (Except.ok.inj h)
      refine ⟨rfl, Or.inr ⟨?_, hin⟩⟩
      intro chunk hc hle
      rw [Option.filter_eq_none_iff] at hn
      have ho := hn chunk hc
      simp only [Bool.and_eq_true, decide_eq_true_eq, not_and] at ho
      omega
    | none => cases h

/-- What an applied report is known to satisfy: it advances finality, it is not below the floor,
and it names the head of the resulting chain or a block found at its height. -/
structure Applicable (db : Db) (dataset : DatasetId) (current : Option BlockRef)
    (replacement : Option Chunk) (floor : Nat) (post head : BlockRef) : Prop where
  post_eq : postHead db dataset replacement = .ok post
  advances : ∀ cur ∈ current, cur.number < head.number
  floor_le : floor ≤ head.number
  le_post : head.number ≤ post.number
  found : head = post ∨ FoundBlock db dataset replacement head

/-- Without a new chunk the block is the head of a stored chunk or a lookup finds it. -/
theorem Applicable.stored {post : BlockRef}
    (h : Applicable db dataset current none floor post head) :
    (∃ last ∈ db.chunkSet dataset, head = getChunkHead last) ∨
      db.findStoredBlockHash dataset head.number = .ok (some head.hash) := by
  rcases h.found with rfl | ⟨chunk, hc, -⟩ | ⟨-, hs⟩
  · have hp := h.post_eq
    simp only [postHead] at hp
    split at hp
    · rename_i last hl
      cases hp
      rw [← Db.getLastChunk, Db.getLastChunk_eq] at hl
      exact Or.inl ⟨last, mem_of_getLast? hl, rfl⟩
    · cases hp
  · cases hc
  · exact Or.inr hs

theorem resolveFinality_applied
    (h : resolveFinality db dataset current replacement floor report = .ok (.applied head)) :
    ∃ post, Applicable db dataset current replacement floor post head := by
  obtain ⟨post, hp, h⟩ := bind_eq_ok.mp h
  refine ⟨post, ?_⟩
  by_cases hc : post.number < report.number
  · simp only [hc, if_true] at h
    split at h
    · cases h
    · split at h
      · rename_i decision hd
        cases h
        exact absurd hd checkCurrent_ne_applied
      · rename_i hn
        cases h
        exact ⟨hp, checkCurrent_eq_none hn, by omega, le_rfl, Or.inl rfl⟩
  · simp only [hc, if_false] at h
    split at h
    · cases h
    · split at h
      · rename_i decision hd
        cases h
        exact absurd hd checkCurrent_ne_applied
      · rename_i hn
        obtain ⟨rfl, hf⟩ := resolveExact_applied h
        exact ⟨hp, checkCurrent_eq_none hn, by omega, by omega, Or.inr hf⟩

variable {chunk : Chunk}

/-- The finalized head that comes with a chunk: the old one, or a new one that was applied. -/
theorem resolveReport_cases {reports : Option BlockRef} {update : FinalityUpdate}
    (h : resolveReport db dataset current chunk floor reports = .ok update) :
    update.1 = current ∨ ∃ head, update.1 = some head ∧
      Applicable db dataset current (some chunk) floor (getChunkHead chunk) head := by
  cases reports with
  | none =>
    cases h
    exact Or.inl rfl
  | some =>
    obtain ⟨decision, hd, h⟩ := bind_eq_ok.mp h
    cases decision with
    | applied head =>
      cases h
      obtain ⟨post, hp⟩ := resolveFinality_applied hd
      obtain rfl : getChunkHead chunk = post := Except.ok.inj hp.post_eq
      exact Or.inr ⟨head, rfl, hp⟩
    | ignored =>
      cases h
      exact Or.inl rfl
    | integrityFault => cases h

/-! ### Lookups by height -/

omit [TableFormat] in
/-- A listing of one height starts with a chunk that covers it. -/
theorem listChunks_head_covers {n : Nat}
    (h : (db.listChunks dataset n (some n)).head? = some chunk) :
    chunk ∈ db.chunkSet dataset ∧ chunk.firstBlock ≤ n ∧ n ≤ chunk.lastBlock := by
  rw [Db.listChunks_eq] at h
  have hm := mem_of_head? h
  have hr : inRange n (some n) chunk = true := mem_takeWhile_imp hm
  have hsk := (takeWhile_subset _) hm
  have hs : chunk ∈ (db.chunkSet dataset).toList := (mem_filter.mp hsk).1
  simp only [inRange, Option.all_some, Bool.and_eq_true, decide_eq_true_eq] at hr
  exact ⟨hs, hr.2, hr.1⟩

omit [TableFormat] in
/-- In a tiling, a listing of one height starts with the chunk that covers it. -/
theorem listChunks_head_of_covers {n : Nat} (ht : chunkSegments.Tiles (db.chunkSet dataset).toList)
    (hm : chunk ∈ db.chunkSet dataset) (hn : chunk.firstBlock ≤ n ∧ n ≤ chunk.lastBlock) :
    (db.listChunks dataset n (some n)).head? = some chunk := by
  rw [Db.listChunks_eq]
  have hsk : chunk ∈ (db.chunkSet dataset).seek n := by
    refine mem_filter.mpr ⟨hm, ?_⟩
    simpa using hn.2
  obtain ⟨before, _, hs⟩ := append_of_mem hsk
  have hsb : ((db.chunkSet dataset).seek n).Pairwise fun a b => a.lastBlock < b.firstBlock :=
    ht.pairwise.sublist filter_sublist
  -- A chunk before the covering one would end below `n`, and the scan starts at `n`.
  have hnl : before = [] := by
    cases before with
    | nil => rfl
    | cons a =>
      have ha : a ∈ (db.chunkSet dataset).seek n := by
        rw [hs]
        exact mem_cons_self
      have hl : n ≤ a.lastBlock := by simpa using (mem_filter.mp ha).2
      rw [hs] at hsb
      have hlt : a.lastBlock < chunk.firstBlock := rel_of_pairwise_cons hsb (by simp)
      omega
  rw [hs, hnl, nil_append]
  simp [inRange, hn.1, hn.2]

theorem findStoredBlockHash_eq_some {n : Nat} {hash : Hash}
    (h : db.findStoredBlockHash dataset n = .ok (some hash)) :
    ∃ chunk ∈ db.chunkSet dataset, chunk.firstBlock ≤ n ∧ n ≤ chunk.lastBlock ∧
      db.findBlockHashInChunk chunk n = .ok (some hash) := by
  unfold Db.findStoredBlockHash at h
  split at h
  · cases h
  · rename_i chunk hh
    obtain ⟨hm, hf, hlast⟩ := listChunks_head_covers hh
    exact ⟨chunk, hm, hf, hlast, h⟩

/-! ### Guards of `new_chunk` -/

omit [TableFormat] in
theorem windowStart_eq (db : Db) (dataset : DatasetId) (floor : Nat) :
    windowStart db dataset floor =
      ((db.chunkSet dataset).toList.head?.map Chunk.firstBlock).getD floor := by
  unfold windowStart
  rw [Db.listChunks_all]
  cases (db.chunkSet dataset).toList.head? <;> rfl

omit [TableFormat] in
theorem checkPosition_eq_ok :
    checkPosition db dataset floor chunk = .ok () ↔
      (windowStart db dataset floor ≤ chunk.firstBlock ∧
        ∀ existing, (db.listChunks dataset chunk.firstBlock (some chunk.firstBlock)).head? =
          some existing → ¬ existing.firstBlock < chunk.firstBlock) := by
  unfold checkPosition
  rw [bind_eq_ok]
  constructor
  · rintro ⟨_, hen, h⟩
    refine ⟨by simpa using hen, ?_⟩
    intro existing he hlt
    rw [he] at h
    obtain ⟨-, -, hlast⟩ := listChunks_head_covers he
    simp [hlt, hlast] at h
  · rintro ⟨hle, hi⟩
    refine ⟨(), by simpa using hle, ?_⟩
    cases he : (db.listChunks dataset chunk.firstBlock (some chunk.firstBlock)).head? with
    | none => rfl
    | some existing =>
      have hnot := hi existing he
      simp only [hnot, decide_false, Bool.false_and, Bool.false_eq_true, if_false]
      rfl

theorem checkFinalizedHistory_eq_ok :
    checkFinalizedHistory db dataset current chunk = .ok () ↔
      ∀ cur ∈ current, chunk.firstBlock ≤ cur.number →
        cur.number ≤ chunk.lastBlock ∧
          db.validateFinalizedPrefix dataset chunk cur.number = .ok none := by
  cases current with
  | none => simp [checkFinalizedHistory]
  | some cur =>
    unfold checkFinalizedHistory
    dsimp only
    split
    · rename_i hle
      rw [bind_eq_ok]
      constructor
      · rintro ⟨_, he, h⟩ cur' hc' -
        cases hc'
        obtain ⟨divergence, hv, h⟩ := bind_eq_ok.mp h
        cases divergence with
        | some => cases h
        | none => exact ⟨by simpa using he, hv⟩
      · intro h
        obtain ⟨hlast, hv⟩ := h cur rfl hle
        exact ⟨(), by simpa using hlast, bind_eq_ok.mpr ⟨none, hv, rfl⟩⟩
    · rename_i hlt
      constructor
      · rintro - cur' hc' hle
        cases hc'
        exact absurd hle hlt
      · intro _
        rfl

end Hotblocks
