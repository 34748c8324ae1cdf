import SqdData.Hotblocks.WriteController

/-!
# The rollback point

`compute_rollback` walks the stored chunks and the hints down together. The walk skips hints above
the chunk at hand and chunks above the hint at hand, and it ends at the highest chunk that agrees
with the hints: its head is one of them, or it lies below all of them.
-/

namespace Hotblocks

open List

open Storage

/-- The head of the chunk is one of the hints, or the chunk lies below all of them. -/
def Agrees (hints : List BlockRef) (chunk : Chunk) : Prop :=
  getChunkHead chunk ∈ hints ∨ ∀ b ∈ hints, chunk.lastBlock < b.number

instance (hints : List BlockRef) (chunk : Chunk) : Decidable (Agrees hints chunk) :=
  inferInstanceAs (Decidable (_ ∨ _))

variable {hints : List BlockRef}

/-- A hint below the chunk and no other hint in between rule the chunk out. -/
theorem not_agrees_of_lt {b : BlockRef} {chunk : Chunk}
    (hd : (b :: hints).Pairwise fun a b => b.number < a.number)
    (hlt : b.number < chunk.lastBlock) : ¬ Agrees (b :: hints) chunk := by
  rintro (hm | hb)
  · rcases mem_cons.mp hm with heq | hm
    · have hn := congrArg BlockRef.number heq
      simp only [getChunkHead_number] at hn
      omega
    · have hs := rel_of_pairwise_cons hd hm
      simp only [getChunkHead_number] at hs
      omega
  · have ha := hb b mem_cons_self
    omega

/-- Hints above a chunk do not matter for the chunks at or below it. -/
theorem agrees_dropWhile {chunk : Chunk} {n : Nat} (hle : chunk.lastBlock ≤ n) :
    Agrees (hints.dropWhile fun b => n < b.number) chunk ↔ Agrees hints chunk := by
  have hs := takeWhile_append_dropWhile (p := fun b : BlockRef => n < b.number) (l := hints)
  have hd : ∀ b ∈ hints.takeWhile fun b => n < b.number, n < b.number := by
    intro b hb
    simpa using mem_takeWhile_imp hb
  constructor
  · rintro (hm | hbl)
    · exact Or.inl ((dropWhile_sublist _).subset hm)
    · refine Or.inr fun b hb => ?_
      rw [← hs] at hb
      rcases mem_append.mp hb with hb | hb
      · exact hle.trans_lt (hd b hb)
      · exact hbl b hb
  · rintro (hm | hbl)
    · rw [← hs] at hm
      rcases mem_append.mp hm with hm | hm
      · have ha := hd _ hm
        simp only [getChunkHead_number] at ha
        omega
      · exact Or.inl hm
    · exact Or.inr fun b hb => hbl b ((dropWhile_sublist _).subset hb)

/-- A chunk that agrees with hints of 64 bits has a block number after it, unless it ends at the
greatest one and is itself a hint. -/
theorem Agrees.lt_max {chunk : Chunk} (h : Agrees hints chunk) (hne : hints ≠ [])
    (hmax : ∀ b ∈ hints, b.number ≤ maxBlockNumber)
    (hroom : getChunkHead chunk ∈ hints → chunk.lastBlock ≠ maxBlockNumber) :
    chunk.lastBlock < maxBlockNumber := by
  rcases h with hm | hbelow
  · exact lt_of_le_of_ne chunk.last_le_max (hroom hm)
  · obtain ⟨b, hb⟩ := exists_mem_of_ne_nil hints hne
    exact (hbelow b hb).trans_le (hmax b hb)

theorem find?_congr_mem {α : Type} {l : List α} {p q : α → Bool} (h : ∀ a ∈ l, p a = q a) :
    l.find? p = l.find? q := by
  induction l with
  | nil => rfl
  | cons a _ ih =>
    have hr := ih fun b hb => h b (mem_cons_of_mem a hb)
    rw [find?_cons, find?_cons, h a mem_cons_self, hr]

/-- The walk finds the highest chunk that agrees with the hints. -/
theorem resumeAt_eq {chunks : List Chunk}
    (hch : chunks.Pairwise fun a b => b.lastBlock < a.lastBlock)
    (hh : hints.Pairwise fun a b => b.number < a.number) :
    resumeAt chunks hints =
      (chunks.find? (Agrees hints ·)).map fun chunk =>
        (Wrapping.succ 64 chunk.lastBlock, chunk.lastBlockHash) := by
  induction chunks generalizing hints with
  | nil => rfl
  | cons head chunks ih =>
    obtain ⟨hb, hr⟩ := pairwise_cons.mp hch
    rw [resumeAt]
    split
    · rename_i hsk
      cases hints with
      | nil => simp at hsk
      | cons b =>
        have hlt : b.number < head.lastBlock := by simpa using hsk
        rw [find?_cons_of_neg (by simpa using not_agrees_of_lt hh hlt)]
        exact ih hr hh
    · have hd := hh.sublist (dropWhile_sublist fun b => decide (head.lastBlock < b.number))
      have ha := fun c (hc : c.lastBlock ≤ head.lastBlock) =>
        @agrees_dropWhile hints c head.lastBlock hc
      have hf := fun h => head_dropWhile_not (p := fun b : BlockRef =>
        decide (head.lastBlock < b.number)) (l := hints) h
      split
      · -- every hint lies above the chunk
        rename_i hn
        have hal : Agrees hints head := by
          rw [← ha head le_rfl, hn]
          exact Or.inr (by simp)
        rw [find?_cons_of_pos (by simpa using hal)]
        rfl
      · rename_i b rest hcn
        have hle : b.number ≤ head.lastBlock := by
          have hnot := hf (by rw [hcn]; exact cons_ne_nil _ _)
          simpa [hcn] using hnot
        rw [hcn] at hd
        split
        · rename_i he
          simp only [Bool.and_eq_true, decide_eq_true_eq] at he
          have hal : Agrees hints head := by
            rw [← ha head le_rfl, hcn]
            refine Or.inl (mem_cons.mpr (Or.inl ?_))
            rw [getChunkHead, ← he.1, ← he.2]
          rw [find?_cons_of_pos (by simpa using hal)]
          simp [he.1, he.2]
        · rename_i he
          have hnot : ¬ Agrees hints head := by
            rw [← ha head le_rfl, hcn]
            rcases hle.lt_or_eq with hlt | heq
            · exact not_agrees_of_lt hd hlt
            · rintro (hm | hal)
              · rcases mem_cons.mp hm with hsm | hm
                · apply he
                  simp [← hsm]
                · have hs := rel_of_pairwise_cons hd hm
                  simp only [getChunkHead_number] at hs
                  omega
              · have hab := hal b mem_cons_self
                omega
          rw [find?_cons_of_neg (by simpa using hnot), ih hr hd]
          refine congrArg _ (find?_congr_mem fun c hc => ?_)
          rw [decide_eq_decide, ← hcn]
          exact ha c (hb c hc).le

theorem isAscending_iff {l : List BlockRef} :
    isAscending l = true ↔ l.Pairwise fun a b => a.number < b.number := by
  rw [← isChain_iff_pairwise]
  induction l with
  | nil => simp [isAscending]
  | cons _ l ih =>
    cases l with
    | nil => simp [isAscending]
    | cons =>
      rw [isChain_cons_cons]
      simp only [isAscending, Bool.and_eq_true, decide_eq_true_eq, ih]

/-- In an ascending list the hints below a number come first. -/
theorem dropWhile_lt_eq_filter {l : List BlockRef} {n : Nat}
    (h : l.Pairwise fun a b => a.number < b.number) :
    l.dropWhile (fun b => b.number < n) = l.filter fun b => n ≤ b.number := by
  induction l with
  | nil => rfl
  | cons a _ ih =>
    obtain ⟨ha, hl⟩ := pairwise_cons.mp h
    by_cases hlt : a.number < n
    · rw [dropWhile_cons_of_pos (by simpa using hlt),
        filter_cons_of_neg (by simpa using hlt), ih hl]
    · rw [dropWhile_cons_of_neg (by simpa using hlt), filter_cons_of_pos (by simpa using hlt)]
      refine congrArg _ (filter_eq_self.mpr fun b hb => ?_).symm
      have hab := ha b hb
      simp only [decide_eq_true_eq]
      omega

/-- The hints that are not below the finalized head. -/
def hintsFrom (fin : Option BlockRef) (prev : List BlockRef) : List BlockRef :=
  prev.filter fun b => fin.all fun f => f.number ≤ b.number

/-- The hints say nothing about the finalized head, or contradict it. -/
def Contradicts (prev : List BlockRef) (fin : BlockRef) : Prop :=
  (∀ b ∈ prev, b.number < fin.number) ∨ ∃ b ∈ prev, b.number = fin.number ∧ b.hash ≠ fin.hash

theorem hintsAboveFinalized_cases {prev : List BlockRef} {fin : Option BlockRef}
    (has : prev.Pairwise fun a b => a.number < b.number) :
    (hintsAboveFinalized prev fin = .ok (hintsFrom fin prev) ∧
      (∀ f ∈ fin, ¬ Contradicts prev f)) ∨
    (∃ e, hintsAboveFinalized prev fin = .error e) ∧ ∃ f ∈ fin, Contradicts prev f := by
  cases fin with
  | none =>
    simp [hintsAboveFinalized, hintsFrom]
  | some f =>
    have hh : hintsFrom (some f) prev = prev.dropWhile fun b => b.number < f.number := by
      rw [dropWhile_lt_eq_filter has]
      rfl
    unfold hintsAboveFinalized
    dsimp only
    rw [hh]
    cases hd : prev.dropWhile (fun b => decide (b.number < f.number)) with
    | nil =>
      refine Or.inr ⟨⟨_, rfl⟩, f, rfl, Or.inl fun b hb => ?_⟩
      rw [dropWhile_lt_eq_filter has, filter_eq_nil_iff] at hd
      simpa using hd b hb
    | cons b rest =>
      rw [dropWhile_lt_eq_filter has] at hd
      have hm : ∀ a, a ∈ b :: rest ↔ a ∈ prev ∧ f.number ≤ a.number := by
        intro a
        rw [← hd, mem_filter]
        simp
      have hb := (hm b).mp mem_cons_self
      have hp : (b :: rest).Pairwise fun a b => a.number < b.number := by
        rw [← hd]
        exact has.filter _
      -- only the first of these hints can have the number of the finalized head
      have hs : ∀ a ∈ prev, a.number = f.number → a = b := by
        intro a ha heq
        rcases mem_cons.mp ((hm a).mpr ⟨ha, heq.ge⟩) with rfl | hr
        · rfl
        · have hlt := rel_of_pairwise_cons hp hr
          omega
      by_cases hok : b.number ≠ f.number ∨ b.hash = f.hash
      · refine Or.inl ⟨?_, ?_⟩
        · simp only [ensure_of_true (show (decide (b.number ≠ f.number) ||
            decide (b.hash = f.hash)) = true by simpa using hok)]
          rfl
        · rintro _ ⟨⟩ (hbl | ⟨a, ha, heq, hhs⟩)
          · have := hbl b hb.1
            omega
          · obtain rfl := hs a ha heq
            rcases hok with hne | hhs'
            · exact hne heq
            · exact hhs hhs'
      · push Not at hok
        refine Or.inr ⟨⟨.unapplicableFork .hintConflictsWithFinalizedHead none, ?_⟩, f, rfl,
          Or.inr ⟨b, hb.1, hok.1, hok.2⟩⟩
        simp [ensure, hok.1, hok.2]

theorem hintsFrom_ne_nil {prev : List BlockRef} {fin : Option BlockRef} (hne : prev ≠ [])
    (h : ∀ f ∈ fin, ¬ Contradicts prev f) : hintsFrom fin prev ≠ [] := by
  intro hem
  cases fin with
  | none =>
    simp only [hintsFrom, Option.all_none, filter_true] at hem
    exact hne hem
  | some f =>
    refine h f rfl (Or.inl fun b hb => ?_)
    simpa using filter_eq_nil_iff.mp hem b hb

namespace WriteController

variable {c : WriteController} {db : Db}

/-- A chunk the writer can resume after. -/
structure Resumable (db : Db) (dataset : DatasetId) (hints : List BlockRef) (chunk : Chunk) :
    Prop where
  stored : chunk ∈ db.chunkSet dataset
  reached : ∃ b ∈ hints, chunk.lastBlock ≤ b.number
  agrees : Agrees hints chunk

/-- Where the writer resumes, given the hints at or above the finalized head. The block after the
last one of a chunk is the successor in 64 bits. -/
structure ResumesAt (c : WriteController) (db : Db) (hints : List BlockRef) (resumeFrom : Nat)
    (parentHash : Option Hash) : Prop where
  after : ∀ chunk, Resumable db c.datasetId hints chunk →
    (∀ other, Resumable db c.datasetId hints other → other.lastBlock ≤ chunk.lastBlock) →
      resumeFrom = Wrapping.succ 64 chunk.lastBlock ∧ parentHash = some chunk.lastBlockHash
  start : (∀ chunk, ¬ Resumable db c.datasetId hints chunk) →
    ∀ first, db.getFirstChunk c.datasetId = some first →
      resumeFrom = first.firstBlock ∧ parentHash = some first.parentBlockHash
  own : (∀ chunk, chunk ∉ db.chunkSet c.datasetId) →
    resumeFrom = c.firstBlock ∧ parentHash = c.parentBlockHash

/-- The chunks that end at or before a block, from the top down. -/
theorem listChunksReversed_upTo (db : Db) (dataset : DatasetId) (stop : Nat) :
    db.listChunksReversed dataset 0 (some stop) = (db.chunkSet dataset).seekPrev stop := by
  rw [Db.listChunksReversed_eq]
  refine takeWhile_eq_self_iff.mpr fun chunk hc => ?_
  have hle : chunk.lastBlock ≤ stop := by
    simpa using (mem_filter.mp (mem_reverse.mp hc)).2
  have ho := chunk.first_le_last
  simp only [inRange, Nat.zero_le, decide_true, Bool.true_and, Option.all_some, decide_eq_true_eq]
  omega

theorem le_getLast_number (hne : hints ≠ []) (ha : hints.Pairwise fun a b => a.number < b.number) :
    ∀ b ∈ hints, b.number ≤ (hints.getLast hne).number := by
  intro b hb
  rw [← dropLast_append_getLast hne] at ha hb
  rcases mem_append.mp hb with hb | hb
  · exact ((pairwise_append.mp ha).2.2 b hb _ (mem_singleton_self _)).le
  · rw [mem_singleton.mp hb]

theorem resumable_iff (hne : hints ≠ [])
    (has : hints.Pairwise fun a b => a.number < b.number) {dataset : DatasetId}
    {chunk : Chunk} : Resumable db dataset hints chunk ↔
      chunk ∈ (db.chunkSet dataset).seekPrev (hints.getLast hne).number ∧ Agrees hints chunk := by
  rw [Keyed.seekPrev, mem_reverse, mem_filter]
  constructor
  · rintro ⟨hs, ⟨b, hb, hle⟩, ha⟩
    refine ⟨⟨hs, ?_⟩, ha⟩
    simpa using hle.trans (le_getLast_number hne has b hb)
  · rintro ⟨⟨hs, hle⟩, ha⟩
    exact ⟨hs, ⟨_, getLast_mem hne, by simpa using hle⟩, ha⟩

theorem resumePoint_resumesAt (hne : hints ≠ [])
    (ha : hints.Pairwise fun a b => a.number < b.number) :
    c.ResumesAt db hints (c.resumePoint db hints).1 (c.resumePoint db hints).2 := by
  have hs : ((db.chunkSet c.datasetId).seekPrev (hints.getLast hne).number).Pairwise
      fun a b => b.lastBlock < a.lastBlock :=
    pairwise_reverse.mpr ((db.chunkSet c.datasetId).sorted.filter _)
  have hw := resumeAt_eq hs (pairwise_reverse.mpr ha)
  have hag : ∀ chunk, Agrees hints.reverse chunk ↔ Agrees hints chunk := by
    simp [Agrees]
  simp only [hag] at hw
  unfold resumePoint
  simp only [getLast?_eq_some_getLast hne, Option.map_some, listChunksReversed_upTo, hw]
  cases hfi : ((db.chunkSet c.datasetId).seekPrev (hints.getLast hne).number).find?
      (Agrees hints ·) with
  | some chunk =>
    obtain ⟨hfn, _, _, hsp, hb⟩ := find?_eq_some_iff_append.mp hfi
    have hm : chunk ∈ (db.chunkSet c.datasetId).seekPrev (hints.getLast hne).number := by
      rw [hsp]
      simp
    have hr := (resumable_iff hne ha).mpr ⟨hm, by simpa using hfn⟩
    refine ⟨fun other ho hmx => ?_, fun hn => absurd hr (hn chunk),
      fun he => absurd hr.stored (he chunk)⟩
    have hsm : other = chunk := by
      have hle := hmx chunk hr
      obtain ⟨hm', hag'⟩ := (resumable_iff hne ha).mp ho
      rw [hsp] at hm' hs
      rcases mem_append.mp hm' with hfr | hbc
      · exact absurd hag' (by simpa using hb other hfr)
      · rcases mem_cons.mp hbc with heq | hrs
        · exact heq
        · have hlt := rel_of_pairwise_cons (pairwise_append.mp hs).2.1 hrs
          omega
    rw [hsm]
    exact ⟨rfl, rfl⟩
  | none =>
    have hn : ∀ chunk, ¬ Resumable db c.datasetId hints chunk := by
      intro chunk hc
      obtain ⟨hm, hag'⟩ := (resumable_iff hne ha).mp hc
      exact find?_eq_none.mp hfi chunk hm (by simpa using hag')
    refine ⟨fun chunk hc => absurd hc (hn chunk), fun _ first hf => ?_, fun he => ?_⟩
    · rw [hf]
      exact ⟨rfl, rfl⟩
    · have hf : db.getFirstChunk c.datasetId = none := by
        rw [Db.getFirstChunk_eq, head?_eq_none_iff]
        exact eq_nil_iff_forall_not_mem.mpr he
      rw [hf]
      exact ⟨rfl, rfl⟩

theorem computeRollback_eq {label : DatasetLabel} {prev : List BlockRef}
    (hl : db.getLabel c.datasetId = some label) (hne : prev ≠ [])
    (ha : prev.Pairwise fun a b => a.number < b.number) : c.computeRollback db prev = (do
      let prev ← hintsAboveFinalized prev label.finalizedHead
      let point := c.resumePoint db prev
      let reached := label.finalizedHead.filter fun fin => point.1 ≤ fin.number
      return ⟨point.1, point.2, reached.map BlockRef.number⟩) := by
  unfold computeRollback
  rw [ensure_of_true (by simpa using hne), ensure_of_true (isAscending_iff.mpr ha), hl]
  rfl

/-- When `compute_rollback` fails, and where it resumes otherwise. -/
theorem rollback_point {label : DatasetLabel} {prev : List BlockRef}
    (hlabel : db.getLabel c.datasetId = some label) (hne : prev ≠ [])
    (hascending : prev.Pairwise fun a b => a.number < b.number) :
    ((∃ e, c.computeRollback db prev = .error e) ↔
      ∃ fin ∈ label.finalizedHead, Contradicts prev fin) ∧
    ∀ rollback, c.computeRollback db prev = .ok rollback →
      c.ResumesAt db (hintsFrom label.finalizedHead prev) rollback.resumeFrom
        rollback.expectedParentHash ∧
      ∀ n, rollback.reachAtLeast = some n ↔
        ∃ fin ∈ label.finalizedHead, rollback.resumeFrom ≤ fin.number ∧ fin.number = n := by
  rw [computeRollback_eq hlabel hne hascending]
  rcases @hintsAboveFinalized_cases prev label.finalizedHead hascending with
    ⟨hok, ha⟩ | ⟨⟨e, her⟩, fin, hfn, hc⟩
  · rw [hok]
    refine ⟨⟨?_, ?_⟩, ?_⟩
    · rintro ⟨e, he⟩
      cases he
    · rintro ⟨fin, hfn, hc⟩
      exact absurd hc (ha fin hfn)
    · intro rollback hr
      cases hr
      refine ⟨resumePoint_resumesAt (hintsFrom_ne_nil hne ha) (hascending.filter _), fun n => ?_⟩
      cases label.finalizedHead with
      | none => simp
      | some => simp [Option.filter]
  · rw [her]
    refine ⟨⟨fun _ => ⟨fin, hfn, hc⟩, fun _ => ⟨e, rfl⟩⟩, ?_⟩
    intro rollback hr
    cases hr

section Sample

def rollbackLabel : DatasetLabel :=
  { kind := "evm", version := 1, finalizedHead := some ⟨5, "0x5"⟩ }

/-- Blocks 0 to 5 and 6 to 9 are stored, and block 5 is final. -/
def rollbackDb : Db :=
  ((Db.empty.writeChunk "main"
    (.v1 0 5 "0x5" "0x" none none ∅ (by decide) (by decide))).writeChunk "main"
    (.v1 6 9 "0x9" "0x5" none none ∅ (by decide) (by decide))).writeLabel "main" rollbackLabel

def rollbackController : WriteController where
  datasetId := "main"
  datasetKind := "evm"
  firstBlock := 0
  parentBlockHash := none
  firstChunkHead := some ⟨5, "0x5"⟩
  head := some ⟨9, "0x9"⟩
  finalizedHead := some ⟨5, "0x5"⟩
  headSender := ⟨none, 0⟩
  finalizedHeadSender := ⟨none, 0⟩

def rollbackHints : List BlockRef := [⟨3, "0x3"⟩, ⟨5, "0x5"⟩, ⟨9, "0x99"⟩]

/-- Another block 9 sends the writer back to block 6. -/
theorem rollback_to_finalized : rollbackController.computeRollback rollbackDb rollbackHints =
      .ok ⟨6, some "0x5", none⟩ ∧
    ((∃ e, rollbackController.computeRollback rollbackDb rollbackHints = .error e) ↔
      ∃ fin ∈ rollbackLabel.finalizedHead, Contradicts rollbackHints fin) :=
  ⟨by decide, (rollback_point rfl (by decide) (by decide)).1⟩

end Sample

end WriteController

end Hotblocks
