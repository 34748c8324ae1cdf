import SqdData.Bds.WriteProgress

/-!
# Blocks are saved before they are finalized

`finalize_loop` takes the head to finalize from `stored_finalized_head`, which looks for the last
stored block among the final ones of the queue. That all blocks below it are stored as well is so if
writes complete in the order of the queue, and not otherwise: with several writes in flight a later
block may be stored while an earlier one is not.
-/

namespace Bds

open List

open Storage (BlockRef Hash Error)
open Block

variable {B : Type} [Block B]

/-- The block whose write an input completes. -/
def Ingest.completed (s : Ingest B) : IngestOp B → Option B
  | .written pos => s.writes[pos]?
  | _ => none

/-- Writes of queued blocks complete in the order of the queue. -/
def Ingest.InOrder (s : Ingest B) (op : IngestOp B) : Prop :=
  s.Linked op ∧ ∀ block ∈ s.completed op, (∃ e ∈ s.chain.queue, ptr e.1 = ptr block) →
    ∀ e ∈ s.chain.queue, number e.1 < number block → e.2 = true

instance (s : Ingest B) (op : IngestOp B) : Decidable (s.InOrder op) := by
  unfold Ingest.InOrder
  infer_instance

structure SavedInv (s : Ingest B) : Prop where
  valid : s.chain.Valid
  front : s.chain.queue.Pairwise fun a b => b.2 = true → a.2 = true
  stored : ∀ e ∈ s.chain.queue, e.2 = true → ptr e.1 ∈ s.saved
  trail : ∀ r ∈ s.trail, r ∈ s.saved

namespace SavedInv

variable {s s' : Ingest B} {op : IngestOp B}

/-- A mark on the first block that is not stored keeps the marks a front part. -/
theorem mark {block : B} {gone : List (B × Bool)} (h : SavedInv s)
    (hm : Marks block s.chain s'.chain gone)
    (hbf : ∀ e ∈ s.chain.queue, number e.1 < number block → e.2 = true)
    (ht : s'.trail = s.trail ++ gone.map fun e => ptr e.1)
    (hsv : s'.saved = ptr block :: s.saved) : SavedInv s' := by
  obtain ⟨front, b, _, back, hq, hb, hg⟩ := hm.marked
  have hmn : ∀ r ∈ s.saved, r ∈ s'.saved := fun r hr => hsv ▸ mem_cons_of_mem _ hr
  have hmr : ∀ e ∈ front ++ (b, true) :: back, e.2 = true → ptr e.1 ∈ s'.saved := by
    intro e he hs
    rcases mem_append.mp he with he | he
    · exact hmn _ (h.stored e (hq ▸ mem_append_left _ he) hs)
    · rcases mem_cons.mp he with rfl | he
      · rw [hsv, hb]
        exact mem_cons_self
      · exact hmn _ (h.stored e (hq ▸ mem_append_right _ (mem_cons_of_mem _ he)) hs)
  have hn : number b = number block := congrArg BlockRef.number hb
  have hf : ∀ e ∈ front, e.2 = true := by
    intro e he
    refine hbf e (hq ▸ mem_append_left _ he) ?_
    have has := h.valid.queueAscending
    unfold Chain.numbers at has
    rw [hq, map_append, pairwise_append] at has
    exact hn ▸ has.2.2 _ (mem_map_of_mem he) (number b) mem_cons_self
  have hp : (front ++ (b, true) :: back).Pairwise fun a b => b.2 = true → a.2 = true := by
    have hold := h.front
    rw [hq, pairwise_append, pairwise_cons] at hold
    refine pairwise_append.mpr ⟨hold.1, pairwise_cons.mpr ⟨fun _ _ _ => rfl, ?_⟩, ?_⟩
    · exact hold.2.1.2
    · exact fun a ha _ _ _ => hf a ha
  refine ⟨hm.valid, ?_, fun e he => ?_, fun r hr => ?_⟩
  · rw [hg] at hp
    exact hp.sublist (sublist_append_right _ _)
  · exact hmr e (hg ▸ mem_append_right _ he)
  · rw [ht] at hr
    rcases mem_append.mp hr with hr | hr
    · exact hmn r (h.trail r hr)
    · obtain ⟨e, he, rfl⟩ := mem_map.mp hr
      exact hmr e (hg ▸ mem_append_left _ he) (hm.stored e he)

theorem step (h : SavedInv s) (hok : s.InOrder op) (hst : s.step op = some s') : SavedInv s' := by
  cases queueStep h.valid hok.1 hst with
  | same hvalid hq ht hsv =>
    refine ⟨hvalid, hq ▸ h.front, fun e he hs => ?_, fun r hr => ?_⟩
    · exact hsv (h.stored e (hq ▸ he) hs)
    · exact hsv (h.trail r (ht ▸ hr))
  | @push isFinal block kept rest hvalid hsp hq ht hsv =>
    refine ⟨hvalid, ?_, fun e he hs => ?_, fun r hr => ?_⟩
    · have hold := h.front
      rw [hsp, pairwise_append] at hold
      rw [hq]
      refine pairwise_append.mpr ⟨hold.1, pairwise_singleton _ _, ?_⟩
      intro a _ e he hs
      rw [mem_singleton.mp he] at hs
      cases hs
    · rw [hq] at he
      rw [hsv]
      rcases mem_append.mp he with he | he
      · exact h.stored e (hsp ▸ mem_append_left _ he) hs
      · rw [mem_singleton.mp he] at hs
        cases hs
    · exact hsv ▸ h.trail r (ht hr)
  | @mark pos block gone hw hm ht hsv =>
    refine h.mark hm (hok.2 block hw ?_) ht hsv
    obtain ⟨_, b, mark, _, hq, hb, -⟩ := hm.marked
    exact ⟨(b, mark), hq ▸ mem_append_right _ mem_cons_self, hb⟩

theorem start {params : Params} {head : HeadChain} {saved : List BlockRef}
    (ha : (head.blocks.map BlockRef.number).Pairwise (· < ·)) (hs : ∀ b ∈ head.blocks, b ∈ saved)
    (h : Ingest.start params head saved = some s) : SavedInv s := by
  obtain ⟨_, hn, rfl⟩ := Option.map_eq_some_iff.mp h
  obtain ⟨hvalid, hq⟩ := Chain.new_valid ha hn
  refine ⟨hvalid, ?_, ?_, hs⟩
  · rw [hq]
    exact .nil
  · simp [hq]

theorem of_reachable {params : Params}
    (h : (Ingest.machine params).Reachable Ingest.InOrder s) : SavedInv s := by
  refine h.invariant ?_ fun s op s' _ hinv hok hsp => hinv.step hok hsp
  rintro _ ⟨_, _, ha, hs, hst⟩
  exact start ha hs hst

/-- Nothing below the head that is reported is still to be stored. -/
theorem stored_below_head (h : SavedInv s) {head : BlockRef}
    (hh : s.chain.storedFinalizedHead = some head) :
    ∀ e ∈ s.chain.queue, number e.1 ≤ head.number → e.2 = true := by
  intro e he hle
  unfold Chain.storedFinalizedHead at hh
  split at hh
  · cases hh
  split at hh
  · -- the head is below the queue
    have hs : s.chain.blocks.map ptr <:+ s.chain.chain := by
      rcases h.valid.aligned with hs | ⟨-, hs⟩
      · exact hs
      · have := hs.length_le
        rw [length_map, Chain.blocks, length_map] at this
        omega
    obtain ⟨below, hb⟩ := hs
    have ha := h.valid.chainAscending
    rw [← hb] at hh ha
    cases below with
    | nil =>
      have := congrArg length hb
      rw [nil_append, length_map, Chain.blocks, length_map] at this
      omega
    | cons first below =>
      obtain rfl := Option.some.inj hh
      rw [cons_append, map_cons, pairwise_cons] at ha
      have hm : ptr e.1 ∈ below ++ s.chain.blocks.map ptr :=
        mem_append_right _ (mem_map_of_mem (mem_map_of_mem he))
      have hlt : first.number < number e.1 := ha.1 _ (mem_map_of_mem hm)
      omega
  · obtain ⟨found, hfn, rfl⟩ := Option.map_eq_some_iff.mp hh
    have hm : found ∈ s.chain.queue := by
      have := mem_of_find?_eq_some hfn
      exact mem_of_mem_take (mem_reverse.mp this)
    have hst : found.2 = true := find?_some hfn
    obtain ⟨_, _, hq⟩ := append_of_mem hm
    have hf := h.front
    have ha := h.valid.queueAscending
    unfold Chain.numbers at ha
    rw [hq] at he hf ha
    rw [pairwise_append] at hf
    rw [map_append, pairwise_append, map_cons, pairwise_cons] at ha
    rcases mem_append.mp he with he | he
    · exact hf.2.2 e he found mem_cons_self hst
    · rcases mem_cons.mp he with rfl | he
      · exact hst
      · have hlt : number found.1 < number e.1 := ha.2.1.1 _ (mem_map_of_mem he)
        change number e.1 ≤ number found.1 at hle
        omega

end SavedInv

/-- In every state all queued blocks up to the head that is reported are stored, and when the store
is called to finalize a range, all blocks of the current chain in the range are saved. -/
theorem finalized_blocks_are_saved {params : Params} {s : Ingest B}
    (h : (Ingest.machine params).Reachable Ingest.InOrder s) :
    (∀ head, s.chain.storedFinalizedHead = some head →
      ∀ e ∈ s.chain.queue, number e.1 ≤ head.number → e.2 = true) ∧
    ∀ s' first head, s.step .finalizeWake = some s' → s'.call = some (first, head) →
      ∀ r ∈ s.trail ++ s.chain.queue.map (fun e => ptr e.1),
        first ≤ r.number → r.number ≤ head.number → r ∈ s.saved := by
  have hinv := SavedInv.of_reachable h
  refine ⟨fun head hh => hinv.stored_below_head hh, ?_⟩
  intro s' first head hs hc r hr _ hle
  have hh : s.chain.storedFinalizedHead = some head := by
    cases Ingest.step_cases hs with
    | finalizeSkip idle => exact nomatch idle.symm.trans hc
    | finalizeCall _ stored =>
      cases hc
      exact stored
  rcases mem_append.mp hr with hr | hr
  · exact hinv.trail r hr
  · obtain ⟨e, he, rfl⟩ := mem_map.mp hr
    exact hinv.stored e he (hinv.stored_below_head hh e he hle)

section Sample

def twoInOrder : List (IngestOp BlockHeader) :=
  [.push false (header 1 "1" "0"), .push false (header 2 "2" "1"), .advance, .written 0, .ready,
    .advance, .written 0, .finalize ⟨2, "2"⟩]

def orderedNode : Ingest BlockHeader :=
  ((Ingest.machine sampleParams).run noBlocks twoInOrder).getD noBlocks

theorem orderedNode_reachable :
    (Ingest.machine sampleParams).Reachable Ingest.InOrder orderedNode := by
  have hok : (Ingest.machine sampleParams).RunOk Ingest.InOrder noBlocks twoInOrder := by
    decide +kernel
  exact (Machine.Reachable.init noBlocks_init).run hok (by decide +kernel)

theorem two_blocks_are_saved : orderedNode.chain.storedFinalizedHead = some ⟨2, "2"⟩ ∧
    ∀ e ∈ orderedNode.chain.queue, number e.1 ≤ 2 → e.2 = true :=
  ⟨by decide +kernel,
    (finalized_blocks_are_saved orderedNode_reachable).1 ⟨2, "2"⟩ (by decide +kernel)⟩

def secondFirst : List (IngestOp BlockHeader) :=
  [.push false (header 1 "1" "0"), .push false (header 2 "2" "1"), .advance, .written 1,
    .finalize ⟨2, "2"⟩]

def gapNode : Ingest BlockHeader :=
  ((Ingest.machine sampleParams).run noBlocks secondFirst).getD noBlocks

/-- Block 2 is reported while block 1 is not stored, and the store is told to finalize both. -/
theorem finalizes_unsaved_block :
    (Ingest.machine sampleParams).Reachable Ingest.Linked gapNode ∧
    gapNode.chain.storedFinalizedHead = some ⟨2, "2"⟩ ∧
    (header 1 "1" "0", false) ∈ gapNode.chain.queue ∧
    (⟨1, "1"⟩ : BlockRef) ∉ gapNode.saved ∧
    (gapNode.step .finalizeWake).map Ingest.call = some (some (0, ⟨2, "2"⟩)) := by
  refine ⟨?_, by decide +kernel, by decide +kernel, by decide +kernel, by decide +kernel⟩
  have hok : (Ingest.machine sampleParams).RunOk Ingest.Linked noBlocks secondFirst := by
    decide +kernel
  exact (Machine.Reachable.init noBlocks_init).run hok (by decide +kernel)

end Sample

end Bds
