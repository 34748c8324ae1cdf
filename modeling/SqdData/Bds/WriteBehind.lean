import SqdData.Bds.Ingest
import SqdData.OrderedStore
import SqdData.Traces

/-!
# The writer keeps up with the queue

`State` remembers its progress as the number of the last block it started and the list of blocks it
is writing. `find_position` looks for the last queued block that is stored or being written and
takes it that all blocks before it are covered too.

That is so as long as no block is pushed while a write of the same block is in flight. Then the
covered blocks are a front part of the queue, `find_position` returns its length, and under fair
scheduling every block that stays queued is stored in the end. Otherwise a fork that takes blocks
away and a second one that brings them back may leave a hole in the covered part that nothing fills.
-/

namespace Bds

open List

open Storage (BlockRef Hash Error)
open Block

variable {B : Type} [Block B]

/-! ### Covered blocks -/

theorem scanBack_eq {covered : Nat → Bool} {pos cut : Nat} (hct : cut ≤ pos + 1)
    (hc : ∀ i, i + 1 = cut → covered i = true)
    (ho : ∀ i, cut ≤ i → i ≤ pos → covered i = false) : scanBack covered pos = cut := by
  induction pos with
  | zero =>
    rcases Nat.eq_zero_or_pos cut with rfl | hp
    · simp [scanBack, ho 0 le_rfl le_rfl]
    · obtain rfl : cut = 1 := by omega
      simp [scanBack, hc 0 rfl]
  | succ pos ih =>
    rcases hct.lt_or_eq with hlt | rfl
    · rw [scanBack, ho (pos + 1) (by omega) le_rfl]
      exact ih (by omega) fun i hi hle => ho i hi (by omega)
    · simp [scanBack, hc (pos + 1) rfl]

/-- The covered blocks of the queue are a front part of it, and none of them has a number above the
last one that was started. -/
structure Covered (chain : Chain B) (w : WriterState B) : Prop where
  front : chain.queue.Pairwise fun a b => w.covers b = true → w.covers a = true
  started : ∀ e ∈ chain.queue, w.covers e = true → number e.1 ≤ w.lastBlock

theorem pairwise_of_split {α : Type} {p : α → Bool} {done rest : List α}
    (hd : ∀ a ∈ done, p a = true) (hr : ∀ a ∈ rest, p a = false) :
    (done ++ rest).Pairwise fun a b => p b = true → p a = true := by
  refine pairwise_append.mpr ⟨?_, ?_, fun a ha _ _ _ => hd a ha⟩
  · exact pairwise_of_forall_mem_list fun a ha _ _ _ => hd a ha
  · refine pairwise_of_forall_mem_list fun a _ b hb hpb => ?_
    rw [hr b hb] at hpb
    cases hpb

theorem getElem?_any_append {α : Type} {p : α → Bool} {done rest : List α}
    (hd : ∀ a ∈ done, p a = true) (hr : ∀ a ∈ rest, p a = false) (i : Nat) :
    ((done ++ rest)[i]?).any p = decide (i < done.length) := by
  rcases Nat.lt_or_ge i done.length with hlt | hge
  · rw [getElem?_append_left hlt, getElem?_eq_getElem hlt]
    simp [hlt, hd _ (getElem_mem hlt)]
  · rw [getElem?_append_right hge]
    cases hg : rest[i - done.length]? with
    | none => simp [hge]
    | some a => simp [hge, hr a (mem_of_getElem? hg)]

variable {chain : Chain B} {w : WriterState B}

/-- `find_position` finds the end of the covered part. -/
theorem findPosition_eq (hv : chain.Valid)
    {done rest : List (B × Bool)} (hs : chain.queue = done ++ rest)
    (hd : ∀ e ∈ done, w.covers e = true) (hr : ∀ e ∈ rest, w.covers e = false)
    (hst : ∀ e ∈ done, number e.1 ≤ w.lastBlock) : w.findPosition chain = done.length := by
  unfold WriterState.findPosition
  have hlen : chain.numbers.length = chain.queue.length := length_map _
  by_cases he : chain.queue.isEmpty = true
  · rw [if_pos he]
    rw [List.isEmpty_iff, hs, append_eq_nil_iff] at he
    simp [he.1]
  · rw [if_neg he]
    have hq : chain.queue.length = done.length + rest.length := by
      rw [hs, length_append]
    have hc : ∀ i, ((chain.queue)[i]?).any w.covers = decide (i < done.length) := by
      intro i
      rw [hs]
      exact getElem?_any_append hd hr i
    -- the search starts at the last covered block or above it
    have hsr : done.length ≤ bisect chain.numbers w.lastBlock + 1 := by
      by_contra hl
      have hp := bisect_parts hv.queueAscending w.lastBlock
      set low := bisect chain.numbers w.lastBlock
      obtain ⟨last, hlast⟩ : ∃ last, low < last ∧ last + 1 = done.length :=
        ⟨done.length - 1, by omega, by omega⟩
      have hlt := getD_lt_getD hv.queueAscending hlast.1 (by omega)
      have hge := hp.above low le_rfl (by omega)
      have hm : chain.numbers.getD last 0 ≤ w.lastBlock := by
        have hi : last < done.length := by omega
        have hg : chain.numbers.getD last 0 = number (done[last]).1 := by
          rw [Chain.numbers, hs, map_append, getD_append _ _ _ _ (by simpa using hi),
            getD_eq_getElem _ _ (by simpa using hi), getElem_map]
        rw [hg]
        exact hst _ (getElem_mem hi)
      omega
    refine scanBack_eq ?_ ?_ ?_
    · have : chain.len = chain.queue.length := rfl
      omega
    · intro i hi
      rw [hc]
      exact decide_eq_true (by omega)
    · intro i hi _
      rw [hc]
      exact decide_eq_false (by omega)

theorem Covered.findPosition (h : Covered chain w)
    (hv : chain.Valid) : ∃ done rest, chain.queue = done ++ rest ∧
      (∀ e ∈ done, w.covers e = true) ∧ (∀ e ∈ rest, w.covers e = false) ∧
      w.findPosition chain = done.length := by
  have hs := (filter_append_filter_not_of_pairwise h.front).symm
  have hd : ∀ e ∈ chain.queue.filter w.covers, w.covers e = true := fun e he =>
    (mem_filter.mp he).2
  have hr : ∀ e ∈ chain.queue.filter (fun e => !w.covers e), w.covers e = false := fun e he => by
    simpa using (mem_filter.mp he).2
  refine ⟨_, _, hs, hd, hr, findPosition_eq hv hs hd hr fun e he => ?_⟩
  exact h.started e (mem_filter.mp he).1 (hd e he)

variable {e : B × Bool}

theorem covers_iff : w.covers e = true ↔ e.2 = true ∨ ptr e.1 ∈ w.pending.map ptr := by
  simp [WriterState.covers, WriterState.isPending]

theorem covers_eq_false : w.covers e = false ↔ e.2 = false ∧ ptr e.1 ∉ w.pending.map ptr := by
  rw [← Bool.not_eq_true, covers_iff, not_or, Bool.not_eq_true]

/-! ### What a step does to the queue -/

/-- The block of a write that is done but not yet taken off the list. -/
def WriterPhase.settled : WriterPhase B → List B
  | .settling block => [block]
  | _ => []

/-- The effect of a mark on the queue: the block is marked, and stored blocks go from the front. -/
structure Marks (block : B) (chain chain' : Chain B) (gone : List (B × Bool)) : Prop where
  valid : chain'.Valid
  minSize : chain'.minSize = chain.minSize
  marked : ∃ front b mark back, chain.queue = front ++ (b, mark) :: back ∧ ptr b = ptr block ∧
    front ++ (b, true) :: back = gone ++ chain'.queue
  stored : ∀ e ∈ gone, e.2 = true
  stop : chain'.len ≤ chain'.minSize ∨ ∀ e ∈ chain'.queue.head?, e.2 = false

theorem markStored_cases {s : Ingest B} (hv : s.chain.Valid) (block : B) :
    (∃ chain gone, Marks block s.chain chain gone ∧
      s.markStored block =
        if gone.isEmpty then { s with chain, trail := s.trail ++ gone.map fun e => ptr e.1 }
        else ({ s with chain, trail := s.trail ++ gone.map fun e => ptr e.1 } : Ingest B).notify) ∨
      s.markStored block = s ∧ ∀ e ∈ s.chain.queue, ptr e.1 ≠ ptr block := by
  rcases Chain.markStored_cases hv.queueAscending (number block) (hash block) with
    ⟨front, b, mark, back, hq, hp, hmr⟩ | ⟨hms, hn⟩
  · left
    set marked : Chain B := { s.chain with queue := front ++ (b, true) :: back } with hm
    have hvalid : marked.Valid := by
      refine hv.of_blocks rfl rfl ?_
      simp [hm, Chain.blocks, hq]
    obtain ⟨gone, hc, hd⟩ := marked.clean_cleaned
    refine ⟨marked.clean.1, gone, ⟨hc.valid hvalid, hc.minSize, ?_, hc.stored, ?_⟩, ?_⟩
    · exact ⟨front, b, mark, back, hq, hp, hc.split⟩
    · refine hc.stop.imp_left fun hlen => ?_
      have hs : marked.queue.length = gone.length + marked.clean.1.queue.length :=
        (congrArg length hc.split).trans length_append
      rw [hc.minSize]
      unfold Chain.len at hlen ⊢
      omega
    · have hg : (marked.blocks.take (marked.len - marked.clean.1.len)).map ptr =
          gone.map fun e => ptr e.1 := by
        have hlen : marked.len - marked.clean.1.len = gone.length := by
          unfold Chain.len
          rw [hc.split, length_append, Nat.add_sub_cancel_right]
        rw [hlen, Chain.blocks, ← map_take, hc.split, take_left, map_map]
        rfl
      unfold Ingest.markStored
      rw [hmr]
      dsimp only
      rw [hg]
      by_cases hnl : gone = []
      · have : marked.clean.2 = false := by
          rw [← Bool.not_eq_true, hd]
          exact not_not.mpr hnl
        simp [hnl, this]
      · simp [hnl, hd.mpr hnl]
  · right
    refine ⟨?_, hn⟩
    unfold Ingest.markStored
    rw [hms]

/-- Blocks come after their parents. -/
def Ingest.Linked (s : Ingest B) : IngestOp B → Prop
  | .push _ block => s.chain.Follows block
  | _ => True

instance (s : Ingest B) (op : IngestOp B) : Decidable (s.Linked op) :=
  match op with
  | .push _ block => inferInstanceAs (Decidable (s.chain.Follows block))
  | .finalize _ | .checkSize | .growWake | .advance | .writeWake | .written _ | .ready
  | .finalizeWake | .finalizeDone => isTrue trivial

/-- The three ways in which a step acts on the queue, on what is below it and on the store. -/
inductive QueueStep (s s' : Ingest B) : IngestOp B → Prop where
  | same {op : IngestOp B} (valid : s'.chain.Valid) (queue : s'.chain.queue = s.chain.queue)
      (trail : s'.trail = s.trail) (saved : s.saved ⊆ s'.saved) : QueueStep s s' op
  | push {isFinal : Bool} {block : B} {kept rest : List (B × Bool)} (valid : s'.chain.Valid)
      (split : s.chain.queue = kept ++ rest) (queue : s'.chain.queue = kept ++ [(block, false)])
      (trail : s'.trail ⊆ s.trail) (saved : s'.saved = s.saved) :
      QueueStep s s' (.push isFinal block)
  | mark {pos : Nat} {block : B} {gone : List (B × Bool)} (write : s.writes[pos]? = some block)
      (marks : Marks block s.chain s'.chain gone)
      (trail : s'.trail = s.trail ++ gone.map fun e => ptr e.1)
      (saved : s'.saved = ptr block :: s.saved) : QueueStep s s' (.written pos)

theorem queueStep {s s' : Ingest B} {op : IngestOp B} (hv : s.chain.Valid) (hl : s.Linked op)
    (hs : s.step op = some s') : QueueStep s s' op := by
  cases Ingest.step_cases hs with
  | @push isFinal block chain running pushed =>
    obtain ⟨hvalid, -, -, _, ⟨_, hr⟩, hq⟩ := Chain.push_ok hv hl pushed
    have hc : Chain.Cut chain (if isFinal then chain.finalizeAll else chain) := by
      split
      · exact chain.finalizeAll_cut
      · exact .refl chain
    exact .push (hc.valid hvalid) hr.symm (hc.queue.trans hq) (filter_subset_self _) rfl
  | finalize _ finalized =>
    have hc := Chain.finalize_cut finalized
    split
    all_goals exact .same (hc.valid hv) hc.queue rfl (List.Subset.refl _)
  | @written pos block selecting write =>
    rcases markStored_cases hv block with ⟨_, _, hm, heq⟩ | ⟨heq, -⟩
    · rw [heq]
      split
      all_goals exact .mark write hm rfl rfl
    · rw [heq]
      exact .same hv rfl rfl (subset_cons_self _ _)
  | _ => exact .same hv rfl rfl (List.Subset.refl _)

/-! ### The invariant -/

/-- The writes in flight are the pending ones, apart from one that may just be done. -/
structure InFlight (w : WriterState B) (writes : List B) (phase : WriterPhase B) : Prop where
  bound : w.pending.length ≤ w.maxPending
  nodup : (w.pending.map ptr).Nodup
  perm : ((phase.settled ++ writes).map ptr).Perm (w.pending.map ptr)

structure WriterInv (params : Params) (s : Ingest B) : Prop where
  maxSize : s.maxSize = params.maxSize
  minSize : s.chain.minSize = params.minSize
  maxPending : s.writer.maxPending = params.maxPending
  valid : s.chain.Valid
  covered : Covered s.chain s.writer
  inFlight : InFlight s.writer s.writes s.phase
  settled : ∀ b ∈ s.phase.settled, ∀ e ∈ s.chain.queue, ptr e.1 = ptr b → e.2 = true
  idle : s.phase = .selecting → s.writer.hasCapacity = true → s.writeChanged = false →
    ∀ e ∈ s.chain.queue, s.writer.covers e = true
  drained : (∀ e ∈ s.chain.queue, e.2 = true) → s.chain.len ≤ s.chain.minSize
  watching : s.grow = .waiting → s.growChanged = false → s.maxSize ≤ s.chain.len

/-- No block is pushed while a write of the same block is in flight. -/
def Ingest.Fresh (s : Ingest B) (op : IngestOp B) : Prop :=
  s.Linked op ∧ ∀ isFinal block, op = .push isFinal block → s.writer.isPending block = false

instance (s : Ingest B) (op : IngestOp B) : Decidable (s.Fresh op) :=
  match op with
  | .push isFinal block =>
    decidable_of_iff (s.chain.Follows block ∧ s.writer.isPending block = false)
      ⟨fun h => ⟨h.1, by rintro _ _ ⟨⟩; exact h.2⟩, fun h => ⟨h.1, h.2 isFinal block rfl⟩⟩
  | .finalize _ | .checkSize | .growWake | .advance | .writeWake | .written _ | .ready
  | .finalizeWake | .finalizeDone => isTrue ⟨trivial, nofun⟩

theorem Chain.Valid.nodup (hv : chain.Valid) : (chain.queue.map fun e => ptr e.1).Nodup := by
  have hn : (chain.queue.map fun e => number e.1).Pairwise (· ≠ ·) :=
    hv.queueAscending.imp fun h => h.ne
  refine pairwise_map.mpr ((pairwise_map.mp hn).imp fun h heq => ?_)
  exact h (congrArg BlockRef.number heq)

/-- What `advance` does: it takes as many blocks behind the covered part as there is room for. -/
structure Advances (chain : Chain B) (w : WriterState B) (done taken rest : List (B × Bool)) :
    Prop where
  split : chain.queue = done ++ taken ++ rest
  done : ∀ e ∈ done, w.covers e = true
  isOpen : ∀ e ∈ taken ++ rest, w.covers e = false
  started : (w.advance chain).2 = taken.map Prod.fst
  pending : (w.advance chain).1.pending.map ptr = w.pending.map ptr ++ taken.map fun e => ptr e.1
  room : taken.length + w.pending.length ≤ w.maxPending
  full : rest = [] ∨ taken.length + w.pending.length = w.maxPending

theorem Covered.advances (h : Covered chain w)
    (hv : chain.Valid) (hbound : w.pending.length ≤ w.maxPending) :
    ∃ done taken rest, Advances chain w done taken rest := by
  obtain ⟨done, rest, hs, hd, hr, hp⟩ := h.findPosition hv
  set room := w.maxPending - w.pending.length with hrm
  have hsp : min (done.length + w.maxPending - w.pending.length) chain.len =
      done.length + min room rest.length := by
    unfold Chain.len
    rw [hs, length_append]
    omega
  have hst : (w.advance chain).2 = (rest.take room).map Prod.fst := by
    simp only [WriterState.advance, hp, hsp, Chain.blocks, hs]
    rw [← map_take, ← map_drop, take_append, take_of_length_le (by omega),
      drop_append, drop_eq_nil_of_le le_rfl, Nat.add_sub_cancel_left, Nat.sub_self,
      drop_zero, nil_append, ← take_eq_take_min]
  refine ⟨done, rest.take room, rest.drop room, ?_, hd, ?_, hst, ?_, ?_, ?_⟩
  · rw [append_assoc, take_append_drop, hs]
  · rw [take_append_drop]
    exact hr
  · change (w.pending ++ (w.advance chain).2).map ptr = _
    rw [hst, map_append, map_map]
    rfl
  · rw [length_take]
    omega
  · rw [drop_eq_nil_iff, length_take]
    omega

namespace Advances

variable {chain : Chain B} {w : WriterState B} {done taken rest : List (B × Bool)}

variable (h : Advances chain w done taken rest)

include h

theorem covers_front : ∀ e ∈ done ++ taken, (w.advance chain).1.covers e = true := by
  intro e he
  rw [covers_iff, h.pending]
  rcases mem_append.mp he with he | he
  · exact (covers_iff.mp (h.done e he)).imp_right (mem_append_left _)
  · exact Or.inr (mem_append_right _ (mem_map_of_mem he))

theorem nodup (hv : chain.Valid) : ((taken ++ rest).map fun e => ptr e.1).Nodup := by
  refine hv.nodup.sublist (List.Sublist.map _ ?_)
  rw [h.split, append_assoc]
  exact sublist_append_right _ _

theorem not_covers_rest (hv : chain.Valid) : ∀ e ∈ rest, (w.advance chain).1.covers e = false := by
  intro e he
  obtain ⟨hs, hnot⟩ := covers_eq_false.mp (h.isOpen e (mem_append_right taken he))
  rw [covers_eq_false, h.pending, mem_append]
  refine ⟨hs, not_or.mpr ⟨hnot, fun hm => ?_⟩⟩
  have hn := h.nodup hv
  rw [map_append, nodup_append] at hn
  exact hn.2.2 _ hm _ (mem_map_of_mem he) rfl

/-- The last block that was started stands at the end of the covered part. -/
theorem le_lastBlock (hv : chain.Valid) (hs : ∀ e ∈ done, number e.1 ≤ w.lastBlock) :
    ∀ e ∈ done ++ taken, number e.1 ≤ (w.advance chain).1.lastBlock := by
  intro e he
  have hlast : (w.advance chain).1.lastBlock =
      ((taken.map Prod.fst).getLast?.map number).getD w.lastBlock := by
    rw [← h.started]
    rfl
  rcases eq_nil_or_concat' taken with hn | ⟨front, last, hc⟩
  · rw [hlast, hn]
    rw [hn, append_nil] at he
    exact hs e he
  · rw [hlast, hc, map_append, map_singleton, getLast?_concat]
    change number e.1 ≤ number last.1
    have ha : ((done ++ front ++ [last]).map fun e => number e.1).Pairwise (· < ·) := by
      refine hv.queueAscending.sublist (List.Sublist.map _ ?_)
      rw [h.split, hc, ← append_assoc]
      exact sublist_append_left _ _
    rw [hc, ← append_assoc] at he
    rcases mem_append.mp he with hm | hm
    · rw [map_append, pairwise_append] at ha
      exact (ha.2.2 (number e.1) (mem_map_of_mem hm) (number last.1) (by simp)).le
    · rw [mem_singleton.mp hm]

omit h

end Advances

/-- Starting further writes keeps the covered part a front part. -/
theorem Covered.advance (h : Covered chain w)
    (hv : chain.Valid) (hbound : w.pending.length ≤ w.maxPending) :
    Covered chain (w.advance chain).1 := by
  obtain ⟨_, _, _, ha⟩ := h.advances hv hbound
  refine ⟨?_, fun e he hc => ?_⟩
  · rw [ha.split]
    exact pairwise_of_split ha.covers_front (ha.not_covers_rest hv)
  rw [ha.split] at he
  rcases mem_append.mp he with he | he
  · refine ha.le_lastBlock hv (fun e he => h.started e ?_ (ha.done e he)) e he
    rw [ha.split, append_assoc]
    exact mem_append_left _ he
  · rw [ha.not_covers_rest hv e he] at hc
    cases hc

variable {writes : List B}

theorem InFlight.advance {phase : WriterPhase B}
    (h : InFlight w writes phase) (hv : chain.Valid) (hc : Covered chain w)
    (hp : phase.settled = []) :
    InFlight (w.advance chain).1 (writes ++ (w.advance chain).2) .selecting := by
  obtain ⟨_, taken, rest, ha⟩ := hc.advances hv h.bound
  refine ⟨?_, ?_, ?_⟩
  · have hlen := congrArg length ha.pending
    simp only [length_map, length_append] at hlen
    have hrm := ha.room
    change _ ≤ w.maxPending
    omega
  · rw [ha.pending, nodup_append]
    refine ⟨h.nodup, ?_, ?_⟩
    · exact (ha.nodup hv).sublist ((sublist_append_left taken rest).map _)
    · intro r hr r' hr' heq
      obtain ⟨e, he, rfl⟩ := mem_map.mp hr'
      exact (covers_eq_false.mp (ha.isOpen e (mem_append_left rest he))).2 (heq ▸ hr)
  · have hpr := h.perm
    rw [hp, nil_append] at hpr
    rw [ha.pending, ha.started]
    change ((writes ++ taken.map Prod.fst).map ptr).Perm _
    rw [map_append, map_map]
    exact hpr.append_right _

/-- If there is room left after `advance`, the whole queue is covered. -/
theorem Covered.advance_all (h : Covered chain w)
    (hv : chain.Valid) (hbound : w.pending.length ≤ w.maxPending)
    (hc : (w.advance chain).1.hasCapacity = true) :
    ∀ e ∈ chain.queue, (w.advance chain).1.covers e = true := by
  obtain ⟨_, _, rest, ha⟩ := h.advances hv hbound
  have hlt : (w.advance chain).1.pending.length < w.maxPending := of_decide_eq_true hc
  have hlen := congrArg length ha.pending
  simp only [length_map, length_append] at hlen
  have hn : rest = [] := ha.full.resolve_right (by omega)
  rw [ha.split, hn, append_nil]
  exact ha.covers_front

variable {chain' : Chain B} {block : B}

/-- A pushed block that is not being written is not covered. -/
theorem Covered.push {kept : List (B × Bool)} (h : Covered chain w) (hk : kept <+: chain.queue)
    (hq : chain'.queue = kept ++ [(block, false)]) (hf : w.isPending block = false) :
    Covered chain' w := by
  have hn : w.covers (block, false) = false := by simp [WriterState.covers, hf]
  refine ⟨?_, fun e he hc => ?_⟩
  · rw [hq]
    refine pairwise_append.mpr ⟨h.front.sublist hk.sublist, pairwise_singleton _ _, ?_⟩
    intro a _ b hb hc
    rw [mem_singleton.mp hb, hn] at hc
    cases hc
  · rw [hq] at he
    rcases mem_append.mp he with he | he
    · exact h.started e (hk.subset he) hc
    · rw [mem_singleton.mp he, hn] at hc
      cases hc

variable {gone : List (B × Bool)}

/-- A mark covers nothing new: the block was being written. -/
theorem Covered.marks (h : Covered chain w)
    (hmr : Marks block chain chain' gone) (hp : ptr block ∈ w.pending.map ptr) :
    Covered chain' w := by
  obtain ⟨front, b, mark, back, hq, hpt, hg⟩ := hmr.marked
  have hcv : ∀ m, w.covers (b, m) = true := fun m =>
    covers_iff.mpr (Or.inr (hpt ▸ hp))
  have hfr : (front ++ (b, true) :: back).Pairwise fun a b =>
      w.covers b = true → w.covers a = true := by
    have hf := h.front
    rw [hq, pairwise_append, pairwise_cons] at hf
    obtain ⟨hfr, ⟨-, hb⟩, hcr⟩ := hf
    refine pairwise_append.mpr ⟨hfr, pairwise_cons.mpr ⟨fun _ _ _ => hcv true,
      hb⟩, fun a ha c hc hco => ?_⟩
    rcases mem_cons.mp hc with rfl | hc
    · exact hcr a ha (b, mark) mem_cons_self (hcv mark)
    · exact hcr a ha c (mem_cons_of_mem _ hc) hco
  have hmm : ∀ e ∈ chain'.queue, ∃ m, (e.1, m) ∈ chain.queue ∧
      (w.covers e = true → w.covers (e.1, m) = true) := by
    intro e he
    have he : e ∈ front ++ (b, true) :: back := hg ▸ mem_append_right gone he
    rw [hq]
    rcases mem_append.mp he with he | he
    · exact ⟨e.2, mem_append_left _ he, id⟩
    · rcases mem_cons.mp he with rfl | he
      · exact ⟨mark, mem_append_right _ mem_cons_self, fun _ => hcv mark⟩
      · exact ⟨e.2, mem_append_right _ (mem_cons_of_mem _ he), id⟩
  refine ⟨?_, fun e he hco => ?_⟩
  · rw [hg] at hfr
    exact hfr.sublist (sublist_append_right _ _)
  · obtain ⟨m, hm, hco'⟩ := hmm e he
    exact h.started (e.1, m) hm (hco' hco)

/-- Taking a write off the list uncovers nothing when its block is stored. -/
theorem Covered.ready (h : Covered chain w)
    (hs : ∀ e ∈ chain.queue, ptr e.1 = ptr block → e.2 = true) : Covered chain (w.ready block) := by
  have hsm : ∀ e ∈ chain.queue, (w.ready block).covers e = w.covers e := by
    intro e he
    have hi : (w.ready block).covers e = true ↔ w.covers e = true := by
      rw [covers_iff, covers_iff]
      refine or_congr_right' fun hnot => ?_
      have hne : ptr e.1 ≠ ptr block := fun heq => hnot (hs e he heq)
      simp only [WriterState.ready, mem_map, mem_filter, decide_eq_true_eq]
      constructor
      · rintro ⟨b, ⟨hb, -⟩, hbe⟩
        exact ⟨b, hb, hbe⟩
      · rintro ⟨b, hb, hbe⟩
        exact ⟨b, ⟨hb, hbe ▸ hne⟩, hbe⟩
    exact Bool.eq_iff_iff.mpr hi
  refine ⟨h.front.imp_of_mem fun ha hb hab hc => ?_, fun e he hc => ?_⟩
  · rw [hsm _ ha]
    exact hab (hsm _ hb ▸ hc)
  · exact h.started e he (hsm e he ▸ hc)

theorem InFlight.written {pos : Nat} (h : InFlight w writes .selecting)
    (hw : writes[pos]? = some block) : InFlight w (writes.eraseIdx pos) (.settling block) := by
  obtain ⟨hlt, rfl⟩ := List.getElem?_eq_some_iff.mp hw
  refine ⟨h.bound, h.nodup, ?_⟩
  have hp : (writes[pos] :: writes.eraseIdx pos).Perm writes := getElem_cons_eraseIdx_perm hlt
  exact (hp.map ptr).trans h.perm

theorem InFlight.ready (h : InFlight w writes (.settling block)) :
    InFlight (w.ready block) writes .advancing ∧ (w.ready block).hasCapacity = true := by
  have hp : (ptr block :: writes.map ptr).Perm (w.pending.map ptr) := h.perm
  have hn : (ptr block :: writes.map ptr).Nodup := hp.nodup_iff.mpr h.nodup
  obtain ⟨hnot, -⟩ := nodup_cons.mp hn
  have hrd : (w.ready block).pending.map ptr =
      (w.pending.map ptr).filter fun r => r ≠ ptr block := by
    simp only [filter_map]
    rfl
  have hw : (writes.map ptr).Perm ((w.ready block).pending.map ptr) := by
    have hf := hp.filter fun r => r ≠ ptr block
    rw [filter_cons_of_neg (by simp)] at hf
    rw [hrd]
    refine List.Perm.trans (List.Perm.of_eq ?_) hf
    refine (filter_eq_self.mpr fun r hr => ?_).symm
    exact decide_eq_true fun heq => hnot (heq ▸ hr)
  have hlen := hp.length_eq
  have hlen' := hw.length_eq
  simp only [length_cons, length_map] at hlen hlen'
  have hbound := h.bound
  refine ⟨⟨?_, ?_, hw⟩, ?_⟩
  · change _ ≤ w.maxPending
    omega
  · rw [hrd]
    exact h.nodup.filter _
  · exact decide_eq_true (show (w.ready block).pending.length < w.maxPending by omega)

theorem Covered.of_queue (h : Covered chain w)
    (hq : chain'.queue = chain.queue) : Covered chain' w :=
  ⟨hq ▸ h.front, hq ▸ h.started⟩

/-- After a mark the block is stored wherever it is queued. -/
theorem Marks.stored_of_ptr (h : Marks block chain chain' gone)
    (hv : chain.Valid) (he : e ∈ chain'.queue) (hp : ptr e.1 = ptr block) : e.2 = true := by
  obtain ⟨front, b, _, back, hq, hb, hg⟩ := h.marked
  have he : e ∈ front ++ (b, true) :: back := hg ▸ mem_append_right gone he
  have hn := hv.nodup
  rw [hq, map_append, map_cons, nodup_append, nodup_cons] at hn
  obtain ⟨-, ⟨hbc, -⟩, hf⟩ := hn
  rcases mem_append.mp he with he | he
  · exact absurd (hp.trans hb.symm) (hf _ (mem_map_of_mem he) _ mem_cons_self)
  · rcases mem_cons.mp he with rfl | he
    · rfl
    · have hm : ptr e.1 ∈ back.map fun e => ptr e.1 := mem_map_of_mem he
      exact absurd ((hp.trans hb.symm) ▸ hm) hbc

theorem Marks.drained (h : Marks block chain chain' gone) (ha : ∀ e ∈ chain'.queue, e.2 = true) :
    chain'.len ≤ chain'.minSize := by
  rcases h.stop with hle | hh
  · exact hle
  · have hn : chain'.queue = [] := by
      cases hq : chain'.queue with
      | nil => rfl
      | cons e =>
        have hf := hh e (by rw [hq]; rfl)
        rw [ha e (by rw [hq]; exact mem_cons_self)] at hf
        cases hf
    simp [Chain.len, hn]

theorem Marks.len_eq (h : Marks block chain chain' []) : chain'.len = chain.len := by
  obtain ⟨_, _, _, _, hq, -, hg⟩ := h.marked
  unfold Chain.len
  rw [hq, ← nil_append chain'.queue, ← hg]
  simp

namespace WriterInv

variable {params : Params} {s s' : Ingest B} {op : IngestOp B}

theorem push (h : WriterInv params s) {isFinal : Bool} {chain : Chain B}
    (hpr : s.chain.Follows block) (hf : s.writer.isPending block = false)
    (hps : s.chain.push block = some (.ok (), chain)) :
    WriterInv params { s.notify with
      chain := if isFinal then chain.finalizeAll else chain
      grow := if chain.len ≤ s.maxSize then .running else .checking
      trail := s.trail.filter fun b => b.number ≤ parentNumber block } := by
  obtain ⟨hvalid, -, hm, kept, hk, hq⟩ := Chain.push_ok h.valid hpr hps
  set chain' := if isFinal then chain.finalizeAll else chain with hc'
  have hct : Chain.Cut chain chain' := by
    rw [hc']
    split
    · exact chain.finalizeAll_cut
    · exact .refl chain
  have hq' : chain'.queue = kept ++ [(block, false)] := hct.queue.trans hq
  have hc : Covered chain s.writer := h.covered.push hk hq hf
  refine ⟨h.maxSize, hct.minSize.trans (hm.trans h.minSize), h.maxPending, hct.valid hvalid,
    hc.of_queue hct.queue, h.inFlight, ?_, fun _ _ hch => ?_, fun ha => ?_,
    fun hw => ?_⟩
  · intro b hb e he hpt
    rw [hq'] at he
    rcases mem_append.mp he with he | he
    · exact h.settled b hb e (hk.subset he) hpt
    · -- the settling block is still pending, so it is not the one that is pushed
      have hp : ptr b ∈ s.writer.pending.map ptr :=
        h.inFlight.perm.subset (mem_map_of_mem (mem_append_left _ hb))
      rw [mem_singleton.mp he] at hpt
      have hcv : s.writer.covers (block, false) = true := covers_iff.mpr (Or.inr (hpt.symm ▸ hp))
      simp [WriterState.covers, hf] at hcv
  · cases hch
  · have hlast : (block, false) ∈ chain'.queue := hq' ▸ mem_append_right _ (by simp)
    cases ha _ hlast
  · split at hw <;> cases hw

theorem finalize (h : WriterInv params s) {head : BlockRef} {changed : Bool} {chain : Chain B}
    (hf : s.chain.finalize head = some (.ok changed, chain)) :
    WriterInv params
      (if changed then ({ s with chain } : Ingest B).notify else { s with chain }) := by
  have hct := Chain.finalize_cut hf
  have hlen : chain.len = s.chain.len := congrArg length hct.queue
  have hs : WriterInv params ({ s with chain } : Ingest B) := { h with
    minSize := hct.minSize.trans h.minSize
    valid := hct.valid h.valid
    covered := h.covered.of_queue hct.queue
    settled := hct.queue ▸ h.settled
    idle := hct.queue ▸ h.idle
    drained := by
      rw [hct.queue, hlen, hct.minSize]
      exact h.drained
    watching := fun hw hc => hlen.symm ▸ h.watching hw hc }
  cases changed with
  | true => exact { hs with idle := fun _ _ => nofun, watching := fun _ => nofun }
  | false => exact hs

theorem written (h : WriterInv params s) {pos : Nat} (hsl : s.phase = .selecting)
    (hwr : s.writes[pos]? = some block) :
    WriterInv params { s.markStored block with
      writes := s.writes.eraseIdx pos
      saved := ptr block :: s.saved
      phase := .settling block } := by
  have hf := h.inFlight
  rw [hsl] at hf
  have hf' := hf.written hwr
  have hp : ptr block ∈ s.writer.pending.map ptr :=
    hf.perm.subset (mem_map_of_mem (mem_of_getElem? hwr))
  rcases markStored_cases h.valid block with ⟨chain, gone, hm, heq⟩ | ⟨heq, hn⟩
  · have hs : ∀ b ∈ (WriterPhase.settling block).settled, ∀ e ∈ chain.queue,
        ptr e.1 = ptr b → e.2 = true := by
      intro b hb e he hpt
      rw [mem_singleton.mp hb] at hpt
      exact hm.stored_of_ptr h.valid he hpt
    rw [heq]
    cases gone with
    | nil =>
      exact ⟨h.maxSize, hm.minSize.trans h.minSize, h.maxPending, hm.valid,
        h.covered.marks hm hp, hf', hs, nofun, hm.drained,
        fun hw hc => hm.len_eq.symm ▸ h.watching hw hc⟩
    | cons =>
      exact ⟨h.maxSize, hm.minSize.trans h.minSize, h.maxPending, hm.valid,
        h.covered.marks hm hp, hf', hs, nofun, hm.drained,
        fun _ hc => nomatch hc⟩
  · rw [heq]
    refine { h with inFlight := hf', settled := ?_, idle := nofun }
    intro b hb e he hpt
    rw [mem_singleton.mp hb] at hpt
    exact absurd hpt (hn e he)

/-- Every step of a run without such pushes keeps the invariant. -/
theorem step (h : WriterInv params s) (hok : s.Fresh op) (hst : s.step op = some s') :
    WriterInv params s' := by
  cases Ingest.step_cases hst with
  | @push isFinal block chain running pushed =>
    exact h.push hok.1 (hok.2 isFinal block rfl) pushed
  | finalize _ finalized => exact h.finalize finalized
  | sizeFull _ full =>
    exact { h with watching := fun _ _ => full }
  | sizeFree =>
    exact { h with watching := nofun }
  | growWake =>
    exact { h with watching := nofun }
  | advance advancing =>
    have hf := h.inFlight.advance h.valid h.covered (by rw [advancing]; rfl)
    exact { h with
      covered := h.covered.advance h.valid h.inFlight.bound
      inFlight := hf
      settled := fun b hb => absurd hb not_mem_nil
      idle := fun _ hc _ =>
        h.covered.advance_all h.valid h.inFlight.bound hc }
  | advanceFull advancing full =>
    have hf : InFlight s.writer s.writes .selecting := by
      have := h.inFlight
      rw [advancing] at this
      exact ⟨this.bound, this.nodup, this.perm⟩
    exact { h with
      inFlight := hf
      settled := fun b hb => absurd hb not_mem_nil
      idle := fun _ hc => nomatch full.symm.trans hc }
  | writeWake selecting =>
    have hf : InFlight s.writer s.writes .advancing := by
      have := h.inFlight
      rw [selecting] at this
      exact ⟨this.bound, this.nodup, this.perm⟩
    exact { h with
      inFlight := hf
      settled := fun b hb => absurd hb not_mem_nil
      idle := nofun }
  | written selecting write => exact h.written selecting write
  | @ready block settling =>
    have hf := h.inFlight
    have hs := h.settled
    rw [settling] at hf hs
    exact { h with
      covered := h.covered.ready (hs block (mem_singleton_self block))
      inFlight := hf.ready.1
      settled := fun b hb => absurd hb not_mem_nil
      idle := nofun }
  | finalizeSkip =>
    exact { h with }
  | finalizeCall =>
    exact { h with }
  | finalizeDone =>
    exact { h with }

theorem start {head : HeadChain} {saved : List BlockRef}
    (ha : (head.blocks.map BlockRef.number).Pairwise (· < ·))
    (h : Ingest.start params head saved = some s) : WriterInv params s := by
  obtain ⟨chain, hn, rfl⟩ := Option.map_eq_some_iff.mp h
  obtain ⟨hvalid, hq⟩ := Chain.new_valid ha hn
  have hm : chain.minSize = params.minSize := by
    unfold Chain.new at hn
    split at hn
    · cases hn
    · cases hn
      rfl
  refine ⟨rfl, hm, rfl, hvalid, ⟨?_, ?_⟩, ⟨Nat.zero_le _, nodup_nil, .refl _⟩, ?_, ?_, ?_, ?_⟩
  · rw [hq]
    exact .nil
  · simp [hq]
  · simp [hq]
  · simp [hq]
  · simp [Chain.len, hq]
  · intro hw
    cases hw

theorem of_reachable (h : (Ingest.machine params).Reachable Ingest.Fresh s) :
    WriterInv params s := by
  refine h.invariant ?_ fun s op s' _ hinv hok hst => hinv.step hok hst
  rintro _ ⟨_, _, ha, -, hs⟩
  exact start ha hs

end WriterInv

end Bds
