import SqdData.DataSource.Emission

/-!
# Linked blocks and announced finality

Between two repositionings the blocks of the event stream form one chain from the requested
position, whichever endpoints they come from. Finality is announced along that chain: a reported
head counts as far as the chain has got, and what has been counted final is never reopened.
-/

namespace DataSource

open List

open Storage StandardDataSource

variable {B R : Type} [Block B]

/-- Blocks that each fit the position behind the block before. -/
def LinkedFrom : BlockStreamRequest → List B → Prop
  | _, [] => True
  | position, block :: blocks => Fits position block ∧ LinkedFrom (after block) blocks

variable {position : BlockStreamRequest}

variable {blocks : List B}

theorem LinkedFrom.number_ge (h : LinkedFrom position blocks) :
    ∀ b ∈ blocks, position.firstBlock ≤ Block.number b := by
  induction blocks generalizing position with
  | nil =>
    intro b hb
    cases hb
  | cons block _ ih =>
    intro b hb
    have hf := h.1.number
    rcases mem_cons.mp hb with rfl | hb
    · exact hf
    · have hl : Block.number block + 1 ≤ Block.number b := ih h.2 b hb
      omega

theorem LinkedFrom.pairwise_number (h : LinkedFrom position blocks) :
    blocks.Pairwise fun a b => Block.number a < Block.number b := by
  induction blocks generalizing position with
  | nil => exact List.Pairwise.nil
  | cons _ _ ih =>
    exact List.Pairwise.cons h.2.number_ge (ih h.2)

theorem LinkedFrom.isChain_hash (h : LinkedFrom position blocks) :
    blocks.IsChain fun a b => Block.parentHash b = Block.hash a := by
  induction blocks generalizing position with
  | nil => exact List.IsChain.nil
  | cons block blocks ih =>
    have hr := ih h.2
    cases blocks with
    | nil => exact List.IsChain.singleton block
    | cons => exact List.IsChain.cons_cons (h.2.1.parent _ rfl) hr

theorem LinkedFrom.append {xs ys : List B} (h : LinkedFrom position (xs ++ ys)) :
    LinkedFrom position xs ∧ LinkedFrom (xs.getLast?.elim position after) ys := by
  induction xs generalizing position with
  | nil => exact ⟨trivial, h⟩
  | cons _ xs ih =>
    obtain ⟨hxs, hys⟩ := ih h.2
    refine ⟨⟨h.1, hxs⟩, ?_⟩
    cases xs with
    | nil => exact hys
    | cons =>
      rw [getLast?_cons] at hys
      rw [getLast?_cons_cons, getLast?_cons]
      exact hys

def DataEvent.block? : DataEvent B → Option B
  | .block b _ => some b
  | _ => none

def blocksOf (events : List (DataEvent B)) : List B := events.filterMap DataEvent.block?

variable {s s' : DataSourceState} {events : List (DataEvent B)}

/-- The emitted blocks are linked while there is a block number behind each that another block
follows. -/
theorem Emissions.linkedFrom (h : Emissions s events s')
    (hroom : ∀ b ∈ (blocksOf events).dropLast, Block.number b < maxBlockNumber) :
    LinkedFrom s.position (blocksOf events) := by
  induction h with
  | nil => trivial
  | @cons s t s' event events first rest ih =>
    cases first with
    | head _ _ position => exact position ▸ ih hroom
    | @block block isFinal _ fits position =>
      change LinkedFrom s.position (block :: blocksOf events)
      change ∀ b ∈ (block :: blocksOf events).dropLast, _ at hroom
      cases hb : blocksOf events with
      | nil => exact ⟨fits, trivial⟩
      | cons next later =>
        rw [hb] at hroom ih
        have hpos : t.position = after block :=
          position.trans (behind_eq_after (hroom block (by simp)))
        exact ⟨fits, hpos ▸ ih fun b hm => hroom b (mem_cons_of_mem block hm)⟩
    | fork same => exact same.position ▸ ih hroom
    | maybeOnHead same => exact same.position ▸ ih hroom

/-- Whatever their numbers, each emitted block names the one before as its parent. -/
theorem Emissions.isChain_hash (h : Emissions s events s') :
    ((blocksOf events).IsChain fun a b => Block.parentHash b = Block.hash a) ∧
      ∀ b ∈ (blocksOf events).head?, ∀ g ∈ s.position.parentBlockHash, Block.parentHash b = g := by
  induction h with
  | nil => exact ⟨List.IsChain.nil, by simp [blocksOf]⟩
  | @cons s t s' event events first rest ih =>
    cases first with
    | head _ _ position => exact position ▸ ih
    | @block block isFinal _ fits position =>
      obtain ⟨hch, hhd⟩ := ih
      change (block :: blocksOf events).IsChain _ ∧ ∀ b ∈ some block, _
      refine ⟨?_, by rintro _ ⟨⟩; exact fits.parent⟩
      refine isChain_cons.mpr ⟨fun b hb => hhd b hb _ ?_, hch⟩
      rw [position]
      rfl
    | fork same => exact same.position ▸ ih
    | maybeOnHead same => exact same.position ▸ ih

/-- Each block emitted after a repositioning names the one before as its parent. They are numbered
in increasing order from the requested block on, as long as none follows the greatest block
number. -/
theorem emitted_chain_is_linked {parse : R → Option B} {src src' : StandardDataSource}
    {nextBlock : Nat} {parentBlockHash : Option Hash} {inputs : List (PollInput R)}
    {events : List (DataEvent B)}
    (h : pollAll parse (src.setPosition nextBlock parentBlockHash) inputs = some (events, src')) :
    ((∀ b ∈ (blocksOf events).dropLast, Block.number b < maxBlockNumber) →
      ((blocksOf events).Pairwise fun a b => Block.number a < Block.number b) ∧
        ∀ b ∈ blocksOf events, nextBlock ≤ Block.number b) ∧
      ((blocksOf events).IsChain fun a b => Block.parentHash b = Block.hash a) ∧
      ∀ b ∈ (blocksOf events).head?, ∀ g ∈ parentBlockHash, Block.parentHash b = g := by
  have he := pollAll_emissions h
  refine ⟨fun hroom => ?_, he.isChain_hash⟩
  have hl := he.linkedFrom hroom
  exact ⟨hl.pairwise_number, hl.number_ge⟩

/-- The block expected after an event, if `next` was expected before. -/
def nextAfter (next : Nat) : DataEvent B → Nat
  | .block block _ => Wrapping.succ 64 (Block.number block)
  | _ => next

def stamped : Nat → List (DataEvent B) → List (Nat × DataEvent B)
  | _, [] => []
  | next, event :: events => (next, event) :: stamped (nextAfter next event) events

/-- How far an event announces finality: a head no further than the last emitted block. -/
def counted : Nat × DataEvent B → Option Nat
  | (next, .finalizedHead head) => some (min head.number (next - 1))
  | (_, .block block true) => some (Block.number block)
  | _ => none

/-- An event that leaves finality up to `n` alone. -/
structure Beyond (n : Nat) (event : Nat × DataEvent B) : Prop where
  counted : ∀ m ∈ counted event, n ≤ m
  head : ∀ head, event.2 = .finalizedHead head → n < head.number
  block : ∀ block isFinal, event.2 = .block block isFinal → n < Block.number block

/-- The finalized head is at least `n`, and below the position. -/
def Covered (n : Nat) (s : DataSourceState) : Prop :=
  ∃ m ∈ s.finalizedHead.map BlockRef.number, n ≤ m ∧ m < s.position.firstBlock

variable {n : Nat}

theorem Covered.of_same (h : Same s s') (hs : Covered n s) : Covered n s' := by
  unfold Covered
  rw [h.position, h.finalizedHead]
  exact hs

variable {event : DataEvent B}

theorem Emission.firstBlock (h : Emission s event s') :
    s'.position.firstBlock = nextAfter s.position.firstBlock event := by
  cases h with
  | head _ _ position => rw [position]; rfl
  | block _ position => rw [position]; rfl
  | fork same => rw [same.position]; rfl
  | maybeOnHead same => rw [same.position]; rfl

/-- An event leaves alone what is covered. -/
theorem Emission.beyond (h : Emission s event s') (hs : Covered n s) :
    Beyond n (s.position.firstBlock, event) := by
  obtain ⟨m, hm, hnm, hbl⟩ := hs
  cases h with
  | @head head _ started ahead position taken =>
    obtain ⟨c, hc, rfl⟩ := Option.map_eq_some_iff.mp hm
    have ha := ahead c hc
    refine ⟨?_, ?_, ?_⟩
    · intro k hk
      cases hk
      omega
    · intro g hg
      cases hg
      omega
    · intro b f hb
      cases hb
  | @block block isFinal _ fits position taken =>
    have hf := fits.number
    have hn : n < Block.number block := by omega
    refine ⟨?_, ?_, ?_⟩
    · intro k hk
      cases isFinal with
      | true =>
        cases hk
        omega
      | false => cases hk
    · intro g hg
      cases hg
    · intro b f hb
      cases hb
      exact hn
  | fork => refine ⟨?_, ?_, ?_⟩ <;> intros <;> contradiction
  | maybeOnHead => refine ⟨?_, ?_, ?_⟩ <;> intros <;> contradiction

/-- An event after which there is a block number left. -/
def DataEvent.LeavesRoom (event : DataEvent B) : Prop :=
  ∀ b ∈ event.block?, Block.number b < maxBlockNumber

/-- What is covered stays covered. -/
theorem Emission.keeps (h : Emission s event s') (hroom : event.LeavesRoom) (hs : Covered n s) :
    Covered n s' := by
  obtain ⟨m, hm, hnm, hbl⟩ := hs
  cases h with
  | @head head _ started ahead position taken =>
    obtain ⟨c, hc, rfl⟩ := Option.map_eq_some_iff.mp hm
    have ha := ahead c hc
    refine ⟨_, taken, by omega, ?_⟩
    rw [position]
    omega
  | @block block isFinal _ fits position taken =>
    have hf := fits.number
    have hnx : s'.position.firstBlock = Block.number block + 1 := by
      rw [position, behind_eq_after (hroom block rfl)]
      rfl
    cases isFinal with
    | true => exact ⟨_, taken, by omega, by omega⟩
    | false => exact ⟨m, taken.trans hm, hnm, by omega⟩
  | fork same => exact Covered.of_same same ⟨m, hm, hnm, hbl⟩
  | maybeOnHead same => exact Covered.of_same same ⟨m, hm, hnm, hbl⟩

/-- What an event announces is covered from then on. -/
theorem Emission.covered (h : Emission s event s') (hroom : event.LeavesRoom)
    (hn : n ∈ counted (s.position.firstBlock, event)) : Covered n s' := by
  cases h with
  | head _ _ position taken =>
    cases hn
    refine ⟨_, taken, le_rfl, ?_⟩
    rw [position]
    omega
  | @block block isFinal _ fits position taken =>
    cases isFinal with
    | false => cases hn
    | true =>
      cases hn
      refine ⟨_, taken, le_rfl, ?_⟩
      rw [position, behind_eq_after (hroom block rfl)]
      exact Nat.lt_succ_self _
  | fork => cases hn
  | maybeOnHead => cases hn

theorem Emissions.beyond (h : Emissions s events s')
    (hroom : ∀ e ∈ events.dropLast, e.LeavesRoom) (hs : Covered n s) :
    ∀ e ∈ stamped s.position.firstBlock events, Beyond n e := by
  induction h with
  | nil =>
    intro e he
    cases he
  | @cons s t s' event events first rest ih =>
    intro e he
    rcases mem_cons.mp he with rfl | he
    · exact first.beyond hs
    · rw [← first.firstBlock] at he
      cases events with
      | nil => cases he
      | cons next later =>
        have hc := first.keeps (hroom event (by simp)) hs
        exact ih (fun e he => hroom e (mem_cons_of_mem event he)) hc e he

theorem Emissions.pairwise (h : Emissions s events s')
    (hroom : ∀ e ∈ events.dropLast, e.LeavesRoom) :
    (stamped s.position.firstBlock events).Pairwise fun e e' => ∀ n ∈ counted e, Beyond n e' := by
  induction h with
  | nil => exact List.Pairwise.nil
  | @cons s t s' event events first rest ih =>
    simp only [stamped]
    rw [← first.firstBlock]
    cases events with
    | nil => exact List.pairwise_singleton _ _
    | cons next later =>
      have hrest : ∀ e ∈ (next :: later).dropLast, e.LeavesRoom := fun e he =>
        hroom e (mem_cons_of_mem event he)
      refine List.Pairwise.cons ?_ (ih hrest)
      intro e' he' n hn
      exact rest.beyond hrest (first.covered (hroom event (by simp)) hn) e' he'

/-- After a repositioning, finality that an event announced for emitted blocks is never taken back:
what later events announce is no lower, later heads are higher, and later blocks lie above it. This
holds until an event follows the block with the greatest number. -/
theorem announced_finality_is_monotone {parse : R → Option B} {src src' : StandardDataSource}
    {nextBlock : Nat} {parentBlockHash : Option Hash} {inputs : List (PollInput R)}
    {events : List (DataEvent B)}
    (h : pollAll parse (src.setPosition nextBlock parentBlockHash) inputs = some (events, src'))
    (hroom : ∀ b ∈ blocksOf events.dropLast, Block.number b < maxBlockNumber) :
    (stamped nextBlock events).Pairwise fun e e' => ∀ n ∈ counted e, Beyond n e' := by
  refine Emissions.pairwise (pollAll_emissions h) fun e he b hb => ?_
  exact hroom b (mem_filterMap.mpr ⟨e, he, hb⟩)

section Sample

/-- A block header, enough of a block for the data source. -/
structure Header where
  number : Nat
  hash : Hash
  parentHash : Hash
deriving DecidableEq

local instance headerBlock : Block Header where
  number := Header.number
  hash := Header.hash
  parentHash := Header.parentHash
  timestamp _ := none
  dataAvailabilityMask _ := 0
  hasData _ _ := true

def opened (head : Option BlockRef) : Answer Header :=
  ⟨.ready (.ok (.stream head)), .pending, .pending⟩

def streamed (block : Option Header) : Answer Header :=
  ⟨.pending, .ready (block.map .ok), .pending⟩

def waiting : Answer Header := ⟨.pending, .pending, .pending⟩

/-- Two endpoints. The first one streams blocks and knows of no finalized head; the second one
reports block 200 as finalized, and after a new request block 150. -/
def twoReports : List (PollInput Header) :=
  [ ⟨[[waiting, opened none, streamed (some ⟨100, "h100", "h99"⟩)]], .pending⟩,
    ⟨[[waiting], [waiting, opened (some ⟨200, "h200"⟩)]], .pending⟩,
    ⟨[[waiting], [streamed none, waiting, opened (some ⟨150, "h150"⟩)]], .pending⟩,
    ⟨[[streamed (some ⟨101, "h101", "h100"⟩)]], .pending⟩ ]

def twoReportsEvents : List (DataEvent Header) :=
  [ .block ⟨100, "h100", "h99"⟩ false, .finalizedHead ⟨200, "h200"⟩,
    .finalizedHead ⟨150, "h150"⟩, .block ⟨101, "h101", "h100"⟩ false ]

theorem pollAll_twoReports :
    ∃ src', pollAll some ((StandardDataSource.new 2).setPosition 100 (some "h99")) twoReports =
      some (twoReportsEvents, src') :=
  ⟨_, rfl⟩

theorem emitted_chain_is_linked_sample :
    blocksOf twoReportsEvents = [⟨100, "h100", "h99"⟩, ⟨101, "h101", "h100"⟩] ∧
      (((blocksOf twoReportsEvents).Pairwise fun a b => Block.number a < Block.number b) ∧
        ∀ b ∈ blocksOf twoReportsEvents, 100 ≤ Block.number b) ∧
      ((blocksOf twoReportsEvents).IsChain fun a b => Block.parentHash b = Block.hash a) ∧
      ∀ b ∈ (blocksOf twoReportsEvents).head?, ∀ g ∈ some "h99", Block.parentHash b = g := by
  obtain ⟨_, hr⟩ := pollAll_twoReports
  obtain ⟨hnumbers, hhashes⟩ := emitted_chain_is_linked hr
  exact ⟨rfl, hnumbers (by decide), hhashes⟩

def wrappedReports : List (PollInput Header) :=
  [ ⟨[[waiting, opened none, streamed (some ⟨2 ^ 64 - 1, "top", "h99"⟩)]], .pending⟩,
    ⟨[[streamed (some ⟨5, "h5", "top"⟩)]], .pending⟩ ]

/-- Behind the greatest block number the position is 0, and any block that links is emitted. -/
theorem emitted_numbers_wrap :
    (∃ src', pollAll some ((StandardDataSource.new 1).setPosition 100 (some "h99")) wrappedReports =
        some ([.block ⟨2 ^ 64 - 1, "top", "h99"⟩ false, .block ⟨5, "h5", "top"⟩ false], src')) ∧
      ¬ (blocksOf [DataEvent.block (⟨2 ^ 64 - 1, "top", "h99"⟩ : Header) false,
        .block ⟨5, "h5", "top"⟩ false]).Pairwise fun a b => Block.number a < Block.number b := by
  refine ⟨⟨_, rfl⟩, ?_⟩
  intro h
  have hlt : (2 ^ 64 - 1 : Nat) < 5 := (pairwise_cons.mp h).1 _ mem_cons_self
  omega

theorem announced_finality_is_monotone_sample :
    (stamped 100 twoReportsEvents).filterMap counted = [100, 100] ∧
      (stamped 100 twoReportsEvents).Pairwise fun e e' => ∀ n ∈ counted e, Beyond n e' := by
  obtain ⟨_, hr⟩ := pollAll_twoReports
  exact ⟨by decide, announced_finality_is_monotone hr (by decide)⟩

/-- Heads are announced as reported. The second head is lower than the first one, and the block
below both of them is emitted as not final. -/
theorem announced_heads_recede :
    (∃ src', pollAll some ((StandardDataSource.new 2).setPosition 100 (some "h99")) twoReports =
        some (twoReportsEvents, src')) ∧
      (¬ twoReportsEvents.Pairwise fun e e' => ∀ a b : BlockRef,
        e = .finalizedHead a → e' = .finalizedHead b → a.number < b.number) ∧
      ¬ twoReportsEvents.Pairwise fun e e' => ∀ (a : BlockRef) (b : Header),
        e = .finalizedHead a → e' = .block b false → a.number < b.number := by
  refine ⟨pollAll_twoReports, ?_, ?_⟩
  · intro h
    have hh : (200 : Nat) < 150 :=
      (pairwise_cons.mp (pairwise_cons.mp h).2).1 _ mem_cons_self _ _ rfl rfl
    omega
  · intro h
    have hb : (200 : Nat) < 101 :=
      (pairwise_cons.mp (pairwise_cons.mp h).2).1 _
        (mem_cons_of_mem _ mem_cons_self) _ _ rfl rfl
    omega

end Sample

end DataSource
