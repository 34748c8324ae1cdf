import SqdData.Bds.Chain
import SqdData.Transition

/-!
# Ingestion

Three tasks share the queue of blocks. `grow` pushes blocks and reports finality, and waits while
the queue is full. `write_chain` saves blocks, several at a time, marks them stored and cleans the
queue. `finalize_loop` tells the store which blocks are final. The tasks learn of changes through a
watch channel: each has a flag for changes it has not seen.

One input is one step of a task between two points where it may be suspended. A step whose call
fails or panics is not enabled, as the failure of one task ends the ingestion. The store is the list
of blocks that were saved; `trail` is the part of the current chain below the queue and exists for
the statements only.
-/

namespace Bds

open Storage (BlockRef Hash Error)
open Block

/-! ### The writer -/

/-- `State` of `write_chain`. -/
structure WriterState (B : Type) where
  pending : List B
  maxPending : Nat
  lastBlock : Nat
deriving DecidableEq, Repr

/-- The loop of `find_position`, from a position down. -/
def scanBack (covered : Nat → Bool) : Nat → Nat
  | 0 => if covered 0 then 1 else 0
  | pos + 1 => if covered (pos + 1) then pos + 2 else scanBack covered pos

namespace WriterState

variable {B : Type} [Block B]

def new (maxPending : Nat) : WriterState B := { pending := [], maxPending, lastBlock := 0 }

def hasCapacity (w : WriterState B) : Bool := w.pending.length < w.maxPending

def isPending (w : WriterState B) (block : B) : Bool := w.pending.any fun b => ptr b = ptr block

/-- The test of `find_position` at one position. -/
def covers (w : WriterState B) (e : B × Bool) : Bool := e.2 || w.isPending e.1

def findPosition (w : WriterState B) (chain : Chain B) : Nat :=
  if chain.queue.isEmpty then 0
  else
    let pos := min (bisect chain.numbers w.lastBlock) (chain.len - 1)
    scanBack (fun i => (chain.queue[i]?).any w.covers) pos

/-- `State::advance`, with the blocks it hands to the callback. -/
def advance (w : WriterState B) (chain : Chain B) : WriterState B × List B :=
  let pos := w.findPosition chain
  let stop := min (pos + w.maxPending - w.pending.length) chain.len
  let started := (chain.blocks.take stop).drop pos
  ({ w with
      pending := w.pending ++ started
      lastBlock := (started.getLast?.map number).getD w.lastBlock }, started)

def ready (w : WriterState B) (block : B) : WriterState B :=
  { w with pending := w.pending.filter fun b => ptr b ≠ ptr block }

end WriterState

/-! ### The tasks -/

/-- Where `write_chain` is: before `advance`, in `select!`, or between the mark of a stored block
and `ready`. -/
inductive WriterPhase (B : Type) where
  | advancing
  | selecting
  | settling (block : B)
deriving DecidableEq, Repr

/-- Where `grow` is: at the next event, before the size check of `ChainSender::wait`, or waiting for
a change. -/
inductive GrowPhase where
  | running
  | checking
  | waiting
deriving DecidableEq, Repr

structure Ingest (B : Type) where
  chain : Chain B
  maxSize : Nat
  firstBlock : Nat
  grow : GrowPhase
  growChanged : Bool
  writer : WriterState B
  writes : List B
  phase : WriterPhase B
  writeChanged : Bool
  prev : Option Nat
  call : Option (Nat × BlockRef)
  finalizeChanged : Bool
  saved : List BlockRef
  trail : List BlockRef
deriving DecidableEq, Repr

inductive IngestOp (B : Type) where
  | push (isFinal : Bool) (block : B)
  | finalize (head : BlockRef)
  | checkSize
  | growWake
  | advance
  | writeWake
  | written (pos : Nat)
  | ready
  | finalizeWake
  | finalizeDone
deriving DecidableEq, Repr

/-- What `Ingest::new` is given. -/
structure Params where
  firstBlock : Nat
  minSize : Nat
  maxSize : Nat
  maxPending : Nat
deriving DecidableEq, Repr

namespace Ingest

variable {B : Type} [Block B]

/-- A change of the queue that is sent to the receivers. -/
def notify (s : Ingest B) : Ingest B :=
  { s with growChanged := true, writeChanged := true, finalizeChanged := true }

/-- `Ingest::start`, with the chain found in the store. -/
def start (params : Params) (head : HeadChain) (saved : List BlockRef) : Option (Ingest B) :=
  (Chain.new head params.minSize).map fun chain =>
    { chain
      maxSize := params.maxSize
      firstBlock := params.firstBlock
      grow := .running
      growChanged := false
      writer := .new params.maxPending
      writes := []
      phase := .advancing
      writeChanged := false
      prev := chain.storedFinalizedHead.map BlockRef.number
      call := none
      finalizeChanged := false
      saved
      trail := head.blocks }

def push (s : Ingest B) (isFinal : Bool) (block : B) : Option (Ingest B) :=
  match s.chain.push block with
  | some (.ok (), chain) =>
    some { s.notify with
      chain := if isFinal then chain.finalizeAll else chain
      grow := if chain.len ≤ s.maxSize then .running else .checking
      trail := s.trail.filter fun b => b.number ≤ parentNumber block }
  | _ => none

def finalize (s : Ingest B) (head : BlockRef) : Option (Ingest B) :=
  match s.chain.finalize head with
  | some (.ok changed, chain) =>
    let s := { s with chain }
    some (if changed then s.notify else s)
  | _ => none

/-- `ChainSender::mark_stored`: a block that is marked has the queue cleaned. -/
def markStored (s : Ingest B) (block : B) : Ingest B :=
  match s.chain.markStored (number block) (hash block) with
  | (_, false) => s
  | (chain, true) =>
    let (cleaned, dropped) := chain.clean
    let gone := (chain.blocks.take (chain.len - cleaned.len)).map ptr
    let s := { s with chain := cleaned, trail := s.trail ++ gone }
    if dropped then s.notify else s

/-- One round of `finalize_loop` up to the call of the store. -/
def finalizeRound (s : Ingest B) : Option (Ingest B) :=
  match s.chain.storedFinalizedHead with
  | none => some { s with finalizeChanged := false }
  | some head =>
    if s.prev = some head.number then some { s with finalizeChanged := false }
    else
      let first := s.prev.getD s.firstBlock
      if first ≤ head.number then
        some { s with finalizeChanged := false, call := some (first, head) }
      else none

def step (s : Ingest B) : IngestOp B → Option (Ingest B)
  | .push isFinal block =>
    match s.grow with
    | .running => s.push isFinal block
    | _ => none
  | .finalize head =>
    match s.grow with
    | .running => s.finalize head
    | _ => none
  | .checkSize =>
    match s.grow with
    | .checking =>
      if s.maxSize ≤ s.chain.len then some { s with grow := .waiting, growChanged := false }
      else some { s with grow := .running }
    | _ => none
  | .growWake =>
    match s.grow with
    | .waiting => if s.growChanged then some { s with grow := .checking } else none
    | _ => none
  | .advance =>
    match s.phase with
    | .advancing =>
      if s.writer.hasCapacity then
        let (writer, started) := s.writer.advance s.chain
        some { s with
          writer
          writes := s.writes ++ started
          phase := .selecting
          writeChanged := false }
      else some { s with phase := .selecting }
    | _ => none
  | .writeWake =>
    match s.phase with
    | .selecting =>
      if s.writer.hasCapacity && s.writeChanged then
        some { s with phase := .advancing, writeChanged := false }
      else none
    | _ => none
  | .written pos =>
    match s.phase, s.writes[pos]? with
    | .selecting, some block =>
      some { s.markStored block with
        writes := s.writes.eraseIdx pos
        saved := ptr block :: s.saved
        phase := .settling block }
    | _, _ => none
  | .ready =>
    match s.phase with
    | .settling block => some { s with writer := s.writer.ready block, phase := .advancing }
    | _ => none
  | .finalizeWake => if s.finalizeChanged && s.call.isNone then s.finalizeRound else none
  | .finalizeDone =>
    match s.call with
    | some (_, head) => some { s with prev := some head.number, call := none }
    | none => none

/-- The steps of ingestion, one constructor for each way an input can take effect. -/
inductive Step (s : Ingest B) : IngestOp B → Ingest B → Prop where
  | push {isFinal : Bool} {block : B} {chain : Chain B} (running : s.grow = .running)
      (pushed : s.chain.push block = some (.ok (), chain)) :
      Step s (.push isFinal block) { s.notify with
        chain := if isFinal then chain.finalizeAll else chain
        grow := if chain.len ≤ s.maxSize then .running else .checking
        trail := s.trail.filter fun b => b.number ≤ parentNumber block }
  | finalize {head : BlockRef} {changed : Bool} {chain : Chain B} (running : s.grow = .running)
      (finalized : s.chain.finalize head = some (.ok changed, chain)) :
      Step s (.finalize head)
        (if changed then ({ s with chain } : Ingest B).notify else { s with chain })
  | sizeFull (checking : s.grow = .checking) (full : s.maxSize ≤ s.chain.len) :
      Step s .checkSize { s with grow := .waiting, growChanged := false }
  | sizeFree (checking : s.grow = .checking) (free : s.chain.len < s.maxSize) :
      Step s .checkSize { s with grow := .running }
  | growWake (waiting : s.grow = .waiting) (changed : s.growChanged = true) :
      Step s .growWake { s with grow := .checking }
  | advance (advancing : s.phase = .advancing) (capacity : s.writer.hasCapacity = true) :
      Step s .advance { s with
        writer := (s.writer.advance s.chain).1
        writes := s.writes ++ (s.writer.advance s.chain).2
        phase := .selecting
        writeChanged := false }
  | advanceFull (advancing : s.phase = .advancing) (full : s.writer.hasCapacity = false) :
      Step s .advance { s with phase := .selecting }
  | writeWake (selecting : s.phase = .selecting) (capacity : s.writer.hasCapacity = true)
      (changed : s.writeChanged = true) :
      Step s .writeWake { s with phase := .advancing, writeChanged := false }
  | written {pos : Nat} {block : B} (selecting : s.phase = .selecting)
      (write : s.writes[pos]? = some block) :
      Step s (.written pos) { s.markStored block with
        writes := s.writes.eraseIdx pos
        saved := ptr block :: s.saved
        phase := .settling block }
  | ready {block : B} (settling : s.phase = .settling block) :
      Step s .ready { s with writer := s.writer.ready block, phase := .advancing }
  | finalizeSkip (idle : s.call = none) : Step s .finalizeWake { s with finalizeChanged := false }
  | finalizeCall {head : BlockRef} (idle : s.call = none)
      (stored : s.chain.storedFinalizedHead = some head)
      (ordered : s.prev.getD s.firstBlock ≤ head.number) :
      Step s .finalizeWake { s with
        finalizeChanged := false, call := some (s.prev.getD s.firstBlock, head) }
  | finalizeDone {first : Nat} {head : BlockRef} (call : s.call = some (first, head)) :
      Step s .finalizeDone { s with prev := some head.number, call := none }

section Steps

variable {s s' : Ingest B}

theorem step_push {isFinal : Bool} {block : B} (running : s.grow = .running)
    (h : s.push isFinal block = some s') : Step s (.push isFinal block) s' := by
  unfold Ingest.push at h
  split at h
  · rename_i chain pushed
    cases h
    exact .push running pushed
  · cases h

theorem step_finalize {head : BlockRef} (running : s.grow = .running)
    (h : s.finalize head = some s') : Step s (.finalize head) s' := by
  unfold Ingest.finalize at h
  split at h
  · rename_i changed chain finalized
    cases h
    exact .finalize running finalized
  · cases h

theorem step_checkSize (h : s.step .checkSize = some s') : Step s .checkSize s' := by
  dsimp only [step] at h
  split at h
  · rename_i checking
    split at h
    · rename_i full
      cases h
      exact .sizeFull checking full
    · rename_i free
      cases h
      exact .sizeFree checking (not_le.mp free)
  · cases h

theorem step_advance (h : s.step .advance = some s') : Step s .advance s' := by
  dsimp only [step] at h
  split at h
  · rename_i advancing
    split at h
    · rename_i capacity
      cases h
      exact .advance advancing capacity
    · rename_i full
      cases h
      exact .advanceFull advancing (by simpa using full)
  · cases h

theorem step_finalizeRound (idle : s.call = none) (h : s.finalizeRound = some s') :
    Step s .finalizeWake s' := by
  unfold finalizeRound at h
  split at h
  · cases h
    exact .finalizeSkip idle
  · rename_i head stored
    split at h
    · cases h
      exact .finalizeSkip idle
    · exact Machine.of_guarded h (.finalizeCall idle stored)

theorem step_cases {op : IngestOp B} (h : s.step op = some s') : Step s op s' := by
  cases op with
  | push =>
    dsimp only [step] at h
    split at h
    · exact step_push ‹_› h
    · cases h
  | finalize =>
    dsimp only [step] at h
    split at h
    · exact step_finalize ‹_› h
    · cases h
  | checkSize => exact step_checkSize h
  | growWake =>
    dsimp only [step] at h
    split at h
    · exact Machine.of_guarded h (.growWake ‹_›)
    · cases h
  | advance => exact step_advance h
  | writeWake =>
    dsimp only [step] at h
    split at h
    · refine Machine.of_guarded h fun hw => ?_
      obtain ⟨capacity, changed⟩ := Bool.and_eq_true_iff.mp hw
      exact .writeWake ‹_› capacity changed
    · cases h
  | written =>
    dsimp only [step] at h
    split at h
    · exact Option.some.inj h ▸ .written ‹_› ‹_›
    · cases h
  | ready =>
    dsimp only [step] at h
    split at h
    · exact Option.some.inj h ▸ .ready ‹_›
    · cases h
  | finalizeWake =>
    obtain ⟨hw, h⟩ := Option.ite_none_right_eq_some.mp h
    exact step_finalizeRound (by simpa using (Bool.and_eq_true_iff.mp hw).2) h
  | finalizeDone =>
    dsimp only [step] at h
    split at h
    · exact Option.some.inj h ▸ .finalizeDone ‹_›
    · cases h

end Steps

/-- Ingestion as a machine. What the store holds at the start is a chain in ascending order. -/
def machine (params : Params) : Machine (Ingest B) (IngestOp B) where
  init := fun s => ∃ head saved, (head.blocks.map BlockRef.number).Pairwise (· < ·) ∧
    (∀ b ∈ head.blocks, b ∈ saved) ∧ start params head saved = some s
  step := step

end Ingest

end Bds
