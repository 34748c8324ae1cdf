import SqdData.Storage.Data
import SqdData.Wrapping

/-!
# The standard data source

`StandardDataSource` reads blocks from several endpoints at once. The endpoints share one position:
the next block wanted and the hash of its parent. Whichever endpoint delivers a block that fits the
position moves it for all of them.

Endpoints are outside of the program. Their futures, streams and timers are given as answers, one
for each round of the loop in `poll_endpoint`, and every theorem is about arbitrary answers. A poll
that panics or is given too few answers to return has no result. Metrics and logging are left out.
-/

namespace DataSource

open Storage

abbrev DataMask := BitVec 32

/-- `Block`: what ingestion reads off a block. -/
class Block (B : Type) where
  number : B → Nat
  hash : B → Hash
  parentHash : B → Hash
  timestamp : B → Option Int
  dataAvailabilityMask : B → DataMask
  hasData : DataMask → String → Bool

inductive Poll (α : Type) where
  | ready (a : α)
  | pending
deriving DecidableEq, Repr

structure BlockStreamRequest where
  firstBlock : Nat
  parentBlockHash : Option Hash
deriving DecidableEq, Repr

/-- `BlockStreamResponse`. The blocks of a stream are among the later answers. -/
inductive BlockStreamResponse where
  | stream (finalizedHead : Option BlockRef)
  | fork (prevBlocks : List BlockRef)
deriving DecidableEq, Repr

/-- What polling gives in one round of the loop, for each thing an endpoint may be waiting for. -/
structure Answer (R : Type) where
  future : Poll (Except Unit BlockStreamResponse)
  blocks : Poll (Option (Except Unit R))
  sleep : Poll Unit

inductive DataEvent (B : Type) where
  | finalizedHead (head : BlockRef)
  | block (block : B) (isFinal : Bool)
  | fork (prevBlocks : List BlockRef)
  | maybeOnHead
deriving DecidableEq, Repr

inductive EndpointState where
  | ready
  | req (req : BlockStreamRequest)
  | stream (finalizedHead : Nat)
  | fork (req : BlockStreamRequest) (prevBlocks : List BlockRef)
  | backoff (pause : Nat)
deriving DecidableEq, Repr

structure Endpoint where
  state : EndpointState
  errorCounter : Nat
  rejectCounter : Nat
  lastCommittedBlock : Option Nat
deriving DecidableEq, Repr

namespace Endpoint

def isOnFork (ep : Endpoint) : Bool :=
  match ep.state with
  | .fork _ _ => true
  | _ => false

def isActive (ep : Endpoint) : Bool :=
  match ep.state with
  | .backoff _ => false
  | _ => true

/-- `backoff_ms`: the ladder of pauses, which stops at its last rung. -/
def backoffMs (consecutive : Nat) : Nat :=
  [0, 100, 200, 500, 1000, 2000, 5000, 10000].getD (min consecutive 7) 0

def paused (pause : Nat) : EndpointState :=
  if pause > 0 then .backoff pause else .ready

def onError (ep : Endpoint) : Endpoint :=
  { ep with state := paused (backoffMs ep.errorCounter), errorCounter := ep.errorCounter + 1 }

def onReject (ep : Endpoint) : Endpoint :=
  { ep with state := paused (backoffMs ep.rejectCounter), rejectCounter := ep.rejectCounter + 1 }

end Endpoint

/-- `DataSourceState`. Of the fork consensus timer and its start only whether they are set. -/
structure DataSourceState where
  finalizedHead : Option BlockRef
  position : BlockStreamRequest
  positionIsCanonical : Bool
  maxSeenFinalizedBlock : Nat
  forkConsensusTimeout : Bool
  forkConsensusStartedAt : Bool
deriving DecidableEq, Repr

/-- What one round of the loop in `poll_endpoint` comes to. -/
inductive Round (B : Type) where
  | next (s : DataSourceState) (ep : Endpoint)
  | done (poll : Poll (DataEvent B)) (s : DataSourceState) (ep : Endpoint)

namespace DataSourceState

variable {B R : Type} [Block B]

def resetForkConsensus (s : DataSourceState) : DataSourceState :=
  { s with forkConsensusTimeout := false, forkConsensusStartedAt := false }

/-- `accept_new_block`: the state after the block, or `none` for a block that does not link. -/
def acceptNewBlock (s : DataSourceState) (block : B) (isFinal : Bool) : Option DataSourceState :=
  let accepted : DataSourceState :=
    { s.resetForkConsensus with
      position :=
        { firstBlock := Wrapping.succ 64 (Block.number block)
          parentBlockHash := some (Block.hash block) }
      positionIsCanonical := true
      finalizedHead :=
        if isFinal then some { number := Block.number block, hash := Block.hash block }
        else s.finalizedHead }
  match s.position.parentBlockHash with
  | some parentHash => if Block.parentHash block ≠ parentHash then none else some accepted
  | none => some accepted

/-- `on_new_finalized_head`: whether the head was taken, and the state it leaves. A head at or above
the position stands for the last block before the position, if that block came from the stream. -/
def onNewFinalizedHead (s : DataSourceState) : Option BlockRef → Bool × DataSourceState
  | none => (false, s)
  | some newHead =>
    let seen := { s with maxSeenFinalizedBlock := max s.maxSeenFinalizedBlock newHead.number }
    if s.position.firstBlock = 0 then (false, seen)
    else
      match s.position.parentBlockHash with
      | none => (false, seen)
      | some currentParentHash =>
        if s.finalizedHead.any fun c => decide (c.number ≥ newHead.number) then (false, seen)
        else if newHead.number ≥ s.position.firstBlock then
          if s.positionIsCanonical then
            (true, { seen with
              finalizedHead :=
                some { number := s.position.firstBlock - 1, hash := currentParentHash } })
          else (false, seen)
        else (true, { seen with finalizedHead := some newHead })

def round (parse : R → Option B) (s : DataSourceState) (ep : Endpoint) (a : Answer R) : Round B :=
  match ep.state with
  | .ready => .next s { ep with state := .req s.position }
  | .req req =>
    match a.future with
    | .ready (.ok (.stream finalizedHead)) =>
      let ep' : Endpoint :=
        { ep with
          errorCounter := 0
          state := .stream (finalizedHead.elim 0 BlockRef.number) }
      let (updated, s') := s.onNewFinalizedHead finalizedHead
      match finalizedHead with
      | some head =>
        if updated then .done (.ready (.finalizedHead head)) s' ep' else .next s' ep'
      | none => .next s' ep'
    | .ready (.ok (.fork prevBlocks)) =>
      .next { s with forkConsensusStartedAt := true }
        { ep with errorCounter := 0, state := .fork req prevBlocks }
    | .ready (.error _) => .next s ep.onError
    | .pending => .done .pending s ep
  | .stream finalizedHead =>
    match a.blocks with
    | .ready none =>
      let ep' := { ep with errorCounter := 0, state := .ready }
      let prevBlock := s.position.firstBlock - 1
      if prevBlock ≥ s.maxSeenFinalizedBlock && ep.lastCommittedBlock = some prevBlock then
        .done (.ready .maybeOnHead) s ep'
      else .next s ep'
    | .ready (some (.ok newBlock)) =>
      match parse newBlock with
      | some block =>
        let ep' := { ep with errorCounter := 0 }
        -- A late block of a slower endpoint is passed over.
        if Block.number block ≥ s.position.firstBlock then
          let isFinal := decide (finalizedHead ≥ Block.number block)
          match s.acceptNewBlock block isFinal with
          | some s' =>
            .done (.ready (.block block isFinal)) s'
              { ep' with rejectCounter := 0, lastCommittedBlock := some (Block.number block) }
          | none => .next s ep'.onReject
        else .next s ep'
      | none => .next s ep.onError
    | .ready (some (.error _)) => .next s ep.onError
    | .pending => .done .pending s ep
  | .fork req _ =>
    if req = s.position then .done .pending s ep else .next s { ep with state := .ready }
  | .backoff _ =>
    match a.sleep with
    | .ready _ => .next s { ep with state := .ready }
    | .pending => .done .pending s ep

/-- `poll_endpoint`, driven by one answer for each round. -/
def pollEndpoint (parse : R → Option B) (s : DataSourceState) (ep : Endpoint) :
    List (Answer R) → Option (Poll (DataEvent B) × DataSourceState × Endpoint)
  | [] => none
  | a :: answers =>
    match s.round parse ep a with
    | .next s' ep' => pollEndpoint parse s' ep' answers
    | .done poll s' ep' => some (poll, s', ep')

end DataSourceState

structure StandardDataSource where
  endpoints : List Endpoint
  state : DataSourceState
deriving DecidableEq, Repr

/-- What one call of `poll_next_event` is answered: by each endpoint and by the consensus timer. -/
structure PollInput (R : Type) where
  endpoints : List (List (Answer R))
  timeout : Poll Unit

namespace StandardDataSource

variable {B R : Type} [Block B]

/-- `StandardDataSource::new`, for as many endpoints as there are clients. -/
def new (clients : Nat) : StandardDataSource where
  endpoints := List.replicate clients
    { state := .ready, errorCounter := 0, rejectCounter := 0, lastCommittedBlock := none }
  state :=
    { finalizedHead := none
      position := { firstBlock := 0, parentBlockHash := none }
      positionIsCanonical := false
      maxSeenFinalizedBlock := 0
      forkConsensusTimeout := false
      forkConsensusStartedAt := false }

/-- The loop over the endpoints: it stops at the first one that has an event. -/
def pollEndpoints (parse : R → Option B) (s : DataSourceState) :
    List Endpoint → List (List (Answer R)) →
      Option (Option (Nat × DataEvent B) × DataSourceState × List Endpoint)
  | [], _ => some (none, s, [])
  | ep :: eps, answers =>
    match s.pollEndpoint parse ep (answers.headD []) with
    | none => none
    | some (.ready event, s', ep') => some (some (0, event), s', ep' :: eps)
    | some (.pending, s', ep') =>
      match pollEndpoints parse s' eps answers.tail with
      | none => none
      | some (committed, s'', eps') =>
        some (committed.map fun c => (c.1 + 1, c.2), s'', ep' :: eps')

/-- A strike of another endpoint is void once the position has moved, and so is the pause it
caused. A pause that an error may have caused is kept. -/
def clearStrike (other : Endpoint) : Endpoint :=
  let rejectAttributable := decide (other.rejectCounter > 0) && other.errorCounter == 0
  { other with
    rejectCounter := 0
    state := if rejectAttributable && !other.isActive then .ready else other.state }

/-- `fork_consensus_timeout`. -/
def pollForkConsensusTimeout (s : DataSourceState) (timeout : Poll Unit) : Bool × DataSourceState :=
  match timeout with
  | .pending => (false, { s with forkConsensusTimeout := true })
  | .ready _ => (true, { s with forkConsensusTimeout := false })

/-- The longest chain of hints among the endpoints on a fork, the first one of that length. -/
def forkChain (endpoints : List Endpoint) : List BlockRef :=
  endpoints.foldl
    (fun chain ep =>
      match ep.state with
      | .fork _ prevBlocks => if prevBlocks.length > chain.length then prevBlocks else chain
      | _ => chain)
    []

def extractFork (src : StandardDataSource) : Option (List BlockRef × StandardDataSource) :=
  let chain := forkChain src.endpoints
  -- `assert!(!chain.is_empty())`
  if chain.isEmpty then none
  else
    some (chain,
      { endpoints := src.endpoints.map fun ep => { ep with state := .ready }
        state := src.state.resetForkConsensus })

/-- Whether the fork is agreed on: by a majority, by all active endpoints or by the timeout. -/
def decideFork (src : StandardDataSource) (forks : Nat) (timeout : Poll Unit) :
    Bool × DataSourceState :=
  if forks > src.endpoints.length / 2 then (true, src.state)
  else if forks = src.endpoints.countP Endpoint.isActive then (true, src.state)
  else pollForkConsensusTimeout src.state timeout

/-- The part of `poll_next_event` that runs when no endpoint has an event. -/
def pollForks (src : StandardDataSource) (timeout : Poll Unit) :
    Option (Poll (DataEvent B) × StandardDataSource) :=
  let forks := src.endpoints.countP Endpoint.isOnFork
  if forks > 0 then
    match src.decideFork forks timeout with
    | (true, state) =>
      -- `expect("fork consensus must start with the first fork signal")`
      if state.forkConsensusStartedAt then
        (extractFork { src with state }).map fun (chain, src') => (.ready (.fork chain), src')
      else none
    | (false, state) => some (.pending, { src with state })
  else some (.pending, { src with state := src.state.resetForkConsensus })

def pollNextEvent (parse : R → Option B) (src : StandardDataSource) (input : PollInput R) :
    Option (Poll (DataEvent B) × StandardDataSource) :=
  match pollEndpoints parse src.state src.endpoints input.endpoints with
  | none => none
  | some (some (committedIdx, .block block isFinal), state, endpoints) =>
    some (.ready (.block block isFinal),
      { endpoints := endpoints.mapIdx fun j ep => if j = committedIdx then ep else clearStrike ep
        state })
  | some (some (_, event), state, endpoints) => some (.ready event, { endpoints, state })
  | some (none, state, endpoints) => pollForks { endpoints, state } input.timeout

def setPosition (src : StandardDataSource) (nextBlock : Nat) (parentBlockHash : Option Hash) :
    StandardDataSource where
  endpoints := src.endpoints.map fun ep =>
    { ep with state := .ready, lastCommittedBlock := none, rejectCounter := 0 }
  state :=
    { src.state.resetForkConsensus with
      position := { firstBlock := nextBlock, parentBlockHash }
      positionIsCanonical := false
      finalizedHead := none }

/-- The events of a sequence of polls, in the order in which they are emitted. -/
def pollAll (parse : R → Option B) :
    StandardDataSource → List (PollInput R) → Option (List (DataEvent B) × StandardDataSource)
  | src, [] => some ([], src)
  | src, input :: inputs =>
    match src.pollNextEvent parse input with
    | none => none
    | some (.pending, src') => pollAll parse src' inputs
    | some (.ready event, src') =>
      (pollAll parse src' inputs).map fun (events, src'') => (event :: events, src'')

end StandardDataSource

end DataSource
