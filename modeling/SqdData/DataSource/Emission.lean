import SqdData.DataSource.Standard

/-!
# What the data source emits

One round of the loop, one poll and a sequence of polls change the position and the finalized head
in the same few ways, listed once in `Emission`. Every property of the event stream follows from
that list.
-/

namespace DataSource

open Storage

variable {B R : Type} [Block B]

/-- Two states that agree on the position and on the finalized head. -/
structure Same (s s' : DataSourceState) : Prop where
  position : s'.position = s.position
  finalizedHead : s'.finalizedHead = s.finalizedHead

theorem Same.refl (s : DataSourceState) : Same s s := ⟨rfl, rfl⟩

variable {s t u : DataSourceState}

theorem Same.trans (h₁ : Same s t) (h₂ : Same t u) : Same s u :=
  ⟨h₂.position.trans h₁.position, h₂.finalizedHead.trans h₁.finalizedHead⟩

/-- A block fits a position: it is not below it and names the expected parent, if one is known. -/
structure Fits (position : BlockStreamRequest) (block : B) : Prop where
  number : position.firstBlock ≤ Block.number block
  parent : ∀ h ∈ position.parentBlockHash, Block.parentHash block = h

/-- The position behind a block. -/
def after (block : B) : BlockStreamRequest where
  firstBlock := Block.number block + 1
  parentBlockHash := some (Block.hash block)

/-- The position behind a block in 64 bits, as the data source keeps it. -/
def behind (block : B) : BlockStreamRequest where
  firstBlock := Wrapping.succ 64 (Block.number block)
  parentBlockHash := some (Block.hash block)

theorem behind_eq_after {block : B} (h : Block.number block < maxBlockNumber) :
    behind block = after block := by
  have hs : Wrapping.succ 64 (Block.number block) = Block.number block + 1 := by
    refine Wrapping.succ_of_lt ?_
    unfold maxBlockNumber at h
    omega
  rw [behind, hs]
  rfl

/-- How an event changes the state it is emitted from. -/
inductive Emission (s : DataSourceState) : DataEvent B → DataSourceState → Prop where
  | head {head : BlockRef} {s' : DataSourceState} (started : 0 < s.position.firstBlock)
      (ahead : ∀ c ∈ s.finalizedHead, c.number < head.number)
      (position : s'.position = s.position)
      (taken : s'.finalizedHead.map BlockRef.number =
        some (min head.number (s.position.firstBlock - 1))) :
      Emission s (.finalizedHead head) s'
  | block {block : B} {isFinal : Bool} {s' : DataSourceState} (fits : Fits s.position block)
      (position : s'.position = behind block)
      (taken : s'.finalizedHead.map BlockRef.number =
        if isFinal then some (Block.number block) else s.finalizedHead.map BlockRef.number) :
      Emission s (.block block isFinal) s'
  | fork {prevBlocks : List BlockRef} {s' : DataSourceState} (same : Same s s') :
      Emission s (.fork prevBlocks) s'
  | maybeOnHead {s' : DataSourceState} (same : Same s s') : Emission s .maybeOnHead s'

/-- What a poll does to the state: nothing while it is pending. -/
def Polls (s : DataSourceState) (s' : DataSourceState) : Poll (DataEvent B) → Prop
  | .ready event => Emission s event s'
  | .pending => Same s s'

/-- An emission sees of a state only its position and its finalized head. -/
theorem Emission.of_same {event : DataEvent B} (h : Same s t) (e : Emission t event u) :
    Emission s event u := by
  obtain ⟨hp, hf⟩ := h
  cases e with
  | head started ahead position taken =>
    rw [hp] at started position taken
    rw [hf] at ahead
    exact .head started ahead position taken
  | block fits position taken =>
    rw [hp] at fits
    rw [hf] at taken
    exact .block fits position taken
  | fork same => exact .fork (Same.trans ⟨hp, hf⟩ same)
  | maybeOnHead same => exact .maybeOnHead (Same.trans ⟨hp, hf⟩ same)

variable {poll : Poll (DataEvent B)}

theorem Polls.of_same (h : Same s t) (hp : Polls t u poll) : Polls s u poll := by
  cases poll with
  | ready => exact Emission.of_same h hp
  | pending => exact h.trans hp

/-- An emission for each event, one after the other. -/
inductive Emissions : DataSourceState → List (DataEvent B) → DataSourceState → Prop where
  | nil {s s' : DataSourceState} (same : Same s s') : Emissions s [] s'
  | cons {s t s' : DataSourceState} {event : DataEvent B} {events : List (DataEvent B)}
      (first : Emission s event t) (rest : Emissions t events s') : Emissions s (event :: events) s'

theorem Emissions.of_same {events : List (DataEvent B)} (h : Same s t) (e : Emissions t events u) :
    Emissions s events u := by
  cases e with
  | nil same => exact .nil (h.trans same)
  | cons first rest => exact .cons (first.of_same h) rest

variable {s' : DataSourceState} {parse : R → Option B}

namespace DataSourceState

theorem same_resetForkConsensus (s : DataSourceState) : Same s s.resetForkConsensus := ⟨rfl, rfl⟩

theorem acceptNewBlock_emission {block : B} {isFinal : Bool}
    (hn : s.position.firstBlock ≤ Block.number block)
    (h : s.acceptNewBlock block isFinal = some s') : Emission s (.block block isFinal) s' := by
  unfold acceptNewBlock at h
  cases hp : s.position.parentBlockHash with
  | none =>
    simp only [hp, Option.some.injEq] at h
    subst h
    refine .block ⟨hn, ?_⟩ rfl ?_
    · simp [hp]
    · cases isFinal <;> rfl
  | some parentHash =>
    simp only [hp] at h
    split at h
    · cases h
    · rename_i hl
      cases h
      refine .block ⟨hn, ?_⟩ rfl ?_
      · intro g hg
        rw [hp] at hg
        cases hg
        exact not_not.mp hl
      · cases isFinal <;> rfl

/-- A head that is taken is ahead of the current one, and is recorded no further than the
position. -/
theorem onNewFinalizedHead_true {head : BlockRef}
    (h : s.onNewFinalizedHead (some head) = (true, s')) :
    Emission s (.finalizedHead head : DataEvent B) s' := by
  simp only [onNewFinalizedHead] at h
  split at h
  · cases h
  · split at h
    · cases h
    · split at h
      · cases h
      · rename_i hb
        have ha : ∀ c ∈ s.finalizedHead, c.number < head.number := by
          intro c hc
          by_contra hle
          apply hb
          rw [Option.mem_def.mp hc]
          simp only [Option.any_some, decide_eq_true_eq]
          omega
        have hs : 0 < s.position.firstBlock := by omega
        split at h
        · split at h
          · cases h
            refine .head hs ha rfl ?_
            have : min head.number (s.position.firstBlock - 1) = s.position.firstBlock - 1 := by
              omega
            simp [this]
          · cases h
        · cases h
          refine .head hs ha rfl ?_
          have : min head.number (s.position.firstBlock - 1) = head.number := by omega
          simp [this]

theorem onNewFinalizedHead_false {head : Option BlockRef}
    (h : s.onNewFinalizedHead head = (false, s')) : Same s s' := by
  cases head with
  | none =>
    cases h
    exact Same.refl s
  | some =>
    simp only [onNewFinalizedHead] at h
    repeat' split at h
    all_goals
      cases h
      try exact ⟨rfl, rfl⟩

/-- What a round of the loop may do to the state. -/
def RoundOk (s : DataSourceState) : Round B → Prop
  | .next s' _ => Same s s'
  | .done poll s' _ => Polls s s' poll

theorem round_ok (parse : R → Option B) (s : DataSourceState) (ep : Endpoint) (a : Answer R) :
    RoundOk s (s.round parse ep a) := by
  unfold round
  split
  · exact Same.refl s
  · split
    · rename_i head _
      cases ht : s.onNewFinalizedHead head with
      | mk updated =>
        cases head with
        | none => exact onNewFinalizedHead_false (ht.trans (by cases ht; rfl))
        | some =>
          cases updated with
          | true => exact onNewFinalizedHead_true ht
          | false => exact onNewFinalizedHead_false ht
    · exact ⟨rfl, rfl⟩
    · exact Same.refl s
    · exact Same.refl s
  · split
    · -- The stream has ended.
      simp only []
      split
      · exact Emission.maybeOnHead (Same.refl s)
      · exact Same.refl s
    · split
      · simp only []
        split
        · rename_i hn
          split
          · rename_i s' ha
            exact acceptNewBlock_emission hn ha
          · exact Same.refl s
        · exact Same.refl s
      · exact Same.refl s
    · exact Same.refl s
    · exact Same.refl s
  · split
    · exact Same.refl s
    · exact Same.refl s
  · split
    · exact Same.refl s
    · exact Same.refl s

theorem pollEndpoint_polls {ep ep' : Endpoint} {answers : List (Answer R)}
    (h : s.pollEndpoint parse ep answers = some (poll, s', ep')) : Polls s s' poll := by
  induction answers generalizing s ep with
  | nil => cases h
  | cons a answers ih =>
    have hr := round_ok parse s ep a
    unfold pollEndpoint at h
    split at h
    · rename_i t ep₁ hn
      rw [hn] at hr
      exact Polls.of_same hr (ih h)
    · rename_i poll₁ t ep₁ hd
      rw [hd] at hr
      cases h
      exact hr

end DataSourceState

namespace StandardDataSource

open DataSourceState

/-- The loop over the endpoints emits at most one event. -/
theorem pollEndpoints_polls {eps eps' : List Endpoint} {answers : List (List (Answer R))}
    {committed : Option (Nat × DataEvent B)}
    (h : pollEndpoints parse s eps answers = some (committed, s', eps')) :
    Polls s s' (committed.elim .pending fun c => .ready c.2) := by
  induction eps generalizing s answers committed eps' with
  | nil =>
    cases h
    exact Same.refl _
  | cons ep eps ih =>
    unfold pollEndpoints at h
    split at h
    · cases h
    · rename_i event t ep' hp
      cases h
      exact pollEndpoint_polls hp
    · rename_i t ep' hp
      have hq := pollEndpoint_polls hp
      split at h
      · cases h
      · rename_i later u eps₁ hr
        cases h
        have hl := ih hr
        cases later with
        | none => exact hq.trans hl
        | some => exact Emission.of_same hq hl

variable {src : StandardDataSource}

theorem decideFork_same {forks : Nat} {timeout : Poll Unit} {decided : Bool}
    {state : DataSourceState} (h : src.decideFork forks timeout = (decided, state)) :
    Same src.state state := by
  unfold decideFork pollForkConsensusTimeout at h
  repeat' split at h
  all_goals
    cases h
    exact ⟨rfl, rfl⟩

variable {src' : StandardDataSource}

theorem extractFork_same {chain : List BlockRef} (h : src.extractFork = some (chain, src')) :
    Same src.state src'.state := by
  unfold extractFork at h
  simp only [] at h
  split at h
  · cases h
  · cases h
    exact same_resetForkConsensus src.state

theorem pollForks_polls {timeout : Poll Unit} (h : pollForks src timeout = some (poll, src')) :
    Polls src.state src'.state poll := by
  unfold pollForks at h
  simp only [] at h
  split at h
  · split at h
    · rename_i state hd
      have hs := decideFork_same hd
      split at h
      · obtain ⟨⟨_, _⟩, he, hp⟩ := Option.map_eq_some_iff.mp h
        cases hp
        exact .fork (hs.trans (extractFork_same he))
      · cases h
    · rename_i state hd
      cases h
      exact decideFork_same hd
  · cases h
    exact same_resetForkConsensus src.state

theorem pollNextEvent_polls {input : PollInput R}
    (h : src.pollNextEvent parse input = some (poll, src')) : Polls src.state src'.state poll := by
  unfold pollNextEvent at h
  split at h
  · cases h
  · rename_i hp
    cases h
    exact pollEndpoints_polls hp
  · rename_i hp
    cases h
    exact pollEndpoints_polls hp
  · rename_i state endpoints hp
    exact Polls.of_same (pollEndpoints_polls hp) (pollForks_polls h)

theorem pollAll_emissions {inputs : List (PollInput R)} {events : List (DataEvent B)}
    (h : pollAll parse src inputs = some (events, src')) :
    Emissions src.state events src'.state := by
  induction inputs generalizing src events with
  | nil =>
    cases h
    exact .nil (Same.refl _)
  | cons input inputs ih =>
    unfold pollAll at h
    split at h
    · cases h
    · rename_i src₁ hp
      exact Emissions.of_same (pollNextEvent_polls (B := B) hp) (ih h)
    · rename_i event src₁ hp
      obtain ⟨⟨_, _⟩, hr, hpr⟩ := Option.map_eq_some_iff.mp h
      cases hpr
      exact .cons (pollNextEvent_polls hp) (ih hr)

end StandardDataSource

end DataSource
