import SqdData.Storage.Data

/-!
# The queue of blocks to be written

`Chain` holds the last blocks of the chain that is being ingested. Its `chain` names the blocks from
the highest finalized one on, its `queue` the blocks that are kept for writing, each with the mark
that it is stored. Both grow at the back; finality cuts the first at the front, cleaning cuts the
second, and a fork drops blocks from the back of both. The source keeps blocks and marks in two
deques of one length, here they are a list of pairs. A call that panics has no result.
-/

namespace Bds

open List

open Storage (BlockRef Hash Error)

/-- `Block`: what the queue reads off a block. -/
class Block (B : Type) where
  number : B → Nat
  hash : B → Hash
  parentNumber : B → Nat
  parentHash : B → Hash

open Block

section Ptr

variable {B : Type} [Block B]

def ptr (block : B) : BlockRef := ⟨number block, hash block⟩

def parentPtr (block : B) : BlockRef := ⟨parentNumber block, parentHash block⟩

def display (block : BlockRef) : String := s!"{block.number}#{block.hash}"

end Ptr

/-- `BlockHeader`, without the fields that the queue does not read. -/
structure BlockHeader where
  number : Nat
  hash : Hash
  parentNumber : Nat
  parentHash : Hash
deriving DecidableEq, Repr

instance : Block BlockHeader where
  number := BlockHeader.number
  hash := BlockHeader.hash
  parentNumber := BlockHeader.parentNumber
  parentHash := BlockHeader.parentHash

/-! ### Search by number -/

/-- The loop of `bisect`, between a position below the target and one that is not. -/
def bisectLoop (numbers : List Nat) (target : Nat) : Nat → Nat → Nat → Nat
  | 0, _, high => high
  | fuel + 1, low, high =>
    if 1 < high - low then
      let mid := low + (high - low) / 2
      let number := numbers.getD mid 0
      if number < target then bisectLoop numbers target fuel mid high
      else if number = target then mid
      else bisectLoop numbers target fuel low mid
    else high

/-- `bisect`. The first guess assumes that the numbers have no gaps. -/
def bisect (numbers : List Nat) (target : Nat) : Nat :=
  match numbers.getLast? with
  | none => 0
  | some last =>
    let high := numbers.length - 1
    if last < target then high + 1
    else if last = target then high
    else
      let low := high - (last - target)
      if target ≤ numbers.getD low 0 then low
      else bisectLoop numbers target numbers.length low high

section Bisect

variable {numbers : List Nat} {target : Nat}

/-- `pos` parts the numbers below the target from the others. -/
structure Parts (numbers : List Nat) (target pos : Nat) : Prop where
  le_length : pos ≤ numbers.length
  below : ∀ i, i < pos → numbers.getD i 0 < target
  above : ∀ i, pos ≤ i → i < numbers.length → target ≤ numbers.getD i 0

variable (h : numbers.Pairwise (· < ·))

include h

theorem getD_lt_getD {i j : Nat} (hij : i < j) (hj : j < numbers.length) :
    numbers.getD i 0 < numbers.getD j 0 := by
  have hi : i < numbers.length := hij.trans hj
  rw [getD_eq_getElem _ _ hi, getD_eq_getElem _ _ hj]
  exact pairwise_iff_getElem.mp h i j hi hj hij

theorem getD_le_getD {i j : Nat} (hij : i ≤ j) (hj : j < numbers.length) :
    numbers.getD i 0 ≤ numbers.getD j 0 := by
  rcases hij.lt_or_eq with hlt | rfl
  · exact (getD_lt_getD h hlt hj).le
  · exact le_rfl

/-- Ascending numbers are at least as far apart as their positions. -/
theorem getD_add_le {i d : Nat} (hj : i + d < numbers.length) :
    numbers.getD i 0 + d ≤ numbers.getD (i + d) 0 := by
  induction d with
  | zero => exact le_rfl
  | succ d =>
    have hs := getD_lt_getD h (Nat.lt_succ_self (i + d)) hj
    have heq : i + d.succ = (i + d).succ := rfl
    rw [heq]
    omega

theorem bisectLoop_parts {fuel low high : Nat} (hl : low < high) (hh : high < numbers.length)
    (hf : high - low ≤ fuel) (hb : numbers.getD low 0 < target)
    (ha : target ≤ numbers.getD high 0) :
    Parts numbers target (bisectLoop numbers target fuel low high) := by
  induction fuel generalizing low high with
  | zero => omega
  | succ _ ih =>
    by_cases hg : 1 < high - low
    · simp only [bisectLoop, if_pos hg]
      have hm : low < low + (high - low) / 2 ∧ low + (high - low) / 2 < high := by omega
      set mid := low + (high - low) / 2
      by_cases hlt : numbers.getD mid 0 < target
      · rw [if_pos hlt]
        exact ih hm.2 hh (by omega) hlt ha
      · rw [if_neg hlt]
        by_cases heq : numbers.getD mid 0 = target
        · rw [if_pos heq]
          refine ⟨by omega, fun i hi => ?_, fun i hi hlen => ?_⟩
          · exact heq ▸ getD_lt_getD h hi (by omega)
          · exact heq ▸ getD_le_getD h hi hlen
        · rw [if_neg heq]
          exact ih hm.1 (by omega) (by omega) hb (not_lt.mp hlt)
    · simp only [bisectLoop, if_neg hg]
      refine ⟨hh.le, fun i hi => ?_, fun i hi hlen => ?_⟩
      · exact (getD_le_getD h (by omega) (by omega)).trans_lt hb
      · exact ha.trans (getD_le_getD h hi hlen)

theorem bisect_parts (target : Nat) : Parts numbers target (bisect numbers target) := by
  rcases eq_nil_or_concat' numbers with rfl | ⟨front, last, rfl⟩
  · exact ⟨le_rfl, fun i hi => absurd hi (Nat.not_lt_zero i), fun i _ hi => absurd hi (by simp)⟩
  · have hlen : (front ++ [last]).length = front.length + 1 := by simp
    have hlast : (front ++ [last]).getD front.length 0 = last := by simp
    have hle : ∀ i, i ≤ front.length → (front ++ [last]).getD i 0 ≤ last := by
      intro i hi
      exact (getD_le_getD h hi (by omega)).trans_eq hlast
    have hs : front.length + 1 - 1 = front.length := rfl
    simp only [bisect, getLast?_concat, hlen, hs]
    by_cases hlt : last < target
    · rw [if_pos hlt]
      exact ⟨by omega, fun i hi => (hle i (by omega)).trans_lt hlt, fun i hi hi' => by omega⟩
    · rw [if_neg hlt]
      by_cases heq : last = target
      · rw [if_pos heq]
        refine ⟨by omega, fun i hi => ?_, fun i hi hi' => ?_⟩
        · have := getD_lt_getD h hi (by omega)
          omega
        · have : i = front.length := by omega
          rw [this, hlast, heq]
      · rw [if_neg heq]
        set low := front.length - (last - target) with hl
        -- below the first guess the numbers are too far from the last one
        have hg : ∀ i, i < low → (front ++ [last]).getD i 0 < target := by
          intro i hi
          obtain ⟨d, hd⟩ : ∃ d, i + d = front.length := ⟨front.length - i, by omega⟩
          have := getD_add_le h (i := i) (d := d) (by omega)
          rw [hd, hlast] at this
          omega
        by_cases hf : target ≤ (front ++ [last]).getD low 0
        · rw [if_pos hf]
          exact ⟨by omega, hg, fun i hi hi' => hf.trans (getD_le_getD h hi hi')⟩
        · rw [if_neg hf]
          have hne : low ≠ front.length := by
            intro hc
            rw [hc, hlast] at hf
            omega
          exact bisectLoop_parts h (by omega) (by omega) (by omega) (by omega) (by omega)

omit h

/-- The loop with its checks: a subtraction below zero, an access out of range and a loop that goes
on have no result. -/
def runBisectLoop (numbers : List Nat) (target : Nat) : Nat → Nat → Nat → Option Nat
  | 0, _, _ => none
  | fuel + 1, low, high => do
    guard (low ≤ high)
    if 1 < high - low then
      let mid := low + (high - low) / 2
      let number ← numbers[mid]?
      if number < target then runBisectLoop numbers target fuel mid high
      else if number = target then return mid
      else runBisectLoop numbers target fuel low mid
    else return high

/-- `bisect` with its checks. The first guess is a saturating difference. -/
def runBisect (numbers : List Nat) (target : Nat) : Option Nat :=
  match numbers.length with
  | 0 => some 0
  | high + 1 => do
    let last ← numbers[high]?
    if last < target then return high + 1
    else if last = target then return high
    else do
      guard (target ≤ last)
      let low := high - (last - target)
      let number ← numbers[low]?
      if target ≤ number then return low
      else runBisectLoop numbers target numbers.length low high

theorem getElem?_eq_getD {i : Nat} (hi : i < numbers.length) :
    numbers[i]? = some (numbers.getD i 0) := by
  rw [getElem?_eq_getElem hi, getD_eq_getElem _ _ hi]

theorem runBisectLoop_eq {fuel low high : Nat} (hlw : low < high) (hh : high < numbers.length)
    (hf : high - low ≤ fuel) :
    runBisectLoop numbers target fuel low high =
      some (bisectLoop numbers target fuel low high) := by
  induction fuel generalizing low high with
  | zero => omega
  | succ _ ih =>
    simp only [runBisectLoop, bisectLoop, guard, if_pos hlw.le]
    by_cases hg : 1 < high - low
    · have hm : low < low + (high - low) / 2 ∧ low + (high - low) / 2 < high := by omega
      set mid := low + (high - low) / 2
      have hl := @ih low mid hm.1 (by omega) (by omega)
      have hr := @ih mid high hm.2 hh (by omega)
      simp only [if_pos hg, getElem?_eq_getD (hm.2.trans hh)]
      generalize numbers.getD mid 0 = number
      simp only [pure, Option.bind_eq_bind, Option.bind_some, hl, hr]
      split_ifs <;> rfl
    · simp [if_neg hg]

/-- No subtraction of `bisect` goes below zero and no access is out of range, whatever the
numbers. -/
theorem runBisect_eq (numbers : List Nat) (target : Nat) :
    runBisect numbers target = some (bisect numbers target) := by
  rcases eq_nil_or_concat' numbers with rfl | ⟨front, last, rfl⟩
  · rfl
  · have hlen : (front ++ [last]).length = front.length + 1 := by simp
    have hlast : (front ++ [last])[front.length]? = some last := by simp
    have hs : front.length + 1 - 1 = front.length := rfl
    simp only [runBisect, bisect, getLast?_concat, hlen, hs, hlast, guard, pure,
      Option.bind_eq_bind, Option.bind_some]
    by_cases hlt : last < target
    · rw [if_pos hlt, if_pos hlt]
    · rw [if_neg hlt, if_neg hlt, if_pos (not_lt.mp hlt)]
      set low := front.length - (last - target)
      have hl : low < (front ++ [last]).length := by omega
      rw [getElem?_eq_getD hl]
      by_cases hf : target ≤ (front ++ [last]).getD low 0
      · simp only [Option.bind_some, if_pos hf]
        split_ifs <;> rfl
      · by_cases heq : last = target
        · simp [heq]
        · have hne : low ≠ front.length := by
            intro hc
            simp only [hc, getD_eq_getElem?_getD, hlast, Option.getD_some] at hf
            omega
          have := @runBisectLoop_eq (front ++ [last]) target (front.length + 1) low front.length
            (by omega) (by omega) (by omega)
          simp only [if_neg heq, Option.bind_some, if_neg hf, this]

/-- The target can only stand at the position that is found. -/
theorem Parts.eq_of_getD (h : numbers.Pairwise (· < ·)) {pos i : Nat}
    (hp : Parts numbers target pos) (hi : i < numbers.length) (hn : numbers.getD i 0 = target) :
    i = pos := by
  rcases lt_trichotomy i pos with hlt | heq | hgt
  · exact absurd hn (hp.below i hlt).ne
  · exact heq
  · have ha := hp.above pos le_rfl (by omega)
    have := getD_lt_getD h hgt hi
    omega

end Bisect

/-! ### The queue -/

/-- `HeadChain`: the chain found in the store, from its highest finalized block on. -/
structure HeadChain where
  blocks : List BlockRef
  firstFinalized : Bool
deriving DecidableEq, Repr

structure Chain (B : Type) where
  chain : List BlockRef
  fin : Bool
  queue : List (B × Bool)
  minSize : Nat
deriving DecidableEq, Repr

namespace Chain

variable {B : Type} [Block B]

def new (head : HeadChain) (minSize : Nat) : Option (Chain B) :=
  if head.firstFinalized && head.blocks.isEmpty then none
  else some { chain := head.blocks, fin := head.firstFinalized, queue := [], minSize }

def blocks (c : Chain B) : List B := c.queue.map Prod.fst

def len (c : Chain B) : Nat := c.queue.length

def numbers (c : Chain B) : List Nat := c.queue.map fun e => number e.1

/-- The loop of `Chain::push`, over both deques from the back. It drops blocks until the new one
fits. -/
def pushLoop (block : B) (fin : Bool) :
    List BlockRef → List (B × Bool) → Option (Except Error Unit × List BlockRef × List (B × Bool))
  | [], queue => some (.ok (), [ptr block], (block, false) :: queue)
  | prev :: chain, queue =>
    if prev.number = parentNumber block ∧ prev.hash = parentHash block then
      some (.ok (), ptr block :: prev :: chain, (block, false) :: queue)
    else if prev.number < parentNumber block then
      some (.error (.text (s!"block {display (parentPtr block)} is missing between " ++
        s!"{display prev} and {display (ptr block)}")), prev :: chain, queue)
    else if fin then
      if chain.isEmpty then
        some (.error (.text (s!"block {display (ptr block)} is not based on finalized head " ++
          s!"{display prev}")), prev :: chain, queue)
      else pushLoop block fin chain queue.tail
    else if chain.length + 1 = queue.length then pushLoop block fin chain queue.tail
    else none

/-- `Chain::push`. A push that fails keeps what it has dropped. -/
def push (c : Chain B) (block : B) : Option (Except Error Unit × Chain B) :=
  (pushLoop block c.fin c.chain.reverse c.queue.reverse).map fun (result, chain, queue) =>
    (result, { c with chain := chain.reverse, queue := queue.reverse })

def markStored (c : Chain B) (blockNumber : Nat) (blockHash : Hash) : Chain B × Bool :=
  let pos := bisect c.numbers blockNumber
  match c.queue[pos]? with
  | none => (c, false)
  | some (block, _) =>
    if number block = blockNumber ∧ hash block = blockHash then
      ({ c with queue := c.queue.set pos (block, true) }, true)
    else (c, false)

def cleanLoop : Nat → Chain B → Chain B × Bool
  | 0, c => (c, false)
  | steps + 1, c =>
    match c.queue with
    | (_, true) :: queue =>
      let chain := if c.fin then c.chain else c.chain.tail
      ((cleanLoop steps { c with chain, queue }).1, true)
    | _ => (c, false)

def clean (c : Chain B) : Chain B × Bool := cleanLoop (c.len - c.minSize) c

def finalizeAll (c : Chain B) : Chain B :=
  match c.chain.getLast? with
  | none => c
  | some head => { c with chain := [head], fin := true }

def finalize (c : Chain B) (head : BlockRef) : Option (Except Error Bool × Chain B) :=
  match c.chain.head?, c.chain.getLast? with
  | some front, some back =>
    if head.number < front.number then some (.ok false, c)
    else if back.number < head.number then
      if 1 < c.chain.length then some (.ok true, c.finalizeAll) else some (.ok false, c)
    else
      let pos := bisect (c.chain.map BlockRef.number) head.number
      match c.chain[pos]? with
      | none => none
      | some found =>
        if found = head then
          some (.ok (!c.fin || 0 < pos), { c with chain := c.chain.drop pos, fin := true })
        else
          some (.error (.text (s!"block {display head} is not part of a chain, its position " ++
            s!"is occupied by {display found}")), c)
  | _, _ => some (.ok false, c)

/-- `Chain::stored_finalized_head`. A finalized chain is not empty. -/
def storedFinalizedHead (c : Chain B) : Option BlockRef :=
  if !c.fin then none
  else if c.queue.length < c.chain.length then c.chain.head?
  else
    ((c.queue.take (c.queue.length - c.chain.length + 1)).reverse.find? Prod.snd).map fun e =>
      ptr e.1

/-! ### What the calls do to a valid queue -/

/-- The block references and the queue end with the same blocks, and the numbers ascend. References
below the queue are of blocks that were cleaned or found in the store; blocks below the references
are final ones still to be written. -/
structure Valid (c : Chain B) : Prop where
  chainAscending : (c.chain.map BlockRef.number).Pairwise (· < ·)
  queueAscending : c.numbers.Pairwise (· < ·)
  aligned : c.blocks.map ptr <:+ c.chain ∨ c.fin = true ∧ c.chain <:+ c.blocks.map ptr
  nonempty : c.fin = true → c.chain ≠ []

variable {c : Chain B}

theorem new_valid {head : HeadChain} {minSize : Nat}
    (ha : (head.blocks.map BlockRef.number).Pairwise (· < ·))
    (h : Chain.new head minSize = some c) : c.Valid ∧ c.queue = [] := by
  unfold Chain.new at h
  split at h
  · cases h
  · rename_i hfn
    cases h
    refine ⟨⟨ha, List.Pairwise.nil, Or.inl (nil_suffix), ?_⟩, rfl⟩
    intro hf hn
    change head.firstFinalized = true at hf
    change head.blocks = [] at hn
    simp [hf, hn] at hfn

theorem numbers_eq (c : Chain B) : c.numbers = (c.blocks.map ptr).map BlockRef.number := by
  simp only [blocks, map_map]
  rfl

/-- One iteration of `push`: the block links, the push fails, a block is dropped from both deques,
or the assertion fails. -/
theorem pushLoop_cons (block : B) (fin : Bool) (prev : BlockRef) (chain : List BlockRef)
    (queue : List (B × Bool)) :
    prev = parentPtr block ∧ pushLoop block fin (prev :: chain) queue =
        some (.ok (), ptr block :: prev :: chain, (block, false) :: queue) ∨
    prev ≠ parentPtr block ∧ (parentNumber block ≤ prev.number → fin = true) ∧
      (∃ e, pushLoop block fin (prev :: chain) queue = some (.error e, prev :: chain, queue)) ∨
    (if fin then chain ≠ [] else chain.length + 1 = queue.length) ∧
      pushLoop block fin (prev :: chain) queue = pushLoop block fin chain queue.tail ∨
    (prev ≠ parentPtr block ∧ parentNumber block ≤ prev.number ∧ fin = false ∧
      chain.length + 1 ≠ queue.length) ∧ pushLoop block fin (prev :: chain) queue = none := by
  have hi : prev = parentPtr block ↔
      prev.number = parentNumber block ∧ prev.hash = parentHash block := by
    rw [parentPtr, BlockRef.mk.injEq]
  rw [ne_eq, hi, pushLoop]
  by_cases hl : prev.number = parentNumber block ∧ prev.hash = parentHash block
  · exact Or.inl ⟨hl, if_pos hl⟩
  rw [if_neg hl]
  by_cases hm : prev.number < parentNumber block
  · rw [if_pos hm]
    exact Or.inr (Or.inl ⟨hl, fun _ => by omega, _, rfl⟩)
  rw [if_neg hm]
  cases fin with
  | true =>
    cases chain with
    | nil => exact Or.inr (Or.inl ⟨hl, fun _ => rfl, _, rfl⟩)
    | cons => exact Or.inr (Or.inr (Or.inl ⟨cons_ne_nil _ _, rfl⟩))
  | false =>
    by_cases hlen : chain.length + 1 = queue.length
    · exact Or.inr (Or.inr (Or.inl ⟨hlen, if_pos hlen⟩))
    · exact Or.inr (Or.inr (Or.inr ⟨⟨hl, not_lt.mp hm, rfl, hlen⟩, if_neg hlen⟩))

variable {block : B} {α : Type} {l l' : List α}

/-- A push that succeeds has dropped as many entries from the one deque as from the other. -/
theorem pushLoop_ok {fin : Bool} {chain chain' : List BlockRef} {queue queue' : List (B × Bool)}
    (h : pushLoop block fin chain queue = some (.ok (), chain', queue')) :
    ∃ n, chain' = ptr block :: chain.drop n ∧ queue' = (block, false) :: queue.drop n ∧
      (chain.drop n = [] ∧ (fin = true → chain = []) ∨
        (chain.drop n).head? = some (parentPtr block)) := by
  induction chain generalizing queue with
  | nil =>
    cases h
    exact ⟨0, rfl, rfl, Or.inl ⟨rfl, fun _ => rfl⟩⟩
  | cons prev chain ih =>
    rcases pushLoop_cons block fin prev chain queue with
      ⟨hl, heq⟩ | ⟨-, -, e, heq⟩ | ⟨hne, heq⟩ | ⟨-, heq⟩
    · cases heq.symm.trans h
      exact ⟨0, rfl, rfl, Or.inr (congrArg some hl)⟩
    · cases heq.symm.trans h
    · obtain ⟨n, rfl, rfl, he⟩ := ih (heq.symm.trans h)
      refine ⟨n + 1, rfl, by rw [drop_tail], he.imp_left fun ⟨hn, hf⟩ => ⟨hn, ?_⟩⟩
      rintro rfl
      exact absurd (hf rfl) hne
    · cases heq.symm.trans h

omit [Block B] in
theorem ascending_concat {numbers : List Nat} {next : Nat} (h : numbers.Pairwise (· < ·))
    (hlast : ∀ n ∈ numbers.getLast?, n < next) : (numbers ++ [next]).Pairwise (· < ·) := by
  rcases eq_nil_or_concat' numbers with rfl | ⟨_, n, rfl⟩
  · exact pairwise_singleton _ _
  · have hlt : n < next := hlast n (by simp)
    refine pairwise_append.mpr ⟨h, pairwise_singleton _ _, ?_⟩
    intro x hx y hy
    obtain rfl := mem_singleton.mp hy
    rcases mem_append.mp hx with hx | hx
    · exact ((pairwise_append.mp h).2.2 x hx n (mem_singleton_self n)).trans hlt
    · exact (mem_singleton.mp hx).trans_lt hlt

omit [Block B] in
theorem getLast?_of_suffix (h : l <:+ l') (hne : l ≠ []) : l'.getLast? = l.getLast? := by
  obtain ⟨_, rfl⟩ := h
  rw [getLast?_append]
  cases hl : l.getLast? with
  | none => exact absurd (getLast?_eq_none_iff.mp hl) hne
  | some => rfl

/-- A block can be put behind what is left of a valid queue if it is above the last reference. -/
theorem Valid.concat (hv : c.Valid) (hq : c.chain = [] → c.queue = [])
    (hlt : ∀ last ∈ c.chain.getLast?, last.number < number block) :
    ({ c with chain := c.chain ++ [ptr block], queue := c.queue ++ [(block, false)] } :
      Chain B).Valid := by
  have hlast : ∀ last ∈ (c.blocks.map ptr).getLast?, last.number < number block := by
    intro last hl
    have hne : c.blocks.map ptr ≠ [] := by
      intro hnl
      rw [hnl] at hl
      cases hl
    have hc : c.chain ≠ [] := by
      intro hnl
      apply hne
      rw [blocks, hq hnl]
      rfl
    have heq : c.chain.getLast? = (c.blocks.map ptr).getLast? := by
      rcases hv.aligned with hs | ⟨-, hs⟩
      · exact getLast?_of_suffix hs hne
      · exact (getLast?_of_suffix hs hc).symm
    exact hlt last (heq ▸ hl)
  have hb : ((c.queue ++ [(block, false)]).map Prod.fst).map ptr =
      c.blocks.map ptr ++ [ptr block] := by
    simp [blocks]
  refine ⟨?_, ?_, ?_, fun _ hnl => by simp at hnl⟩
  · rw [map_append]
    refine ascending_concat hv.chainAscending fun n hn => ?_
    obtain ⟨last, hl, rfl⟩ := Option.map_eq_some_iff.mp (getLast?_map ▸ hn)
    exact hlt last hl
  · have hnm := hv.queueAscending
    rw [numbers_eq] at hnm ⊢
    rw [blocks, hb, map_append]
    refine ascending_concat hnm fun n hn => ?_
    obtain ⟨last, hl, rfl⟩ := Option.map_eq_some_iff.mp (getLast?_map ▸ hn)
    exact hlast last hl
  · rw [blocks, hb]
    refine hv.aligned.imp (fun hs => ?_) (fun hs => ⟨hs.1, ?_⟩)
    · obtain ⟨front, hf⟩ := hs
      exact ⟨front, by rw [← append_assoc, hf]⟩
    · obtain ⟨front, hf⟩ := hs.2
      exact ⟨front, by rw [← append_assoc, hf]⟩

omit [Block B] in
theorem suffix_rdrop (h : l <:+ l') (n : Nat) :
    (l.reverse.drop n).reverse <:+ (l'.reverse.drop n).reverse :=
  reverse_suffix.mpr (( reverse_prefix.mpr h).drop n)

omit [Block B] in
theorem isPrefix_dropEnd (l : List α) (n : Nat) : (l.reverse.drop n).reverse <+: l := by
  have := drop_suffix n l.reverse
  rwa [← reverse_prefix, reverse_reverse] at this

/-- Dropping as many entries from the one deque as from the other leaves the queue valid. -/
theorem Valid.drop (hv : c.Valid) (n : Nat) (hne : c.fin = true → c.chain.reverse.drop n ≠ []) :
    ({ c with
      chain := (c.chain.reverse.drop n).reverse
      queue := (c.queue.reverse.drop n).reverse } : Chain B).Valid := by
  have hm : ((c.queue.reverse.drop n).reverse.map Prod.fst).map ptr =
      ((c.blocks.map ptr).reverse.drop n).reverse := by
    simp only [blocks, map_reverse, map_drop]
  refine ⟨?_, ?_, ?_, by simpa using hne⟩
  · exact hv.chainAscending.sublist ((isPrefix_dropEnd _ n).sublist.map _)
  · exact hv.queueAscending.sublist ((isPrefix_dropEnd _ n).sublist.map _)
  · rw [blocks, hm]
    exact hv.aligned.imp (fun hs => suffix_rdrop hs n) fun hs => ⟨hs.1, suffix_rdrop hs.2 n⟩

variable {c' : Chain B}

/-- The block comes after its parent. The first block of a chain has no parent in it, whatever
number the parent is said to have. -/
def Follows (c : Chain B) (block : B) : Prop :=
  parentNumber block < number block ∨ number block = 0 ∧ parentPtr block ∉ c.chain

instance (c : Chain B) (block : B) : Decidable (c.Follows block) :=
  inferInstanceAs (Decidable (_ ∨ _))

/-- A push that succeeds keeps a front part of the queue and appends the block, not yet stored. -/
theorem push_ok (hv : c.Valid) (hp : c.Follows block)
    (h : c.push block = some (.ok (), c')) :
    c'.Valid ∧ c'.fin = c.fin ∧ c'.minSize = c.minSize ∧
      ∃ kept, kept <+: c.queue ∧ c'.queue = kept ++ [(block, false)] := by
  obtain ⟨⟨_, _, _⟩, hlp, heq⟩ := Option.map_eq_some_iff.mp h
  cases heq
  obtain ⟨n, rfl, rfl, he⟩ := pushLoop_ok hlp
  have hne : c.fin = true → c.chain.reverse.drop n ≠ [] := by
    intro hf hn
    rcases he with ⟨-, hc⟩ | hh
    · exact hv.nonempty hf (by simpa using hc hf)
    · rw [hn] at hh
      cases hh
  have hd := hv.drop n hne
  have hq : (c.chain.reverse.drop n).reverse = [] → (c.queue.reverse.drop n).reverse = [] := by
    intro hn
    rcases hd.aligned with hs | ⟨hf, -⟩
    · have hs := suffix_nil.mp (hn ▸ hs)
      simpa [blocks] using hs
    · exact absurd (by simpa using hn) (hne hf)
  have hln : ∀ last ∈ ((c.chain.reverse.drop n).reverse).getLast?, last = parentPtr block := by
    intro last hl
    rw [getLast?_reverse] at hl
    rcases he with ⟨hn, -⟩ | hh
    · rw [hn] at hl
      cases hl
    · exact Option.some.inj (hl.symm.trans hh)
  have hlt : ∀ last ∈ ((c.chain.reverse.drop n).reverse).getLast?, last.number < number block := by
    intro last hl
    have hm : last ∈ c.chain := (isPrefix_dropEnd _ n).subset (mem_of_getLast? hl)
    rw [hln last hl] at hm ⊢
    rcases hp with hp | ⟨-, hn⟩
    · exact hp
    · exact absurd hm hn
  have hvalid := hd.concat hq hlt
  simp only [reverse_cons]
  exact ⟨hvalid, trivial, trivial, _, isPrefix_dropEnd _ n, rfl⟩

/-- The marks do not matter to validity. -/
theorem Valid.of_blocks (hv : c.Valid) (hc : c'.chain = c.chain) (hf : c'.fin = c.fin)
    (hb : c'.blocks = c.blocks) : c'.Valid := by
  refine ⟨hc ▸ hv.chainAscending, ?_, ?_, ?_⟩
  · have := hv.queueAscending
    rwa [numbers_eq, ← hb, ← numbers_eq] at this
  · rw [hc, hf, hb]
    exact hv.aligned
  · rw [hc, hf]
    exact hv.nonempty

/-- A block of the queue is marked, wherever it is; other numbers and hashes change nothing. -/
theorem markStored_cases (h : c.numbers.Pairwise (· < ·)) (blockNumber : Nat) (blockHash : Hash) :
    (∃ front block mark back, c.queue = front ++ (block, mark) :: back ∧
        ptr block = ⟨blockNumber, blockHash⟩ ∧
        c.markStored blockNumber blockHash =
          ({ c with queue := front ++ (block, true) :: back }, true)) ∨
      c.markStored blockNumber blockHash = (c, false) ∧
        ∀ e ∈ c.queue, ptr e.1 ≠ ⟨blockNumber, blockHash⟩ := by
  have hp := bisect_parts h blockNumber
  set pos := bisect c.numbers blockNumber with hps
  have ho : ∀ i (hi : i < c.queue.length), number (c.queue[i]).1 = blockNumber → i = pos := by
    intro i hi hn
    have hlen : i < c.numbers.length := by rwa [numbers, length_map]
    refine hp.eq_of_getD h hlen ?_
    rw [getD_eq_getElem _ _ hlen]
    simpa [numbers] using hn
  unfold markStored
  rw [← hps]
  dsimp only
  cases hg : c.queue[pos]? with
  | none =>
    refine Or.inr ⟨rfl, fun e he hpt => ?_⟩
    obtain ⟨i, hi, rfl⟩ := getElem_of_mem he
    have heq := ho i hi (congrArg BlockRef.number hpt)
    rw [getElem?_eq_none_iff] at hg
    omega
  | some e =>
    obtain ⟨block, mark⟩ := e
    obtain ⟨hlt, hb⟩ := List.getElem?_eq_some_iff.mp hg
    by_cases hm : number block = blockNumber ∧ hash block = blockHash
    · refine Or.inl ⟨c.queue.take pos, block, mark, c.queue.drop (pos + 1), ?_, ?_, ?_⟩
      · rw [← hb, getElem_cons_drop, take_append_drop]
      · rw [ptr, hm.1, hm.2]
      · simp only [if_pos hm, set_eq_take_append_cons_drop, if_pos hlt]
    · refine Or.inr ⟨by simp only [if_neg hm], fun e he hpt => ?_⟩
      obtain ⟨i, hi, rfl⟩ := getElem_of_mem he
      obtain rfl := ho i hi (congrArg BlockRef.number hpt)
      rw [hb] at hpt
      exact hm ⟨congrArg BlockRef.number hpt, congrArg BlockRef.hash hpt⟩

/-- The search for a number ends without a panic at the first block whose number is not below it, or
behind the last block. So a stored block is found by its number, and it is marked if its hash
agrees. -/
theorem bisect_finds_stored_block (h : c.numbers.Pairwise (· < ·)) (blockNumber : Nat)
    (blockHash : Hash) :
    (∃ pos, runBisect c.numbers blockNumber = some pos ∧ pos ≤ c.len ∧
      ∀ i (hi : i < c.len), i < pos ↔ number (c.queue.get ⟨i, hi⟩).1 < blockNumber) ∧
    ((∃ front block mark back, c.queue = front ++ (block, mark) :: back ∧
        ptr block = ⟨blockNumber, blockHash⟩ ∧
        c.markStored blockNumber blockHash =
          ({ c with queue := front ++ (block, true) :: back }, true)) ∨
      c.markStored blockNumber blockHash = (c, false) ∧
        ∀ e ∈ c.queue, ptr e.1 ≠ ⟨blockNumber, blockHash⟩) := by
  have hp := bisect_parts h blockNumber
  have hlen : c.numbers.length = c.len := length_map _
  refine ⟨⟨_, runBisect_eq _ _, hlen ▸ hp.le_length, fun i hi => ?_⟩, markStored_cases h _ _⟩
  have hg : number (c.queue.get ⟨i, hi⟩).1 = c.numbers.getD i 0 := by
    rw [getD_eq_getElem _ _ (hlen ▸ hi)]
    simp [numbers]
  rw [hg]
  constructor
  · exact hp.below i
  · intro hlt
    by_contra hge
    have := hp.above i (not_lt.mp hge) (hlen ▸ hi)
    omega

def threeBlocks : Chain BlockHeader :=
  ⟨[], false, [(⟨3, "a", 2, "z"⟩, true), (⟨5, "b", 3, "a"⟩, false), (⟨9, "c", 5, "b"⟩, false)], 0⟩

theorem second_block_is_found :
    ∃ pos, runBisect threeBlocks.numbers 5 = some pos ∧ pos ≤ threeBlocks.len ∧
      ∀ i (hi : i < threeBlocks.len), i < pos ↔ number (threeBlocks.queue.get ⟨i, hi⟩).1 < 5 :=
  (bisect_finds_stored_block (by decide) 5 "b").1

structure Cleaned (steps : Nat) (c c' : Chain B) (gone : List (B × Bool)) : Prop where
  split : c.queue = gone ++ c'.queue
  stored : ∀ e ∈ gone, e.2 = true
  bound : gone.length ≤ steps
  stop : gone.length = steps ∨ ∀ e ∈ c'.queue.head?, e.2 = false
  fin : c'.fin = c.fin
  minSize : c'.minSize = c.minSize
  chain : c'.chain = if c.fin then c.chain else c.chain.drop gone.length

omit [Block B] in
theorem cleanLoop_cleaned (steps : Nat) (c : Chain B) :
    ∃ gone, Cleaned steps c (cleanLoop steps c).1 gone ∧
      ((cleanLoop steps c).2 = true ↔ gone ≠ []) := by
  induction steps generalizing c with
  | zero =>
    refine ⟨[], ⟨rfl, by simp, le_rfl, Or.inl rfl, rfl, rfl, ?_⟩, by simp [cleanLoop]⟩
    simp [cleanLoop]
  | succ steps ih =>
    unfold cleanLoop
    split
    · rename_i block queue hqu
      obtain ⟨gone, hc, -⟩ := ih { c with
        chain := if c.fin then c.chain else c.chain.tail, queue }
      refine ⟨(block, true) :: gone, ⟨?_, ?_, ?_, ?_, hc.fin, hc.minSize, ?_⟩, by simp⟩
      · rw [hqu, cons_append]
        exact congrArg _ hc.split
      · intro e he
        rcases mem_cons.mp he with rfl | he
        · rfl
        · exact hc.stored e he
      · exact Nat.succ_le_succ hc.bound
      · exact hc.stop.imp_left (congrArg Nat.succ)
      · rw [hc.chain]
        cases c.fin
        · simp [drop_tail]
        · rfl
    · rename_i hs
      refine ⟨[], ⟨rfl, by simp, Nat.zero_le _, Or.inr ?_, rfl, rfl, by simp⟩, by simp⟩
      intro e he
      obtain ⟨block, mark⟩ := e
      cases hq : c.queue with
      | nil =>
        rw [hq] at he
        cases he
      | cons _ queue =>
        rw [hq] at he
        cases he
        cases mark with
        | false => rfl
        | true => exact absurd hq (hs block queue)

omit [Block B] in
theorem clean_cleaned (c : Chain B) :
    ∃ gone, Cleaned (c.len - c.minSize) c c.clean.1 gone ∧ (c.clean.2 = true ↔ gone ≠ []) :=
  cleanLoop_cleaned _ c

omit [Block B] in
theorem suffix_drop_of_suffix (h : l <:+ l') (n : Nat) : l.drop n <:+ l'.drop n := by
  obtain ⟨front, rfl⟩ := h
  rw [drop_append]
  exact (drop_suffix_drop_left l (Nat.sub_le n front.length)).trans (suffix_append _ _)

theorem Cleaned.valid {steps : Nat} {gone : List (B × Bool)} (h : Cleaned steps c c' gone)
    (hv : c.Valid) : c'.Valid := by
  have hq : c'.queue = c.queue.drop gone.length := by rw [h.split, drop_left]
  have hb : c'.blocks.map ptr = (c.blocks.map ptr).drop gone.length := by
    simp only [blocks, hq, map_drop]
  have hc : c'.chain <:+ c.chain := by
    rw [h.chain]
    split
    · exact suffix_refl _
    · exact drop_suffix _ _
  refine ⟨?_, ?_, ?_, ?_⟩
  · exact hv.chainAscending.sublist (hc.sublist.map _)
  · rw [numbers, hq, map_drop]
    exact hv.queueAscending.sublist (drop_sublist _ _)
  · rw [hb, h.fin, h.chain]
    rcases hv.aligned with hs | ⟨hf, hs⟩
    · left
      split
      · exact (drop_suffix _ _).trans hs
      · exact suffix_drop_of_suffix hs _
    · rw [if_pos hf]
      exact (suffix_or_suffix_of_suffix (drop_suffix _ _) hs).imp_right fun hs => ⟨hf, hs⟩
  · intro hf
    rw [h.fin] at hf
    rw [h.chain, if_pos hf]
    exact hv.nonempty hf

structure Cut (c c' : Chain B) : Prop where
  queue : c'.queue = c.queue
  minSize : c'.minSize = c.minSize
  chain : c'.chain <:+ c.chain
  fin : c.fin = true → c'.fin = true
  final : c'.chain = c.chain ∨ c'.fin = true
  empty : c'.chain = [] → c'.fin = c.fin ∧ c.chain = []

omit [Block B] in
theorem Cut.refl (c : Chain B) : Cut c c :=
  ⟨rfl, rfl, suffix_refl _, id, Or.inl rfl, fun h => ⟨rfl, h⟩⟩

omit [Block B] in
theorem finalizeAll_cut (c : Chain B) : Cut c c.finalizeAll := by
  unfold finalizeAll
  cases hl : c.chain.getLast? with
  | none => exact .refl c
  | some =>
    refine ⟨rfl, rfl, ?_, fun _ => rfl, Or.inr rfl, fun hn => absurd hn (cons_ne_nil _ _)⟩
    obtain ⟨front, hf⟩ := getLast?_eq_some_iff.mp hl
    exact ⟨front, hf.symm⟩

omit [Block B] in
theorem finalize_cut {head : BlockRef} {result : Except Error Bool}
    (h : c.finalize head = some (result, c')) : Cut c c' := by
  unfold finalize at h
  split at h
  · split at h
    · cases h
      exact .refl c
    · split at h
      · split at h
        · cases h
          exact finalizeAll_cut c
        · cases h
          exact .refl c
      · dsimp only at h
        split at h
        · cases h
        · rename_i found hf
          split at h
          · cases h
            refine ⟨rfl, rfl, drop_suffix _ _, fun _ => rfl, Or.inr rfl, fun hn => ?_⟩
            have hlt := (List.getElem?_eq_some_iff.mp hf).1
            have := drop_eq_nil_iff.mp hn
            omega
          · cases h
            exact .refl c
  · cases h
    exact .refl c

theorem Cut.valid (h : Cut c c') (hv : c.Valid) : c'.Valid := by
  have hb : c'.blocks = c.blocks := by rw [blocks, h.queue, blocks]
  refine ⟨?_, ?_, ?_, fun hf hn => ?_⟩
  · exact hv.chainAscending.sublist (h.chain.sublist.map _)
  · rw [numbers, h.queue]
    exact hv.queueAscending
  · rw [hb]
    rcases hv.aligned with hs | ⟨hf, hs⟩
    · rcases h.final with hc | hf
      · exact Or.inl (hc ▸ hs)
      · exact (suffix_or_suffix_of_suffix hs h.chain).imp_right fun hs => ⟨hf, hs⟩
    · exact Or.inr ⟨h.fin hf, h.chain.trans hs⟩
  · obtain ⟨hfn, hc⟩ := h.empty hn
    exact hv.nonempty (hfn ▸ hf) hc

end Chain

end Bds
