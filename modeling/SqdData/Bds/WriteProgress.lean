import SqdData.Bds.WriteBehind

/-!
# Every queued block is written

Along a fair trace the first block of the queue that is not stored does not stay the same forever:
it gets covered, its write completes and it is marked. The blocks at or before a given one that
remain to be stored are a measure that never grows while the block stays queued. Hence every block
is stored unless a fork drops it, the queue drains when nothing is pushed, and `wait` returns.
-/

namespace Bds

open List

open Storage (BlockRef Hash Error)
open Block

variable {B : Type} [Block B]

/-! ### Blocks that are still to be stored -/

def firstUnstored (queue : List (B × Bool)) : Option BlockRef :=
  (queue.find? fun e => !e.2).map fun e => ptr e.1

def Unstored (queue : List (B × Bool)) (r : BlockRef) : Prop := ∃ b, (b, false) ∈ queue ∧ ptr b = r

def ahead (r : BlockRef) (queue : List (B × Bool)) : List (B × Bool) :=
  queue.filter fun e => !e.2 && number e.1 ≤ r.number

variable {r : BlockRef} {queue : List (B × Bool)}

variable {e : B × Bool}

theorem mem_ahead : e ∈ ahead r queue ↔ e ∈ queue ∧ e.2 = false ∧ number e.1 ≤ r.number := by
  simp [ahead]

theorem ahead_append (r : BlockRef) (q q' : List (B × Bool)) :
    ahead r (q ++ q') = ahead r q ++ ahead r q' := filter_append _ _

theorem ahead_eq_nil (h : ∀ e ∈ queue, e.2 = true) : ahead r queue = [] := by
  refine filter_eq_nil_iff.mpr fun e he => ?_
  simp [h e he]

omit [Block B] in
theorem find?_unstored_eq_none : queue.find? (fun e => !e.2) = none ↔ ∀ e ∈ queue, e.2 = true := by
  simp [find?_eq_none]

variable {q' : List (B × Bool)}

theorem firstUnstored_append_of_stored {q : List (B × Bool)} (h : ∀ e ∈ q, e.2 = true) :
    firstUnstored (q ++ q') = firstUnstored q' := by
  rw [firstUnstored, find?_append, find?_unstored_eq_none.mpr h, Option.none_or, firstUnstored]

theorem firstUnstored_append_of_some {q : List (B × Bool)} (h : q.find? (fun e => !e.2) = some e) :
    firstUnstored (q ++ q') = some (ptr e.1) := by
  rw [firstUnstored, find?_append, h, Option.some_or, Option.map_some]

variable {f : BlockRef}

/-- The first block to be stored has the least number. -/
theorem firstUnstored_le (ha : (queue.map fun e => number e.1).Pairwise (· < ·))
    (hf : firstUnstored queue = some f) (hr : Unstored queue r) : f.number ≤ r.number := by
  obtain ⟨_, he, rfl⟩ := Option.map_eq_some_iff.mp hf
  obtain ⟨hfl, front, back, rfl, hfr⟩ := find?_eq_some_iff_append.mp he
  obtain ⟨_, hb, rfl⟩ := hr
  rcases mem_append.mp hb with hb | hb
  · exact absurd (hfr _ hb) (by simp)
  · rcases mem_cons.mp hb with rfl | hb
    · exact le_rfl
    · rw [map_append, pairwise_append, map_cons, pairwise_cons] at ha
      exact (ha.2.1.1 _ (mem_map_of_mem hb)).le

/-- A mark that leaves the measure as it was leaves the first block to be stored as it was. -/
theorem ahead_mark {front back gone : List (B × Bool)} {b : B} {mark : Bool} (r : BlockRef)
    (hg : front ++ (b, true) :: back = gone ++ q') (hs : ∀ e ∈ gone, e.2 = true) :
    (ahead r q').length ≤ (ahead r (front ++ (b, mark) :: back)).length ∧
      ((ahead r q').length = (ahead r (front ++ (b, mark) :: back)).length →
        ∀ f, f.number ≤ r.number → firstUnstored (front ++ (b, mark) :: back) = some f →
          firstUnstored q' = some f) := by
  have ha : ahead r q' = ahead r front ++ ahead r back := by
    calc ahead r q' = ahead r (gone ++ q') := by rw [ahead_append, ahead_eq_nil hs, nil_append]
      _ = ahead r (front ++ (b, true) :: back) := by rw [hg]
      _ = ahead r front ++ ahead r back := by rw [ahead_append]; rfl
  have hfr : firstUnstored q' = firstUnstored (front ++ (b, true) :: back) := by
    rw [hg, firstUnstored_append_of_stored hs]
  rw [ha, ahead_append, length_append, length_append]
  cases mark with
  | true => exact ⟨le_rfl, fun _ f _ hf => hfr.trans hf⟩
  | false =>
    refine ⟨Nat.add_le_add_left (List.Sublist.length_le ?_) _, fun heq f hle hf => ?_⟩
    · exact (sublist_cons_self _ _).filter _
    · cases hfn : front.find? fun e => !e.2 with
      | some =>
        rw [hfr, firstUnstored_append_of_some hfn]
        rwa [firstUnstored_append_of_some hfn] at hf
      | none =>
        -- the marked block was the first one, so the measure went down
        rw [firstUnstored_append_of_stored (find?_unstored_eq_none.mp hfn)] at hf
        have hn : number b = f.number := congrArg BlockRef.number (Option.some.inj hf)
        have hc : ahead r ((b, false) :: back) = (b, false) :: ahead r back :=
          filter_cons_of_pos (by simp; omega)
        rw [hc, length_cons] at heq
        omega

/-- The same for a push, as long as the block that is counted up to stays queued. -/
theorem ahead_push {kept rest : List (B × Bool)} {block : B}
    (has : ((kept ++ [(block, false)]).map fun e => number e.1).Pairwise (· < ·))
    (hr : Unstored (kept ++ rest) r) (hr' : Unstored (kept ++ [(block, false)]) r) :
    (ahead r (kept ++ [(block, false)])).length ≤ (ahead r (kept ++ rest)).length ∧
      ((ahead r (kept ++ [(block, false)])).length = (ahead r (kept ++ rest)).length →
        ∀ f, f.number ≤ r.number → firstUnstored (kept ++ rest) = some f →
          firstUnstored (kept ++ [(block, false)]) = some f) := by
  rw [ahead_append, ahead_append, length_append, length_append]
  obtain ⟨b, hb, hbr⟩ := hr'
  rcases mem_append.mp hb with hb | hb
  · -- the block is among those that were kept, and the new one is above it
    have hlt : r.number < number block := by
      rw [map_append, pairwise_append] at has
      have := has.2.2 (number b) (mem_map_of_mem hb) (number block) (by simp)
      exact hbr ▸ this
    have hnl : ahead r [(block, false)] = [] := filter_eq_nil_iff.mpr (by simp [hlt])
    rw [hnl, length_nil]
    refine ⟨Nat.le_add_right _ _, fun _ f _ hf => ?_⟩
    cases hfn : kept.find? fun e => !e.2 with
    | none => exact absurd (find?_unstored_eq_none.mp hfn _ hb) (by simp)
    | some =>
      rw [firstUnstored_append_of_some hfn] at hf ⊢
      exact hf
  · -- the block was dropped and is pushed again
    obtain rfl : b = block := congrArg Prod.fst (mem_singleton.mp hb)
    subst hbr
    obtain ⟨c, hc, hcr⟩ := hr
    have hck : (c, false) ∉ kept := by
      intro hm
      rw [map_append, pairwise_append] at has
      have := has.2.2 (number c) (mem_map_of_mem hm) (number b) (by simp)
      have hn : number c = number b := congrArg BlockRef.number hcr
      omega
    have hcs : (c, false) ∈ ahead (ptr b) rest := by
      refine mem_ahead.mpr ⟨(mem_append.mp hc).resolve_left hck, rfl, ?_⟩
      exact (congrArg BlockRef.number hcr).le
    have ho : ahead (ptr b) [(b, false)] = [(b, false)] := filter_cons_of_pos (by simp [ptr])
    rw [ho, length_singleton]
    have hp := length_pos_of_mem hcs
    refine ⟨by omega, fun heq f hle hf => ?_⟩
    cases hfn : kept.find? fun e => !e.2 with
    | some =>
      rw [firstUnstored_append_of_some hfn] at hf ⊢
      exact hf
    | none =>
      have hs := find?_unstored_eq_none.mp hfn
      rw [firstUnstored_append_of_stored hs] at hf ⊢
      obtain ⟨e, he, rfl⟩ := Option.map_eq_some_iff.mp hf
      have hm : e ∈ ahead (ptr b) rest :=
        mem_ahead.mpr ⟨mem_of_find?_eq_some he, by simpa using find?_some he, hle⟩
      obtain ⟨_, ha⟩ := length_eq_one_iff.mp (show (ahead (ptr b) rest).length = 1 by omega)
      rw [ha, mem_singleton] at hm hcs
      rw [hm, ← hcs]
      exact congrArg some hcr.symm

/-! ### Fair traces -/

/-- A trace on which each task goes on when it can and each write completes. -/
structure Fair {params : Params} {ok : Ingest B → IngestOp B → Prop}
    (τ : (Ingest.machine params).Trace ok) : Prop where
  writes : ∀ n, ∀ block ∈ (τ.state n).writes, ∃ m, n ≤ m ∧ ∃ pos b,
    τ.input m = some (.written pos) ∧ (τ.state m).writes[pos]? = some b ∧ ptr b = ptr block
  advance : ∀ n, (τ.state n).phase = .advancing → ∃ m, n ≤ m ∧ τ.input m = some .advance
  ready : ∀ n block, (τ.state n).phase = .settling block → ∃ m, n ≤ m ∧ τ.input m = some .ready
  writeWake : ∀ n, (τ.state n).phase = .selecting → (τ.state n).writer.hasCapacity = true →
    (τ.state n).writeChanged = true →
    ∃ m, n ≤ m ∧ (τ.input m = some .writeWake ∨ ∃ pos, τ.input m = some (.written pos))
  checkSize : ∀ n, (τ.state n).grow = .checking → ∃ m, n ≤ m ∧ τ.input m = some .checkSize
  growWake : ∀ n, (τ.state n).grow = .waiting → (τ.state n).growChanged = true →
    ∃ m, n ≤ m ∧ τ.input m = some .growWake

def completes (r : BlockRef) (s : Ingest B) : Option (IngestOp B) → Bool
  | some (.written pos) => (s.writes[pos]?).any fun b => ptr b = r
  | _ => false

def selects : Option (IngestOp B) → Bool
  | some (.written _) => true
  | some .writeWake => true
  | _ => false

/-- What has to follow in a state, on a fair trace. -/
def Ingest.due [DecidableEq B] (s : Ingest B) : List (Ingest B → Option (IngestOp B) → Bool) :=
  s.writes.map (fun block => completes (ptr block)) ++
  (match s.phase with
    | .advancing => [fun _ op => op = some .advance]
    | .settling _ => [fun _ op => op = some .ready]
    | .selecting =>
      if s.writer.hasCapacity && s.writeChanged then [fun _ op => selects op] else []) ++
  (match s.grow with
    | .running => []
    | .checking => [fun _ op => op = some .checkSize]
    | .waiting => if s.growChanged then [fun _ op => op = some .growWake] else [])

theorem Fair.of_due [DecidableEq B] {params : Params} {ok : Ingest B → IngestOp B → Prop}
    {τ : (Ingest.machine params).Trace ok} (h : τ.Fair Ingest.due) : Fair τ where
  writes := by
    intro n block hb
    obtain ⟨m, hm, ho⟩ := h n (completes (ptr block))
      (mem_append_left _ (mem_append_left _ (mem_map_of_mem hb)))
    refine ⟨m, hm, ?_⟩
    unfold completes at ho
    split at ho
    · rename_i pos hop
      cases hw : (τ.state m).writes[pos]? with
      | none =>
        rw [hw] at ho
        cases ho
      | some b =>
        rw [hw] at ho
        exact ⟨pos, b, hop, hw, of_decide_eq_true ho⟩
    · cases ho
  advance := by
    intro n hp
    obtain ⟨m, hm, ho⟩ := h n (fun _ op => op = some .advance) (by simp [Ingest.due, hp])
    exact ⟨m, hm, of_decide_eq_true ho⟩
  ready := by
    intro n block hp
    obtain ⟨m, hm, ho⟩ := h n (fun _ op => op = some .ready) (by simp [Ingest.due, hp])
    exact ⟨m, hm, of_decide_eq_true ho⟩
  writeWake := by
    intro n hp hcp hc
    obtain ⟨m, hm, ho⟩ := h n (fun _ op => selects op) (by simp [Ingest.due, hp, hcp, hc])
    refine ⟨m, hm, ?_⟩
    unfold selects at ho
    split at ho
    · rename_i pos hop
      exact Or.inr ⟨pos, hop⟩
    · rename_i hop
      exact Or.inl hop
    · cases ho
  checkSize := by
    intro n hg
    obtain ⟨m, hm, ho⟩ := h n (fun _ op => op = some .checkSize) (by simp [Ingest.due, hg])
    exact ⟨m, hm, of_decide_eq_true ho⟩
  growWake := by
    intro n hg hc
    obtain ⟨m, hm, ho⟩ := h n (fun _ op => op = some .growWake) (by simp [Ingest.due, hg, hc])
    exact ⟨m, hm, of_decide_eq_true ho⟩

section Progress

variable {params : Params} {τ : (Ingest.machine (B := B) params).Trace Ingest.Fresh}

theorem trace_inv (n : Nat) : WriterInv params (τ.state n) := .of_reachable (τ.reachable n)

variable {n : Nat}

/-- The step a trace takes for an input. -/
theorem trace_step {op : IngestOp B} (h : τ.input n = some op) :
    Ingest.Step (τ.state n) op (τ.state (n + 1)) :=
  Ingest.step_cases (τ.step_of_input h).2

theorem phase_of_written {pos : Nat} (h : τ.input n = some (.written pos)) :
    ∃ block, (τ.state n).writes[pos]? = some block ∧
      (τ.state (n + 1)).phase = .settling block := by
  have hs := trace_step h
  generalize τ.state (n + 1) = s' at hs
  cases hs with
  | @written _ block _ write => exact ⟨block, write, rfl⟩

/-- From a completed write the writer gets to the next `advance` with room. -/
theorem Fair.of_settling (hfr : Fair τ) {block : B} (h : (τ.state n).phase = .settling block) :
    ∃ m, n ≤ m ∧
      (τ.state m).phase = .advancing ∧ (τ.state m).writer.hasCapacity = true := by
  obtain ⟨m, _, hr⟩ := hfr.ready n block h
  refine ⟨m + 1, by omega, ?_⟩
  have hinv := trace_inv (τ := τ) m
  have hs := trace_step hr
  generalize τ.state (m + 1) = s' at hs
  cases hs with
  | @ready block' settling =>
    have hf := hinv.inFlight
    rw [settling] at hf
    exact ⟨rfl, hf.ready.2⟩

theorem Fair.of_written (hf : Fair τ) {pos : Nat} (h : τ.input n = some (.written pos)) :
    ∃ m, n ≤ m ∧ (τ.state m).phase = .advancing ∧ (τ.state m).writer.hasCapacity = true := by
  obtain ⟨_, -, hp⟩ := phase_of_written h
  obtain ⟨m, hm, ha⟩ := hf.of_settling hp
  exact ⟨m, by omega, ha⟩

/-- In `select!` a full writer has writes to wait for, and one with room and blocks to write has an
unseen change. -/
theorem Fair.of_selecting (hfr : Fair τ) (hp : 0 < params.maxPending)
    (h : (τ.state n).phase = .selecting)
    (ho : ∃ e ∈ (τ.state n).chain.queue, (τ.state n).writer.covers e = false) :
    ∃ m, n ≤ m ∧ (τ.state m).phase = .advancing ∧ (τ.state m).writer.hasCapacity = true := by
  have hinv := trace_inv (τ := τ) n
  cases hc : (τ.state n).writer.hasCapacity with
  | true =>
    have hch : (τ.state n).writeChanged = true := by
      by_contra hnot
      obtain ⟨e, he, hf⟩ := ho
      rw [hinv.idle h hc (by simpa using hnot) e he] at hf
      cases hf
    obtain ⟨m, hm, hwk | ⟨pos, hw⟩⟩ := hfr.writeWake n h hc hch
    · refine ⟨m + 1, by omega, ?_⟩
      have hs := trace_step hwk
      generalize τ.state (m + 1) = s' at hs
      cases hs with
      | writeWake _ capacity => exact ⟨rfl, capacity⟩
    · obtain ⟨k, hk, ha⟩ := hfr.of_written hw
      exact ⟨k, by omega, ha⟩
  | false =>
    have hfl : ¬ (τ.state n).writer.pending.length < (τ.state n).writer.maxPending :=
      of_decide_eq_false hc
    have hpr := hinv.inFlight.perm
    rw [h] at hpr
    have hlen : (τ.state n).writes.length = (τ.state n).writer.pending.length := by
      simpa [WriterPhase.settled] using hpr.length_eq
    have hmx := hinv.maxPending
    obtain ⟨block, hb⟩ := exists_mem_of_length_pos (show 0 < (τ.state n).writes.length by omega)
    obtain ⟨m, hm, pos, b, hw, -, -⟩ := hfr.writes n block hb
    obtain ⟨k, _, ha⟩ := hfr.of_written hw
    exact ⟨k, by omega, ha⟩

/-- As long as some block is not covered, the writer comes to `advance` with room again. -/
theorem Fair.exists_advancing (hf : Fair τ) (hpn : 0 < params.maxPending)
    (ho : ∀ m, n ≤ m → ∃ e ∈ (τ.state m).chain.queue, (τ.state m).writer.covers e = false) :
    ∃ m, n ≤ m ∧ (τ.state m).phase = .advancing ∧ (τ.state m).writer.hasCapacity = true := by
  cases hp : (τ.state n).phase with
  | settling => exact hf.of_settling hp
  | selecting => exact hf.of_selecting hpn hp (ho n le_rfl)
  | advancing =>
    cases hc : (τ.state n).writer.hasCapacity with
    | true => exact ⟨n, le_rfl, hp, hc⟩
    | false =>
      obtain ⟨m, _, ha⟩ := hf.advance n hp
      have hs : (τ.state (m + 1)).phase = .selecting := by
        have hst := trace_step ha
        generalize τ.state (m + 1) = s' at hst
        cases hst with
        | advance => rfl
        | advanceFull => rfl
      obtain ⟨k, _, had⟩ := hf.of_selecting hpn hs (ho (m + 1) (by omega))
      exact ⟨k, by omega, had⟩

/-- Until it is taken, `advance` stays due and keeps its room. -/
theorem advancing_step (hp : (τ.state n).phase = .advancing)
    (hc : (τ.state n).writer.hasCapacity = true) (hnot : τ.input n ≠ some .advance) :
    (τ.state (n + 1)).phase = .advancing ∧ (τ.state (n + 1)).writer.hasCapacity = true := by
  rcases τ.next n with ⟨-, hsm⟩ | ⟨_, hop, -, hs⟩
  · rw [hsm]
    exact ⟨hp, hc⟩
  · have hs := Ingest.step_cases hs
    generalize τ.state (n + 1) = s' at hs
    cases hs with
    | finalize =>
      split
      all_goals exact ⟨hp, hc⟩
    | advance => exact absurd hop hnot
    | advanceFull => exact absurd hop hnot
    | writeWake selecting => exact nomatch hp.symm.trans selecting
    | written selecting => exact nomatch hp.symm.trans selecting
    | ready settling => exact nomatch hp.symm.trans settling
    | _ => exact ⟨hp, hc⟩

theorem Fair.exists_advance (hfr : Fair τ) (hp : (τ.state n).phase = .advancing)
    (hc : (τ.state n).writer.hasCapacity = true) :
    ∃ m, n ≤ m ∧ τ.input m = some .advance ∧ (τ.state m).writer.hasCapacity = true := by
  obtain ⟨m, hm, ha, hf⟩ := Machine.exists_first (hfr.advance n hp)
  have hkp : (τ.state m).phase = .advancing ∧ (τ.state m).writer.hasCapacity = true :=
    Machine.holds_until (P := fun k => (τ.state k).phase = .advancing ∧
      (τ.state k).writer.hasCapacity = true) hm ⟨hp, hc⟩
      fun k hk hlt hP => advancing_step hP.1 hP.2 (hf k hk hlt)
  exact ⟨m, hm, ha, hkp.2⟩

/-- An `advance` with room covers the first block that is not stored. -/
theorem Advances.covers_first {chain : Chain B} {w : WriterState B}
    {done taken rest : List (B × Bool)} (h : Advances chain w done taken rest) (hv : chain.Valid)
    (hc : w.hasCapacity = true) (hf : chain.queue.find? (fun e => !e.2) = some e) :
    (w.advance chain).1.covers e = true := by
  obtain ⟨-, front, back, hq, hfr⟩ := find?_eq_some_iff_append.mp hf
  have hm : e ∈ done ++ taken ++ rest := h.split ▸ hq ▸ mem_append_right _ mem_cons_self
  rcases mem_append.mp hm with he | he
  · exact h.covers_front e he
  exfalso
  -- otherwise a block was taken that stands before it, but those are stored
  obtain ⟨t, taken', rfl⟩ : ∃ t taken', taken = t :: taken' := by
    cases taken with
    | cons t taken' => exact ⟨t, taken', rfl⟩
    | nil =>
      have hlt : w.pending.length < w.maxPending := of_decide_eq_true hc
      rcases h.full with hn | hfl
      · rw [hn] at he
        cases he
      · rw [length_nil] at hfl
        omega
  have htp := h.isOpen t (mem_append_left _ mem_cons_self)
  have ha := hv.queueAscending
  have hlt : number t.1 < number e.1 := by
    unfold Chain.numbers at ha
    rw [h.split, map_append, pairwise_append] at ha
    refine ha.2.2 _ (mem_map_of_mem ?_) _ (mem_map_of_mem he)
    exact mem_append_right _ mem_cons_self
  have ht : t ∈ front ++ e :: back := by
    rw [← hq, h.split]
    exact mem_append_left _ (mem_append_right _ mem_cons_self)
  unfold Chain.numbers at ha
  rw [hq, map_append, pairwise_append, map_cons, pairwise_cons] at ha
  rcases mem_append.mp ht with ht | ht
  · have hs : t.2 = true := by simpa using hfr t ht
    rw [covers_eq_false, hs] at htp
    cases htp.1
  · rcases mem_cons.mp ht with rfl | ht
    · exact lt_irrefl _ hlt
    · exact lt_asymm hlt (ha.2.1.1 _ (mem_map_of_mem ht))

/-- A block whose write is in flight does not stay unstored. -/
theorem Fair.not_pending (hf : Fair τ) (h : ∀ m, n ≤ m → Unstored (τ.state m).chain.queue r) :
    r ∉ (τ.state n).writer.pending.map ptr := by
  intro hm
  have hinv := trace_inv (τ := τ) n
  obtain ⟨block, hbl, rfl⟩ := mem_map.mp (hinv.inFlight.perm.symm.subset hm)
  rcases mem_append.mp hbl with hbl | hbl
  · obtain ⟨b, hb, hpt⟩ := h n le_rfl
    cases hinv.settled block hbl _ hb hpt
  · obtain ⟨m, _, _, b', hwr, hw, hpt'⟩ := hf.writes n block hbl
    obtain ⟨b'', hw', hp⟩ := phase_of_written hwr
    cases hw.symm.trans hw'
    obtain ⟨_, hb, hpt⟩ := h (m + 1) (by omega)
    have hs := (trace_inv (τ := τ) (m + 1)).settled
    rw [hp] at hs
    cases hs b' (mem_singleton_self b') _ hb (hpt.trans hpt'.symm)

theorem unstored_of_first (h : firstUnstored queue = some f) : Unstored queue f := by
  obtain ⟨⟨b, mark⟩, he, rfl⟩ := Option.map_eq_some_iff.mp h
  obtain rfl : mark = false := by simpa using find?_some he
  exact ⟨b, mem_of_find?_eq_some he, rfl⟩

/-- No block is the first one to be stored forever. -/
theorem Fair.first_changes (hfr : Fair τ) (hp : 0 < params.maxPending)
    (h : ∀ m, n ≤ m → firstUnstored (τ.state m).chain.queue = some f) : False := by
  have hu : ∀ m, n ≤ m → Unstored (τ.state m).chain.queue f := fun m hm =>
    unstored_of_first (h m hm)
  have hnot : ∀ m, n ≤ m → f ∉ (τ.state m).writer.pending.map ptr := fun m hm =>
    hfr.not_pending fun k hk => hu k (hm.trans hk)
  have ho : ∀ m, n ≤ m → ∃ e ∈ (τ.state m).chain.queue, (τ.state m).writer.covers e = false := by
    intro m hm
    obtain ⟨_, hb, hpt⟩ := hu m hm
    exact ⟨_, hb, covers_eq_false.mpr ⟨rfl, hpt.symm ▸ hnot m hm⟩⟩
  obtain ⟨_, hm, hph, hc⟩ := hfr.exists_advancing hp ho
  obtain ⟨k, hk, ha, hc⟩ := hfr.exists_advance hph hc
  have hinv := trace_inv (τ := τ) k
  obtain ⟨_, _, _, had⟩ := hinv.covered.advances hinv.valid hinv.inFlight.bound
  obtain ⟨e, he, hpt⟩ := Option.map_eq_some_iff.mp (h k (hm.trans hk))
  have hcv := had.covers_first hinv.valid hc he
  have hn := hnot (k + 1) (by omega)
  have hst := trace_step ha
  generalize τ.state (k + 1) = s' at hst hn
  cases hst with
  | advance =>
    rcases covers_iff.mp hcv with hs | hmm
    · have hf : e.2 = false := by simpa using find?_some he
      rw [hs] at hf
      cases hf
    · exact hn (hpt ▸ hmm)
  | advanceFull _ full => exact nomatch hc.symm.trans full

/-- While a block stays unstored the measure does not grow, and unless it shrinks the first block to
be stored stays. -/
theorem ahead_step (hr : Unstored (τ.state n).chain.queue r)
    (hr' : Unstored (τ.state (n + 1)).chain.queue r) :
    (ahead r (τ.state (n + 1)).chain.queue).length ≤ (ahead r (τ.state n).chain.queue).length ∧
      ((ahead r (τ.state (n + 1)).chain.queue).length = (ahead r (τ.state n).chain.queue).length →
        ∀ f, firstUnstored (τ.state n).chain.queue = some f →
          firstUnstored (τ.state (n + 1)).chain.queue = some f) := by
  have hle : ∀ f, firstUnstored (τ.state n).chain.queue = some f → f.number ≤ r.number :=
    fun f hf => firstUnstored_le (trace_inv (τ := τ) n).valid.queueAscending hf hr
  have ha := (trace_inv (τ := τ) (n + 1)).valid.queueAscending
  unfold Chain.numbers at ha
  rcases τ.next n with ⟨-, hs⟩ | ⟨_, -, hok, hst⟩
  · rw [hs]
    exact ⟨le_rfl, fun _ f hf => hf⟩
  cases queueStep (trace_inv (τ := τ) n).valid hok.1 hst with
  | same _ hs =>
    rw [hs]
    exact ⟨le_rfl, fun _ f hf => hf⟩
  | push _ hq hq' =>
    rw [hq] at hle hr ⊢
    rw [hq'] at ha hr' ⊢
    obtain ⟨hle', hs⟩ := ahead_push ha hr hr'
    exact ⟨hle', fun heq f hf => hs heq f (hle f hf) hf⟩
  | mark _ hm =>
    obtain ⟨_, _, _, _, hq, -, hg⟩ := hm.marked
    rw [hq] at hle ⊢
    obtain ⟨hle', hs⟩ := ahead_mark r hg hm.stored
    exact ⟨hle', fun heq f hf => hs heq f (hle f hf) hf⟩

/-- No block stays queued and unstored forever. -/
theorem Fair.not_unstored (hfa : Fair τ) (hp : 0 < params.maxPending) (n : Nat)
    (r : BlockRef) : ∃ m, n ≤ m ∧ ¬ Unstored (τ.state m).chain.queue r := by
  by_contra hn
  have hs : ∀ m, n ≤ m → Unstored (τ.state m).chain.queue r := fun m hm =>
    not_not.mp fun hnot => hn ⟨m, hm, hnot⟩
  obtain ⟨m, hm, hconst⟩ := Machine.settles
    (f := fun k => (ahead r (τ.state k).chain.queue).length) (n := n)
    fun k hk => (ahead_step (hs k hk) (hs (k + 1) (by omega))).1
  obtain ⟨f, hf⟩ : ∃ f, firstUnstored (τ.state m).chain.queue = some f := by
    obtain ⟨b, hb, -⟩ := hs m hm
    cases hfn : (τ.state m).chain.queue.find? fun e => !e.2 with
    | none => cases find?_unstored_eq_none.mp hfn _ hb
    | some e => exact ⟨ptr e.1, by rw [firstUnstored, hfn, Option.map_some]⟩
  refine hfa.first_changes hp (n := m) (f := f) fun k hk => ?_
  refine Machine.holds_until (P := fun k => firstUnstored (τ.state k).chain.queue = some f) hk hf
    fun j hj _ hfr => ?_
  refine (ahead_step (hs j (by omega)) (hs (j + 1) (by omega))).2 ?_ f hfr
  exact (hconst (j + 1) (by omega)).trans (hconst j hj).symm

/-- The block is dropped by a fork, or its write completes. -/
def Ends (τ : (Ingest.machine (B := B) params).Trace Ingest.Fresh) (r : BlockRef)
    (n : Nat) : Prop :=
  (∃ isFinal block, τ.input n = some (.push isFinal block) ∧
    ∀ e ∈ (τ.state (n + 1)).chain.queue, ptr e.1 ≠ r) ∨
  ∃ pos block, τ.input n = some (.written pos) ∧ (τ.state n).writes[pos]? = some block ∧
    ptr block = r ∧ r ∈ (τ.state (n + 1)).saved ∧
    ∀ e ∈ (τ.state (n + 1)).chain.queue, ptr e.1 = r → e.2 = true

/-- The step with which a block stops being unstored. -/
theorem unstored_ends (h : Unstored (τ.state n).chain.queue r)
    (h' : ¬ Unstored (τ.state (n + 1)).chain.queue r) : Ends τ r n := by
  have hn := (trace_inv (τ := τ) n).valid.nodup
  rcases τ.next n with ⟨-, hsm⟩ | ⟨_, hop, hok, hst⟩
  · exact absurd (hsm ▸ h) h'
  cases queueStep (trace_inv (τ := τ) n).valid hok.1 hst with
  | same _ hsm => exact absurd (hsm ▸ h) h'
  | @push isFinal block kept rest _ hq hq' =>
    refine Or.inl ⟨isFinal, block, hop, fun e he hp => h' ?_⟩
    obtain ⟨b, hb, hbr⟩ := h
    rw [hq'] at he ⊢
    rcases mem_append.mp he with hk | hlast
    · -- the queue has the block once
      have heq : e = (b, false) := inj_on_of_nodup_map hn
        (hq ▸ mem_append_left rest hk) hb (hp.trans hbr.symm)
      exact ⟨b, heq ▸ mem_append_left _ hk, hbr⟩
    · rw [mem_singleton.mp hlast] at hp
      exact ⟨block, mem_append_right _ (mem_singleton_self _), hp⟩
  | @mark pos block gone hw hm _ hsv =>
    have hs : ∀ e ∈ (τ.state (n + 1)).chain.queue, ptr e.1 = ptr block → e.2 = true :=
      fun e he hp => hm.stored_of_ptr (trace_inv n).valid he hp
    obtain ⟨_, _, _, _, hq, hb, hg⟩ := hm.marked
    have hr : ptr block = r := by
      obtain ⟨c, hc, rfl⟩ := h
      by_contra hne
      refine h' ⟨c, ?_, rfl⟩
      have hmm : (c, false) ∈ gone ++ (τ.state (n + 1)).chain.queue := by
        rw [← hg]
        rw [hq] at hc
        rcases mem_append.mp hc with hc | hc
        · exact mem_append_left _ hc
        · rcases mem_cons.mp hc with hc | hc
          · exact absurd (by rw [← hb, (Prod.mk.inj hc).1]) hne
          · exact mem_append_right _ (mem_cons_of_mem _ hc)
      refine (mem_append.mp hmm).resolve_left fun hg' => ?_
      cases hm.stored _ hg'
    subst hr
    exact Or.inr ⟨pos, block, hop, hw, rfl, hsv ▸ mem_cons_self, hs⟩

/-- Every block that is to be stored is stored, unless a fork drops it. -/
theorem Fair.stored_or_dropped (hfr : Fair τ) (hp : 0 < params.maxPending)
    (h : Unstored (τ.state n).chain.queue r) : ∃ m, n ≤ m ∧ Ends τ r m := by
  obtain ⟨m, hm, hnot, hf⟩ := Machine.exists_first (hfr.not_unstored hp n r)
  obtain ⟨k, rfl⟩ : ∃ k, m = k + 1 := by
    cases m with
    | zero => exact absurd ((Nat.le_zero.mp hm) ▸ h) hnot
    | succ k => exact ⟨k, rfl⟩
  have hk : n ≤ k := by
    rcases Nat.lt_or_eq_of_le hm with hlt | rfl
    · omega
    · exact absurd h hnot
  have hu := not_not.mp (hf k hk k.lt_succ_self)
  exact ⟨k, hk, unstored_ends hu hnot⟩

/-- Only a push brings a block that is to be stored. -/
theorem unstored_before (hq : ∀ isFinal block, τ.input n ≠ some (.push isFinal block))
    (h : Unstored (τ.state (n + 1)).chain.queue r) : Unstored (τ.state n).chain.queue r := by
  rcases τ.next n with ⟨-, hs⟩ | ⟨_, hop, hok, hst⟩
  · exact hs ▸ h
  cases queueStep (trace_inv (τ := τ) n).valid hok.1 hst with
  | same _ hs => exact hs ▸ h
  | @push isFinal block => exact absurd hop (hq isFinal block)
  | @mark _ _ gone _ hm =>
    obtain ⟨c, hc, hp⟩ := h
    obtain ⟨front, b, mark, back, hqu, -, hg⟩ := hm.marked
    have hmm : (c, false) ∈ front ++ (b, true) :: back := hg ▸ mem_append_right gone hc
    refine ⟨c, ?_, hp⟩
    rw [hqu]
    rcases mem_append.mp hmm with hmm | hmm
    · exact mem_append_left _ hmm
    · rcases mem_cons.mp hmm with heq | hmm
      · cases heq
      · exact mem_append_right _ (mem_cons_of_mem _ hmm)

/-- When nothing is pushed any more, the queue drains. -/
theorem Fair.drains (hfr : Fair τ) (hp : 0 < params.maxPending)
    (hq : ∀ m, n ≤ m → ∀ isFinal block, τ.input m ≠ some (.push isFinal block)) :
    ∃ m, n ≤ m ∧ ∀ k, m ≤ k → (∀ e ∈ (τ.state k).chain.queue, e.2 = true) ∧
      (τ.state k).chain.len ≤ params.minSize := by
  have hb : ∀ r m k, n ≤ m → m ≤ k → ¬ Unstored (τ.state m).chain.queue r →
      ¬ Unstored (τ.state k).chain.queue r := by
    intro r m k hm hk hnot
    exact Machine.holds_until (P := fun k => ¬ Unstored (τ.state k).chain.queue r) hk hnot
      fun j hj _ hj' hun => hj' (unstored_before (hq j (by omega)) hun)
  obtain ⟨m, hm, ha⟩ := Machine.eventually_forall
    (P := fun r k => ¬ Unstored (τ.state k).chain.queue r) (n := n)
    ((τ.state n).chain.queue.map fun e => ptr e.1) fun r _ => by
      obtain ⟨m, hm, hnot⟩ := hfr.not_unstored hp n r
      exact ⟨m, hm, fun k hk => hb r m k hm hk hnot⟩
  have hs : ∀ k, m ≤ k → ∀ e ∈ (τ.state k).chain.queue, e.2 = true := by
    rintro k hk ⟨b, mark⟩ he
    by_contra hf
    obtain rfl : mark = false := by simpa using hf
    have hun : Unstored (τ.state k).chain.queue (ptr b) := ⟨b, he, rfl⟩
    have hun' : Unstored (τ.state n).chain.queue (ptr b) :=
      not_not.mp fun hnot => hb _ n k le_rfl (hm.trans hk) hnot hun
    obtain ⟨_, hb', hpt⟩ := hun'
    exact ha k hk (ptr b) (mem_map.mpr ⟨_, hb', hpt⟩) hun
  refine ⟨m, hm, fun k hk => ⟨hs k hk, ?_⟩⟩
  have hinv := trace_inv (τ := τ) k
  exact hinv.minSize ▸ hinv.drained (hs k hk)

/-- `ChainSender::wait` returns. -/
theorem Fair.wait_returns (hf : Fair τ) (hp : 0 < params.maxPending)
    (hsz : params.minSize < params.maxSize) (n : Nat) :
    ∃ m, n ≤ m ∧ (τ.state m).grow = .running := by
  by_contra hnn
  have hb : ∀ m, n ≤ m → (τ.state m).grow ≠ .running := fun m hm hr =>
    hnn ⟨m, hm, hr⟩
  have hq : ∀ m, n ≤ m → ∀ isFinal block, τ.input m ≠ some (.push isFinal block) := by
    intro m hm isFinal block hps
    have hs := trace_step hps
    generalize τ.state (m + 1) = s' at hs
    cases hs with
    | push running => exact hb m hm running
  obtain ⟨m, hm, hd⟩ := hf.drains hp hq
  have hfr : ∀ k, m ≤ k → (τ.state k).chain.len < (τ.state k).maxSize := by
    intro k hk
    have := (hd k hk).2
    have hmx := (trace_inv (τ := τ) k).maxSize
    omega
  have hc : ∀ k, m ≤ k → (τ.state k).grow ≠ .checking := by
    intro k hk hcc
    obtain ⟨j, _, hsC⟩ := hf.checkSize k hcc
    have hfr := hfr j (by omega)
    have hn := hb (j + 1) (by omega)
    have hs := trace_step hsC
    generalize τ.state (j + 1) = s' at hs hn
    cases hs with
    | sizeFull => omega
    | sizeFree => exact hn rfl
  have hw : (τ.state m).grow = .waiting := by
    cases hg : (τ.state m).grow with
    | running => exact absurd hg (hb m hm)
    | checking => exact absurd hg (hc m le_rfl)
    | waiting => rfl
  have hch : (τ.state m).growChanged = true := by
    by_contra hnot
    have hfl := (trace_inv (τ := τ) m).watching hw (by simpa using hnot)
    have := hfr m le_rfl
    omega
  obtain ⟨k, _, hwk⟩ := hf.growWake m hw hch
  have hn := hc (k + 1) (by omega)
  have hs := trace_step hwk
  generalize τ.state (k + 1) = s' at hs hn
  cases hs with
  | growWake => exact hn rfl

end Progress

/-- Before the position that `find_position` returns every block is stored or being written. -/
theorem WriterInv.before_position {params : Params} {s : Ingest B} (h : WriterInv params s) :
    ∀ e ∈ s.chain.queue.take (s.writer.findPosition s.chain),
      e.2 = true ∨ ∃ b ∈ s.writes, ptr b = ptr e.1 := by
  obtain ⟨_, rest, hs, hd, -, hps⟩ := h.covered.findPosition h.valid
  rw [hps, hs, take_left]
  intro e he
  refine (covers_iff.mp (hd e he)).elim Or.inl fun hm => ?_
  obtain ⟨b, hb, hp⟩ := mem_map.mp (h.inFlight.perm.symm.subset hm)
  rcases mem_append.mp hb with hb | hb
  · exact Or.inl (h.settled b hb e (hs ▸ mem_append_left rest he) hp.symm)
  · exact Or.inr ⟨b, hb, hp⟩

/-- The blocks before the position of the writer are stored or being written in every state, and on
every fair trace each block that is queued is saved and marked unless a fork drops it, the queue
drains to its minimum size when the pushes end, and `wait` returns. -/
theorem write_behind_complete {params : Params} (hpending : 0 < params.maxPending)
    (hsize : params.minSize < params.maxSize) :
    (∀ s : Ingest B, (Ingest.machine params).Reachable Ingest.Fresh s →
      ∀ e ∈ s.chain.queue.take (s.writer.findPosition s.chain),
        e.2 = true ∨ ∃ b ∈ s.writes, ptr b = ptr e.1) ∧
    ∀ τ : (Ingest.machine (B := B) params).Trace Ingest.Fresh, Fair τ →
      (∀ n r, Unstored (τ.state n).chain.queue r → ∃ m, n ≤ m ∧
        ((∃ isFinal block, τ.input m = some (.push isFinal block) ∧
          ∀ e ∈ (τ.state (m + 1)).chain.queue, ptr e.1 ≠ r) ∨
        ∃ pos block, τ.input m = some (.written pos) ∧ (τ.state m).writes[pos]? = some block ∧
          ptr block = r ∧ r ∈ (τ.state (m + 1)).saved ∧
          ∀ e ∈ (τ.state (m + 1)).chain.queue, ptr e.1 = r → e.2 = true)) ∧
      (∀ n, (∀ m, n ≤ m → ∀ isFinal block, τ.input m ≠ some (.push isFinal block)) →
        ∃ m, n ≤ m ∧ ∀ k, m ≤ k → (∀ e ∈ (τ.state k).chain.queue, e.2 = true) ∧
          (τ.state k).chain.len ≤ params.minSize) ∧
      ∀ n, ∃ m, n ≤ m ∧ (τ.state m).grow = .running := by
  refine ⟨fun s hs => (WriterInv.of_reachable hs).before_position, fun τ hf => ⟨?_, ?_, ?_⟩⟩
  · exact fun n r h => hf.stored_or_dropped hpending h
  · exact fun n hq => hf.drains hpending hq
  · exact fun n => hf.wait_returns hpending hsize n

section Sample

def sampleParams : Params := ⟨0, 5, 50, 5⟩

def header (number : Nat) (hash parentHash : Hash) : BlockHeader :=
  ⟨number, hash, number - 1, parentHash⟩

def noBlocks : Ingest BlockHeader where
  chain := { chain := [], fin := false, queue := [], minSize := 5 }
  maxSize := 50
  firstBlock := 0
  grow := .running
  growChanged := false
  writer := .new 5
  writes := []
  phase := .advancing
  writeChanged := false
  prev := none
  call := none
  finalizeChanged := false
  saved := []
  trail := []

theorem noBlocks_init : (Ingest.machine sampleParams).init noBlocks :=
  ⟨⟨[], false⟩, [], .nil, nofun, rfl⟩

def twoBlocks : List (IngestOp BlockHeader) :=
  [.push false (header 1 "1" "0"), .push false (header 2 "2" "1"), .advance, .written 1, .ready,
    .advance, .written 0, .ready, .advance]

theorem twoBlocks_runOk : (Ingest.machine sampleParams).RunOk Ingest.Fresh noBlocks twoBlocks := by
  decide +kernel

def twoBlocksTrace : (Ingest.machine (B := BlockHeader) sampleParams).Trace Ingest.Fresh :=
  .ofRun noBlocks_init twoBlocks_runOk (by decide +kernel)

theorem twoBlocksTrace_fair : Fair twoBlocksTrace :=
  .of_due (Machine.Trace.ofRun_fair _ _ _ (by decide +kernel))

theorem two_blocks_drain : ∃ m, 9 ≤ m ∧ ∀ k, m ≤ k →
    (∀ e ∈ (twoBlocksTrace.state k).chain.queue, e.2 = true) ∧
      (twoBlocksTrace.state k).chain.len ≤ 5 := by
  have hp : 0 < sampleParams.maxPending := by decide
  have hs : sampleParams.minSize < sampleParams.maxSize := by decide
  refine ((write_behind_complete hp hs).2 twoBlocksTrace twoBlocksTrace_fair).2.1 9 ?_
  intro m hm isFinal block hps
  have hn : twoBlocksTrace.input m = none := getElem?_eq_none hm
  cases hn.symm.trans hps

/-- Blocks 1 to 5 are being written when a fork drops 3 to 5. Once the write of 3 is done they come
back: 4 and 5 are still being written, 3 is not. -/
def refork : List (IngestOp BlockHeader) :=
  [.push false (header 1 "1" "0"), .push false (header 2 "2" "1"), .push false (header 3 "3" "2"),
    .push false (header 4 "4" "3"), .push false (header 5 "5" "4"), .advance,
    .push false (header 3 "3x" "2"), .written 2, .ready, .push false (header 3 "3" "2"),
    .push false (header 4 "4" "3"), .push false (header 5 "5" "4")]

def reforkDone : List (IngestOp BlockHeader) :=
  refork ++ [.advance, .written 0, .ready, .advance, .written 0, .ready, .advance, .written 0,
    .ready, .advance, .written 0, .ready, .advance]

def reforked : Ingest BlockHeader :=
  ((Ingest.machine sampleParams).run noBlocks refork).getD noBlocks

theorem reforked_eq : (Ingest.machine sampleParams).run noBlocks refork = some reforked := by
  decide +kernel

theorem reforkDone_linked :
    (Ingest.machine sampleParams).RunOk Ingest.Linked noBlocks reforkDone := by
  decide +kernel

def reforkTrace : (Ingest.machine (B := BlockHeader) sampleParams).Trace Ingest.Linked :=
  .ofRun noBlocks_init reforkDone_linked (by decide +kernel)

/-- After the second fork block 3 stands before the position of the writer but is neither stored nor
being written, and if all writes complete it is queued and not stored forever. -/
theorem refork_leaves_hole :
    (∃ s : Ingest BlockHeader, (Ingest.machine sampleParams).Reachable Ingest.Linked s ∧
      ∃ e ∈ s.chain.queue.take (s.writer.findPosition s.chain),
        e.2 = false ∧ ∀ b ∈ s.writes, ptr b ≠ ptr e.1) ∧
    ∃ τ : (Ingest.machine (B := BlockHeader) sampleParams).Trace Ingest.Linked, Fair τ ∧
      ∃ n, ∀ m, n ≤ m → Unstored (τ.state m).chain.queue ⟨3, "3"⟩ := by
  refine ⟨⟨reforked, ?_, ?_⟩, reforkTrace, ?_, 25, fun m hm => ?_⟩
  · exact (Machine.Reachable.init noBlocks_init).run (by decide +kernel) reforked_eq
  · exact ⟨(header 3 "3" "2", false), by decide +kernel, by decide +kernel, by decide +kernel⟩
  · exact .of_due (Machine.Trace.ofRun_fair _ _ _ (by decide +kernel))
  · refine ⟨header 3 "3" "2", ?_, rfl⟩
    have he : reforkTrace.state m = reforkTrace.state 25 :=
      Machine.stateAt_of_length_le _ _ hm
    rw [he]
    decide +kernel

end Sample

end Bds
