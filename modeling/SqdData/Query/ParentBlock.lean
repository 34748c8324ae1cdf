import SqdData.Query.Plan

/-!
# The check of the parent block

A query may say which hash the parent of its first block has. The parent is not looked up: the rows
whose parent is not far below the first block are read, and the reference with the greatest number
is compared. If it differs, all references are reported as previous blocks.
-/

namespace Query

open List

open Storage (BlockRef)

/-- What the check reads of a block, and the hash of the block. A parent hash may be null. -/
structure BlockRow where
  number : Nat
  parentNumber : Nat
  hash : String
  parentHash : Option String
deriving DecidableEq, Repr

def BlockRow.ref (b : BlockRow) : BlockRef := ⟨b.number, b.hash⟩

/-- The table of blocks. Not all tables have the column of parent numbers. -/
structure BlockTable where
  hasParentNumber : Bool
  rows : List BlockRow

inductive CheckError where
  | text (message : String)
  | unexpectedBaseBlock (prevBlocks : List BlockRef) (expectedHash : String)
deriving DecidableEq, Repr

namespace BlockTable

variable (t : BlockTable)

/-- The predicate of the scan. -/
def inWindow (blockNumber : Nat) (b : BlockRow) : Bool :=
  if t.hasParentNumber then blockNumber - 100 ≤ b.parentNumber && b.parentNumber ≤ blockNumber - 1
  else blockNumber - 100 ≤ b.number && b.number ≤ blockNumber

def parentRef (b : BlockRow) : BlockRef where
  number := if t.hasParentNumber then b.parentNumber else b.number - 1
  hash := b.parentHash.getD ""

def refs (blockNumber : Nat) (rows : List BlockRow) : List BlockRef :=
  (rows.filter (t.inWindow blockNumber)).map t.parentRef

end BlockTable

/-- `scan_table` of a chunk, as far as the check uses it. -/
abbrev ScanTable := String → Except CheckError BlockTable

/-- The table of the first output, `outputs[0]`, which a plan without outputs does not have. -/
def Plan.scanBlocks (plan : Plan) (scanTable : ScanTable) : Except CheckError BlockTable :=
  match plan.outputs with
  | [] => .error (.text "index out of bounds: the len is 0 but the index is 0")
  | output :: _ => scanTable output.table

def Plan.checkParentBlock (plan : Plan) (scanTable : ScanTable) : Except CheckError Unit :=
  match plan.parentBlockHash, plan.firstBlock with
  | none, _ => .ok ()
  | some _, none => .error (.text
      "invalid plan: parent block hash is specified, but block number is not available")
  | some parentHash, some blockNumber => do
    let t ← plan.scanBlocks scanTable
    let refs := (t.refs blockNumber t.rows).insertionSort fun a b => a.number ≤ b.number
    match refs.getLast? with
    | none => .error (.text s!"block {blockNumber} is not present in the chunk")
    | some parent =>
      if parent.hash = parentHash then .ok () else .error (.unexpectedBaseBlock refs parentHash)

/-! ## Linked tables -/

namespace BlockTable

variable {t : BlockTable} {scanTable : ScanTable} {rows : List BlockRow} {prev : BlockRef}
  {b c : BlockRow} {n : Nat}

/-- A block that follows another one. Where numbers may be skipped, less than 100 are. -/
def Follows (t : BlockTable) (prev : BlockRef) (b : BlockRow) : Prop :=
  b.parentHash = some prev.hash ∧ prev.number < b.number ∧
    if t.hasParentNumber then b.parentNumber = prev.number ∧ b.number ≤ prev.number + 100
    else b.number = prev.number + 1

def LinkedFrom (t : BlockTable) : BlockRef → List BlockRow → Prop
  | _, [] => True
  | prev, b :: rows => t.Follows prev b ∧ t.LinkedFrom b.ref rows

/-- The rows of a chunk are linked to each other and to the block before the chunk. There is none
before block 0, whatever is said about its parent. -/
def Linked (t : BlockTable) : Option BlockRef → Prop
  | some prev => t.LinkedFrom prev t.rows
  | none => ∃ b rows, t.rows = b :: rows ∧ b.number = 0 ∧
      (t.hasParentNumber = true → b.parentNumber = 0) ∧ t.LinkedFrom b.ref rows

/-- The ancestors of a block, as far as the chunk knows them. -/
def ancestors (t : BlockTable) (prev : Option BlockRef) (c : BlockRow) : List BlockRef :=
  prev.toList ++ (t.rows.filter (·.number < c.number)).map BlockRow.ref

theorem parentRef_eq (h : t.Follows prev b) : t.parentRef b = prev := by
  obtain ⟨hash, -, _⟩ := h
  simp only [parentRef, hash, Option.getD_some]
  split <;> simp_all

theorem LinkedFrom.above (h : t.LinkedFrom prev rows) (hb : b ∈ rows) :
    prev.number < b.number ∧ (t.hasParentNumber = true → prev.number ≤ b.parentNumber) := by
  induction rows generalizing prev with
  | nil => cases hb
  | cons _ _ ih =>
    obtain ⟨⟨-, hlt, hn⟩, hr⟩ := h
    rcases mem_cons.mp hb with rfl | hb
    · refine ⟨hlt, fun hh => ?_⟩
      rw [if_pos hh] at hn
      exact hn.1.ge
    · obtain ⟨hlt', hp⟩ := ih hr hb
      exact ⟨hlt.trans hlt', fun hh => hlt.le.trans (hp hh)⟩

theorem LinkedFrom.ascending {p : BlockRow → Bool} {l : List BlockRef}
    (h : t.LinkedFrom prev rows) (hl : l.Sublist (prev :: (rows.filter p).map BlockRow.ref)) :
    l.Pairwise (·.number < ·.number) := by
  have hal : (prev :: rows.map BlockRow.ref).Pairwise (·.number < ·.number) := by
    clear hl
    induction rows generalizing prev with
    | nil => exact pairwise_singleton _ _
    | cons _ _ ih =>
      refine pairwise_cons.mpr ⟨fun r hr => ?_, ih h.2⟩
      obtain ⟨_, ha, rfl⟩ := mem_map.mp hr
      exact (h.above ha).1
  exact hal.sublist (hl.trans ((filter_sublist.map BlockRow.ref).cons_cons prev))

/-- Above the block before the rows, the last reference is the parent, and all references are
ancestors in their order. -/
theorem LinkedFrom.refs_eq (h : t.LinkedFrom prev rows) (hn : prev.number < n)
    (hc : rows.find? (n ≤ ·.number) = some c) :
    ∃ older parent, t.refs n rows = older ++ [parent] ∧ c.parentHash = some parent.hash ∧
      (older ++ [parent]).Sublist
        (prev :: (rows.filter (·.number < c.number)).map BlockRow.ref) := by
  induction rows generalizing prev with
  | nil => cases hc
  | cons b rows ih =>
    obtain ⟨hb, hr⟩ := h
    by_cases hle : n ≤ b.number
    · -- the later rows have parents from here on
      obtain rfl : b = c := by simpa [hle] using hc
      have hl : rows.filter (t.inWindow n) = [] := by
        refine filter_eq_nil_iff.mpr fun a ha => ?_
        obtain ⟨hlt, hp⟩ := hr.above ha
        have hnm := hb.2.2
        simp only [BlockRow.ref] at hlt hp
        simp only [inWindow]
        split at hnm <;> simp_all <;> omega
      have hs : t.inWindow n b = true := by
        obtain ⟨-, hlt, hnm⟩ := hb
        simp only [inWindow]
        split at hnm <;> simp_all <;> omega
      refine ⟨[], prev, ?_, hb.1, by simp⟩
      simp [refs, hs, hl, parentRef_eq hb]
    · have hlt : b.number < n := by omega
      have hc : rows.find? (n ≤ ·.number) = some c := by simpa [hle] using hc
      have hle : n ≤ c.number := by simpa using find?_some hc
      obtain ⟨older, parent, heq, hp, hsb⟩ := ih hr hlt hc
      rw [filter_cons_of_pos (by simp; omega), map_cons]
      by_cases hin : t.inWindow n b = true
      · refine ⟨prev :: older, parent, ?_, hp, hsb.cons_cons prev⟩
        rw [cons_append, ← heq, refs, filter_cons_of_pos hin, map_cons, parentRef_eq hb]
        rfl
      · refine ⟨older, parent, ?_, hp, hsb.cons prev⟩
        rw [← heq, refs, filter_cons_of_neg hin]
        rfl

/-- The check with a given hash, when its references come in the order of the rows. -/
theorem check_eq {plan : Plan} {hash : String} {older : List BlockRef} {parent : BlockRef}
    (ht : plan.scanBlocks scanTable = .ok t) (hh : plan.parentBlockHash = some hash)
    (hn : plan.firstBlock = some n) (heq : t.refs n t.rows = older ++ [parent])
    (hs : (older ++ [parent]).Pairwise (·.number ≤ ·.number)) :
    plan.checkParentBlock scanTable = if parent.hash = hash then .ok ()
      else .error (.unexpectedBaseBlock (older ++ [parent]) hash) := by
  simp only [Plan.checkParentBlock, ht, hh, hn, bind, Except.bind, heq, hs.insertionSort_eq,
    getLast?_concat]

/-- The check accepts the hash if it is the parent hash of the first block from the given number on,
and otherwise reports ancestors of that block in ascending order. -/
def Anchored (t : BlockTable) (plan : Plan) (scanTable : ScanTable) (prev : Option BlockRef)
    (c : BlockRow) (hash : String) : Prop :=
  (plan.checkParentBlock scanTable = .ok () ∧ c.parentHash = some hash) ∨
    c.parentHash ≠ some hash ∧ ∃ refs,
      plan.checkParentBlock scanTable = .error (.unexpectedBaseBlock refs hash) ∧ refs ≠ [] ∧
      refs.Pairwise (·.number < ·.number) ∧ ∀ r ∈ refs, r ∈ t.ancestors prev c

theorem anchored_of_refs {plan : Plan} {hash : String} {older : List BlockRef} {parent : BlockRef}
    {before : Option BlockRef} (ht : plan.scanBlocks scanTable = .ok t)
    (hh : plan.parentBlockHash = some hash) (hn : plan.firstBlock = some n)
    (heq : t.refs n t.rows = older ++ [parent]) (hp : c.parentHash = some parent.hash)
    (hs : (older ++ [parent]).Pairwise (·.number < ·.number))
    (hm : ∀ r ∈ older ++ [parent], r ∈ t.ancestors before c) :
    t.Anchored plan scanTable before c hash := by
  have hc := check_eq ht hh hn heq (hs.imp le_of_lt)
  by_cases hsm : parent.hash = hash
  · exact Or.inl ⟨by rw [hc, if_pos hsm], hp.trans (congrArg some hsm)⟩
  · refine Or.inr ⟨by simpa [hp] using hsm, _, by rw [hc, if_neg hsm], by simp, hs, hm⟩

section Genesis

variable {plan : Plan} {hash : String} {g : BlockRow}

variable (hg : g.number = 0)

include hg

variable (hp : t.hasParentNumber = true → g.parentNumber = 0)

include hp

/-- Block 0 is read for all first blocks up to 100. -/
theorem inWindow_genesis : t.inWindow n g = decide (n ≤ 100) := by
  by_cases hh : t.hasParentNumber = true
  · simp [inWindow, hh, hp hh, Nat.sub_eq_zero_iff_le]
  · simp [inWindow, hh, hg, Nat.sub_eq_zero_iff_le]

theorem parentRef_genesis : t.parentRef g = ⟨0, g.parentHash.getD ""⟩ := by
  by_cases hh : t.hasParentNumber = true
  · simp [parentRef, hh, hp hh]
  · simp [parentRef, hh, hg]

/-- From block 0 on, the row of block 1 is read too if it tells the number of its parent. -/
theorem refs_zero (hr : t.LinkedFrom g.ref rows) :
    t.refs 0 (g :: rows) = ⟨0, g.parentHash.getD ""⟩ ::
      if t.hasParentNumber then (rows.head?.map fun _ => g.ref).toList else [] := by
  have hs : t.inWindow 0 g = true := by simp [inWindow_genesis hg hp]
  rw [refs, filter_cons_of_pos hs, map_cons, parentRef_genesis hg hp]
  congr 1
  cases rows with
  | nil => simp
  | cons b rows =>
    have hl : rows.filter (t.inWindow 0) = [] := by
      refine filter_eq_nil_iff.mpr fun a ha => ?_
      obtain ⟨hlt, hpr⟩ := hr.2.above ha
      have hb := hr.1.2.1
      simp only [BlockRow.ref] at hlt hpr hb
      simp only [inWindow]
      split <;> simp_all <;> omega
    obtain ⟨-, hlt, hn⟩ := hr.1
    simp only [BlockRow.ref] at hlt hn
    by_cases hh : t.hasParentNumber = true
    · have hin : t.inWindow 0 b = true := by simp_all [inWindow]
      simp [hin, hl, hh, parentRef_eq hr.1]
    · have ho : ¬ t.inWindow 0 b = true := by
        simp only [inWindow, hh]
        simp
        omega
      simp [ho, hl, hh]

omit hp

omit hg

theorem anchored_zero_iff (ht : plan.scanBlocks scanTable = .ok t)
    (hh : plan.parentBlockHash = some hash) (hn : plan.firstBlock = some 0)
    (heq : t.rows = g :: rows) (hg : g.number = 0)
    (hp : t.hasParentNumber = true → g.parentNumber = 0) (hrw : t.LinkedFrom g.ref rows) :
    t.Anchored plan scanTable none g hash ↔ g.parentHash = some hash ∧
      (t.hasParentNumber = true → ∀ b ∈ rows.head?, g.hash = hash) := by
  have hnn : t.ancestors none g = [] := by simp [ancestors, hg]
  have hrefs := refs_zero hg hp hrw
  rw [← heq] at hrefs
  have hf : t.Anchored plan scanTable none g hash ↔
      plan.checkParentBlock scanTable = .ok () ∧ g.parentHash = some hash := by
    refine or_iff_left ?_
    rintro ⟨-, _, -, hne, -, ha⟩
    obtain ⟨r, hr⟩ := exists_mem_of_ne_nil _ hne
    simpa [hnn] using ha r hr
  rw [hf, and_comm]
  refine and_congr_right fun hpr => ?_
  by_cases hnx : t.hasParentNumber = true ∧ rows ≠ []
  · obtain ⟨_, _, rfl⟩ := exists_cons_of_ne_nil hnx.2
    have htwo : t.refs 0 t.rows = [⟨0, g.parentHash.getD ""⟩] ++ [g.ref] := by
      simpa [hnx.1] using hrefs
    rw [check_eq ht hh hn htwo (by simp [BlockRow.ref])]
    split <;> simp_all [BlockRow.ref]
  · have ho : t.refs 0 t.rows = [] ++ [⟨0, g.parentHash.getD ""⟩] := by
      rw [hrefs]
      cases rows <;> simp_all
    rw [check_eq ht hh hn ho (by simp), if_pos (by simp [hpr])]
    cases rows <;> simp_all

end Genesis

/-- The check does what it is for unless block 0 is among the rows it reads and the hash is not
that of the parent. -/
theorem parent_check_is_exact_iff {plan : Plan} {before : Option BlockRef} {hash : String}
    (ht : plan.scanBlocks scanTable = .ok t) (hl : t.Linked before)
    (hh : plan.parentBlockHash = some hash)
    (hn : plan.firstBlock = some n) (hrn : ∀ p ∈ before, p.number < n)
    (hc : t.rows.find? (n ≤ ·.number) = some c) :
    t.Anchored plan scanTable before c hash ↔ (before = none → n ≤ 100 → c.parentHash = some hash ∧
      (n = 0 → t.hasParentNumber = true → ∀ b ∈ t.rows.tail.head?, c.hash = hash)) := by
  cases before with
  | some prev =>
    have hrw : t.LinkedFrom prev t.rows := hl
    obtain ⟨older, parent, heq, hpr, hsb⟩ := hrw.refs_eq (hrn prev rfl) hc
    refine iff_of_true ?_ nofun
    exact anchored_of_refs ht hh hn heq hpr (hrw.ascending hsb) fun r hr => hsb.subset hr
  | none =>
    obtain ⟨g, rows, heq, hg, hp, hrw⟩ := hl
    rw [heq] at hc
    by_cases hzero : n = 0
    · subst hzero
      obtain rfl : g = c := by simpa using hc
      simp only [anchored_zero_iff ht hh hn heq hg hp hrw, heq, tail_cons]
      simp
    have hc : rows.find? (n ≤ ·.number) = some c := by simpa [hg, hzero] using hc
    have hle : n ≤ c.number := by simpa using find?_some hc
    obtain ⟨older, parent, hrefs, hpr, hsb⟩ :=
      hrw.refs_eq (by simp only [BlockRow.ref]; omega) hc
    have hs := hrw.ascending hsb
    have ha : t.ancestors none c =
        g.ref :: (rows.filter (·.number < c.number)).map BlockRow.ref := by
      rw [ancestors, heq, filter_cons_of_pos (by simp; omega)]
      rfl
    by_cases hf : n ≤ 100
    · have hal : t.refs n t.rows = (⟨0, g.parentHash.getD ""⟩ :: older) ++ [parent] := by
        rw [heq, cons_append, ← hrefs, refs, filter_cons_of_pos (by
          rw [inWindow_genesis hg hp]; simpa using hf), map_cons, parentRef_genesis hg hp]
        rfl
      have hch := check_eq ht hh hn hal
        (pairwise_cons.mpr ⟨fun _ _ => Nat.zero_le _, hs.imp le_of_lt⟩)
      have hi : c.parentHash = some hash ↔ parent.hash = hash := by simp [hpr]
      simp only [hf, hzero, forall_const, IsEmpty.forall_iff, and_true]
      constructor
      · rintro (⟨-, hsm⟩ | ⟨_, refs, he, -, has, -⟩)
        · exact hsm
        · -- the row of block 1 gives a second reference to number 0
          rw [hch, if_neg (by rwa [← hi])] at he
          cases he
          have hm : g.ref ∈ older ++ [parent] := by
            cases rows with
            | nil => cases hc
            | cons b =>
              have hin : t.inWindow n b = true := by
                obtain ⟨-, hlt, hnm⟩ := hrw.1
                simp only [BlockRow.ref] at hlt hnm
                simp only [inWindow]
                split at hnm <;> simp_all
                omega
              rw [← hrefs, refs, filter_cons_of_pos hin, map_cons, parentRef_eq hrw.1]
              exact mem_cons_self
          have hlt := (pairwise_cons.mp has).1 _ hm
          simp [BlockRow.ref, hg] at hlt
      · intro hsm
        exact Or.inl ⟨by rw [hch, if_pos (hi.mp hsm)], hsm⟩
    · refine iff_of_true ?_ fun _ hle => absurd hle hf
      refine anchored_of_refs ht hh hn ?_ hpr hs fun r hr => ha ▸ hsb.subset hr
      rw [heq, ← hrefs, refs, filter_cons_of_neg (by
        rw [inWindow_genesis hg hp]; simpa using hf)]
      rfl

section Sample

theorem number_ne_nil : ["number"] ≠ [] := by decide

theorem childKeys_nil : ∀ child ∈ ([] : List (String × List String)),
    child.2.length = ["number"].length := by decide

def blocksTable : Table where
  name := "blocks"
  primaryKey := ["number"]
  columnWeights := []
  resultItemName := "header"
  children := []
  keyed := number_ne_nil
  childKeys := childKeys_nil

theorem blocksTable_names : ([blocksTable].map (·.name)).Nodup := nodup_singleton _

theorem blocksTable_header : ∀ t ∈ [blocksTable].head?, t.primaryKey.length = 1 := by
  rintro _ ⟨⟩
  rfl

def samplePlan (firstBlock : Nat) (hash : String) : Plan :=
  ((PlanBuilder.new ⟨[blocksTable], blocksTable_names, blocksTable_header⟩).setParentBlockHash
    (some hash)).setFirstBlock (some firstBlock)

def sampleBlocks (first : Nat) : List BlockRow :=
  [⟨first, first - 1, "a", some "0"⟩, ⟨first + 1, first, "b", some "a"⟩,
    ⟨first + 2, first + 1, "c", some "b"⟩]

/-- A chunk with a table of blocks and no other table. -/
def sampleScan (first : Nat) : ScanTable := fun table =>
  if table = "blocks" then .ok ⟨false, sampleBlocks first⟩ else .error (.text "no such table")

theorem wrong_parent_is_reported :
    (⟨false, sampleBlocks 5⟩ : BlockTable).Anchored (samplePlan 7 "x") (sampleScan 5)
      (some ⟨4, "0"⟩) ⟨7, 6, "c", some "b"⟩ "x" := by
  refine (parent_check_is_exact_iff (n := 7) rfl ?_ rfl rfl (by decide) rfl).mpr nofun
  simp [Linked, LinkedFrom, Follows, sampleBlocks, BlockRow.ref]

/-- A query from block 2 on with a wrong hash is told that there is a block 0 with the hash that
block 0 has for its parent. -/
theorem parent_of_genesis_is_reported :
    (⟨false, sampleBlocks 0⟩ : BlockTable).Linked none ∧
      (sampleBlocks 0).find? (2 ≤ ·.number) = some ⟨2, 1, "c", some "b"⟩ ∧
      (samplePlan 2 "x").scanBlocks (sampleScan 0) = .ok ⟨false, sampleBlocks 0⟩ ∧
      (samplePlan 2 "x").checkParentBlock (sampleScan 0) =
        .error (.unexpectedBaseBlock [⟨0, "0"⟩, ⟨0, "a"⟩, ⟨1, "b"⟩] "x") ∧
      ¬ (⟨false, sampleBlocks 0⟩ : BlockTable).Anchored (samplePlan 2 "x") (sampleScan 0) none
        ⟨2, 1, "c", some "b"⟩ "x" := by
  have hr : (samplePlan 2 "x").checkParentBlock (sampleScan 0) =
      .error (.unexpectedBaseBlock [⟨0, "0"⟩, ⟨0, "a"⟩, ⟨1, "b"⟩] "x") := by decide
  refine ⟨⟨_, _, rfl, rfl, nofun, ?_⟩, rfl, rfl, hr, ?_⟩
  · simp [LinkedFrom, Follows, BlockRow.ref]
  · rintro (⟨hok, -⟩ | ⟨-, _, he, -, -, ha⟩)
    · cases hr.symm.trans hok
    · cases hr.symm.trans he
      exact absurd (ha ⟨0, "0"⟩ mem_cons_self) (by decide)

end Sample

end BlockTable

end Query
