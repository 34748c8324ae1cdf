import SqdData.Storage.CompactionSpecs

/-!
# What a compaction plan chooses

The planner splits the newest chunks into runs of adjacent chunks with compatible schemas and picks
a range inside one run. So a planned chunk has every table that the planned chunks after it have,
and the tables of the first planned chunk are all there is to merge. The converse holds where the
planner does not know tables of other chunks.

A plan is made of the listing from the start of the oldest chunk looked at. This is the list the
runs were built from only if chunks do not overlap.
-/

namespace Storage

open List

/-! ### Ranges -/

theorem growRun_bounds (run : List Nat) (maxChunkSize steps right : Nat) :
    right ≤ growRun run maxChunkSize steps right ∧
      growRun run maxChunkSize steps right ≤ right + steps := by
  induction steps generalizing right with
  | zero => exact ⟨le_rfl, le_rfl⟩
  | succ _ ih =>
    unfold growRun
    split
    · have := ih (right + 1)
      omega
    · omega

theorem growRange_bounds (sizes : List Nat) (left threshold : Nat) (below : Nat → Nat → Bool)
    (steps right : Nat) :
    right ≤ (growRange sizes left threshold below steps right).1 ∧
      (growRange sizes left threshold below steps right).1 ≤ right + steps := by
  induction steps generalizing right with
  | zero => exact ⟨le_rfl, le_rfl⟩
  | succ _ ih =>
    unfold growRange
    dsimp only
    split
    · exact ⟨le_rfl, by omega⟩
    · have := ih (right + 1)
      omega

theorem findIdx_slice_le (sizes : List Nat) (start right : Nat) (p : Nat → Bool) :
    (slice sizes start right).findIdx p ≤ right - start := by
  refine findIdx_le_length.trans ?_
  simp only [slice, length_drop, length_take]
  omega

variable {sizes : List Nat} {left skip take : Nat} {runs : List (List Nat)} {seen : List Chunk}
  {el : Chunk}

theorem growRange_score (sizes : List Nat) (left threshold : Nat) (below : Nat → Nat → Bool)
    (steps right : Nat) :
    (growRange sizes left threshold below steps right).2 = scoreMerge
      (slice sizes left (growRange sizes left threshold below steps right).1) (some below) := by
  induction steps generalizing right with
  | zero => rfl
  | succ _ ih =>
    unfold growRange
    dsimp only
    split
    · rfl
    · exact ih (right + 1)

theorem slice_succ (h : left < sizes.length) : slice sizes left (left + 1) = [sizes[left]] := by
  rw [slice, drop_take, Nat.add_sub_cancel_left, drop_eq_getElem_cons h]
  rfl

theorem scoreMerge_singleton {n : Nat} (h : 0 < n) (maxWa : Option (Nat → Nat → Bool)) :
    scoreMerge [n] maxWa = if maxWa.any (fun below => below n n) then 0 else n := by
  simp [scoreMerge, h.ne']

theorem le_foldl_max (l : List Nat) (n : Nat) : n ≤ l.foldl max n := by
  induction l generalizing n with
  | nil => exact le_rfl
  | cons a _ ih => exact (le_max_left n a).trans (ih (max n a))

theorem foldl_max_pos {l : List Nat} (hne : l ≠ []) (hp : ∀ n ∈ l, 0 < n) : 0 < l.foldl max 0 := by
  obtain ⟨a, l, rfl⟩ := exists_cons_of_ne_nil hne
  exact (hp a mem_cons_self).trans_le ((le_max_right 0 a).trans (le_foldl_max l (max 0 a)))

variable {start stop threshold right score : Nat}

/-- A range that is found was grown from its start. -/
theorem findRange_grown {below : Nat → Nat → Bool} {lenLimit fuel : Nat}
    (h : findRange sizes below lenLimit fuel start stop threshold = some (left, right, score)) :
    start ≤ left ∧ left < right ∧ right ≤ stop ∧
      score = scoreMerge (slice sizes left right) (some below) ∧
      (0 < threshold → (∀ n ∈ sizes, 0 < n) → stop ≤ sizes.length → 0 < score) := by
  induction fuel generalizing start stop threshold with
  | zero => cases h
  | succ fuel ih =>
    unfold findRange at h
    split at h
    · cases h
    · rename_i hl
      have hgr := growRange_bounds sizes start threshold below
        (min stop (start + lenLimit) - (start + 1)) (start + 1)
      have hs := growRange_score sizes start threshold below
        (min stop (start + lenLimit) - (start + 1)) (start + 1)
      cases hg : growRange sizes start threshold below
          (min stop (start + lenLimit) - (start + 1)) (start + 1) with
      | mk right₁ score₁ =>
        simp only [hg] at h hgr hs
        split at h
        · rename_i ha
          cases h
          refine ⟨le_rfl, hgr.1, by omega, hs, fun ht _ _ => ?_⟩
          rcases Bool.or_eq_true_iff.mp ha with hle | hlt
          · exact ht.trans_le (of_decide_eq_true hle)
          · exact of_decide_eq_true hlt
        · have hm : (∀ n ∈ sizes, 0 < n) → stop ≤ sizes.length →
              0 < (slice sizes start right₁).foldl max 0 := by
            intro hp hst
            refine foldl_max_pos (ne_nil_of_length_pos ?_)
              fun n hn => hp n (mem_of_mem_take (mem_of_mem_drop hn))
            simp only [slice, length_drop, length_take]
            omega
          have hi := findIdx_slice_le sizes start right₁
            fun element => element = (slice sizes start right₁).foldl max 0
          rcases Option.or_eq_some_iff.mp h with h | ⟨-, h⟩
          · obtain ⟨hle, hlt, hr, hsc, hpos⟩ := ih h
            refine ⟨hle, hlt, by omega, hsc, fun _ hp hst => hpos (hm hp hst) hp ?_⟩
            omega
          · obtain ⟨hle, hlt, hr, hsc, hpos⟩ := ih h
            exact ⟨by omega, hlt, hr, hsc, fun _ hp hst => hpos (hm hp hst) hp hst⟩

/-- The merge of one chunk alone is never worth it if the limit is above 1, so a range has two. -/
theorem findRange_two {below : Nat → Nat → Bool} {lenLimit fuel : Nat}
    (hb : ∀ n, 0 < n → below n n = true) (hp : ∀ n ∈ sizes, 0 < n) (hst : stop ≤ sizes.length)
    (ht : 0 < threshold)
    (h : findRange sizes below lenLimit fuel start stop threshold = some (left, right, score)) :
    left + 2 ≤ right := by
  obtain ⟨-, hlt, hr, hs, hpos⟩ := findRange_grown h
  have hf := hpos ht hp hst
  rcases Nat.eq_or_lt_of_le hlt with rfl | hlt
  · have hn := hp _ (getElem_mem (show left < sizes.length by omega))
    rw [hs, slice_succ (by omega), scoreMerge_singleton hn, Option.any_some, hb _ hn] at hf
    exact absurd hf (Nat.lt_irrefl 0)
  · exact hlt

/-- The chosen range lies inside one run. -/
theorem selectRange_within {params : CompactionParams} {skip₀ : Nat}
    (h : selectRange params runs skip₀ = (skip, take)) :
    take = 0 ∨ ∃ pre run post, runs = pre ++ run :: post ∧ skip₀ + pre.flatten.length ≤ skip ∧
      skip + take ≤ skip₀ + pre.flatten.length + run.length := by
  induction runs generalizing skip₀ with
  | nil =>
    cases h
    exact Or.inl rfl
  | cons run rest ih =>
    -- A range found further on skips this run.
    have hl : selectRange params rest (skip₀ + run.length) = (skip, take) →
        take = 0 ∨ ∃ pre run' post, run :: rest = pre ++ run' :: post ∧
          skip₀ + pre.flatten.length ≤ skip ∧
          skip + take ≤ skip₀ + pre.flatten.length + run'.length := by
      intro hr
      rcases ih hr with hzero | ⟨pre, run', post, rfl, _, _⟩
      · exact Or.inl hzero
      · refine Or.inr ⟨run :: pre, run', post, rfl, ?_, ?_⟩ <;>
          simp only [flatten_cons, length_append] <;> omega
    unfold selectRange at h
    split at h
    · exact hl h
    · rename_i hln
      split at h
      · cases h
        have := growRun_bounds run params.maxChunkSize (run.length - 1) 1
        refine Or.inr ⟨[], run, rest, rfl, by simp, ?_⟩
        simp only [flatten_nil, length_nil]
        omega
      · split at h
        · rename_i left right score hf
          cases h
          have := findRange_grown hf
          refine Or.inr ⟨[], run, rest, rfl, by simp, ?_⟩
          simp only [flatten_nil, length_nil]
          omega
        · exact hl h

/-- Sizes of chunks that may be merged, and sizes of one chunk. -/
def Sized (maxChunkSize : Nat) (runs : List (List Nat)) : Prop :=
  ∀ run ∈ runs, 2 ≤ run.length → ∀ n ∈ run, 0 < n ∧ n < maxChunkSize

theorem selectRange_two {params : CompactionParams} {skip₀ : Nat}
    (hwa : ∀ n, 0 < n → params.belowWaLimit n n = true) (hs : Sized params.maxChunkSize runs)
    (h : selectRange params runs skip₀ = (skip, take)) : take = 0 ∨ 2 ≤ take := by
  induction runs generalizing skip₀ with
  | nil =>
    cases h
    exact Or.inl rfl
  | cons run rest ih =>
    have hrs : Sized params.maxChunkSize rest := fun r hr => hs r (mem_cons_of_mem run hr)
    unfold selectRange at h
    split at h
    · exact ih hrs h
    · rename_i hl
      have hsz := hs run mem_cons_self (by omega)
      have hf := hsz _ (getElem_mem (show 0 < run.length by omega))
      split at h
      · cases h
        refine Or.inr ?_
        obtain ⟨steps, hst⟩ : ∃ steps, run.length - 1 = steps + 1 := ⟨run.length - 2, by omega⟩
        have hsc : scoreMerge (slice run 0 1) none = run[0] := by
          rw [slice_succ (by omega), scoreMerge_singleton hf.1]
          rfl
        rw [hst, growRun, hsc, if_pos hf.2]
        exact (growRun_bounds run params.maxChunkSize steps 2).1
      · split at h
        · rename_i left right score hfn
          cases h
          have := findRange_two hwa (fun n hn => (hsz n hn).1) le_rfl (Nat.zero_lt_of_lt hf.2) hfn
          omega
        · exact ih hrs h

/-- A range inside one part of a partitioned list is a part of that part. -/
theorem slice_within {α β : Type} {parts : List (List α)} {pre post : List (List β)} {run : List β}
    (hlen : parts.map List.length = (pre ++ run :: post).map List.length)
    (hsk : pre.flatten.length ≤ skip) (hst : skip + take ≤ pre.flatten.length + run.length) :
    ∃ part ∈ parts, (parts.flatten.drop skip).take take <:+: part := by
  rw [map_append, map_cons] at hlen
  obtain ⟨front, _, rfl, hf, ht⟩ := map_eq_append_iff.mp hlen
  obtain ⟨part, back, rfl, hp, -⟩ := map_eq_cons_iff.mp ht
  refine ⟨part, by simp, ?_⟩
  have hfL : front.flatten.length = pre.flatten.length := by
    rw [length_flatten, length_flatten, hf]
  have hs : ((front ++ part :: back).flatten.drop skip).take take =
      (part.drop (skip - front.flatten.length)).take take := by
    rw [flatten_append, flatten_cons, drop_append, drop_of_length_le (by omega),
      nil_append, drop_append_of_le_length (by omega),
      take_append_of_le_length (by rw [length_drop]; omega)]
  rw [hs]
  exact ( take_prefix _ _).isInfix.trans (drop_suffix _ _).isInfix

/-! ### Schemas -/

variable [TableFormat] {snapshot : Db} {dataset : DatasetId} {params : CompactionParams}

omit [TableFormat] in
/-- An older chunk has every table of a newer one. -/
def Covers (older newer : Chunk) : Prop :=
  ∀ name ∈ newer.tables.keys, name ∈ older.tables.keys

/-- The loop over the tables of one chunk opens and remembers all of them. It finds the chunk
compatible only if each table merges with the one known under its name, unless none is known. -/
theorem scanSchema_spec {isLastSchemaEmpty : Bool} {entries : List (String × TableId)}
    {start scan : SchemaScan} (hn : (entries.map Prod.fst).Nodup)
    (h : entries.foldlM (scanSchema snapshot isLastSchemaEmpty) start = .ok scan) :
    (∀ name ∉ entries.map Prod.fst,
      scan.lastSchemaMap.find? name = start.lastSchemaMap.find? name) ∧
    (∀ e ∈ entries, ∃ t, snapshot.createTableReader e.2 = .ok t ∧
      scan.lastSchemaMap.find? e.1 = some t) ∧
    (scan.schemaCompatible = true → start.schemaCompatible = true ∧
      ∀ e ∈ entries, isLastSchemaEmpty = true ∨ ∃ t last, snapshot.createTableReader e.2 = .ok t ∧
        start.lastSchemaMap.find? e.1 = some last ∧ canMergeSchemas t last = true) := by
  induction entries generalizing start with
  | nil =>
    cases h
    exact ⟨fun _ _ => rfl, nofun, fun hc => ⟨hc, nofun⟩⟩
  | cons entry entries ih =>
    rw [foldlM_cons] at h
    obtain ⟨_, hmd, h⟩ := bind_eq_ok.mp h
    obtain ⟨reader, hr, hmd⟩ := bind_eq_ok.mp hmd
    cases hmd
    rw [map_cons, nodup_cons] at hn
    obtain ⟨ho, hop, hc⟩ := ih hn.2 h
    refine ⟨fun name hnm => ?_, forall_mem_cons.mpr ⟨⟨reader, hr, ?_⟩, hop⟩, fun hsc => ?_⟩
    · rw [map_cons, mem_cons, not_or] at hnm
      rw [ho name hnm.2, Keyed.find?_put_of_ne hnm.1]
    · rw [ho _ hn.1, Keyed.find?_put_self]
    · obtain ⟨hmd, hk⟩ := hc hsc
      have hl : ∀ e ∈ entries, isLastSchemaEmpty = true ∨
          ∃ t last, snapshot.createTableReader e.2 = .ok t ∧
            start.lastSchemaMap.find? e.1 = some last ∧ canMergeSchemas t last = true := by
        intro e he
        have hne : e.1 ≠ entry.1 := fun heq => hn.1 (heq ▸ mem_map_of_mem he)
        rw [← Keyed.find?_put_of_ne hne]
        exact hk e he
      dsimp only at hmd
      split at hmd
      · rename_i last hf
        obtain ⟨hs, hm⟩ := Bool.and_eq_true_iff.mp hmd
        exact ⟨hs, forall_mem_cons.mpr ⟨Or.inr ⟨reader, last, hr, hf, hm⟩, hl⟩⟩
      · obtain ⟨hs, hem⟩ := Bool.and_eq_true_iff.mp hmd
        exact ⟨hs, fun _ _ => Or.inl hem⟩

/-- What the planner checks of two neighbours of one run. -/
structure Follows (snapshot : Db) (older newer : Chunk) : Prop where
  covers : Covers older newer
  adjacent : older.lastBlock + 1 = newer.firstBlock
  merges : ∀ name t u, getTableReader snapshot older name = .ok t →
    getTableReader snapshot newer name = .ok u → canMergeSchemas t u = true

omit [TableFormat] in
/-- The newer chunk has tables, and an older one with as many has these. -/
def Regular (older newer : Chunk) : Prop :=
  newer.tables.keys ≠ [] ∧
    (older.tables.keys.length = newer.tables.keys.length → Covers older newer)

/-- What the first loop of the planner keeps about the chunks it has seen, oldest first. The tables
it knows are those of the oldest chunk alone if neighbours are regular. -/
structure Planned (params : CompactionParams) (snapshot : Db) (regular : Prop) (seen : List Chunk)
    (state : PlanState) : Prop where
  parts : ∃ parts : List (List Chunk), parts.flatten = seen ∧
    parts.map List.length = state.runs.map List.length ∧
    ∀ part ∈ parts, part.IsChain fun a b => Follows snapshot a b ∧ (regular → Covers b a)
  sized : Sized params.maxChunkSize state.runs ∧
    ∀ run ∈ state.runs.head?, ∀ n ∈ run, 0 < n ∧ n < params.maxChunkSize
  schema : ∀ c ∈ seen.head?, ∀ name ∈ c.tables.keys, ∃ t, getTableReader snapshot c name = .ok t ∧
    state.lastSchemaMap.find? name = some t
  exact : regular → ∀ name ∈ state.lastSchemaMap.keys, ∃ c ∈ seen.head?, name ∈ c.tables.keys
  start : ∀ c ∈ seen.head?, state.firstApplicableBlock = c.firstBlock ∧
    state.firstBlock = some c.firstBlock
  opened : ∀ c ∈ seen, ∀ name ∈ c.tables.keys, ∃ t, getTableReader snapshot c name = .ok t

omit [TableFormat] in
/-- A chunk whose size joins the current run is related to the chunk above it. -/
theorem pushSize_parts {maxChunkSize maxRows : Nat} {joins : Bool}
    {R : Chunk → Chunk → Prop} (hpr : ∃ parts : List (List Chunk), parts.flatten = seen ∧
      parts.map List.length = runs.map List.length ∧ ∀ part ∈ parts, part.IsChain R)
    (hj : joins = true → ∀ c ∈ seen.head?, R el c) :
    ∃ parts : List (List Chunk), parts.flatten = el :: seen ∧
      parts.map List.length = (pushSize maxChunkSize joins maxRows runs).map List.length ∧
      ∀ part ∈ parts, part.IsChain R := by
  obtain ⟨parts, hf, hlen, hch⟩ := hpr
  have hct : ∀ {next : List (List Nat)}, (∃ parts : List (List Chunk), parts.flatten = el :: seen ∧
      parts.map length = next.map length ∧ ∀ part ∈ parts, part.IsChain R) →
      ∃ parts : List (List Chunk), parts.flatten = el :: seen ∧ parts.map length =
        (if maxChunkSize ≤ maxRows then [] :: next else next).map length ∧
        ∀ part ∈ parts, part.IsChain R := by
    rintro _ ⟨parts, hf, hlen, hch⟩
    split
    · exact ⟨[] :: parts, by simpa using hf, by simp [hlen], forall_mem_cons.mpr ⟨isChain_nil, hch⟩⟩
    · exact ⟨parts, hf, hlen, hch⟩
  unfold pushSize
  refine hct ?_
  split
  · rename_i run rest hcn
    obtain ⟨part, tail, rfl, hpa, ht⟩ := map_eq_cons_iff.mp hlen
    refine ⟨(el :: part) :: tail, by simp [← hf], by simp [hpa, ht], ?_⟩
    refine forall_mem_cons.mpr ⟨isChain_cons.mpr ⟨?_, hch part mem_cons_self⟩,
      fun p hp => hch p (mem_cons_of_mem _ hp)⟩
    intro c hc
    refine hj (Bool.and_eq_true_iff.mp hcn).1 c ?_
    rw [← hf, flatten_cons, head?_append, Option.mem_def.mp hc]
    rfl
  · exact ⟨[el] :: parts, by simp [hf], by simp [hlen],
      forall_mem_cons.mpr ⟨isChain_singleton el, hch⟩⟩

omit [TableFormat] in
/-- A size that fills a chunk stays alone in its run. -/
theorem pushSize_sized {maxChunkSize maxRows : Nat} {joins : Bool}
    (hp : 0 < maxRows) (h : Sized maxChunkSize runs)
    (hh : ∀ run ∈ runs.head?, ∀ n ∈ run, 0 < n ∧ n < maxChunkSize) :
    Sized maxChunkSize (pushSize maxChunkSize joins maxRows runs) ∧
      ∀ run ∈ (pushSize maxChunkSize joins maxRows runs).head?, ∀ n ∈ run,
        0 < n ∧ n < maxChunkSize := by
  have hs : Sized maxChunkSize ([maxRows] :: runs) :=
    forall_mem_cons.mpr ⟨fun hl => absurd hl (by simp), h⟩
  unfold pushSize
  dsimp only
  rcases Nat.lt_or_ge maxRows maxChunkSize with hlt | hf
  · rw [if_neg (Nat.not_le.mpr hlt)]
    split
    · rename_i run rest hc
      have hrn := forall_mem_cons.mpr ⟨⟨hp, hlt⟩, hh run rfl⟩
      refine ⟨forall_mem_cons.mpr ⟨fun _ => hrn, fun r hr => h r (mem_cons_of_mem run hr)⟩, ?_⟩
      rintro r ⟨⟩
      exact hrn
    · refine ⟨hs, ?_⟩
      rintro r ⟨⟩
      exact forall_mem_singleton.mpr ⟨hp, hlt⟩
  · rw [if_pos hf]
    split
    · rename_i hc
      have := of_decide_eq_true (Bool.and_eq_true_iff.mp hc).2
      omega
    · refine ⟨forall_mem_cons.mpr ⟨fun _ _ hn => (nomatch hn), hs⟩, ?_⟩
      rintro _ ⟨⟩
      exact fun _ hn => (nomatch hn)

variable {known : Keyed.Map String Table}

variable {name : String}

omit [TableFormat] in
theorem isEmpty_ne_true (h : name ∈ known.keys) : known.toList.isEmpty ≠ true := by
  intro hem
  rw [List.isEmpty_iff] at hem
  simp [Keyed.keys, hem] at h

/-- A compatible chunk has as many tables as are known, and all of its tables are known. So it has
every table of the chunk above it. -/
theorem scan_knows {scan start : SchemaScan}
    (hs : start =
      if !known.toList.isEmpty && el.tables.toList.length ≠ known.toList.length then ⟨∅, 0, false⟩
      else ⟨known, 0, true⟩)
    (hsc : el.tables.toList.foldlM (scanSchema snapshot known.toList.isEmpty) start = .ok scan)
    (hc : scan.schemaCompatible = true) (hn : name ∈ known.keys) :
    el.tables.keys.Perm known.keys ∧ ∀ e ∈ el.tables.toList, ∃ t last,
      snapshot.createTableReader e.2 = .ok t ∧ known.find? e.1 = some last ∧
        canMergeSchemas t last = true := by
  obtain ⟨hok, hk⟩ := (scanSchema_spec (Keyed.nodup_keys el.tables) hsc).2.2 hc
  have hem := isEmpty_ne_true hn
  have hlen : el.tables.toList.length = known.toList.length ∧ start.lastSchemaMap = known := by
    rw [hs] at hok ⊢
    split at hok
    · cases hok
    · rename_i hcn
      rw [if_neg hcn]
      exact ⟨by simpa [hem] using hcn, rfl⟩
  have hm := fun e he => (hk e he).resolve_left hem
  rw [hlen.2] at hm
  refine ⟨(subperm_of_subset (Keyed.nodup_keys el.tables) ?_).perm_of_length_le ?_, hm⟩
  · intro name hn
    obtain ⟨e, he, rfl⟩ := mem_map.mp hn
    obtain ⟨t, last, -, hlast, -⟩ := hm e he
    exact Keyed.mem_keys.mpr ⟨last, hlast⟩
  · simp [Keyed.keys, hlen.1]

theorem getTableReader_eq_ok {chunk : Chunk} {t : Table} :
    getTableReader snapshot chunk name = .ok t ↔
      ∃ id, chunk.tables.find? name = some id ∧ snapshot.createTableReader id = .ok t := by
  unfold getTableReader
  cases chunk.tables.find? name with
  | none => simp
  | some => simp

theorem getTableReader_of_mem {e : String × TableId} {t : Table}
    (he : e ∈ el.tables.toList) (ht : snapshot.createTableReader e.2 = .ok t) :
    getTableReader snapshot el e.1 = .ok t :=
  getTableReader_eq_ok.mpr ⟨e.2, Keyed.find?_eq_some.mpr he, ht⟩

theorem planStep_planned {regular : Prop} {state state' : PlanState}
    (h : Planned params snapshot regular seen state)
    (hrg : regular → ∀ c ∈ seen.head?, Regular el c)
    (hst : planStep params snapshot state el = .ok state') :
    Planned params snapshot regular (el :: seen) state' := by
  obtain ⟨scan, hs, hst⟩ := bind_eq_ok.mp hst
  cases hst
  obtain ⟨hot, hop, -⟩ := scanSchema_spec (Keyed.nodup_keys el.tables) hs
  have hrd : ∀ name ∈ el.tables.keys, ∃ t, getTableReader snapshot el name = .ok t ∧
      scan.lastSchemaMap.find? name = some t := by
    intro name hn
    obtain ⟨e, he, rfl⟩ := mem_map.mp hn
    obtain ⟨t, ht, hfn⟩ := hop e he
    exact ⟨t, getTableReader_of_mem he ht, hfn⟩
  refine ⟨pushSize_parts h.parts ?_, pushSize_sized ?_ h.sized.1 h.sized.2, ?_, ?_, ?_, ?_⟩
  · intro hj c hc
    obtain ⟨hcm, ha⟩ := Bool.and_eq_true_iff.mp hj
    have hin : ∀ name ∈ c.tables.keys, name ∈ state.lastSchemaMap.keys := by
      intro name hn
      obtain ⟨t, -, hfn⟩ := h.schema c hc name hn
      exact Keyed.mem_keys.mpr ⟨t, hfn⟩
    refine ⟨⟨fun name hn => ?_, ?_, fun name t u ht hu => ?_⟩, fun hr name hn => ?_⟩
    · exact (scan_knows rfl hs hcm (hin name hn)).1.mem_iff.mpr (hin name hn)
    · rw [(h.start c hc).2, Option.all_some] at ha
      exact of_decide_eq_true ha
    · obtain ⟨id, hid, _⟩ := getTableReader_eq_ok.mp hu
      have hn : name ∈ c.tables.keys := Keyed.mem_keys.mpr ⟨id, hid⟩
      obtain ⟨_, hrd', hfn⟩ := h.schema c hc name hn
      cases hrd'.symm.trans hu
      obtain ⟨id', hid', ht'⟩ := getTableReader_eq_ok.mp ht
      obtain ⟨t', last, ht'', hlast, hm⟩ := (scan_knows rfl hs hcm (hin name hn)).2
        (name, id') (Keyed.find?_eq_some.mp hid')
      cases ht''.symm.trans ht'
      cases hlast.symm.trans hfn
      exact hm
    · obtain ⟨first, hf⟩ := exists_mem_of_ne_nil _ (hrg hr c hc).1
      have hk := (scan_knows rfl hs hcm (hin first hf)).1.mem_iff.mp hn
      obtain ⟨d, hd, hdn⟩ := h.exact hr name hk
      rwa [Option.mem_unique hc hd]
  · split
    · exact Nat.succ_pos _
    · omega
  · rintro c ⟨⟩
    exact hrd
  · intro hr name hn
    refine ⟨el, rfl, by_contra fun hnot => ?_⟩
    obtain ⟨t, ht⟩ := Keyed.mem_keys.mp hn
    rw [hot name hnot] at ht
    split at ht
    · cases ht
    · rename_i hco
      have hk : name ∈ state.lastSchemaMap.keys := Keyed.mem_keys.mpr ⟨t, ht⟩
      obtain ⟨c, hc, hcn⟩ := h.exact hr name hk
      refine hnot ((hrg hr c hc).2 ?_ name hcn)
      have hem := isEmpty_ne_true hk
      have hp : c.tables.keys.Perm state.lastSchemaMap.keys := by
        refine (perm_ext_iff_of_nodup (Keyed.nodup_keys _) (Keyed.nodup_keys _)).mpr fun other => ?_
        constructor
        · intro ho
          obtain ⟨u, -, hfn⟩ := h.schema c hc other ho
          exact Keyed.mem_keys.mpr ⟨u, hfn⟩
        · intro ho
          obtain ⟨_, hd, _⟩ := h.exact hr other ho
          rwa [Option.mem_unique hc hd]
      rw [hp.length_eq]
      simpa [hem, Keyed.keys] using hco
  · rintro _ ⟨⟩
    exact ⟨rfl, rfl⟩
  · refine forall_mem_cons.mpr ⟨fun name hn => ?_, h.opened⟩
    exact (hrd name hn).imp fun _ ht => ht.1

theorem foldlM_planned {regular : Prop} {newest : List Chunk} {state state' : PlanState}
    (h : Planned params snapshot regular seen state)
    (hrg : regular → (newest.reverse ++ seen).IsChain Regular)
    (hf : newest.foldlM (planStep params snapshot) state = .ok state') :
    Planned params snapshot regular (newest.reverse ++ seen) state' := by
  induction newest generalizing seen state with
  | nil =>
    cases hf
    exact h
  | cons _ _ ih =>
    rw [foldlM_cons] at hf
    obtain ⟨_, hm, hf⟩ := bind_eq_ok.mp hf
    rw [reverse_cons, append_assoc] at hrg ⊢
    refine ih (planStep_planned h (fun hr => ?_) hm) hrg hf
    exact (isChain_cons.mp (isChain_append.mp (hrg hr)).2.1).1

omit [TableFormat] in
/-- In a list of disjoint chunks, the listing from the start of one of them begins with it. -/
theorem listChunks_from {front : List Chunk} {first : Chunk} {rest : List Chunk}
    (hs : (snapshot.chunkSet dataset).toList = front ++ first :: rest)
    (hd : snapshot.Disjoint dataset) :
    snapshot.listChunks dataset first.firstBlock none = first :: rest := by
  have ha : snapshot.listChunks dataset first.firstBlock none =
      (snapshot.chunkSet dataset).toList.filter fun c => first.firstBlock ≤ c.lastBlock := by
    rw [Db.listChunks_eq]
    refine takeWhile_eq_self_iff.mpr fun c hc => ?_
    simpa [inRange, Keyed.seek] using (mem_filter.mp hc).2
  unfold Db.Disjoint Segments.Apart at hd
  rw [hs, pairwise_append] at hd
  obtain ⟨-, hr, hf⟩ := hd
  rw [ha, hs, filter_append, filter_eq_nil_iff.mpr, nil_append, filter_eq_self.mpr]
  · intro c hc
    rcases mem_cons.mp hc with rfl | hc
    · simpa using c.first_le_last
    · have hlt : first.lastBlock < c.firstBlock := (pairwise_cons.mp hr).1 c hc
      have := first.first_le_last
      have := c.first_le_last
      simp only [decide_eq_true_eq]
      omega
  · intro c hc
    have hlt := hf c hc first mem_cons_self
    simp only [decide_eq_true_eq, not_le]
    exact hlt

/-- The planned chunks are neighbours in the snapshot and in one run. -/
theorem prepareMergePlan_spec {merge : List Chunk} (hd : snapshot.Disjoint dataset)
    (h : prepareMergePlan params snapshot dataset = .ok merge) :
    merge <:+: (snapshot.chunkSet dataset).toList ∧
      merge.IsChain (fun a b => Follows snapshot a b ∧
        ((snapshot.chunkSet dataset).toList.IsChain Regular → Covers b a)) ∧
      (∀ c ∈ merge, ∀ name ∈ c.tables.keys, ∃ t, getTableReader snapshot c name = .ok t) ∧
      ((∀ n, 0 < n → params.belowWaLimit n n = true) → merge = [] ∨ 2 ≤ merge.length) := by
  obtain ⟨state, hfl, h⟩ := bind_eq_ok.mp h
  rw [Db.listChunksReversed_all] at hfl
  set chunks := (snapshot.chunkSet dataset).toList with hch
  -- The chunks looked at are the upper part of the dataset.
  have hs : (chunks.reverse.take mergeHorizon).reverse <:+ chunks := by
    have := ( take_prefix mergeHorizon chunks.reverse).reverse
    rwa [reverse_reverse] at this
  have hi : Planned params snapshot (chunks.IsChain Regular) [] ⟨[[]], ∅, none, maxBlockNumber⟩ :=
    ⟨⟨[[]], rfl, rfl, by simp⟩, ⟨by simp [Sized], by simp⟩, nofun, fun _ _ hn => (nomatch hn),
      nofun, nofun⟩
  have hp := foldlM_planned hi (fun hr => by
    rw [append_nil]
    exact hr.suffix hs) hfl
  rw [append_nil] at hp
  obtain ⟨front, hf⟩ := hs
  have hl : snapshot.listChunks dataset state.firstApplicableBlock none =
      (chunks.reverse.take mergeHorizon).reverse := by
    cases hsn : (chunks.reverse.take mergeHorizon).reverse with
    | nil =>
      have hnl : chunks = [] := by simpa [mergeHorizon] using hsn
      rw [Db.listChunks_eq, Keyed.seek, ← hch, hnl]
      rfl
    | cons first =>
      rw [hsn] at hp hf
      rw [(hp.start first rfl).1]
      exact listChunks_from hf.symm hd
  cases hsl : selectRange params state.runs 0 with
  | mk skip take =>
    rw [hsl, hl] at h
    cases h
    have hsb : (((chunks.reverse.take mergeHorizon).reverse.drop skip).take take) <:+:
        (chunks.reverse.take mergeHorizon).reverse :=
      ( take_prefix _ _).isInfix.trans (drop_suffix _ _).isInfix
    obtain ⟨_, hft, hlen, hcn⟩ := hp.parts
    refine ⟨hsb.trans ⟨front, [], by simpa using hf⟩, ?_,
      fun c hc => hp.opened c (hsb.subset hc), fun hwa => ?_⟩
    · rcases selectRange_within hsl with rfl | ⟨pre, run, post, hrn, hlw, hh⟩
      · rw [take_zero]
        exact isChain_nil
      · rw [hrn] at hlen
        have hsk : pre.flatten.length ≤ skip := by omega
        have hst : skip + take ≤ pre.flatten.length + run.length := by omega
        obtain ⟨part, hpr, hw⟩ := slice_within hlen hsk hst
        rw [hft] at hw
        exact List.IsChain.infix (hcn part hpr) hw
    · rcases selectRange_two hwa hp.sized.1 hsl with rfl | htw
      · exact Or.inl take_zero
      · refine Or.inr ?_
        rcases selectRange_within hsl with rfl | ⟨_, _, _, hrn, _, _⟩
        · omega
        · have ht : (chunks.reverse.take mergeHorizon).reverse.length =
              state.runs.flatten.length := by
            rw [← hft, length_flatten, length_flatten, hlen]
          rw [hrn, flatten_append, flatten_cons, length_append, length_append] at ht
          rw [length_take, length_drop, ht]
          omega

end Storage
