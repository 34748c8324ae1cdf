import SqdData.Query.StatsPruning

/-!
# Discriminators of instructions

The table of instructions holds the first 1 to 16 bytes of the data in columns of their own, null
where the data is shorter. A request for instructions that start with one of several byte strings is
a disjunction of conditions on these columns, one for each length. The disjunction is strict, so a
row whose data is shorter than one of the strings is not selected by another one.
-/

namespace Query

open List

open Arrow Storage

def hexDigit (c : Char) : Option Nat :=
  if '0' ≤ c ∧ c ≤ '9' then some (c.toNat - '0'.toNat)
  else if 'a' ≤ c ∧ c ≤ 'f' then some (c.toNat - 'a'.toNat + 10)
  else if 'A' ≤ c ∧ c ≤ 'F' then some (c.toNat - 'A'.toNat + 10)
  else none

def hexDecode : List Char → Option (List Byte)
  | [] => some []
  | [_] => none
  | a :: b :: digits => do
    let high ← hexDigit a
    let low ← hexDigit b
    let bytes ← hexDecode digits
    return Fin.ofNat 256 (16 * high + low) :: bytes

def parseHex (s : String) : Option (List Byte) :=
  match s.toList with
  | '0' :: 'x' :: digits => if s.utf8ByteSize % 2 ≠ 0 then none else hexDecode digits
  | _ => none

def fromBeBytes (bytes : List Byte) : Nat := Nat.ofDigits 256 (bytes.reverse.map Fin.val)

variable {d : List Byte}

theorem fromBeBytes_inj {e : List Byte} (hl : d.length = e.length)
    (h : fromBeBytes d = fromBeBytes e) : d = e := by
  have hd : ∀ (bytes : List Byte), ∀ x ∈ bytes.reverse.map Fin.val, x < 256 := by
    intro bytes x hx
    obtain ⟨b, _, rfl⟩ := mem_map.mp hx
    exact b.isLt
  have hr := Nat.ofDigits_inj_of_len_eq (by decide) (by simp [hl]) (hd d) (hd e) h
  exact reverse_injective (map_injective_iff.mpr Fin.val_injective hr)

/-- The name of the column of the first `n` bytes. -/
def discriminatorName : Nat → String
  | 1 => "d1"
  | 2 => "d2"
  | 3 => "d3"
  | 4 => "d4"
  | 5 => "d5"
  | 6 => "d6"
  | 7 => "d7"
  | 8 => "d8"
  | 9 => "d9"
  | 10 => "d10"
  | 11 => "d11"
  | 12 => "d12"
  | 13 => "d13"
  | 14 => "d14"
  | 15 => "d15"
  | 16 => "d16"
  | _ => ""

/-- Where `n` bytes make an integer, the column is one of integers. -/
def discriminatorType : Nat → DataType
  | 1 => .int { signed := false, width := .w8 }
  | 2 => .int { signed := false, width := .w16 }
  | 4 => .int { signed := false, width := .w32 }
  | 8 => .int { signed := false, width := .w64 }
  | n => .fixedSizeBinary n

def discriminatorValue (n : Nat) (d : List Byte) : Value :=
  match n with
  | 1 | 2 | 4 | 8 => .int (fromBeBytes d)
  | _ => .bytes d

theorem discriminatorValue_ne_null (n : Nat) (d : List Byte) : discriminatorValue n d ≠ .null := by
  unfold discriminatorValue
  split <;> simp

variable {n : Nat}

theorem discriminatorValue_inj {e : List Byte} (hl : d.length = e.length) :
    discriminatorValue n d = discriminatorValue n e ↔ d = e := by
  constructor
  · intro h
    unfold discriminatorValue at h
    split at h
    all_goals first
      | exact fromBeBytes_inj hl (by simpa using h)
      | exact Value.bytes.inj h
  · rintro rfl
    rfl

/-- The entry that `push` appends for an instruction with the given data. -/
def discriminatorEntry (n : Nat) (data : List Byte) : Value :=
  if n ≤ data.length then discriminatorValue n (data.take n) else .null

def discriminatorColumn (n : Nat) (rows : List (List Byte)) : Column where
  name := discriminatorName n
  dataType := discriminatorType n
  values := rows.map (discriminatorEntry n)

/-- A table of instructions with the given data. -/
def HasDiscriminators (batch : RecordBatch) (rows : List (List Byte)) : Prop :=
  ∀ n, 1 ≤ n → n ≤ 16 →
    batch.columnByName (discriminatorName n) = some (discriminatorColumn n rows)

/-- The byte strings of a request. Those that are not valid or too long are dropped. -/
def parseDiscriminators (list : List String) : List (List Byte) :=
  list.filterMap fun s => (parseHex s).filter fun d => d.length ≤ 16

def ofLength (list : List (List Byte)) (n : Nat) : List (List Byte) :=
  list.filter fun d => d.length = n

def lengthPredicate (list : List (List Byte)) (n : Nat) : RowPredicate :=
  colInList (discriminatorName n) (discriminatorType n)
    ((ofLength list n).map (discriminatorValue n))

def usedLengths (list : List (List Byte)) : List Nat :=
  (List.range 17).filter fun n => !(ofLength list n).isEmpty

def discriminatorPredicate (discriminator : Option (List String)) (p : PredicateBuilder) :
    PredicateBuilder :=
  match discriminator with
  | none => p
  | some list =>
    let ds := parseDiscriminators list
    if ds.isEmpty then p.markAsNever
    else if ds.any (·.isEmpty) then p
    else p.add (orRows ((usedLengths ds).map (lengthPredicate ds)))

/-- The row is selected by what the builder builds. A scan that is never is not made. -/
def PredicateBuilder.Selects [Casts] (p : PredicateBuilder) (batch : RecordBatch)
    (i : Nat) : Prop :=
  p.isNever = false ∧
    ∀ condition ∈ p.build, ∃ mask, condition.evaluate batch = .ok mask ∧ IsSet mask i

/-- The entry of the mask is not null. -/
def Known (mask : BooleanArray) (i : Nat) : Prop := ∃ b, mask[i]? = some (some b)

theorem known_or {a b : BooleanArray} {i : Nat} :
    Known (BooleanArray.or a b) i ↔ Known a i ∧ Known b i := by
  constructor
  · rintro ⟨_, hv⟩
    obtain ⟨x, y, hx, hy, _⟩ := BooleanArray.getElem?_lift.mp hv
    exact ⟨⟨x, hx⟩, ⟨y, hy⟩⟩
  · rintro ⟨⟨x, hx⟩, ⟨y, hy⟩⟩
    exact ⟨x || y, BooleanArray.getElem?_lift.mpr ⟨x, y, hx, hy, rfl⟩⟩

theorem isSet_or_iff {a b : BooleanArray} {i : Nat} :
    IsSet (BooleanArray.or a b) i ↔ (Known a i ∧ Known b i) ∧ (IsSet a i ∨ IsSet b i) := by
  constructor
  · intro h
    exact ⟨known_or.mp ⟨true, h⟩, isSet_or h⟩
  · rintro ⟨⟨⟨x, hx⟩, ⟨y, hy⟩⟩, hs⟩
    refine BooleanArray.getElem?_lift.mpr ⟨x, y, hx, hy, ?_⟩
    rcases hs with hs | hs
    · have ht : x = true := by simpa [IsSet, hx] using hs
      simp [ht]
    · have ht : y = true := by simpa [IsSet, hy] using hs
      simp [ht]

/-- A disjunction selects a row if one of its parts does and none of them is null there. -/
theorem isSet_combine_or_iff {zero : BooleanArray} {masks : List BooleanArray} {i : Nat}
    (hne : masks ≠ []) :
    IsSet (combine BooleanArray.or zero masks) i ↔
      (∀ mask ∈ masks, Known mask i) ∧ ∃ mask ∈ masks, IsSet mask i := by
  cases masks with
  | nil => exact absurd rfl hne
  | cons first masks =>
    simp only [combine]
    induction masks generalizing first with
    | nil =>
      simp only [foldl_nil, mem_singleton, forall_eq, exists_eq_left]
      exact ⟨fun h => ⟨⟨true, h⟩, h⟩, fun h => h.2⟩
    | cons _ _ ih =>
      rw [foldl_cons, ih _ (cons_ne_nil _ _)]
      simp only [forall_mem_cons, exists_mem_cons_iff, known_or, isSet_or_iff]
      tauto

section Evaluation

variable [Casts] {batch : RecordBatch} {i : Nat} {values : List Value}

theorem evaluate_eq_same {dataType : DataType} {v : Value} :
    (ArrayPredicate.eq { dataType, value := v }).evaluate { dataType, values } =
      .ok (compareWith (fun x => x = v) values) := by
  simp only [ArrayPredicate.evaluate, withScalar, castScalar, if_true]
  rfl

omit [Casts] in
theorem or_compareWith (f g : Value → Bool) (values : List Value) :
    BooleanArray.or (compareWith f values) (compareWith g values) =
      compareWith (fun x => f x || g x) values := by
  simp only [BooleanArray.or, BooleanArray.lift, compareWith, zipWith_map, zipWith_self]
  refine map_congr_left fun x _ => ?_
  split <;> rfl

variable {list : List Value}

omit [Casts] in
theorem combine_or_compareWith {zero : BooleanArray} (hne : list ≠ []) :
    combine BooleanArray.or zero (list.map fun v => compareWith (fun x => x = v) values) =
      compareWith (fun x => x ∈ list) values := by
  cases list with
  | nil => exact absurd rfl hne
  | cons _ list =>
    have hf : ∀ (f : Value → Bool),
        (list.map fun v => compareWith (fun x => x = v) values).foldl BooleanArray.or
          (compareWith f values) = compareWith (fun x => f x || decide (x ∈ list)) values := by
      induction list with
      | nil =>
        intro f
        simp
      | cons _ _ ih =>
        intro f
        rw [map_cons, foldl_cons, or_compareWith, ih (cons_ne_nil _ _)]
        refine congrArg (compareWith · values) (funext fun x => ?_)
        simp [Bool.or_assoc]
    rw [map_cons, combine, hf]
    refine congrArg (compareWith · values) (funext fun x => ?_)
    simp

theorem evaluateAll_eqs {dataType : DataType} :
    ArrayPredicate.evaluateAll (list.map fun v => .eq { dataType, value := v })
        { dataType, values } =
      .ok (list.map fun v => compareWith (fun x => x = v) values) := by
  induction list with
  | nil => rfl
  | cons _ _ ih =>
    rw [map_cons, ArrayPredicate.evaluateAll, evaluate_eq_same, ih]
    rfl

/-- All three shapes of a list condition compute the same mask. -/
theorem evaluate_colInList {name : String} {c : Column} (hne : list ≠ [])
    (hc : batch.columnByName name = some c) :
    (colInList name c.dataType list).evaluate batch =
      .ok (compareWith (fun x => x ∈ list) c.values) := by
  unfold colInList
  split
  · rw [colEq, RowPredicate.evaluate]
    simp only [hc]
    rw [evaluate_eq_same]
    simp
  · split
    · rw [RowPredicate.evaluate]
      simp only [hc]
      rw [ArrayPredicate.evaluate, evaluateAll_eqs]
      exact congrArg Except.ok (combine_or_compareWith hne)
    · rw [RowPredicate.evaluate]
      simp only [hc]
      rw [ArrayPredicate.evaluate]

theorem evaluate_orRows {ps : List RowPredicate} (masks : List BooleanArray)
    (h : RowPredicate.evaluateAll ps batch = .ok masks) :
    (orRows ps).evaluate batch =
      .ok (combine BooleanArray.or (zeroMask batch.numRows false) masks) := by
  unfold orRows
  split
  · rename_i p
    simp only [RowPredicate.evaluateAll] at h
    obtain ⟨_, hm, h⟩ := bind_eq_ok.mp h
    cases h
    exact hm
  · rw [RowPredicate.evaluate, h]
    rfl

variable {rows : List (List Byte)} {data : List Byte} {ds : List (List Byte)}

omit [Casts] in
theorem mem_ofLength : d ∈ ofLength ds n ↔ d ∈ ds ∧ d.length = n := by
  simp [ofLength]

def lengthMask (ds rows : List (List Byte)) (n : Nat) : BooleanArray :=
  compareWith (fun x => x ∈ (ofLength ds n).map (discriminatorValue n))
    (discriminatorColumn n rows).values

omit [Casts] in
/-- Whether the mask is known says whether the data is long enough. -/
theorem known_lengthMask (hd : rows[i]? = some data) :
    Known (lengthMask ds rows n) i ↔ n ≤ data.length := by
  unfold Known lengthMask
  simp only [getElem?_compareWith, discriminatorColumn, getElem?_map, hd, Option.map_some,
    Option.some.injEq, discriminatorEntry]
  constructor
  · rintro ⟨_, _, rfl, hv, _⟩
    by_contra hlt
    exact hv (if_neg hlt)
  · intro hle
    refine ⟨_, _, rfl, ?_, rfl⟩
    rw [if_pos hle]
    exact discriminatorValue_ne_null _ _

omit [Casts] in
theorem isSet_lengthMask (hdt : rows[i]? = some data) :
    IsSet (lengthMask ds rows n) i ↔ ∃ d ∈ ofLength ds n, d <+: data := by
  unfold IsSet lengthMask
  simp only [getElem?_compareWith, discriminatorColumn, getElem?_map, hdt, Option.map_some,
    Option.some.injEq, discriminatorEntry, decide_eq_true_eq, mem_map]
  constructor
  · rintro ⟨_, rfl, hv, d, hd, heq⟩
    have hle : n ≤ data.length := by
      by_contra hlt
      exact hv (if_neg hlt)
    have hl := (mem_ofLength.mp hd).2
    rw [if_pos hle, discriminatorValue_inj (by simp [hl, hle])] at heq
    exact ⟨d, hd, heq ▸ take_prefix n data⟩
  · rintro ⟨d, hd, hp⟩
    have hl := (mem_ofLength.mp hd).2
    have hle : n ≤ data.length := hl ▸ hp.length_le
    refine ⟨_, rfl, ?_, d, hd, ?_⟩
    · rw [if_pos hle]
      exact discriminatorValue_ne_null _ _
    · rw [if_pos hle, prefix_iff_eq_take.mp hp, hl]

theorem evaluate_lengthPredicate (h : HasDiscriminators batch rows) (h1 : 1 ≤ n) (h16 : n ≤ 16)
    (hne : ofLength ds n ≠ []) :
    (lengthPredicate ds n).evaluate batch = .ok (lengthMask ds rows n) := by
  have hm : (ofLength ds n).map (discriminatorValue n) ≠ [] := by simpa using hne
  exact evaluate_colInList hm (h n h1 h16)

theorem evaluateAll_lengthPredicate (h : HasDiscriminators batch rows) {lengths : List Nat}
    (hl : ∀ n ∈ lengths, 1 ≤ n ∧ n ≤ 16 ∧ ofLength ds n ≠ []) :
    RowPredicate.evaluateAll (lengths.map (lengthPredicate ds)) batch =
      .ok (lengths.map (lengthMask ds rows)) := by
  induction lengths with
  | nil => rfl
  | cons n _ ih =>
    obtain ⟨h1, h16, hne⟩ := hl n mem_cons_self
    rw [map_cons, RowPredicate.evaluateAll, evaluate_lengthPredicate h h1 h16 hne,
      ih fun m hm => hl m (mem_cons_of_mem n hm)]
    rfl

omit [Casts] in
theorem mem_usedLengths (hs : ∀ d ∈ ds, d.length ≤ 16) :
    n ∈ usedLengths ds ↔ ∃ d ∈ ds, d.length = n := by
  have hu : ofLength ds n ≠ [] ↔ ∃ d ∈ ds, d.length = n := by
    constructor
    · intro hne
      obtain ⟨d, hd⟩ := exists_mem_of_ne_nil _ hne
      exact ⟨d, mem_ofLength.mp hd⟩
    · rintro ⟨d, hd⟩
      exact ne_nil_of_mem (mem_ofLength.mpr hd)
  simp only [usedLengths, mem_filter, mem_range, Bool.not_eq_true', isEmpty_eq_false_iff,
    hu, and_iff_right_iff_imp]
  rintro ⟨d, hd, rfl⟩
  have := hs d hd
  omega

/-- The disjunction over the lengths selects the rows with one of the byte strings at the front,
but only where the data is as long as the longest of them. -/
theorem isSet_discriminators (h : HasDiscriminators batch rows) (hdt : rows[i]? = some data)
    (hs : ∀ d ∈ ds, d.length ≤ 16) (hem : ∀ d ∈ ds, d ≠ []) (hne : ds ≠ []) :
    (∃ mask, (orRows ((usedLengths ds).map (lengthPredicate ds))).evaluate batch = .ok mask ∧
        IsSet mask i) ↔
      (∀ d ∈ ds, d.length ≤ data.length) ∧ ∃ d ∈ ds, d <+: data := by
  have hln : ∀ n ∈ usedLengths ds, 1 ≤ n ∧ n ≤ 16 ∧ ofLength ds n ≠ [] := by
    intro n hn
    obtain ⟨d, hd, rfl⟩ := (mem_usedLengths hs).mp hn
    have hps := length_pos_iff.mpr (hem d hd)
    exact ⟨hps, hs d hd, ne_nil_of_mem (mem_ofLength.mpr ⟨hd, rfl⟩)⟩
  obtain ⟨first, hf⟩ := exists_mem_of_ne_nil ds hne
  have hu : (usedLengths ds).map (lengthMask ds rows) ≠ [] := by
    have hmm := (mem_usedLengths hs).mpr ⟨first, hf, rfl⟩
    exact ne_nil_of_mem (mem_map_of_mem hmm)
  rw [evaluate_orRows _ (evaluateAll_lengthPredicate h hln)]
  simp only [Except.ok.injEq, exists_eq_left', isSet_combine_or_iff hu]
  constructor
  · rintro ⟨hk, mask, hm, hst⟩
    obtain ⟨n, _, rfl⟩ := mem_map.mp hm
    obtain ⟨d, hd, hp⟩ := (isSet_lengthMask hdt).mp hst
    refine ⟨fun e he => ?_, d, (mem_ofLength.mp hd).1, hp⟩
    have hl := (mem_usedLengths hs).mpr ⟨e, he, rfl⟩
    exact (known_lengthMask hdt).mp (hk _ (mem_map_of_mem hl))
  · rintro ⟨hlo, d, hd, hp⟩
    constructor
    · intro mask hm
      obtain ⟨_, hn, rfl⟩ := mem_map.mp hm
      obtain ⟨e, he, rfl⟩ := (mem_usedLengths hs).mp hn
      exact (known_lengthMask hdt).mpr (hlo e he)
    · have hl := (mem_usedLengths hs).mpr ⟨d, hd, rfl⟩
      refine ⟨_, mem_map_of_mem hl, (isSet_lengthMask hdt).mpr ?_⟩
      exact ⟨d, mem_ofLength.mpr ⟨hd, rfl⟩, hp⟩

/-- No byte string that is asked for hides another one: one of them is empty, or the data is as long
as each of them, or none of them is at the front of the data. -/
def Unhidden (ds : List (List Byte)) (data : List Byte) : Prop :=
  [] ∈ ds ∨ (∀ d ∈ ds, d.length ≤ data.length) ∨ ∀ d ∈ ds, ¬ d <+: data

omit [Casts] in
theorem mem_parseDiscriminators {list : List String} :
    d ∈ parseDiscriminators list ↔ ∃ s ∈ list, parseHex s = some d ∧ d.length ≤ 16 := by
  simp [parseDiscriminators, Option.filter_eq_some_iff]

/-- What the request selects. -/
theorem selects_discriminators (h : HasDiscriminators batch rows) (hdata : rows[i]? = some data)
    (list : List String) :
    (discriminatorPredicate (some list) PredicateBuilder.new).Selects batch i ↔
      [] ∈ parseDiscriminators list ∨
        (∀ d ∈ parseDiscriminators list, d.length ≤ data.length) ∧
          ∃ d ∈ parseDiscriminators list, d <+: data := by
  have hsh : ∀ d ∈ parseDiscriminators list, d.length ≤ 16 := by
    intro d hd
    obtain ⟨_, _, _, hle⟩ := mem_parseDiscriminators.mp hd
    exact hle
  simp only [discriminatorPredicate]
  split
  · rename_i hn
    rw [List.isEmpty_iff] at hn
    simp [PredicateBuilder.Selects, PredicateBuilder.markAsNever, hn]
  · rename_i hsm
    split
    · rename_i ha
      obtain ⟨d, hd, hem⟩ := any_eq_true.mp ha
      rw [List.isEmpty_iff] at hem
      subst hem
      simp [PredicateBuilder.Selects, PredicateBuilder.new, PredicateBuilder.build, hd]
    · rename_i ha
      have hnl : [] ∉ parseDiscriminators list := fun hd => ha (any_eq_true.mpr ⟨[], hd, rfl⟩)
      have hem : ∀ d ∈ parseDiscriminators list, d ≠ [] := by
        rintro d hd rfl
        exact hnl hd
      have hst := isSet_discriminators h hdata hsh hem (by simpa using hsm)
      simp only [PredicateBuilder.Selects, PredicateBuilder.new, PredicateBuilder.add,
        PredicateBuilder.build, nil_append, length_singleton, gt_iff_lt, Nat.lt_one_iff,
        if_true, andRows, Option.mem_some_iff, forall_eq', true_and, hst, hnl, false_or]

/-- The request selects the rows with one of its byte strings at the front of the data, if and only
if none of them hides another one. A disjunction in general selects what one of its parts selects,
if and only if no part is null there or none selects the row. -/
theorem discriminator_filter_is_exact_iff (h : HasDiscriminators batch rows)
    (hdata : rows[i]? = some data) :
    (∀ list : List String,
      ((discriminatorPredicate (some list) PredicateBuilder.new).Selects batch i ↔
        ∃ s ∈ list, ∃ d, parseHex s = some d ∧ d.length ≤ 16 ∧ d <+: data) ↔
      Unhidden (parseDiscriminators list) data) ∧
    ∀ (ps : List RowPredicate) (masks : List BooleanArray),
      RowPredicate.evaluateAll ps batch = .ok masks →
      (((∃ mask ∈ masks, IsSet mask i) →
        ∃ mask, (RowPredicate.or ps).evaluate batch = .ok mask ∧ IsSet mask i) ↔
      (∀ mask ∈ masks, Known mask i) ∨ ∀ mask ∈ masks, ¬ IsSet mask i) := by
  constructor
  · intro list
    have hl : (∃ s ∈ list, ∃ d, parseHex s = some d ∧ d.length ≤ 16 ∧ d <+: data) ↔
        ∃ d ∈ parseDiscriminators list, d <+: data := by
      simp only [mem_parseDiscriminators]
      constructor
      · rintro ⟨s, hs, d, hd, hsh, hp⟩
        exact ⟨d, ⟨s, hs, hd, hsh⟩, hp⟩
      · rintro ⟨d, ⟨s, hs, hd, hsh⟩, hp⟩
        exact ⟨s, hs, d, hd, hsh, hp⟩
    rw [hl, selects_discriminators h hdata]
    constructor
    · intro heq
      by_cases hp : ∃ d ∈ parseDiscriminators list, d <+: data
      · rcases heq.mpr hp with hnl | ⟨hlo, -⟩
        · exact Or.inl hnl
        · exact Or.inr (Or.inl hlo)
      · exact Or.inr (Or.inr fun d hd hpd => hp ⟨d, hd, hpd⟩)
    · intro hu
      constructor
      · rintro (hnl | ⟨-, hp⟩)
        · exact ⟨[], hnl, nil_prefix⟩
        · exact hp
      · rintro ⟨d, hd, hp⟩
        rcases hu with hnl | hlo | hno
        · exact Or.inl hnl
        · exact Or.inr ⟨hlo, d, hd, hp⟩
        · exact absurd hp (hno d hd)
  · intro ps masks hm
    have hev : (RowPredicate.or ps).evaluate batch =
        .ok (combine BooleanArray.or (zeroMask batch.numRows false) masks) := by
      rw [RowPredicate.evaluate, hm]
      rfl
    rw [hev]
    simp only [Except.ok.injEq, exists_eq_left']
    constructor
    · intro hs
      by_cases hst : ∃ mask ∈ masks, IsSet mask i
      · obtain ⟨_, hmm, -⟩ := id hst
        exact Or.inl ((isSet_combine_or_iff (ne_nil_of_mem hmm)).mp (hs hst)).1
      · exact Or.inr fun mask hmm hst' => hst ⟨mask, hmm, hst'⟩
    · rintro (hk | hno) ⟨mask, hmm, hst⟩
      · exact (isSet_combine_or_iff (ne_nil_of_mem hmm)).mpr ⟨hk, mask, hmm, hst⟩
      · exact absurd hst (hno mask hmm)

end Evaluation

def discriminatorColumns (rows : List (List Byte)) : RecordBatch where
  columns := ((List.range 16).map (· + 1)).map fun n => discriminatorColumn n rows
  numRows := rows.length
  lengths := by
    intro c hc
    obtain ⟨n, _, rfl⟩ := mem_map.mp hc
    simp [discriminatorColumn]

theorem hasDiscriminators (rows : List (List Byte)) :
    HasDiscriminators (discriminatorColumns rows) rows := by
  intro n h1 h16
  interval_cases n <;> rfl

section Sample

local instance refusedCasts : Casts where
  castWithOptions := fun _ _ => .error (.text "cast is not supported")

theorem discriminator_filter_is_exact_iff_sample :
    (discriminatorPredicate (some ["0x01", "0x0203"]) PredicateBuilder.new).Selects
      (discriminatorColumns [[1], [2, 3, 4]]) 1 := by
  refine (((discriminator_filter_is_exact_iff (hasDiscriminators [[1], [2, 3, 4]]) rfl).1
    ["0x01", "0x0203"]).mpr (Or.inr (Or.inl (by decide)))).mpr ?_
  exact ⟨"0x0203", by decide, [2, 3], by decide, by decide, by decide⟩

/-- The instruction `01` starts with the first byte string, but the second one is longer than the
whole data. -/
theorem short_instruction_is_not_selected :
    parseHex "0x01" = some [1] ∧ parseHex "0x0203" = some [2, 3] ∧ [1] <+: ([1] : List Byte) ∧
      ¬ (discriminatorPredicate (some ["0x01", "0x0203"]) PredicateBuilder.new).Selects
        (discriminatorColumns [[1], [2, 3, 4]]) 0 := by
  refine ⟨by decide, by decide, prefix_rfl, ?_⟩
  rintro ⟨_, hs⟩
  obtain ⟨mask, hm, hst⟩ := hs _ rfl
  cases hm
  exact absurd hst (by decide)

end Sample

end Query
