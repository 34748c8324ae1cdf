import SqdData.Arrow.Values
import SqdData.Storage.Data

/-!
# Array predicates

Conditions on one column, evaluated on its values and, where they support it, on the minimum and
the maximum of each window of rows. The names of data types in error messages are left out.
-/

namespace Query

open Arrow Storage

structure Scalar where
  dataType : DataType
  value : Value
deriving DecidableEq

/-- `cast_with_options` on a scalar, for types that are not both integers. -/
class Casts where
  castWithOptions : Scalar → DataType → Except Error Value

def zeroMask (len : Nat) (isSet : Bool) : BooleanArray := List.replicate len (some isSet)

inductive CastResult where
  | less
  | greater
  | same
  | cast (value : Value)

/-- The type holds the number. -/
def Holds (t : IntType) (x : Int) : Prop := t.least ≤ x ∧ x ≤ t.greatest

instance (t : IntType) (x : Int) : Decidable (Holds t x) := inferInstanceAs (Decidable (_ ∧ _))

structure CommonType where
  signed : Bool
  bits : Nat
deriving DecidableEq

/-- The table of `tower_cast`: the common type of the two types. -/
def commonType (src target : IntType) : CommonType :=
  match src.signed, src.width, target.signed, target.width with
  | false, .w64, false, _ => ⟨false, 64⟩
  | false, .w64, true, _ => ⟨true, 128⟩
  | false, .w32, false, .w64 => ⟨false, 64⟩
  | false, .w32, false, _ => ⟨false, 32⟩
  | false, .w32, true, _ => ⟨true, 64⟩
  | false, .w16, false, .w64 => ⟨false, 64⟩
  | false, .w16, false, .w32 => ⟨false, 32⟩
  | false, .w16, false, _ => ⟨false, 16⟩
  | false, .w16, true, .w64 => ⟨true, 64⟩
  | false, .w16, true, _ => ⟨true, 32⟩
  | false, .w8, false, .w64 => ⟨false, 64⟩
  | false, .w8, false, .w32 => ⟨false, 32⟩
  | false, .w8, false, _ => ⟨false, 16⟩
  | false, .w8, true, .w64 => ⟨true, 64⟩
  | false, .w8, true, .w32 => ⟨true, 32⟩
  | false, .w8, true, _ => ⟨true, 16⟩
  | true, _, false, .w64 => ⟨true, 128⟩
  | true, .w64, _, _ => ⟨true, 64⟩
  | true, _, false, .w32 => ⟨true, 64⟩
  | true, .w32, true, .w64 => ⟨true, 64⟩
  | true, .w32, _, _ => ⟨true, 32⟩
  | true, _, false, .w16 => ⟨true, 32⟩
  | true, _, true, .w64 => ⟨true, 64⟩
  | true, _, true, .w32 => ⟨true, 32⟩
  | true, _, _, _ => ⟨true, 16⟩

def CommonType.least (c : CommonType) : Int := if c.signed then -(2 ^ (c.bits - 1)) else 0

/-- The value of the type that has the bits of the number. -/
def CommonType.wrap (c : CommonType) (x : Int) : Int := c.least + (x - c.least) % 2 ^ c.bits

/-- `tower_cast_impl`, with a failed assertion as no result. -/
def towerCastImpl (src target : IntType) (value : Int) : Option CastResult :=
  let c := commonType src target
  if Holds target value then some (.cast (.int value))
  else if c.wrap value > c.wrap target.greatest then some .greater
  else if c.wrap value < c.wrap target.least then some .less
  else none

variable [Casts]

def castScalar (scalar : Scalar) (targetDomain : DataType) : Except Error CastResult :=
  if scalar.dataType = targetDomain then .ok .same
  else
    match scalar.dataType, targetDomain, scalar.value with
    | .int src, .int target, .int value =>
      match towerCastImpl src target value with
      | some result => .ok result
      | none => .error (.text "assertion failed: value < min")
    | _, _, _ => (Casts.castWithOptions scalar targetDomain).map .cast

/-- The macro `cast_scalar!`: the mask for a value outside of the domain, or the one that `f` makes
of the value in the domain. -/
def withScalar (scalar : Scalar) (arr : ArrayRef) (less greater : Bool)
    (f : Value → BooleanArray) : Except Error BooleanArray :=
  (castScalar scalar arr.dataType).map fun
    | .same => f scalar.value
    | .cast value => f value
    | .less => zeroMask arr.values.length less
    | .greater => zeroMask arr.values.length greater

/-- A comparison kernel with a scalar: nulls stay null. -/
def compareWith (test : Value → Bool) (values : List Value) : BooleanArray :=
  values.map fun x => if x = .null then none else some (test x)

structure ArrayStats where
  min : ArrayRef
  max : ArrayRef
deriving DecidableEq

/-- The array predicates. A Bloom filter is given by the bytes of the filter that holds its
value. -/
inductive ArrayPredicate where
  | and (predicates : List ArrayPredicate)
  | or (predicates : List ArrayPredicate)
  | eq (value : Scalar)
  | gtEq (value : Scalar)
  | ltEq (value : Scalar)
  | inList (list : List Value)
  | bloomFilter (value : List Byte)
  | primitiveListContainsAny (type : IntType) (values : List Int)
  | stringListContainsAny (values : List String)

/-- How far apart the slices are that a Bloom filter of `size` bytes is compared with. Only at 64
bytes this is the size of an item; otherwise it is the size of the machine word that is used. -/
def bloomStride (size : Nat) : Nat :=
  if size = 64 then 64
  else if size % 16 = 0 then 16
  else if size % 8 = 0 then 8
  else 1

/-- The bytes an item takes in the value buffer. -/
def itemBytes (size : Nat) : Value → List Byte
  | .bytes bs => bs
  | _ => List.replicate size 0

/-- `eval_static` and `eval_dynamic`: whether the bits of the filter are set in the slice. -/
def bloomHit (value blooms : List Byte) (i : Nat) : Bool :=
  (value.zip ((blooms.drop (i * bloomStride value.length)).take value.length)).all
    fun (v, b) => v &&& b == v

/-- `BloomFilter::evaluate`. -/
def evaluateBloom (value : List Byte) (arr : ArrayRef) : Except Error BooleanArray :=
  match arr.dataType with
  | .fixedSizeBinary size =>
    if size ≠ value.length then
      .error (.text
        s!"this bloom filter is {value.length} bytes, but array item is {size} bytes")
    else if size = 0 then .error (.text "attempt to calculate the remainder with a divisor of zero")
    else
      let blooms := arr.values.flatMap (itemBytes size)
      .ok (arr.values.mapIdx fun i x => if x = .null then none else some (bloomHit value blooms i))
  | _ => .error (.text "expected fixed sized binary array")

/-- The loop over the items of a list. A null list holds nothing. -/
def listContains (test : Value → Bool) : Value → Bool
  | .list items => items.any test
  | _ => false

/-- `PrimitiveListContainsAny::evaluate`. -/
def evaluatePrimitiveList (type : IntType) (values : List Int) (arr : ArrayRef) :
    Except Error BooleanArray :=
  match arr.dataType with
  | .list item =>
    if item = .int type then
      .ok (arr.values.map fun x => some (listContains (fun v => values.any (.int · = v)) x))
    else .error (.text "expected List of primitive values")
  | _ => .error (.text "expected List array")

/-- `StringListContainsAny::evaluate`. -/
def evaluateStringList (values : List String) (arr : ArrayRef) : Except Error BooleanArray :=
  match arr.dataType with
  | .list item =>
    if item = .utf8 then
      .ok (arr.values.map fun x => some (listContains (fun v => values.any (.str · = v)) x))
    else .error (.text "expected List of string values")
  | _ => .error (.text "expected List array")

/-- The loop of `And` and `Or` over the masks of their parts. -/
def combine (f : BooleanArray → BooleanArray → BooleanArray) (zero : BooleanArray) :
    List BooleanArray → BooleanArray
  | [] => zero
  | mask :: masks => masks.foldl f mask

namespace ArrayPredicate

mutual

def evaluate : ArrayPredicate → ArrayRef → Except Error BooleanArray
  | .and predicates, arr =>
    (evaluateAll predicates arr).map (combine BooleanArray.and (zeroMask arr.values.length true))
  | .or predicates, arr =>
    (evaluateAll predicates arr).map (combine BooleanArray.or (zeroMask arr.values.length false))
  | .eq value, arr =>
    withScalar value arr false false fun v => compareWith (fun x => x = v) arr.values
  | .gtEq value, arr =>
    withScalar value arr false true fun v => compareWith (fun x => x.le v) arr.values
  | .ltEq value, arr =>
    withScalar value arr true false fun v => compareWith (fun x => v.le x) arr.values
  | .inList list, arr => .ok (compareWith (fun x => x ∈ list) arr.values)
  | .bloomFilter value, arr => evaluateBloom value arr
  | .primitiveListContainsAny type values, arr => evaluatePrimitiveList type values arr
  | .stringListContainsAny values, arr => evaluateStringList values arr

def evaluateAll : List ArrayPredicate → ArrayRef → Except Error (List BooleanArray)
  | [], _ => .ok []
  | p :: ps, arr => do
    let mask ← p.evaluate arr
    let masks ← evaluateAll ps arr
    return mask :: masks

end

mutual

def canEvaluateStats : ArrayPredicate → Bool
  | .and predicates => anyCanEvaluateStats predicates
  | .or predicates => allCanEvaluateStats predicates
  | .eq _ => true
  | .gtEq _ => true
  | .ltEq _ => true
  | .inList _ => false
  | .bloomFilter _ => false
  | .primitiveListContainsAny _ _ => false
  | .stringListContainsAny _ => false

def anyCanEvaluateStats : List ArrayPredicate → Bool
  | [] => false
  | p :: ps => p.canEvaluateStats || anyCanEvaluateStats ps

def allCanEvaluateStats : List ArrayPredicate → Bool
  | [] => true
  | p :: ps => p.canEvaluateStats && allCanEvaluateStats ps

end

/-- What the predicates without support for statistics answer. -/
def statsNotSupported : Except Error BooleanArray :=
  .error (.text "Stats evaluation is not supported by this predicate")

mutual

def evaluateStats : ArrayPredicate → ArrayStats → Except Error BooleanArray
  | .and predicates, stats =>
    (evaluateStatsAll predicates stats).map
      (combine BooleanArray.and (zeroMask stats.min.values.length true))
  | .or predicates, stats =>
    (evaluateStatsAll predicates stats).map
      (combine BooleanArray.or (zeroMask stats.min.values.length false))
  | .eq value, stats =>
    withScalar value stats.min false false fun v =>
      BooleanArray.and (compareWith (fun x => x.le v) stats.min.values)
        (compareWith (fun x => v.le x) stats.max.values)
  | .gtEq value, stats =>
    withScalar value stats.min false true fun v =>
      compareWith (fun x => x.le v) stats.min.values
  | .ltEq value, stats =>
    withScalar value stats.max true false fun v =>
      compareWith (fun x => v.le x) stats.max.values
  | .inList _, _ => statsNotSupported
  | .bloomFilter _, _ => statsNotSupported
  | .primitiveListContainsAny _ _, _ => statsNotSupported
  | .stringListContainsAny _, _ => statsNotSupported

def evaluateStatsAll : List ArrayPredicate → ArrayStats → Except Error (List BooleanArray)
  | [], _ => .ok []
  | p :: ps, stats => do
    let mask ← p.evaluateStats stats
    let masks ← evaluateStatsAll ps stats
    return mask :: masks

end

end ArrayPredicate

end Query
