import GnuRadio.Library.Arrays
import GnuRadio.Library.Fallible
import GnuRadio.Pmt.Conversion
import GnuRadio.Tensor

/-! Conversions of the tensor in a `pmt::Value` to a container: `convertTo()` and `assignTo()` (ValueHelper.hpp). The target
    is a `std::vector`, a `std::array` or a tensor with dynamic, partly static or static extents. Casts between floating-point
    types are a parameter. -/

namespace GnuRadio.Pmt.Containers

open Yaml (FloatType IntType)

/-! ### Element types -/

inductive ElementType
  | bool
  | number (T : NumericType)
  deriving DecidableEq

namespace ElementType

abbrev Val : ElementType → Type
  | .bool => Bool
  | .number T => T.Val

@[match_pattern] abbrev int8 : ElementType := .number (.integer .int8)
@[match_pattern] abbrev int16 : ElementType := .number (.integer .int16)
@[match_pattern] abbrev int32 : ElementType := .number (.integer .int32)
@[match_pattern] abbrev int64 : ElementType := .number (.integer .int64)
@[match_pattern] abbrev uint8 : ElementType := .number (.integer .uint8)
@[match_pattern] abbrev uint16 : ElementType := .number (.integer .uint16)
@[match_pattern] abbrev uint32 : ElementType := .number (.integer .uint32)
@[match_pattern] abbrev uint64 : ElementType := .number (.integer .uint64)
@[match_pattern] abbrev float : ElementType := .number (.floating .float32)
@[match_pattern] abbrev double : ElementType := .number (.floating .float64)
@[match_pattern] abbrev complexFloat : ElementType := .number (.complex .float32)
@[match_pattern] abbrev complexDouble : ElementType := .number (.complex .float64)

def isComplex : ElementType → Bool
  | .number (.complex _) => true
  | _ => false

/-- `T{}` -/
def zeroOf : (T : ElementType) → T.Val
  | .bool => false
  | .number (.integer T) => castInteger T 0
  | .number (.floating T) => zero T
  | .number (.complex T) => (zero T, zero T)

instance (T : ElementType) : Inhabited T.Val := ⟨T.zeroOf⟩

end ElementType

open ElementType

/-- `sizeof()` of a floating-point type. -/
def floatBytes : FloatType → Nat
  | .float32 => 4
  | .float64 => 8

/-- `is_static_castable_v` -/
def isStaticCastable (S D : ElementType) : Bool := !S.isComplex || D.isComplex

/-- `is_widening_v` -/
def isWidening : ElementType → ElementType → Bool
  | .number (.integer S), .number (.integer D) => decide (S.bits / 8 < D.bits / 8) && S.signed == D.signed
  | .float, .double => true
  | .complexFloat, .complexDouble => true
  | .number (.integer S), .number (.floating D) => decide (S.bits / 8 ≤ floatBytes D)
  | _, _ => false

/-- `is_narrowing_v` -/
def isNarrowing (S D : ElementType) : Bool := !decide (S = D) && !isWidening S D && isStaticCastable S D

inductive ConversionPolicy
  | safe | widening | narrowing | unchecked
  deriving DecidableEq

def ConversionPolicy.code : ConversionPolicy → Nat
  | .safe => 0
  | .widening => 1
  | .narrowing => 2
  | .unchecked => 3

inductive RankPolicy
  | strict | flatten | reshape
  deriving DecidableEq

/-- `conversion_allowed_v` -/
def conversionAllowed (S D : ElementType) (P : ConversionPolicy) : Bool :=
  decide (S = D) || (decide (ConversionPolicy.widening.code ≤ P.code) && isWidening S D) ||
    (decide (ConversionPolicy.narrowing.code ≤ P.code) && isNarrowing S D) ||
      (decide (P = .unchecked) && isStaticCastable S D)

/-! ### `static_cast` -/

section
variable (platform : Platform)

/-- A bool as the integer that it is promoted to. -/
def promoted : Bool → Integer .int32
  | false => castInteger .int32 0
  | true => castInteger .int32 1

def castFromInteger {S : IntType} (n : Integer S) : (D : ElementType) → D.Val
  | .bool => decide (n.val ≠ 0)
  | .number (.integer T) => castInteger T n.val
  | .number (.floating T) => castFloating T n
  | .number (.complex T) => (castFloating T n, zero T)

def castFloat {S : FloatType} (x : Floating S) (T : FloatType) : Floating T :=
  if h : S = T then h ▸ x else platform.cast S T x

/-- The cast to an integer type is undefined for what is no number, and for a number that the type does not hold. -/
def castFromFloating {S : FloatType} (x : Floating S) : (D : ElementType) → D.Val
  | .bool => match x with
    | .finite q _ => decide (q ≠ 0)
    | _ => true
  | .number (.integer T) => match x with
    | .finite q _ => castInteger T (truncate q)
    | _ => castInteger T 0
  | .number (.floating T) => castFloat platform x T
  | .number (.complex T) => (castFloat platform x T, zero T)

/-- A complex number has no cast to a real one. -/
def castFromComplex {S : FloatType} (x : Floating S × Floating S) : (D : ElementType) → D.Val
  | .number (.complex T) => (castFloat platform x.1 T, castFloat platform x.2 T)
  | D => D.zeroOf

/-- `static_cast`, of the types for which there is one. -/
def staticCast : (S D : ElementType) → S.Val → D.Val
  | .bool, D, b => castFromInteger (promoted b) D
  | .number (.integer _), D, n => castFromInteger n D
  | .number (.floating _), D, x => castFromFloating platform x D
  | .number (.complex _), D, x => castFromComplex platform x D

/-! ### Values -/

/-- An element of a `Tensor<pmt::Value>`. -/
inductive Element
  | scalar (T : ElementType) (x : T.Val)
  | other

/-- `get_if<T>()` -/
def Element.getIf (T : ElementType) : Element → Option T.Val
  | .scalar S x => if h : S = T then some (h ▸ x) else none
  | .other => none

/-- A `pmt::Value` with a tensor of numbers or bools, of values or of texts, or with none. -/
inductive Value
  | tensor (S : ElementType) (elements : Tensor S.Val)
  | values (elements : Tensor Element)
  | texts
  | other

/-- `get_if<Tensor<T>>()` -/
def Value.tensorOf (T : ElementType) : Value → Option (Tensor T.Val)
  | .tensor S elements => if h : S = T then some (h ▸ elements) else none
  | _ => none

inductive ErrorKind
  | typeMismatch
  | elementTypeMismatch (index : Nat)
  | rankMismatch
  | sizeMismatch
  | notATensor
  | narrowingNotAllowed
  | wideningNotAllowed
  deriving DecidableEq

/-- How a conversion ends without a result: with an error, with an exception, or in a write past an array. -/
inductive Failure
  | error (kind : ErrorKind)
  | exception
  | pastArray
  deriving DecidableEq

/-! ### Targets -/

/-- A target of a conversion. The extents of a tensor are known where they are static. -/
inductive Target
  | vector
  | array (N : Nat)
  | dynamic
  | partlyStatic (extents : List (Option Nat)) (some_dynamic : none ∈ extents)
  | static (extents : List Nat) (ne_nil : extents ≠ [])

/-- `static_size_v` -/
def staticSize (extents : List Nat) : Nat := extents.prod % sizeModulus

/-- A tensor whose type has `rank` extents, one of them dynamic. It keeps the static ones like the others. -/
structure PartlyStatic (rank : Nat) (α : Type) where
  extents : { extents : List Nat // extents.length = rank }
  elements : List α

abbrev Target.Val (α : Type) : Target → Type
  | .vector => List α
  | .array N => { elements : List α // elements.length = N }
  | .dynamic => Tensor α
  | .partlyStatic extents _ => PartlyStatic extents.length α
  | .static extents _ => { elements : List α // elements.length = staticSize extents }

/-- The array with the elements, of which there is its number. -/
def toArray {α : Type} (N : Nat) (elements : List α) : Except Failure { elements : List α // elements.length = N } :=
  if h : elements.length = N then .ok ⟨elements, h⟩ else .error (.error .sizeMismatch)

/-- `Tensor(extents, mr)` of a type with `rank` extents. -/
def fromExtents (rank : Nat) (extents : List Nat) : Except Failure { extents : List Nat // extents.length = rank } :=
  if extents.length > kMaxRank then .error .exception
  else if h : extents.length = rank then
    match Tensor.product extents with
    | some _ => .ok ⟨extents, h⟩
    | none => .error .exception
  else .error .exception

/-- `resize(extents)` of a new tensor. -/
def resizedTo (T : ElementType) (mr : Nat) (extents : List Nat) : Except Failure (Tensor T.Val) :=
  let outcome := ({ resource := mr } : Tensor T.Val).resize extents default
  if outcome.thrown then .error .exception else .ok outcome.tensor

/-! ### A tensor of one type -/

/-- A strict conversion to a vector or an array takes rank 1. -/
def checkFlat (R : RankPolicy) (rank : Nat) : Except Failure Unit :=
  if R = .strict ∧ rank ≠ 1 then .error (.error .rankMismatch) else .ok ()

def checkRank (R : RankPolicy) (dstRank rank : Nat) : Except Failure Unit :=
  if R = .strict ∧ rank ≠ dstRank then .error (.error .rankMismatch) else .ok ()

def checkSize (dstSize size : Nat) : Except Failure Unit :=
  if size ≠ dstSize then .error (.error .sizeMismatch) else .ok ()

/-- The extents of a strict conversion to a static tensor. -/
def checkExtents (R : RankPolicy) (dstExtents extents : List Nat) : Except Failure Unit :=
  if R = .strict ∧ extents ≠ dstExtents then .error (.error .sizeMismatch) else .ok ()

/-- Why the types of the elements are refused. -/
def refusal (S D : ElementType) : ErrorKind :=
  if isWidening S D then .wideningNotAllowed else if isStaticCastable S D then .narrowingNotAllowed else .typeMismatch

variable {S : ElementType} (D : ElementType) (P : ConversionPolicy) (R : RankPolicy)

/-- The elements, each cast. -/
def castElements (src : Tensor S.Val) : List D.Val := src.data.map (staticCast platform S D)

def checkTypes (S D : ElementType) (P : ConversionPolicy) : Except Failure Unit :=
  if conversionAllowed S D P then .ok () else .error (.error (refusal S D))

/-- `tensorToVector()` -/
def tensorToVector (src : Tensor S.Val) : Except Failure (List D.Val) := do
  checkTypes S D P
  checkFlat R src.rank
  return castElements platform D src

/-- `tensorToArray()` -/
def tensorToArray (N : Nat) (src : Tensor S.Val) : Except Failure { elements : List D.Val // elements.length = N } := do
  checkTypes S D P
  checkFlat R src.rank
  checkSize N src.size
  toArray N (castElements platform D src)

/-- `tensorToTensor()`. A copy to a tensor of the same type takes the extents as they are. -/
def tensorToTensor (mr : Nat) (target : Target) (src : Tensor S.Val) : Except Failure (target.Val D.Val) :=
  match target with
  | .vector => tensorToVector platform D P R src
  | .array N => tensorToArray platform D P R N src
  | .dynamic => do
    checkTypes S D P
    if S = D then return Tensor.copyOf { src with data := castElements platform D src } mr
    else
      let result ← resizedTo D mr src.extents
      return { result with data := castElements platform D src }
  | .partlyStatic extents _ => do
    checkTypes S D P
    checkRank R extents.length src.rank
    let extents ← fromExtents extents.length src.extents
    return ⟨extents, castElements platform D src⟩
  | .static extents _ => do
    checkTypes S D P
    checkRank R extents.length src.rank
    checkExtents R extents src.extents
    checkSize (staticSize extents) src.size
    toArray (staticSize extents) (castElements platform D src)

/-! ### A tensor of values -/

/-- The types that `tryConvertElement()` tries for a type, in their order, with a widening policy. -/
def triedWidening : ElementType → List ElementType
  | .double => [.float, .int32, .int64]
  | .float => [.int32, .int16]
  | .int64 => [.int32, .int16, .int8]
  | .int32 => [.int16, .int8]
  | .int16 => [.int8]
  | .uint64 => [.uint32, .uint16, .uint8]
  | .uint32 => [.uint16, .uint8]
  | .uint16 => [.uint8]
  | .complexDouble => [.complexFloat]
  | _ => []

/-- Those with a narrowing policy. -/
def triedNarrowing : ElementType → List ElementType
  | .float => [.double]
  | .int32 => [.int64, .double, .float]
  | .int16 => [.int32, .int64]
  | .int8 => [.int16, .int32]
  | .uint32 => [.uint64]
  | .uint16 => [.uint32]
  | .uint8 => [.uint16, .uint32]
  | .complexFloat => [.complexDouble]
  | _ => []

/-- Those without a check. -/
def triedUnchecked (D : ElementType) : List ElementType :=
  if D.isComplex then [.complexFloat, .complexDouble]
  else [.bool, .int8, .int16, .int32, .int64, .uint8, .uint16, .uint32, .uint64, .float, .double]

def tried : List ElementType :=
  (if ConversionPolicy.widening.code ≤ P.code then triedWidening D else []) ++
    ((if ConversionPolicy.narrowing.code ≤ P.code then triedNarrowing D else []) ++
      if P = .unchecked then triedUnchecked D else [])

/-- `tryConvertElement()`: an element of the type itself is taken as it is. -/
def tryConvertElement (elem : Element) (idx : Nat) : Except Failure D.Val :=
  match elem.getIf D with
  | some x => .ok x
  | none =>
    match (tried D P).findSome? fun T => (elem.getIf T).map (staticCast platform T D) with
    | some x => .ok x
    | none => .error (.error (.elementTypeMismatch idx))

/-- The elements, converted one after another. -/
def convertElements (src : Tensor Element) : Except Failure (List D.Val) :=
  src.data.zipIdx.mapM fun elem => tryConvertElement platform D P elem.1 elem.2

/-- `tensorOfValueToVector()`, `tensorOfValueToArray()` and `tensorOfValueToTensor()` -/
def tensorOfValueTo (mr : Nat) (target : Target) (src : Tensor Element) : Except Failure (target.Val D.Val) :=
  match target with
  | .vector => do
    checkFlat R src.rank
    convertElements platform D P src
  | .array N => do
    checkFlat R src.rank
    checkSize N src.size
    let elements ← convertElements platform D P src
    toArray N elements
  | .dynamic => do
    let result ← resizedTo D mr src.extents
    let elements ← convertElements platform D P src
    return { result with data := elements }
  | .partlyStatic extents _ => do
    checkRank R extents.length src.rank
    let extents ← fromExtents extents.length src.extents
    let elements ← convertElements platform D P src
    return ⟨extents, elements⟩
  | .static extents _ => do
    checkRank R extents.length src.rank
    checkSize (staticSize extents) src.size
    let elements ← convertElements platform D P src
    toArray (staticSize extents) elements

/-! ### `convertTo()` -/

/-- `convertTo(const Value&, mr)` -/
def convertTo (mr : Nat) (target : Target) : Value → Except Failure (target.Val D.Val)
  | .tensor _ src => tensorToTensor platform D P R mr target src
  | .values src => tensorOfValueTo platform D P R mr target src
  | .texts => .error (.error .typeMismatch)
  | .other => .error (.error .notATensor)

/-- `Tensor(Tensor<T>&&, mr)`, with the extents and strides of the tensor. -/
def movedTensor {α : Type} (src : Tensor α) (mr : Nat) : Tensor α where
  metaInfo :=
    { rank := src.rank
      extents := ExtentsStore.copy src.extents (List.replicate kMaxRank 0)
      strides := ExtentsStore.copy src.strides (List.replicate kMaxRank 0) }
  data := src.data
  resource := mr

theorem length_copy_extents {rank : Nat} {extents : List Nat} (h : extents.length ≤ rank) :
    (ExtentsStore.copy extents (List.replicate rank 0)).length = rank := by
  rw [ExtentsStore.copy, List.length_append, List.length_drop, List.length_replicate]
  omega

/-- The same of a type with `rank` extents, which is not compared with the tensor's. -/
def movedPartlyStatic {α : Type} (rank : Nat) (src : Tensor α) : Except Failure (PartlyStatic rank α) :=
  if h : src.extents.length ≤ rank then
    .ok ⟨⟨ExtentsStore.copy src.extents (List.replicate rank 0), length_copy_extents h⟩, src.data⟩
  else .error .pastArray

/-- `convertTo(Value&&, mr)` -/
def convertToMoved (mr : Nat) (target : Target) (value : Value) : Except Failure (target.Val D.Val) :=
  match target with
  | .dynamic =>
    match value.tensorOf D with
    | some src => .ok (movedTensor src mr)
    | none => convertTo platform D P R mr .dynamic value
  | .partlyStatic extents some_dynamic =>
    match value.tensorOf D with
    | some src => do
      checkRank R extents.length src.rank
      movedPartlyStatic extents.length src
    | none => convertTo platform D P R mr (.partlyStatic extents some_dynamic) value
  | .vector => convertTo platform D P R mr .vector value
  | .array N => convertTo platform D P R mr (.array N) value
  | .static extents ne_nil => convertTo platform D P R mr (.static extents ne_nil) value

/-! ### `assignTo()` -/

/-- A destination of `assignTo()`. There is none for a partly static tensor, whose rank `resize()` cannot write. -/
inductive Destination
  | vector
  | array (N : Nat)
  | dynamic
  | static (extents : List Nat) (ne_nil : extents ≠ [])

abbrev Destination.target : Destination → Target
  | .vector => .vector
  | .array N => .array N
  | .dynamic => .dynamic
  | .static extents ne_nil => .static extents ne_nil

/-- A vector with the elements, in its own storage where that is large enough. -/
def assignVector {α : Type} [Inhabited α] (dst : List α) (capacity : Nat) (result : List α) : List α :=
  if result.length ≤ capacity then Copies.overwrite (Tensor.resized dst result.length) 0 result else result

/-- `dst.resize(extents)` and the copy of the elements. -/
def assignResized {α : Type} [Inhabited α] (dst src : Tensor α) : Except Failure Unit × Tensor α :=
  let outcome := dst.resize src.extents default
  if outcome.thrown then (.error .exception, outcome.tensor)
  else (.ok (), { outcome.tensor with data := Copies.overwrite outcome.tensor.data 0 src.data })

/-- What `assignTo()` makes of the result of `convertTo()`. A failed conversion leaves the destination. -/
def assignResult {α β : Type} (dst : β) (assign : α → Except Failure Unit × β) : Except Failure α → Except Failure Unit × β
  | .ok result => assign result
  | .error failure => (.error failure, dst)

/-- A tensor with the result, in its own storage where that is large enough. -/
def assignTensor {α : Type} [Inhabited α] (dst : Tensor α) (capacity : Nat) (result : Tensor α) :
    Except Failure Unit × Tensor α :=
  if result.size ≤ capacity then assignResized dst result else (.ok (), dst.assignCopy result)

/-- `assignTo(Tensor<T>&, const Value&)` -/
def assignToTensor (dst : Tensor D.Val) (capacity : Nat) (value : Value) : Except Failure Unit × Tensor D.Val :=
  let converted := assignResult dst (assignTensor dst capacity) (convertTo platform D P R dst.resource .dynamic value)
  match value.tensorOf D with
  | some src => if src.size ≤ capacity then assignResized dst src else converted
  | none => converted

/-- `assignTo(dst, const Value&)`, where `dst` has the capacity. -/
def assignTo (capacity : Nat) (value : Value) : (destination : Destination) → destination.target.Val D.Val →
    Except Failure Unit × destination.target.Val D.Val
  | .vector, dst =>
    assignResult dst (fun result => (.ok (), assignVector dst capacity result)) (convertTo platform D P R 0 .vector value)
  | .array N, dst => assignResult dst (.ok (), ·) (convertTo platform D P R 0 (.array N) value)
  | .dynamic, dst => assignToTensor platform D P R dst capacity value
  | .static extents ne_nil, dst => assignResult dst (.ok (), ·) (convertTo platform D P R 0 (.static extents ne_nil) value)

/-- `assignTo(dst, Value&&)` -/
def assignToMoved (capacity : Nat) (value : Value) : (destination : Destination) → destination.target.Val D.Val →
    Except Failure Unit × destination.target.Val D.Val
  | .vector, dst =>
    assignResult dst (fun result => (.ok (), assignVector dst capacity result)) (convertToMoved platform D P R 0 .vector value)
  | .array N, dst => assignTo platform D P R capacity value (.array N) dst
  | .dynamic, dst =>
    match value.tensorOf D with
    | some src => (.ok (), dst.assignCopy src)
    | none => assignTo platform D P R capacity value .dynamic dst
  | .static extents ne_nil, dst => assignTo platform D P R capacity value (.static extents ne_nil) dst

/-! ### What is observed of a conversion -/

/-- The extents and the elements of a result. -/
def Target.read {α : Type} : (target : Target) → target.Val α → List Nat × List α
  | .vector, y => ([y.length], y)
  | .array _, y => ([y.val.length], y.val)
  | .dynamic, y => (y.extents, y.data)
  | .partlyStatic _ _, y => (y.extents.val, y.elements)
  | .static extents _, y => (extents, y.val)

/-- Two conversions give the same, or both fail. A write past an array is no failure to compare. -/
def Same {target : Target} {α : Type} : Except Failure (target.Val α) → Except Failure (target.Val α) → Prop
  | .ok y, .ok z => target.read y = target.read z
  | .error f, .error g => f ≠ .pastArray ∧ g ≠ .pastArray
  | _, _ => False

/-- `tryConvertElement()` takes a value of the type. -/
def Takes (S D : ElementType) (P : ConversionPolicy) : Prop := S = D ∨ S ∈ tried D P

/-- The target takes a list of the extents and the size. -/
def Target.Fits (R : RankPolicy) (extents : List Nat) (size : Nat) : Target → Prop
  | .vector => R = .strict → extents.length = 1
  | .array N => (R = .strict → extents.length = 1) ∧ size = N
  | .dynamic => True
  | .partlyStatic dstExtents _ => extents.length = dstExtents.length
  | .static dstExtents _ => (R = .strict → extents.length = dstExtents.length) ∧ size = staticSize dstExtents

/-- The extents of a static tensor are those of the list, for a strict conversion. -/
def Target.ExtentsFit (R : RankPolicy) (extents : List Nat) : Target → Prop
  | .static dstExtents _ => R = .strict → extents = dstExtents
  | _ => True

/-- The product of the extents is a `std::size_t`, as far as `product()` is asked for it. -/
def Target.Counted (extents : List Nat) : Target → Prop
  | .dynamic | .partlyStatic _ _ => extents = [] ∨ (Tensor.product extents).isSome = true
  | _ => True

end

end GnuRadio.Pmt.Containers
