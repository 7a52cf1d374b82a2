import GnuRadio.Yaml.Value
import Mathlib.Data.List.Forall2
import Mathlib.Data.Prod.Lex
import Mathlib.Algebra.Order.Field.Rat

/-! The content of a `pmt::Value` (Value.hpp), its `==` and `<=>` (Value.cpp), its hash, and the contexts of settings with
    theirs (SettingsCtx.hpp). -/

namespace GnuRadio.Pmt

open Yaml (Bytes FloatType IntType)

/-! ### Values -/

/-- A floating-point number, with the sign of a zero. -/
inductive FloatNumber
  | zero (negative : Bool)
  | nonzero (q : ℚ)
  | infinite (negative : Bool)
  | nan
  deriving DecidableEq

/-- What the comparisons of a number read: the infinities are outside the rational numbers, and the zeros are one. -/
def FloatNumber.key : FloatNumber → Option (Int ×ₗ ℚ)
  | .zero _ => some (toLex (0, 0))
  | .nonzero q => some (toLex (0, q))
  | .infinite negative => some (toLex (if negative then -1 else 1, 0))
  | .nan => none

inductive ValueType
  | monostate
  | bool
  | integer (t : IntType)
  | floating (t : FloatType)
  | complex (t : FloatType)
  | string
  | value
  deriving DecidableEq, Repr

def ValueType.code : ValueType → Nat
  | .monostate => 0
  | .bool => 1
  | .integer .int8 => 2
  | .integer .int16 => 3
  | .integer .int32 => 4
  | .integer .int64 => 5
  | .integer .uint8 => 6
  | .integer .uint16 => 7
  | .integer .uint32 => 8
  | .integer .uint64 => 9
  | .floating .float32 => 10
  | .floating .float64 => 11
  | .complex .float32 => 12
  | .complex .float64 => 13
  | .string => 14
  | .value => 15

inductive ContainerType
  | scalar | complex | string | tensor | map
  deriving DecidableEq, Repr

def ContainerType.code : ContainerType → Nat
  | .scalar => 0
  | .complex => 1
  | .string => 2
  | .tensor => 3
  | .map => 4

/-- What a value holds that is no container, and what a tensor may hold. -/
inductive Scalar
  | bool (b : Bool)
  | integer (t : IntType) (n : Int)
  | floating (t : FloatType) (x : FloatNumber)
  | complex (t : FloatType) (real imag : FloatNumber)
  | string (s : Bytes)
  deriving DecidableEq

/-- The elements of a map are in the order of its iteration. -/
inductive Value
  | monostate
  | scalar (x : Scalar)
  /-- `Tensor<T>` of an element type other than `Value`. -/
  | tensor (elementType : ValueType) (extents : List Nat) (elements : List Scalar)
  /-- `Tensor<Value>` -/
  | tensorOfValues (extents : List Nat) (elements : List Value)
  | map (entries : List (Bytes × Value))

namespace Scalar

def valueType : Scalar → ValueType
  | .bool _ => .bool
  | .integer t _ => .integer t
  | .floating t _ => .floating t
  | .complex t _ _ => .complex t
  | .string _ => .string

def containerType : Scalar → ContainerType
  | .bool _ | .integer _ _ | .floating _ _ => .scalar
  | .complex _ _ _ => .complex
  | .string _ => .string

end Scalar

namespace Value

def valueType : Value → ValueType
  | .monostate => .monostate
  | .scalar x => x.valueType
  | .tensor elementType _ _ => elementType
  | .tensorOfValues _ _ | .map _ => .value

def containerType : Value → ContainerType
  | .monostate => .scalar
  | .scalar x => x.containerType
  | .tensor _ _ _ | .tensorOfValues _ _ => .tensor
  | .map _ => .map

end Value

/-! ### Equality -/

/-- `==` of two numbers, false for a NaN. -/
def FloatNumber.equal (x y : FloatNumber) : Bool :=
  match x.key, y.key with
  | some k, some l => decide (k = l)
  | _, _ => false

/-- `==` of two scalars of one type. -/
def Scalar.equal : Scalar → Scalar → Bool
  | .bool b, .bool c => b == c
  | .integer t n, .integer u m => t == u && n == m
  | .floating t x, .floating u y => t == u && x.equal y
  | .complex t re im, .complex u re' im' => t == u && re.equal re' && im.equal im'
  | .string s, .string r => s == r
  | _, _ => false

theorem FloatNumber.equal_iff {x y : FloatNumber} : x.equal y = true ↔ ∃ k, x.key = some k ∧ y.key = some k := by
  unfold FloatNumber.equal
  cases hx : x.key with
  | none => simp
  | some k =>
    cases hy : y.key with
    | none => simp
    | some l => simp [eq_comm]

theorem FloatNumber.equal_symm {x y : FloatNumber} (h : x.equal y = true) : y.equal x = true := by
  obtain ⟨k, hx, hy⟩ := FloatNumber.equal_iff.mp h
  exact FloatNumber.equal_iff.mpr ⟨k, hy, hx⟩

theorem Scalar.equal_symm {x y : Scalar} (h : x.equal y = true) : y.equal x = true := by
  cases x <;> cases y <;> simp only [Scalar.equal, Bool.and_eq_true, beq_iff_eq, Bool.false_eq_true] at h ⊢
  case bool.bool | string.string => exact h.symm
  case integer.integer => exact ⟨h.1.symm, h.2.symm⟩
  case floating.floating => exact ⟨h.1.symm, FloatNumber.equal_symm h.2⟩
  case complex.complex => exact ⟨⟨h.1.1.symm, FloatNumber.equal_symm h.1.2⟩, FloatNumber.equal_symm h.2⟩

namespace Value

/-- Whether the two tags are the same. -/
def sameTags (a b : Value) : Bool := a.valueType == b.valueType && a.containerType == b.containerType

mutual

/-- `operator==` -/
def equal : Value → Value → Bool
  | .monostate, b => sameTags .monostate b
  | .scalar x, b =>
    sameTags (.scalar x) b &&
      match b with
      | .scalar y => x.equal y
      | _ => false
  | .tensor elementType extents elements, b =>
    sameTags (.tensor elementType extents elements) b &&
      match b with
      | .tensor _ extents' elements' => extents == extents' && elements.isEqv elements' Scalar.equal
      | _ => false
  | .tensorOfValues extents elements, b =>
    sameTags (.tensorOfValues extents elements) b &&
      match b with
      | .tensorOfValues extents' elements' => extents == extents' && equalElements elements elements'
      | _ => false
  | .map entries, b =>
    sameTags (.map entries) b &&
      match b with
      | .map entries' => entries.length == entries'.length && equalEntries entries entries'
      | _ => false

def equalElements : List Value → List Value → Bool
  | [], [] => true
  | a :: as, b :: bs => equal a b && equalElements as bs
  | _, _ => false

/-- Each entry is found in the other map, with an equal value. -/
def equalEntries : List (Bytes × Value) → List (Bytes × Value) → Bool
  | [], _ => true
  | (key, a) :: entries, entries' =>
    (match entries'.lookup key with
      | some b => equal a b
      | none => false) && equalEntries entries entries'

end

section
variable {a b : Value} {elements elements' : List Value} {entries entries' : List (Bytes × Value)}

theorem sameTags_iff : sameTags a b = true ↔ a.valueType = b.valueType ∧ a.containerType = b.containerType := by
  rw [sameTags, Bool.and_eq_true, beq_iff_eq, beq_iff_eq]

theorem equal_monostate_iff : equal .monostate b = true ↔ b = .monostate := by
  rw [equal, sameTags_iff]
  constructor
  · rintro ⟨hvalue, hcontainer⟩
    cases b with
    | monostate => rfl
    | scalar x => cases x <;> cases hvalue
    | tensor | tensorOfValues | map => cases hcontainer
  · rintro rfl
    exact ⟨rfl, rfl⟩

theorem equalElements_iff :
    equalElements elements elements' = true ↔ List.Forall₂ (fun v w => equal v w = true) elements elements' := by
  induction elements generalizing elements' with
  | nil => cases elements' <;> simp [equalElements]
  | cons v vs ih =>
    cases elements' with
    | nil => simp [equalElements]
    | cons w ws => rw [equalElements, Bool.and_eq_true, List.forall₂_cons, ih]

theorem equalEntries_iff :
    equalEntries entries entries' = true ↔ ∀ e ∈ entries, ∃ b, entries'.lookup e.1 = some b ∧ equal e.2 b = true := by
  induction entries with
  | nil => simp [equalEntries]
  | cons e es ih =>
    obtain ⟨k, a⟩ := e
    rw [equalEntries, Bool.and_eq_true, ih, List.forall_mem_cons]
    refine and_congr_left fun _ => ?_
    cases entries'.lookup k with
    | none => simp
    | some b => simp

end

end Value

/-! ### Order -/

/-- `std::partial_ordering`, none where it is unordered. -/
abbrev PartialOrdering := Option Ordering

def FloatNumber.threeWay (x y : FloatNumber) : PartialOrdering :=
  match x.key, y.key with
  | some k, some l => some (compare k l)
  | _, _ => none

/-- The bytes of a text, as `std::string_view` compares them. -/
def bytes (s : Bytes) : List Nat := s.map Char.toNat

/-- `<=>` of two scalars of one type: a complex number has none. -/
def Scalar.threeWay : Scalar → Scalar → PartialOrdering
  | .bool b, .bool c => some (compare b c)
  | .integer _ n, .integer _ m => some (compare n m)
  | .floating _ x, .floating _ y => x.threeWay y
  | .string s, .string r => some (compare (bytes s) (bytes r))
  | _, _ => none

namespace Value

/-- Of values with the same tags: scalars and strings are ordered, containers are not. -/
def compareContents : Value → Value → PartialOrdering
  | .monostate, .monostate => some .eq
  | .scalar x, .scalar y => x.threeWay y
  | _, _ => none

/-- `operator<=>`: values of different tags go by the value type alone. -/
def threeWay (a b : Value) : PartialOrdering :=
  if sameTags a b then compareContents a b else some (compare a.valueType.code b.valueType.code)

def less (a b : Value) : Prop := threeWay a b = some .lt

end Value

/-! ### Hash -/

/-- `std::hash` of the types that a value may hold. The two zeros of a floating-point type are equal, so their hashes
    are. -/
structure StdHash where
  bool : Bool → UInt64
  integer : IntType → Int → UInt64
  floating : FloatType → FloatNumber → UInt64
  string : Bytes → UInt64
  floating_congr : ∀ t x y, x.key = y.key → floating t x = floating t y

def hashCombine (seed h : UInt64) : UInt64 :=
  seed ^^^ (h + (0x9e3779b9 : UInt64) + (seed <<< (6 : UInt64)) + (seed >>> (2 : UInt64)))

section
variable (std : StdHash)

/-- `hashScalar()` and `hashValue()` -/
def Scalar.hash : Scalar → UInt64
  | .bool b => std.bool b
  | .integer t n => std.integer t n
  | .floating t x => std.floating t x
  | .complex t re im => hashCombine (std.floating t re) (std.floating t im)
  | .string s => std.string s

/-- The seed of `hashTensorElements()`. -/
def hashSize (size : Nat) : UInt64 := std.integer .uint64 size

/-- `hashTensor()` of an element type other than `Value`: it leaves out `bool` and strings. -/
def hashTensor (elementType : ValueType) (elements : List Scalar) : UInt64 :=
  match elementType with
  | .bool | .string | .monostate | .value => 0
  | .integer _ | .floating _ | .complex _ =>
    elements.foldl (fun seed x => hashCombine seed (x.hash std)) (hashSize std elements.length)

namespace Value

/-- The seed of both tags. -/
def hashTags (v : Value) : UInt64 :=
  hashCombine (std.integer .int32 v.containerType.code) (std.integer .int32 v.valueType.code)

mutual

/-- `std::hash<pmt::Value>` -/
def hash : Value → UInt64
  | .monostate => hashTags std .monostate
  | .scalar x => hashCombine (hashTags std (.scalar x)) (x.hash std)
  | .tensor elementType extents elements =>
    let seed := hashTags std (.tensor elementType extents elements)
    -- `is_monostate()` reads the value type alone
    if elementType = .monostate then seed else hashCombine seed (hashTensor std elementType elements)
  | .tensorOfValues extents elements =>
    hashCombine (hashTags std (.tensorOfValues extents elements)) (hashElements (hashSize std elements.length) elements)
  | .map entries => hashCombine (hashTags std (.map entries)) (hashEntries 0 entries)

def hashElements : UInt64 → List Value → UInt64
  | seed, [] => seed
  | seed, v :: vs => hashElements (hashCombine seed (hash v)) vs

/-- `hashMap()` -/
def hashEntries : UInt64 → List (Bytes × Value) → UInt64
  | accumulator, [] => accumulator
  | accumulator, (key, v) :: entries => hashEntries (accumulator + hashCombine (std.string key) (hash v)) entries

end

theorem hashElements_eq (seed : UInt64) (elements : List Value) :
    hashElements std seed elements = elements.foldl (fun seed v => hashCombine seed (hash std v)) seed := by
  induction elements generalizing seed with
  | nil => rfl
  | cons v vs ih => rw [hashElements, ih, List.foldl_cons]

theorem hashEntries_eq (accumulator : UInt64) (entries : List (Bytes × Value)) :
    hashEntries std accumulator entries =
      (entries.map fun e => hashCombine (std.string e.1) (hash std e.2)).foldl (· + ·) accumulator := by
  induction entries generalizing accumulator with
  | nil => rfl
  | cons e es ih => rw [hashEntries, ih, List.map_cons, List.foldl_cons]

end Value

end

/-! ### Contexts of settings -/

structure SettingsCtx where
  time : Nat
  context : Value

namespace SettingsCtx

/-- `operator==` -/
def equal (a b : SettingsCtx) : Bool := a.time == b.time && a.context.equal b.context

/-- `comparePmt()`, none where it throws. -/
def comparePmt (lhs rhs : Value) : Option Ordering :=
  if lhs.containerType ≠ rhs.containerType then some (compare lhs.containerType.code rhs.containerType.code)
  else if lhs.valueType ≠ rhs.valueType then some (compare lhs.valueType.code rhs.valueType.code)
  else
    match lhs, rhs with
    | .scalar (.string s), .scalar (.string r) => some (compare (bytes s) (bytes r))
    | .scalar (.integer .int32 n), .scalar (.integer .int32 m) => some (compare n m)
    | _, _ => none

/-- `operator<=>` -/
def threeWay (a b : SettingsCtx) : Option Ordering :=
  if a.time ≠ b.time then some (compare a.time b.time) else comparePmt a.context b.context

def less (a b : SettingsCtx) : Prop := threeWay a b = some .lt

section
variable (std : StdHash)

/-- `detail::hash_combine()` of a number: it is hashed once more. -/
def hashCombineAgain (seed v : UInt64) : UInt64 := hashCombine seed (std.integer .uint64 v.toNat)

/-- `computeHash()` of a scalar. -/
def computeScalarHash : Scalar → UInt64
  | .bool b => std.bool b
  | .integer t n => std.integer t n
  | .floating t x => std.floating t x
  | .complex t re im => hashCombine (std.floating t re) (std.floating t im)
  | .string s => std.string s

mutual

/-- `detail::computeHash()` -/
def computeHash : Value → UInt64
  | .monostate => 0x9e3779b9
  | .scalar x => computeScalarHash std x
  | .tensor _ _ elements => elements.foldl (fun seed x => hashCombineAgain std seed (computeScalarHash std x)) 9
  | .tensorOfValues _ elements => computeElements 9 elements
  | .map entries => computeEntries 0 entries

def computeElements : UInt64 → List Value → UInt64
  | seed, [] => seed
  | seed, v :: vs => computeElements (hashCombineAgain std seed (computeHash v)) vs

/-- The seed of an entry replaces that of the ones before it. -/
def computeEntries : UInt64 → List (Bytes × Value) → UInt64
  | seed, [] => seed
  | _, (key, v) :: entries =>
    let keySeed := std.string key
    computeEntries (hashCombineAgain std (hashCombineAgain std keySeed (computeHash v)) keySeed) entries

end

/-- `SettingsCtx::hash()` -/
def hash (ctx : SettingsCtx) : UInt64 :=
  hashCombineAgain std (std.integer .uint64 ctx.time) (computeHash std ctx.context)

end

end SettingsCtx

/-! ### What equality, order and hash promise -/

namespace Value

mutual

/-- The keys of a map are different, in every map that the value holds. -/
def WellFormed : Value → Prop
  | .monostate | .scalar _ | .tensor _ _ _ => True
  | .tensorOfValues _ elements => WellFormedElements elements
  | .map entries => (entries.map Prod.fst).Nodup ∧ WellFormedEntries entries

def WellFormedElements : List Value → Prop
  | [] => True
  | v :: vs => WellFormed v ∧ WellFormedElements vs

def WellFormedEntries : List (Bytes × Value) → Prop
  | [] => True
  | (_, v) :: entries => WellFormed v ∧ WellFormedEntries entries

end

section
variable {elements : List Value} {entries : List (Bytes × Value)}

theorem wellFormedElements_iff : WellFormedElements elements ↔ ∀ v ∈ elements, v.WellFormed := by
  induction elements with
  | nil => simp [WellFormedElements]
  | cons v vs ih => simp [WellFormedElements, ih]

theorem wellFormedEntries_iff : WellFormedEntries entries ↔ ∀ e ∈ entries, e.2.WellFormed := by
  induction entries with
  | nil => simp [WellFormedEntries]
  | cons e es ih => simp [WellFormedEntries, ih]

end

end Value

def Scalar.NaNFree : Scalar → Prop
  | .floating _ x => x ≠ .nan
  | .complex _ re im => re ≠ .nan ∧ im ≠ .nan
  | .bool _ | .integer _ _ | .string _ => True

namespace Value

mutual

/-- No number in a value is a NaN, nested to any depth. -/
def NaNFree : Value → Prop
  | .monostate => True
  | .scalar x => x.NaNFree
  | .tensor _ _ elements => ∀ x ∈ elements, x.NaNFree
  | .tensorOfValues _ elements => NaNFreeElements elements
  | .map entries => NaNFreeEntries entries

def NaNFreeElements : List Value → Prop
  | [] => True
  | v :: vs => NaNFree v ∧ NaNFreeElements vs

def NaNFreeEntries : List (Bytes × Value) → Prop
  | [] => True
  | (_, v) :: entries => NaNFree v ∧ NaNFreeEntries entries

end

section
variable {elements : List Value} {entries : List (Bytes × Value)}

theorem nanFreeElements_iff : NaNFreeElements elements ↔ ∀ v ∈ elements, v.NaNFree := by
  induction elements with
  | nil => simp [NaNFreeElements]
  | cons v vs ih => simp [NaNFreeElements, ih]

theorem nanFreeEntries_iff : NaNFreeEntries entries ↔ ∀ e ∈ entries, e.2.NaNFree := by
  induction entries with
  | nil => simp [NaNFreeEntries]
  | cons e es ih => simp [NaNFreeEntries, ih]

end

/-- A value as the code can hold it, without NaN. -/
structure Proper (v : Value) : Prop where
  wellFormed : v.WellFormed
  nanFree : v.NaNFree

/-- The values of a set are comparable with each other. -/
def PairwiseComparable (values : Set Value) : Prop :=
  ∀ a ∈ values, ∀ b ∈ values, a ≠ b → (threeWay a b).isSome

/-- `<` is a strict weak order on a set of values. -/
structure StrictWeakOrder (values : Set Value) : Prop where
  irrefl : ∀ a ∈ values, ¬ less a a
  trans : ∀ a ∈ values, ∀ b ∈ values, ∀ c ∈ values, less a b → less b c → less a c
  incomparable : ∀ a ∈ values, ∀ b ∈ values, ∀ c ∈ values,
    ¬ less a b → ¬ less b a → ¬ less b c → ¬ less c b → ¬ less a c ∧ ¬ less c a

/-- Equality, hash and order agree on a set of values. -/
structure Agree (std : StdHash) (values : Set Value) : Prop where
  refl : ∀ a ∈ values, equal a a = true
  symm : ∀ a ∈ values, ∀ b ∈ values, equal a b = true → equal b a = true
  trans : ∀ a ∈ values, ∀ b ∈ values, ∀ c ∈ values, equal a b = true → equal b c = true → equal a c = true
  hash : ∀ a ∈ values, ∀ b ∈ values, equal a b = true → hash std a = hash std b
  equivalent : ∀ a ∈ values, ∀ b ∈ values, threeWay a b = some .eq → equal a b = true
  order : PairwiseComparable values → StrictWeakOrder values

/-- Values of one value type are of one container type. -/
def Separated (values : Set Value) : Prop :=
  ∀ a ∈ values, ∀ b ∈ values, a.valueType = b.valueType → a.containerType = b.containerType

end Value

/-- A string or a 32-bit integer. -/
def SettingsCtx.Plain (ctx : SettingsCtx) : Prop :=
  (∃ s, ctx.context = .scalar (.string s)) ∨ ∃ n, ctx.context = .scalar (.integer .int32 n)

/-- Two contexts are equal if neither is less than the other, and then their hashes are equal. -/
structure SettingsCtx.Agree (std : StdHash) (a b : SettingsCtx) : Prop where
  equal_iff : equal a b = true ↔ ¬ less a b ∧ ¬ less b a
  hash : equal a b = true → hash std a = hash std b

end GnuRadio.Pmt
