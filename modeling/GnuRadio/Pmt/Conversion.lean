import GnuRadio.Library.FloatingPoint
import GnuRadio.Yaml.Value
import Mathlib.Data.Rat.Floor

/-! `convert_safely()` between numbers and from text, and `parseToMinimalNumeric()` (PmtTypeHelpers.hpp). A finite
    floating-point number is the rational number it stands for, so the two zeros are one. Casts between floating-point types
    and `std::from_chars()` of a floating-point number are parameters. -/

namespace GnuRadio.Pmt

open FloatingPoint (Format)
open Yaml (Bytes FloatType IntType isspace)

/-! ### Numeric types -/

/-- `std::numeric_limits<T>::digits` -/
def digits (t : IntType) : Nat := if t.signed then t.bits - 1 else t.bits

abbrev Integer (t : IntType) := { n : Int // t.min ≤ n ∧ n ≤ t.max }

def format : FloatType → Format
  | .float32 => ⟨24, 149, 104, Nat.succ_pos _⟩
  | .float64 => ⟨53, 1074, 971, Nat.succ_pos _⟩

inductive Floating (t : FloatType)
  | finite (q : ℚ) (holds : (format t).Holds q)
  | infinite (negative : Bool)
  | nan

inductive NumericType
  | integer (t : IntType)
  | floating (t : FloatType)
  | complex (t : FloatType)
  deriving DecidableEq, Repr

def NumericType.Val : NumericType → Type
  | .integer t => Integer t
  | .floating t => Floating t
  | .complex t => Floating t × Floating t

/-- The texts of the errors, without the values and type names in them. -/
inductive ConversionError
  | negativeInteger
  | integerOutOfRange
  | significantBits (bits : Nat)
  | notFinite
  | outside
  | notAnInteger
  | floatingOutside
  | unsupportedComplex (reason : ConversionError)
  | notRealValued
  | noComplexConversion (reason : ConversionError)
  | cannotParse
  | emptyText
  | noSuitableType
  | noFloatingType
  | noSafeConversion
  deriving DecidableEq, Repr

/-- What the hardware and the standard library make of floating-point numbers. -/
structure Platform where
  /-- `static_cast` between floating-point types. -/
  cast : (S T : FloatType) → Floating S → Floating T
  /-- `std::from_chars()` of a whole text, none where it fails. -/
  fromChars : (T : FloatType) → Bytes → Option (Floating T)

/-! ### Casts -/

/-- `static_cast` to an integer type: the bits that it has. -/
def wrap (t : IntType) (n : Int) : Int := if t.signed then n.bmod (2 ^ t.bits) else n % 2 ^ t.bits

theorem wrap_mem (t : IntType) (n : Int) : t.min ≤ wrap t n ∧ wrap t n ≤ t.max := by
  cases t <;> simp only [wrap, IntType.min, IntType.max, IntType.signed, IntType.bits, Int.bmod] <;> norm_num <;> omega

def castInteger (t : IntType) (n : Int) : Integer t := ⟨wrap t n, wrap_mem t n⟩

theorem natAbs_lt_maxExponent {S : IntType} (n : Integer S) (T : FloatType) :
    n.val.natAbs < 2 ^ (format T).maxExponent := by
  have hle : n.val.natAbs < 2 ^ 64 := by
    obtain ⟨n, hmin, hmax⟩ := n
    cases S <;> simp only [IntType.min, IntType.max, IntType.signed, IntType.bits] at hmin hmax <;>
      norm_num at hmin hmax ⊢ <;> omega
  refine Nat.lt_of_lt_of_le hle (Nat.pow_le_pow_right (by decide) ?_)
  cases T <;> decide

/-- `static_cast` of an integer to a floating-point type. -/
def castFloating (T : FloatType) {S : IntType} (n : Integer S) : Floating T :=
  .finite ((format T).round n.val) (Format.holds_round (natAbs_lt_maxExponent n T))

def zero (T : FloatType) : Floating T := .finite 0 (Format.holds_zero (format T))

/-! ### Integral sources -/

/-- `static_cast<std::uintmax_t>` -/
def uintmax (n : Int) : Int := n % 2 ^ 64

def integerInRange (T S : IntType) (value : Int) : Bool :=
  if S.signed ∧ value < 0 then T.signed && decide (T.min ≤ value) else decide (uintmax value ≤ uintmax T.max)

def integerToInteger {S : IntType} (T : IntType) (srcValue : Integer S) : Except ConversionError (Integer T) :=
  if T.signed = false ∧ S.signed = true ∧ srcValue.val < 0 then .error .negativeInteger
  else if digits S ≤ digits T then .ok (castInteger T srcValue.val)
  else if integerInRange T S srcValue.val then .ok (castInteger T srcValue.val)
  else .error .integerOutOfRange

/-- The value without its sign, computed in the 64 bits of `UnsignedWide`. -/
def magnitude (S : IntType) (n : Int) : Nat :=
  let wide := (uintmax n).toNat
  -- `WideType` is `long long` for the shorter types
  if (S.bits < 64 ∨ S.signed = true) ∧ n < 0 then (2 ^ 64 - wide) % 2 ^ 64 else wide

def integerToFloating {S : IntType} (T : FloatType) (srcValue : Integer S) : Except ConversionError (Floating T) :=
  if digits S ≤ (format T).precision then .ok (castFloating T srcValue)
  else
    let magnitude := magnitude S srcValue.val
    if magnitude = 0 then .ok (castFloating T srcValue)
    else
      let significantBits := (magnitude >>> Format.countrZero 64 magnitude).size
      if significantBits ≤ (format T).precision then .ok (castFloating T srcValue)
      else .error (.significantBits significantBits)

/-! ### Floating-point sources -/

/-- `static_cast<S>(std::numeric_limits<T>::lowest())` -/
def integerLowest (T : IntType) (S : FloatType) : ℚ := (format S).round T.min

def integerUpperLimit (T : IntType) (S : FloatType) : ℚ := (format S).round (T.max / 2 + 1) * 2

/-- `std::nearbyint()`, a tie to the even integer. -/
def nearbyint (q : ℚ) : Int :=
  if 2 * (q - ⌊q⌋) < 1 ∨ (2 * (q - ⌊q⌋) = 1 ∧ ⌊q⌋ % 2 = 0) then ⌊q⌋ else ⌊q⌋ + 1

/-- The cast of a floating-point number to an integer type drops what is behind the point. -/
def truncate (q : ℚ) : Int := q.num.tdiv q.den

theorem truncate_of_nonneg {q : ℚ} (h : 0 ≤ q) : truncate q = ⌊q⌋ := by
  rw [truncate, Int.tdiv_eq_ediv_of_nonneg (Rat.num_nonneg.mpr h), Rat.floor_def']

theorem truncate_neg (q : ℚ) : truncate (-q) = -truncate q := by
  rw [truncate, truncate, Rat.num_neg_eq_neg_num, Rat.den_neg_eq_den, Int.neg_tdiv]

theorem truncate_of_nonpos {q : ℚ} (h : q ≤ 0) : truncate q = ⌈q⌉ := by
  have hfloor : truncate (-q) = ⌊-q⌋ := truncate_of_nonneg (neg_nonneg.mpr h)
  rw [truncate_neg, Int.floor_neg, neg_inj] at hfloor
  exact hfloor

theorem truncate_intCast (n : Int) : truncate n = n := by
  rw [truncate, Rat.num_intCast, Rat.den_intCast, Nat.cast_one, Int.tdiv_one]

def floatingToInteger {S : FloatType} (T : IntType) : Floating S → Except ConversionError (Integer T)
  | .infinite _ | .nan => .error .notFinite
  | .finite srcValue _ =>
    if srcValue < integerLowest T S ∨ integerUpperLimit T S ≤ srcValue then .error .outside
    else if srcValue ≠ nearbyint srcValue then .error .notAnInteger
    else .ok (castInteger T (truncate srcValue))

/-- `std::numeric_limits<T>::max()` -/
def floatingMax (T : FloatType) : ℚ := (2 ^ (format T).precision - 1) * 2 ^ (format T).maxExponent

section
variable (platform : Platform)

def floatingToFloating {S : FloatType} (T : FloatType) (srcValue : Floating S) : Except ConversionError (Floating T) :=
  match srcValue with
  | .infinite _ | .nan => .error .floatingOutside
  | .finite q _ =>
    if -floatingMax T ≤ q ∧ q ≤ floatingMax T then .ok (platform.cast S T srcValue) else .error .floatingOutside

/-! ### `convert_safely()` -/

/-- A `std::variant` is none of the sources that `convert_safely()` knows, whatever it holds. -/
def convertVariant (T : NumericType) : Except ConversionError T.Val := .error .noSafeConversion

/-- `std::imag(srcValue) != 0` -/
def Floating.isNonzero {t : FloatType} : Floating t → Bool
  | .finite q _ => decide (q ≠ 0)
  | .infinite _ | .nan => true

/-- A source and a target of different types. -/
def convertNumber : (S T : NumericType) → S.Val → Except ConversionError T.Val
  | .integer _, .integer T, srcValue => integerToInteger T srcValue
  | .integer _, .floating T, srcValue => integerToFloating T srcValue
  | .integer _, .complex T, srcValue =>
    ((integerToFloating T srcValue).mapError .unsupportedComplex).map fun real => (real, zero T)
  | .floating _, .integer T, srcValue => floatingToInteger T srcValue
  | .floating _, .floating T, srcValue => floatingToFloating platform T srcValue
  | .floating S, .complex T, srcValue =>
    if h : S = T then .ok (h ▸ srcValue, zero T)
    else ((floatingToFloating platform T srcValue).mapError .unsupportedComplex).map fun real => (real, zero T)
  | .complex _, .complex T, _ =>
    (convertVariant (.floating T)).bind fun real => (convertVariant (.floating T)).map fun imag => (real, imag)
  | .complex _, .integer T, srcValue =>
    if srcValue.2.isNonzero then .error .notRealValued
    else (convertVariant (.integer T)).mapError .noComplexConversion
  | .complex _, .floating T, srcValue =>
    if srcValue.2.isNonzero then .error .notRealValued
    else (convertVariant (.floating T)).mapError .noComplexConversion

def convertSafely (S T : NumericType) (srcValue : S.Val) : Except ConversionError T.Val :=
  if h : S = T then .ok (h ▸ srcValue) else convertNumber platform S T srcValue

/-! ### Text -/

def trimAndCutComment (input : Bytes) : Bytes :=
  (((input.dropWhile isspace).takeWhile (· ≠ '#')).reverse.dropWhile isspace).reverse

inductive Errc
  | invalidArgument
  | resultOutOfRange
  deriving DecidableEq, Repr

def digitValue (c : Char) : Nat := c.toNat - '0'.toNat

/-- Whether a text has the sign that a type knows. -/
def isNegated (T : IntType) (s : Bytes) : Bool := T.signed && s.head?.any (· = '-')

def behindSign (T : IntType) (s : Bytes) : Bytes := if isNegated T s then s.drop 1 else s

/-- The number that decimal digits are. -/
def decimal (number : Bytes) : Nat := number.foldl (fun n c => 10 * n + digitValue c) 0

/-- `std::from_chars()` of an integer in base 10, with what is behind the number. -/
def fromChars (T : IntType) (s : Bytes) : Except Errc Int × Bytes :=
  let number := (behindSign T s).takeWhile Char.isDigit
  let value : Int := if isNegated T s then -(decimal number : Int) else decimal number
  if number = [] then (.error .invalidArgument, s)
  else if value < T.min ∨ T.max < value then (.error .resultOutOfRange, (behindSign T s).dropWhile Char.isDigit)
  else (.ok value, (behindSign T s).dropWhile Char.isDigit)

/-- The number that a whole text is. -/
def parseInteger (T : IntType) (trimmed : Bytes) : Except ConversionError (Integer T) :=
  match fromChars T trimmed with
  | (.error .invalidArgument, _) => .error .cannotParse
  | (.error .resultOutOfRange, rest) => if rest = [] then .error .integerOutOfRange else .error .cannotParse
  | (.ok value, rest) => if rest = [] then .ok (castInteger T value) else .error .cannotParse

def parseStringToFloat (T : FloatType) (trimmed : Bytes) : Except ConversionError (Floating T) :=
  if trimmed = [] then .error .emptyText
  else
    match platform.fromChars T trimmed with
    | some parsedVal => .ok parsedVal
    | none => .error .cannotParse

/-- `convert_safely()` of a text. -/
def convertText : (T : NumericType) → Bytes → Except ConversionError T.Val
  | .integer T, srcValue => parseInteger T (trimAndCutComment srcValue)
  | .floating T, srcValue => parseStringToFloat platform T (trimAndCutComment srcValue)
  | .complex _, _ => .error .noSafeConversion

end

/-! ### `parseToMinimalNumeric()` -/

/-- The types in the order in which they are tried. -/
def typesInOrder (isNegative : Bool) : List IntType :=
  if isNegative then [.int8, .int16, .int32, .int64]
  else [.int8, .uint8, .int16, .uint16, .int32, .uint32, .int64, .uint64]

/-- The type that the text is read as first. -/
def widest (isNegative : Bool) : IntType := if isNegative then .int64 else .uint64

/-- The variant with a number of one of its types. -/
abbrev Minimal := Σ T : NumericType, T.Val

/-- Whether a type is wide enough: `inRange<T>()` for a number with a sign, where the last type is not checked. -/
def fits (isNegative : Bool) (t : IntType) (val : Int) : Bool :=
  if isNegative then t = .int64 || (decide (t.min ≤ val) && decide (val ≤ t.max)) else decide (val ≤ t.max)

/-- The first type of the variant in the order that is wide enough. -/
def minimalInteger (variant : List NumericType) (isNegative : Bool) (val : Int) : Except ConversionError Minimal :=
  match (typesInOrder isNegative).find? fun t => variant.contains (.integer t) && fits isNegative t val with
  | some t => .ok ⟨.integer t, castInteger t val⟩
  | none => .error .noSuitableType

/-- The text of a floating-point number is converted as a `std::variant<std::string>`. -/
def minimalFloating (variant : List NumericType) : Except ConversionError Minimal :=
  if variant.contains (.floating .float32) then
    match convertVariant (.floating .float32) with
    | .ok tryFloat => .ok ⟨.floating .float32, tryFloat⟩
    | .error error =>
      if variant.contains (.floating .float64) then
        (convertVariant (.floating .float64)).map fun tryDouble => ⟨.floating .float64, tryDouble⟩
      else .error error
  else if variant.contains (.floating .float64) then
    (convertVariant (.floating .float64)).map fun tryDouble => ⟨.floating .float64, tryDouble⟩
  else .error .noFloatingType

def parseToMinimalNumeric (variant : List NumericType) (numericString : Bytes) : Except ConversionError Minimal :=
  let str := trimAndCutComment numericString
  if str = [] then .error .emptyText
  else if str.any (fun c => c = '.' || c = 'e' || c = 'E') then minimalFloating variant
  else
    let isNegative := str.head?.any (· = '-')
    (parseInteger (widest isNegative) str).bind fun val => minimalInteger variant isNegative val.val

/-! ### What the conversions are for -/

/-- The rational number that a finite number is. -/
def Floating.value {t : FloatType} : Floating t → Option ℚ
  | .finite q _ => some q
  | .infinite _ | .nan => none

/-- The mathematical value of a number: its real and its imaginary part. -/
def NumericType.value : (T : NumericType) → T.Val → Option (ℚ × ℚ)
  | .integer _, n => some (n.val, 0)
  | .floating _, x => x.value.map (·, 0)
  | .complex _, x => x.1.value.bind fun re => x.2.value.map fun im => (re, im)

/-- A decimal text of an integer, with the sign that it may have. -/
def IsDecimal (isNegative : Bool) (text : Bytes) (n : Int) : Prop :=
  ∃ number : Bytes, number ≠ [] ∧ number.all Char.isDigit = true ∧
    text = (if isNegative then '-' :: number else number) ∧ n = if isNegative then -(decimal number : Int) else decimal number

/-- `to_text(n)` -/
def toText (n : Int) : Bytes :=
  if n < 0 then '-' :: Nat.toDigits 10 n.natAbs else Nat.toDigits 10 n.natAbs

/-- The first type of the variant, in the order, that holds the number. -/
def firstHolding (variant : List NumericType) (isNegative : Bool) (n : Int) : Option IntType :=
  (typesInOrder isNegative).find? fun t => variant.contains (.integer t) && decide (t.min ≤ n ∧ n ≤ t.max)

/-- The number is one of the 64-bit types. -/
def Is64Bit (n : Int) : Prop := IntType.min .int64 ≤ n ∧ n ≤ IntType.max .uint64

/-- The conversions that are exact. -/
inductive Request
  | number (S T : NumericType) (srcValue : S.Val)
  | text (T : IntType) (n : Int)
  | minimalInteger (variant : List NumericType) (isNegative : Bool) (text : Bytes) (n : Int)
  | minimalFloating (variant : List NumericType) (text : Bytes)

namespace Request

/-- Between two numeric types that are not both floating-point, from a complex number without imaginary part to a numeric
    type, and between two complex types. -/
def Covers : (S T : NumericType) → S.Val → Prop
  | .integer _, .integer _, _ | .integer _, .floating _, _ | .floating _, .integer _, _ | .complex _, .complex _, _ => True
  | .complex _, .integer _, x | .complex _, .floating _, x => x.2.value = some 0
  | _, _, _ => False

def InDomain (platform : Platform) : Request → Prop
  | number S T srcValue => Covers S T srcValue ∧ (S.value srcValue).isSome
  | text _ _ => True
  | minimalInteger _ isNegative source n => IsDecimal isNegative (trimAndCutComment source) n ∧ Is64Bit n
  | minimalFloating variant source =>
    ∃ T, .floating T ∈ variant ∧ ∃ x, convertText platform (.floating T) source = .ok x

/-- The result is the value asked for, where the target can represent it, and an error otherwise. -/
def Met (platform : Platform) : Request → Prop
  | number S T srcValue => ∀ y, convertSafely platform S T srcValue = .ok y ↔ T.value y = S.value srcValue
  | text T n => ∀ y : Integer T, convertText platform (.integer T) (toText n) = .ok y ↔ y.val = n
  | minimalInteger variant isNegative source n =>
    ∀ result, parseToMinimalNumeric variant source = .ok result ↔
      ∃ t h, firstHolding variant isNegative n = some t ∧ result = ⟨.integer t, ⟨n, h⟩⟩
  | minimalFloating variant source => ∃ result, parseToMinimalNumeric variant source = .ok result

/-- No complex number is converted to another type that can represent it, and the text of a floating-point number is one of
    an integer. -/
def HoldsWhen : Request → Prop
  | number S T srcValue => (∃ F, S = .complex F) → S = T ∨ ∀ y, T.value y ≠ S.value srcValue
  | text _ _ | minimalInteger _ _ _ _ => True
  | minimalFloating variant source =>
    ∃ isNegative n, IsDecimal isNegative (trimAndCutComment source) n ∧ Is64Bit n ∧
      (firstHolding variant isNegative n).isSome

end Request

end GnuRadio.Pmt
