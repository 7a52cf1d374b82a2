import GnuRadio.Pmt.Conversion

/-! The check of a value against limits of an integer type: `Limits::validate()` and what it calls in annotated.hpp. A
    finite floating-point number is the rational number it stands for. A cast to an integer type has a result only where
    the number without its fraction is in the range of the type. -/

namespace GnuRadio.Annotated

open Pmt (truncate)

/-! ### Numbers -/

/-- An integer or character type. `digits` are its bits without that of the sign. -/
structure IntegerType where
  signed : Bool
  digits : Nat
  character : Bool
  digits_pos : 0 < digits
  deriving DecidableEq

namespace IntegerType

/-- `std::numeric_limits<T>::lowest()` -/
def lowest (t : IntegerType) : Int := if t.signed then -2 ^ t.digits else 0

/-- `std::numeric_limits<T>::max()` -/
def max (t : IntegerType) : Int := 2 ^ t.digits - 1

end IntegerType

abbrev Integer (t : IntegerType) := { n : Int // t.lowest ≤ n ∧ n ≤ t.max }

inductive Floating
  | finite (q : ℚ)
  | infinite (negative : Bool)
  | nan
  deriving DecidableEq

namespace Floating

/-- `x >= q` -/
def ge : Floating → ℚ → Bool
  | .finite p, q => decide (q ≤ p)
  | .infinite negative, _ => !negative
  | .nan, _ => false

/-- `x > q` -/
def gt : Floating → ℚ → Bool
  | .finite p, q => decide (q < p)
  | .infinite negative, _ => !negative
  | .nan, _ => false

/-- `x < q` -/
def lt : Floating → ℚ → Bool
  | .finite p, q => decide (p < q)
  | .infinite negative, _ => negative
  | .nan, _ => false

/-- `std::floor()` -/
def floor : Floating → Floating
  | .finite q => .finite ⌊q⌋
  | x => x

/-- `std::ceil()` -/
def ceil : Floating → Floating
  | .finite q => .finite ⌈q⌉
  | x => x

end Floating

inductive Number
  | bool (b : Bool)
  | integer (t : IntegerType) (n : Integer t)
  | floating (x : Floating)

/-! ### Casts -/

instance (t : IntegerType) (n : Int) : Decidable (t.lowest ≤ n ∧ n ≤ t.max) := instDecidableAnd

/-- `static_cast` of an integer, none where it is out of the range. -/
def castInteger (t : IntegerType) (n : Int) : Option (Integer t) := if h : t.lowest ≤ n ∧ n ≤ t.max then some ⟨n, h⟩ else none

/-- `static_cast` of a floating-point number, none where it has no defined result. -/
def castFloating (t : IntegerType) : Floating → Option (Integer t)
  | .finite q => castInteger t (truncate q)
  | .infinite _ | .nan => none

/-! ### Bounds -/

/-- `std::cmp_greater_equal()` and `std::cmp_less_equal()` with both bounds. -/
def integerWithinBounds (value lower upper : Int) : Bool := decide (lower ≤ value) && decide (value ≤ upper)

/-- `2 ^ digits` of the type, from half its maximum. -/
def kTwoToDigits (t : IntegerType) : ℚ := ((t.max / 2 + 1 : Int) : ℚ) * 2

/-- `withinBounds()` of a floating-point number. -/
def floatingWithinBounds (t : IntegerType) (value : Floating) (lower upper : Integer t) : Option Bool :=
  let twoToDigits := kTwoToDigits t
  let lowest := if t.signed then -twoToDigits else 0
  if !(value.ge lowest && value.lt twoToDigits) then some false
  else
    let ceiling := value.ceil
    (castFloating t value.floor).bind fun floor =>
      if decide (lower.val ≤ floor.val) && ceiling.lt twoToDigits then
        (castFloating t ceiling).map fun ceiling => decide (ceiling.val ≤ upper.val)
      else some false

def integerKeepsValue (t : IntegerType) (value : Int) : Bool := integerWithinBounds value t.lowest t.max

/-- `castKeepsValue()` of a floating-point number. -/
def floatingKeepsValue (t : IntegerType) (value : Floating) : Bool :=
  let upper := kTwoToDigits t
  if t.signed then value.ge (-upper) && value.lt upper else value.gt (-1) && value.lt upper

/-! ### Limits -/

/-- The validator may throw. -/
structure Limits (t : IntegerType) where
  lower : Integer t
  upper : Integer t
  validator : Option (Integer t → Except Unit Bool)

namespace Limits

variable {t : IntegerType}

/-- What the validator returns, false where it throws. -/
def accepts (validator : Integer t → Except Unit Bool) (value : Integer t) : Bool :=
  match validator value with
  | .ok b => b
  | .error _ => false

/-- `validate(const ValueType&)` -/
def validateSame (l : Limits t) (value : Integer t) : Bool :=
  if l.lower = l.upper then
    match l.validator with
    | some validator => accepts validator value
    | none => true
  else
    match l.validator with
    | some validator => decide (l.lower.val ≤ value.val) && decide (value.val ≤ l.upper.val) && accepts validator value
    | none => decide (l.lower.val ≤ value.val) && decide (value.val ≤ l.upper.val)

/-- `validate(const U&)` of a number of another type: `within` is the comparison with the limits, `keepsValue` that of a
    cast to the bounds' type, and `converted` its result. -/
def validateOther (l : Limits t) (within : Option Bool) (keepsValue : Bool) (converted : Option (Integer t)) :
    Option Bool :=
  (if l.lower ≠ l.upper then within else some true).bind fun inside =>
    if !inside then some false
    else
      match l.validator with
      | none => some true
      | some _ => if keepsValue then converted.map l.validateSame else some false

/-- `validate()`, none where a cast has no result. -/
def validate (l : Limits t) : Number → Option Bool
  -- not a `LimitNumber`: it is cast at once
  | .bool b => (castInteger t (if b then 1 else 0)).map l.validateSame
  | .integer s n =>
    if h : s = t then some (l.validateSame (h ▸ n))
    else
      l.validateOther (some (integerWithinBounds n.val l.lower.val l.upper.val)) (integerKeepsValue t n.val)
        (castInteger t n.val)
  | .floating x =>
    l.validateOther (floatingWithinBounds t x l.lower l.upper) (floatingKeepsValue t x) (castFloating t x)

end Limits

/-! ### What the check is for -/

namespace Number

/-- The number lies between two integers. -/
def Between (lower upper : Int) : Number → Prop
  | .bool b => lower ≤ (if b then 1 else 0) ∧ (if b then 1 else 0) ≤ upper
  | .integer _ n => lower ≤ n.val ∧ n.val ≤ upper
  | .floating (.finite q) => (lower : ℚ) ≤ q ∧ q ≤ upper
  | .floating (.infinite _) | .floating .nan => False

/-- The cast of the number to an integer type is defined, with this result. -/
def Converts (t : IntegerType) (n : Integer t) : Number → Prop
  | .bool b => n.val = if b then 1 else 0
  | .integer _ m => n.val = m.val
  | .floating (.finite q) => n.val = truncate q
  | .floating (.infinite _) | .floating .nan => False

/-- The number is not below the smallest value of the integer type, or for an unsigned type its fraction alone is. -/
def AboveLowest (t : IntegerType) : Number → Prop
  | .floating (.finite q) => if t.signed then (t.lowest : ℚ) ≤ q else -1 < q
  | .bool _ | .integer _ _ | .floating (.infinite _) | .floating .nan => True

/-- The number is this integer. -/
def Is (n : Int) : Number → Prop
  | .bool b => n = if b then 1 else 0
  | .integer _ m => n = m.val
  | .floating (.finite q) => (n : ℚ) = q
  | .floating (.infinite _) | .floating .nan => False

end Number

end GnuRadio.Annotated
