import GnuRadio.Pmt.Conversion

/-! `gr::Ratio` (utils.hpp): a quotient of two 32-bit integers. Arithmetic that leaves the type has no value, and neither has
    `std::gcd` of the least integer, whose magnitude the type does not hold. -/

namespace GnuRadio

open Pmt (decimal digitValue toText)
open Yaml (Bytes)

structure Ratio where
  numerator : Int32
  denominator : Int32
  deriving DecidableEq, Repr

namespace Ratio

def InRange (i : Int) : Prop := -2 ^ 31 ≤ i ∧ i < 2 ^ 31

instance (i : Int) : Decidable (InRange i) := inferInstanceAs (Decidable (_ ∧ _))

/-- The result of an operation on `std::int32_t`. -/
def fit (i : Int) : Option Int32 := if InRange i then some (Int32.ofInt i) else none

/-- `std::gcd` -/
def gcd (m n : Int32) : Option Int :=
  if m = Int32.minValue ∨ n = Int32.minValue then none else some (Int.gcd m.toInt n.toInt)

/-! ### Arithmetic -/

def add (a b : Ratio) : Option Ratio := do
  let g ← gcd a.denominator b.denominator
  let l := b.denominator.toInt.tdiv g
  let r := a.denominator.toInt.tdiv g
  let x ← fit (a.numerator.toInt * l)
  let y ← fit (b.numerator.toInt * r)
  let n ← fit (x.toInt + y.toInt)
  let d ← fit (a.denominator.toInt * l)
  pure ⟨n, d⟩

def sub (a b : Ratio) : Option Ratio := do
  let g ← gcd a.denominator b.denominator
  let l := b.denominator.toInt.tdiv g
  let r := a.denominator.toInt.tdiv g
  let x ← fit (a.numerator.toInt * l)
  let y ← fit (b.numerator.toInt * r)
  let n ← fit (x.toInt - y.toInt)
  let d ← fit (a.denominator.toInt * l)
  pure ⟨n, d⟩

def mul (a b : Ratio) : Option Ratio := do
  let g1 ← gcd a.numerator b.denominator
  let g2 ← gcd b.numerator a.denominator
  let n ← fit (a.numerator.toInt.tdiv g1 * b.numerator.toInt.tdiv g2)
  let d ← fit (a.denominator.toInt.tdiv g2 * b.denominator.toInt.tdiv g1)
  pure ⟨n, d⟩

/-- The numerator of `b` is asserted not to be zero. -/
def div (a b : Ratio) : Option Ratio := do
  let g1 ← gcd a.numerator b.numerator
  let g2 ← gcd a.denominator b.denominator
  let n ← fit (a.numerator.toInt.tdiv g1 * b.denominator.toInt.tdiv g2)
  let d ← fit (a.denominator.toInt.tdiv g2 * b.numerator.toInt.tdiv g1)
  pure ⟨n, d⟩

def neg (r : Ratio) : Option Ratio := do
  let n ← fit (-r.numerator.toInt)
  pure ⟨n, r.denominator⟩

/-- The defaulted comparison: the numerators, then the denominators. -/
def compare (a b : Ratio) : Ordering :=
  (Ord.compare a.numerator.toInt b.numerator.toInt).then (Ord.compare a.denominator.toInt b.denominator.toInt)

/-- A denominator of zero is unreachable. -/
def normalise (r : Ratio) : Option Ratio := do
  if r.denominator = 0 then none
  else
    let r ←
      if r.denominator.toInt < 0 then do
        let d ← fit (-r.denominator.toInt)
        let n ← fit (-r.numerator.toInt)
        pure (⟨n, d⟩ : Ratio)
      else pure r
    let g ← gcd r.numerator r.denominator
    if g > 1 then do
      let n ← fit (r.numerator.toInt.tdiv g)
      let d ← fit (r.denominator.toInt.tdiv g)
      pure ⟨n, d⟩
    else pure r

/-! ### Texts -/

/-- The loop of the lambda `parse`. -/
def parseDigits (neg : Bool) : Int → Bytes → Option Int
  | v, [] => some v
  | v, c :: s =>
    if c < '0' ∨ '9' < c then none
    else
      let d : Int := digitValue c
      if !neg then
        if v > (2 ^ 31 - 1 - d).tdiv 10 then none else parseDigits neg (v * 10 + d) s
      else if v < (-2 ^ 31 + d).tdiv 10 then none
      else parseDigits neg (v * 10 - d) s

/-- The lambda `parse`. -/
def parseInteger (s : Bytes) : Option Int32 :=
  match s with
  | [] => none
  | c :: rest =>
    let neg := c = '-'
    let digits := if c = '+' ∨ neg then rest else s
    if digits = [] then none else (parseDigits neg 0 digits).map Int32.ofInt

def parse (sv : Bytes) : Option Ratio :=
  let lhs := sv.takeWhile (· ≠ '/')
  let rhs := match sv.dropWhile (· ≠ '/') with
    | [] => ['1']
    | _ :: rest => rest
  match parseInteger lhs, parseInteger rhs with
  | some n, some d => if d = 0 then none else some ⟨n, d⟩
  | _, _ => none

/-- `std::format("{}", r)` -/
def format (r : Ratio) : Bytes :=
  if r.denominator = 1 then toText r.numerator.toInt
  else toText r.numerator.toInt ++ '/' :: toText r.denominator.toInt

/-! ### Rational numbers -/

def value (r : Ratio) : ℚ := r.numerator.toInt / r.denominator.toInt

/-- The reduced quotient has a numerator and a denominator of 32 bits. -/
def Fits (q : ℚ) : Prop := InRange q.num ∧ InRange q.den

/-- The operation gives this rational number, where the type holds it. -/
def Gives (result : Option Ratio) (q : ℚ) : Prop := Fits q → ∃ r, result = some r ∧ r.denominator ≠ 0 ∧ r.value = q

structure Normalised (r : Ratio) : Prop where
  pos : 0 < r.denominator.toInt
  coprime : Int.gcd r.numerator.toInt r.denominator.toInt = 1

/-- `normalise()` gives the one normalised ratio of the same value. -/
def Normalises (r : Ratio) : Prop :=
  ∃ t, normalise r = some t ∧ t.Normalised ∧ t.value = r.value ∧ ∀ u : Ratio, u.Normalised → u.value = r.value → u = t

/-- The comparison is that of the values. -/
structure Ordered (a b : Ratio) : Prop where
  lt : compare a b = .lt ↔ a.value < b.value
  eq : compare a b = .eq ↔ a.value = b.value
  gt : compare a b = .gt ↔ b.value < a.value

/-- A text of an integer of 32 bits: digits with a sign or none. -/
def IsInteger (text : Bytes) (v : Int32) : Prop :=
  ∃ number : Bytes, number ≠ [] ∧ number.all Char.isDigit = true ∧
    ((text = number ∨ text = '+' :: number) ∧ v.toInt = decimal number ∨ text = '-' :: number ∧ v.toInt = -decimal number)

/-- A text of an integer, or of a quotient of two of which the second is not zero. -/
def IsQuotient (text : Bytes) (r : Ratio) : Prop :=
  r.denominator ≠ 0 ∧
    (IsInteger text r.numerator ∧ r.denominator = 1 ∨
      ∃ lhs rhs, text = lhs ++ '/' :: rhs ∧ IsInteger lhs r.numerator ∧ IsInteger rhs r.denominator)

/-! ### When the arithmetic stays in the type -/

/-- Neither is the least integer. -/
def Magnitudes (m n : Int32) : Prop := m ≠ Int32.minValue ∧ n ≠ Int32.minValue

/-- The products of the numerators with the cofactors of the denominators, and the least common denominator up to its
    sign. -/
def Crosses (a b : Ratio) : Prop :=
  let g : Int := Int.gcd a.denominator.toInt b.denominator.toInt
  Magnitudes a.denominator b.denominator ∧ InRange (a.numerator.toInt * (b.denominator.toInt / g)) ∧
    InRange (b.numerator.toInt * (a.denominator.toInt / g)) ∧ InRange (a.denominator.toInt * (b.denominator.toInt / g))

/-- The crosswise products fit, and their sum. -/
def AddStays (a b : Ratio) : Prop :=
  let g : Int := Int.gcd a.denominator.toInt b.denominator.toInt
  Crosses a b ∧
    InRange (a.numerator.toInt * (b.denominator.toInt / g) + b.numerator.toInt * (a.denominator.toInt / g))

def SubStays (a b : Ratio) : Prop :=
  let g : Int := Int.gcd a.denominator.toInt b.denominator.toInt
  Crosses a b ∧
    InRange (a.numerator.toInt * (b.denominator.toInt / g) - b.numerator.toInt * (a.denominator.toInt / g))

/-- The product that is reduced crosswise fits. -/
def ProductStays (n₁ d₁ n₂ d₂ : Int32) : Prop :=
  let g₁ : Int := Int.gcd n₁.toInt d₂.toInt
  let g₂ : Int := Int.gcd n₂.toInt d₁.toInt
  Magnitudes n₁ d₂ ∧ Magnitudes n₂ d₁ ∧ InRange (n₁.toInt / g₁ * (n₂.toInt / g₂)) ∧
    InRange (d₁.toInt / g₂ * (d₂.toInt / g₁))

/-- Of two normalised ratios the one with the lesser numerator is less, and of one numerator the one with the lesser
    denominator is, which is so below zero only. -/
def OrderedAlike (a b : Ratio) : Prop :=
  (a.numerator = b.numerator → a.denominator = b.denominator ∨ a.numerator.toInt < 0) ∧
    (a.numerator.toInt < b.numerator.toInt →
      a.numerator.toInt * b.denominator.toInt < b.numerator.toInt * a.denominator.toInt) ∧
    (b.numerator.toInt < a.numerator.toInt →
      b.numerator.toInt * a.denominator.toInt < a.numerator.toInt * b.denominator.toInt)

end Ratio

end GnuRadio
