import Mathlib.Algebra.Order.Field.Rat
import Mathlib.Algebra.Order.Ring.Int
import Mathlib.Data.Nat.Size
import Mathlib.Tactic.Ring

/-! Binary floating-point formats: the rational numbers that a format holds exactly, and the rounding of an integer to the
    nearest of them. -/

namespace FloatingPoint

/-- The significands below `2 ^ precision`, scaled by powers of two from `2 ^ -minExponent` to `2 ^ maxExponent`. -/
structure Format where
  precision : Nat
  minExponent : Nat
  maxExponent : Nat
  precision_pos : 0 < precision

namespace Format

variable {f : Format} {n m : Int} {q : ℚ}

/-- A finite number of the format. -/
def Holds (f : Format) (q : ℚ) : Prop :=
  ∃ (m : Int) (a b : Nat), m.natAbs < 2 ^ f.precision ∧ a ≤ f.maxExponent ∧ b ≤ f.minExponent ∧ q * 2 ^ b = m * 2 ^ a

/-- An integer is held if it is a short one with zeros behind it. -/
theorem holds_int_iff :
    f.Holds n ↔ ∃ (m : Int) (e : Nat), m.natAbs < 2 ^ f.precision ∧ e ≤ f.maxExponent ∧ n = m * 2 ^ e := by
  constructor
  · rintro ⟨m, a, b, hm, ha, -, heq⟩
    have heq : n * 2 ^ b = m * 2 ^ a := by exact_mod_cast heq
    rcases Nat.le_total a b with hab | hba
    · -- the number is no longer than the significand
      refine ⟨n, 0, Nat.lt_of_le_of_lt ?_ hm, Nat.zero_le _, (mul_one n).symm⟩
      obtain ⟨k, rfl⟩ := Nat.exists_eq_add_of_le hab
      have hshort : n * 2 ^ k = m := by
        refine mul_right_cancel₀ (pow_ne_zero a (two_ne_zero (α := Int))) ?_
        rw [← heq, pow_add]
        ring
      rw [← hshort, Int.natAbs_mul, Int.natAbs_pow]
      exact Nat.le_mul_of_pos_right _ (Nat.pow_pos (by decide))
    · obtain ⟨k, rfl⟩ := Nat.exists_eq_add_of_le hba
      refine ⟨m, k, hm, Nat.le_trans (Nat.le_add_left k b) ha, ?_⟩
      refine mul_right_cancel₀ (pow_ne_zero b (two_ne_zero (α := Int))) ?_
      rw [heq, pow_add]
      ring
  · rintro ⟨m, e, hm, he, rfl⟩
    exact ⟨m, e, 0, hm, he, Nat.zero_le _, by push_cast; ring⟩

/-! ### Rounding -/

/-- The quotient to the nearest integer, a tie to the even one. -/
def divHalfEven (n d : Nat) : Nat :=
  if 2 * (n % d) < d ∨ (2 * (n % d) = d ∧ n / d % 2 = 0) then n / d else n / d + 1

theorem divHalfEven_le (n d : Nat) : divHalfEven n d ≤ n / d + 1 := by
  unfold divHalfEven
  split <;> omega

theorem divHalfEven_of_dvd {n d : Nat} (hd : 0 < d) (h : d ∣ n) : divHalfEven n d = n / d := by
  rw [divHalfEven, Nat.mod_eq_zero_of_dvd h]
  exact if_pos (.inl hd)

/-- The digits of a number behind the first ones that a significand has. -/
def excess (f : Format) (n : Nat) : Nat := n.size - f.precision

def roundNat (f : Format) (n : Nat) : Nat := divHalfEven n (2 ^ f.excess n) * 2 ^ f.excess n

/-- The nearest number of the format, a tie to the even significand. -/
def round (f : Format) (n : Int) : Int := n.sign * f.roundNat n.natAbs

theorem natAbs_sign_mul_le (n : Int) (k : Nat) : (n.sign * k).natAbs ≤ k := by
  have hsign : n.sign.natAbs ≤ 1 := by
    rw [Int.natAbs_sign]
    split <;> decide
  have := Nat.mul_le_mul_right k hsign
  rwa [Nat.one_mul, ← Int.natAbs_natCast k, ← Int.natAbs_mul, Int.natAbs_natCast] at this

theorem div_excess_lt (f : Format) (n : Nat) : n / 2 ^ f.excess n < 2 ^ f.precision := by
  rw [Nat.div_lt_iff_lt_mul (Nat.pow_pos (by decide)), ← pow_add, ← Nat.size_le, excess]
  omega

/-- Where the significand overflows, the next power of two has one of a single digit. -/
theorem holds_round (h : n.natAbs < 2 ^ f.maxExponent) : f.Holds (f.round n) := by
  have hexcess : f.excess n.natAbs + 1 ≤ f.maxExponent ∨ f.excess n.natAbs = 0 := by
    have hsize := Nat.size_le.mpr h
    have hpos := f.precision_pos
    unfold excess
    omega
  rw [holds_int_iff, round, roundNat]
  have hle : divHalfEven n.natAbs (2 ^ f.excess n.natAbs) ≤ 2 ^ f.precision :=
    Nat.le_trans (divHalfEven_le _ _) (f.div_excess_lt _)
  rcases Nat.lt_or_eq_of_le hle with hlt | heq
  · refine ⟨n.sign * divHalfEven n.natAbs (2 ^ f.excess n.natAbs), f.excess n.natAbs, ?_, by omega, ?_⟩
    · exact Nat.lt_of_le_of_lt (natAbs_sign_mul_le n _) hlt
    · push_cast
      ring
  · obtain ⟨p, hp⟩ := Nat.exists_eq_succ_of_ne_zero f.precision_pos.ne'
    rcases hexcess with hexcess | hzero
    · refine ⟨n.sign * (2 ^ p : Nat), f.excess n.natAbs + 1, ?_, hexcess, ?_⟩
      · rw [hp]
        exact Nat.lt_of_le_of_lt (natAbs_sign_mul_le n _) (Nat.pow_lt_pow_right (by decide) (Nat.lt_succ_self p))
      · rw [heq, hp, Nat.succ_eq_add_one]
        push_cast
        ring
    · -- nothing is cut off, and the number itself is below the power of two
      have hlt := f.div_excess_lt n.natAbs
      rw [hzero, pow_zero, divHalfEven_of_dvd Nat.one_pos (Nat.one_dvd _)] at heq
      rw [hzero, pow_zero] at hlt
      exact absurd heq (Nat.ne_of_lt hlt)

theorem roundNat_mul {m e : Nat} (hm : m < 2 ^ f.precision) : f.roundNat (m * 2 ^ e) = m * 2 ^ e := by
  have hexcess : f.excess (m * 2 ^ e) ≤ e := by
    have hsize : (m * 2 ^ e).size ≤ f.precision + e := by
      rw [Nat.size_le, pow_add]
      exact Nat.mul_lt_mul_of_pos_right hm (Nat.pow_pos (by decide))
    unfold excess
    omega
  have hdvd : 2 ^ f.excess (m * 2 ^ e) ∣ m * 2 ^ e := Dvd.dvd.mul_left (Nat.pow_dvd_pow 2 hexcess) m
  rw [roundNat, divHalfEven_of_dvd (Nat.pow_pos (by decide)) hdvd, Nat.div_mul_cancel hdvd]

/-- A number of the format is not rounded. -/
theorem round_eq (h : f.Holds n) : f.round n = n := by
  obtain ⟨m, e, hm, -, rfl⟩ := holds_int_iff.mp h
  rw [round, Int.natAbs_mul, Int.natAbs_pow]
  have hround : f.roundNat (m.natAbs * Int.natAbs 2 ^ e) = (m * 2 ^ e).natAbs := by
    rw [Int.natAbs_mul, Int.natAbs_pow]
    exact roundNat_mul hm
  rw [hround, Int.sign_mul_natAbs]

/-! ### Significant bits -/

/-- The zero bits behind the last one, all of them for zero. -/
def countrZero : Nat → Nat → Nat
  | 0, _ => 0
  | width + 1, n => if n % 2 = 0 then countrZero width (n / 2) + 1 else 0

theorem countrZero_le (width n : Nat) : countrZero width n ≤ width := by
  induction width generalizing n with
  | zero => exact Nat.le_refl 0
  | succ width ih =>
    rw [countrZero]
    split
    · exact Nat.succ_le_succ (ih _)
    · exact Nat.zero_le _

/-- A number is an odd one with zeros behind it. -/
theorem shiftRight_countrZero {width n : Nat} (hpos : 0 < n) (hlt : n < 2 ^ width) :
    n >>> countrZero width n * 2 ^ countrZero width n = n ∧ (n >>> countrZero width n) % 2 = 1 := by
  induction width generalizing n with
  | zero => omega
  | succ width ih =>
    rw [countrZero]
    by_cases heven : n % 2 = 0
    · rw [if_pos heven]
      obtain ⟨hmul, hodd⟩ := ih (n := n / 2) (by omega) (by rw [pow_succ] at hlt; omega)
      have hshift : n >>> (countrZero width (n / 2) + 1) = (n / 2) >>> countrZero width (n / 2) := by
        rw [Nat.add_comm, Nat.shiftRight_add, Nat.shiftRight_one]
      rw [hshift]
      refine ⟨?_, hodd⟩
      rw [pow_succ, ← Nat.mul_assoc, hmul]
      omega
    · rw [if_neg heven, Nat.shiftRight_zero, pow_zero, Nat.mul_one]
      exact ⟨rfl, by omega⟩

/-- The format holds a number if the bits from the first to the last one fit the significand. -/
theorem holds_iff_size_le {width : Nat} (hn : n ≠ 0) (hlt : n.natAbs < 2 ^ width) (hwidth : width ≤ f.maxExponent) :
    f.Holds n ↔ (n.natAbs >>> countrZero width n.natAbs).size ≤ f.precision := by
  obtain ⟨hmul, hodd⟩ := shiftRight_countrZero (Int.natAbs_pos.mpr hn) hlt
  generalize hk : countrZero width n.natAbs = k at *
  generalize n.natAbs >>> k = odd at *
  rw [Nat.size_le, holds_int_iff]
  constructor
  · rintro ⟨m, e, hm, -, heq⟩
    refine Nat.lt_of_le_of_lt ?_ hm
    have habs : n.natAbs = m.natAbs * 2 ^ e := by rw [heq, Int.natAbs_mul, Int.natAbs_pow]; rfl
    rw [← hmul] at habs
    rcases Nat.le_total e k with hek | hke
    · obtain ⟨d, rfl⟩ := Nat.exists_eq_add_of_le hek
      have hodd' : odd * 2 ^ d = m.natAbs := by
        refine Nat.eq_of_mul_eq_mul_right (Nat.pow_pos (n := e) (by decide : 0 < 2)) ?_
        rw [← habs, pow_add]
        ring
      rw [← hodd']
      exact Nat.le_mul_of_pos_right _ (Nat.pow_pos (by decide))
    · obtain ⟨d, rfl⟩ := Nat.exists_eq_add_of_le hke
      have hodd' : odd = m.natAbs * 2 ^ d := by
        refine Nat.eq_of_mul_eq_mul_right (Nat.pow_pos (n := k) (by decide : 0 < 2)) ?_
        rw [habs, pow_add]
        ring
      cases d with
      | zero =>
        rw [hodd', pow_zero, Nat.mul_one]
      | succ d =>
        rw [pow_succ, ← Nat.mul_assoc] at hodd'
        omega
  · intro hlt
    refine ⟨n.sign * odd, k, ?_, ?_, ?_⟩
    · exact Nat.lt_of_le_of_lt (natAbs_sign_mul_le n _) hlt
    · exact hk ▸ Nat.le_trans (countrZero_le width _) hwidth
    · conv_lhs => rw [← Int.sign_mul_natAbs n, ← hmul]
      push_cast
      ring

theorem holds_zero (f : Format) : f.Holds 0 :=
  ⟨0, 0, 0, Nat.pow_pos (by decide), Nat.zero_le _, Nat.zero_le _, by simp⟩

end Format

end FloatingPoint
