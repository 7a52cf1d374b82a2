import GnuRadio.Ratio
import GnuRadio.Theorems.Pmt.Conversion

/-! What `gr::Ratio` computes. An operation that stays in the type gives the exact result, so it fails only where an
    intermediate result leaves the type. Texts are read back whatever the numbers are. -/

namespace GnuRadio.Ratio

open Pmt (decimal digitValue toText)
open Yaml (Bytes)

variable {a b r t : Ratio} {i j : Int} {x m n : Int32}

/-! ### Integers of 32 bits -/

theorem fit_eq_some : fit i = some x ↔ x.toInt = i := by
  unfold fit
  constructor
  · intro h
    obtain ⟨hrange, h⟩ := Option.ite_none_right_eq_some.mp h
    cases h
    rw [Int32.toInt_ofInt_of_le hrange.1 hrange.2]
  · rintro rfl
    rw [if_pos ⟨x.le_toInt, x.toInt_lt⟩, Int32.ofInt_toInt]

theorem inRange_toInt (x : Int32) : InRange x.toInt := ⟨x.le_toInt, x.toInt_lt⟩

theorem eq_minValue : x = Int32.minValue ↔ x.toInt = -2 ^ 31 := by
  rw [← Int32.toInt_inj, Int32.toInt_minValue]

/-- Only the least integer has no negation. -/
theorem inRange_neg_iff : InRange (-x.toInt) ↔ x ≠ Int32.minValue := by
  have hle := x.le_toInt
  have hlt := x.toInt_lt
  rw [ne_eq, eq_minValue, InRange]
  omega

theorem exists_fit : (∃ x, fit i = some x) ↔ InRange i := by
  simp only [fit_eq_some]
  constructor
  · rintro ⟨x, rfl⟩
    exact inRange_toInt x
  · intro h
    exact ⟨Int32.ofInt i, Int32.toInt_ofInt_of_le h.1 h.2⟩

theorem toInt_eq_zero : x.toInt = 0 ↔ x = 0 := by
  rw [← Int32.toInt_inj]
  exact Iff.rfl

theorem gcd_eq_some : gcd m n = some i ↔ Magnitudes m n ∧ i = Int.gcd m.toInt n.toInt := by
  unfold gcd Magnitudes
  split
  · rename_i h
    simp only [reduceCtorEq, false_iff, not_and]
    rintro ⟨hm, hn⟩
    rcases h with h | h
    · exact absurd h hm
    · exact absurd h hn
  · rename_i h
    rw [not_or] at h
    simp only [Option.some.injEq, ne_eq, h, not_false_eq_true, and_self, true_and]
    exact eq_comm

/-- Exact division does not depend on the rounding. -/
theorem tdiv_gcd_left (i j : Int) : i.tdiv (Int.gcd i j) = i / Int.gcd i j :=
  Int.tdiv_eq_ediv_of_dvd (Int.gcd_dvd_left i j)

theorem tdiv_gcd_right (i j : Int) : j.tdiv (Int.gcd i j) = j / Int.gcd i j :=
  Int.tdiv_eq_ediv_of_dvd (Int.gcd_dvd_right i j)

/-- An operation gives a number where its result is defined and has that value. -/
theorem gives_iff {result : Option Ratio} {q : ℚ} {stays : Prop} (h : (∃ r, result = some r) ↔ stays)
    (hvalue : ∀ r, result = some r → r.denominator ≠ 0 ∧ r.value = q) : Gives result q ↔ (Fits q → stays) := by
  refine imp_congr_right fun _ => ?_
  rw [← h]
  constructor
  · rintro ⟨r, hr, -⟩
    exact ⟨r, hr⟩
  · rintro ⟨r, hr⟩
    exact ⟨r, hr, hvalue r hr⟩

/-! ### Sums and differences -/

/-- A sum or a difference: the crosswise products are put together by `op`. -/
def crossed (op : Int → Int → Int) (a b : Ratio) : Option Ratio := do
  let g ← gcd a.denominator b.denominator
  let l := b.denominator.toInt.tdiv g
  let r := a.denominator.toInt.tdiv g
  let x ← fit (a.numerator.toInt * l)
  let y ← fit (b.numerator.toInt * r)
  let n ← fit (op x.toInt y.toInt)
  let d ← fit (a.denominator.toInt * l)
  pure ⟨n, d⟩

/-- The cofactors of two denominators. -/
def cofactor (m n : Int32) : Int := n.toInt / Int.gcd m.toInt n.toInt

theorem crossed_eq_some {op : Int → Int → Int} : crossed op a b = some r ↔
    Crosses a b ∧
      r.numerator.toInt = op (a.numerator.toInt * cofactor a.denominator b.denominator)
        (b.numerator.toInt * cofactor b.denominator a.denominator) ∧
      r.denominator.toInt = a.denominator.toInt * cofactor a.denominator b.denominator := by
  have hcomm : (Int.gcd b.denominator.toInt a.denominator.toInt : Int) =
      Int.gcd a.denominator.toInt b.denominator.toInt := by rw [Int.gcd_comm]
  simp only [crossed, bind, Option.bind_eq_some_iff, gcd_eq_some, pure, Option.some.injEq, fit_eq_some, cofactor, hcomm]
  constructor
  · rintro ⟨g, ⟨hg, rfl⟩, x, hx, y, hy, n, hn, d, hd, rfl⟩
    rw [tdiv_gcd_right] at hx hd
    rw [tdiv_gcd_left] at hy
    exact ⟨⟨hg, hx ▸ inRange_toInt x, hy ▸ inRange_toInt y, hd ▸ inRange_toInt d⟩, by rw [hn, hx, hy], hd⟩
  · rintro ⟨⟨hg, hx, hy, -⟩, hn, hd⟩
    obtain ⟨x, hx⟩ := exists_fit.mpr hx
    obtain ⟨y, hy⟩ := exists_fit.mpr hy
    rw [fit_eq_some] at hx hy
    refine ⟨_, ⟨hg, rfl⟩, x, ?_, y, ?_, r.numerator, ?_, r.denominator, ?_, rfl⟩
    · rw [tdiv_gcd_right, hx]
    · rw [tdiv_gcd_left, hy]
    · rw [hn, hx, hy]
    · rw [tdiv_gcd_right, hd]

theorem exists_crossed_iff (op : Int → Int → Int) :
    (∃ r, crossed op a b = some r) ↔
      Crosses a b ∧ InRange (op (a.numerator.toInt * cofactor a.denominator b.denominator)
        (b.numerator.toInt * cofactor b.denominator a.denominator)) := by
  simp only [crossed_eq_some]
  constructor
  · rintro ⟨r, hc, hn, -⟩
    exact ⟨hc, hn ▸ inRange_toInt r.numerator⟩
  · rintro ⟨hc, hn⟩
    obtain ⟨n, hn⟩ := exists_fit.mpr hn
    obtain ⟨d, hd⟩ := exists_fit.mpr hc.2.2.2
    exact ⟨⟨n, d⟩, hc, fit_eq_some.mp hn, fit_eq_some.mp hd⟩

theorem cofactor_ne_zero (ha : a.denominator ≠ 0) : cofactor b.denominator a.denominator ≠ 0 := by
  have ha' : a.denominator.toInt ≠ 0 := fun h => ha (toInt_eq_zero.mp h)
  intro h
  rw [cofactor] at h
  have := Int.ediv_mul_cancel (Int.gcd_dvd_right b.denominator.toInt a.denominator.toInt)
  rw [h, Int.zero_mul] at this
  exact ha' this.symm

/-- The least common denominator, from either side. -/
theorem mul_cofactor (a b : Ratio) : a.denominator.toInt * cofactor a.denominator b.denominator =
    b.denominator.toInt * cofactor b.denominator a.denominator := by
  rw [cofactor, cofactor, Int.gcd_comm b.denominator.toInt, ← Int.mul_ediv_assoc _ (Int.gcd_dvd_right ..),
    ← Int.mul_ediv_assoc _ (Int.gcd_dvd_left ..), Int.mul_comm]

/-- A fraction over the least common denominator. -/
theorem value_eq_div (hb : b.denominator ≠ 0) : a.value =
    (a.numerator.toInt * cofactor a.denominator b.denominator : Int) /
      (a.denominator.toInt * cofactor a.denominator b.denominator : Int) := by
  have hl : (cofactor a.denominator b.denominator : ℚ) ≠ 0 := Int.cast_ne_zero.mpr (cofactor_ne_zero hb)
  rw [value, Int.cast_mul, Int.cast_mul, mul_div_mul_right _ _ hl]

theorem value_of_crossed (op : Int → Int → Int) (ha : a.denominator ≠ 0) (hb : b.denominator ≠ 0)
    (h : crossed op a b = some r) :
    r.denominator ≠ 0 ∧ r.value =
      (op (a.numerator.toInt * cofactor a.denominator b.denominator)
        (b.numerator.toInt * cofactor b.denominator a.denominator) : Int) /
        (a.denominator.toInt * cofactor a.denominator b.denominator : Int) := by
  obtain ⟨-, hn, hd⟩ := crossed_eq_some.mp h
  refine ⟨fun h0 => ?_, by rw [value, hn, hd]⟩
  rw [toInt_eq_zero.mpr h0] at hd
  rcases mul_eq_zero.mp hd.symm with h | h
  · exact ha (toInt_eq_zero.mp h)
  · exact cofactor_ne_zero hb h

theorem add_gives_iff (ha : a.denominator ≠ 0) (hb : b.denominator ≠ 0) :
    Gives (add a b) (a.value + b.value) ↔ (Fits (a.value + b.value) → AddStays a b) := by
  have hcomm : cofactor b.denominator a.denominator =
      a.denominator.toInt / Int.gcd a.denominator.toInt b.denominator.toInt := by rw [cofactor, Int.gcd_comm]
  refine gives_iff ?_ fun r hr => ?_
  · refine (exists_crossed_iff (· + ·)).trans ?_
    rw [hcomm]
    exact Iff.rfl
  · obtain ⟨hne, hvalue⟩ := value_of_crossed (· + ·) ha hb hr
    refine ⟨hne, ?_⟩
    rw [hvalue, value_eq_div hb, value_eq_div ha, ← mul_cofactor a b, Int.cast_add, add_div]

theorem sub_gives_iff (ha : a.denominator ≠ 0) (hb : b.denominator ≠ 0) :
    Gives (sub a b) (a.value - b.value) ↔ (Fits (a.value - b.value) → SubStays a b) := by
  have hcomm : cofactor b.denominator a.denominator =
      a.denominator.toInt / Int.gcd a.denominator.toInt b.denominator.toInt := by rw [cofactor, Int.gcd_comm]
  refine gives_iff ?_ fun r hr => ?_
  · refine (exists_crossed_iff (· - ·)).trans ?_
    rw [hcomm]
    exact Iff.rfl
  · obtain ⟨hne, hvalue⟩ := value_of_crossed (· - ·) ha hb hr
    refine ⟨hne, ?_⟩
    rw [hvalue, value_eq_div hb, value_eq_div ha, ← mul_cofactor a b, Int.cast_sub, sub_div]

/-! ### Products and quotients -/

/-- The product of two fractions that is reduced crosswise. -/
def reduced (n₁ d₁ n₂ d₂ : Int32) : Option Ratio := do
  let g1 ← gcd n₁ d₂
  let g2 ← gcd n₂ d₁
  let n ← fit (n₁.toInt.tdiv g1 * n₂.toInt.tdiv g2)
  let d ← fit (d₁.toInt.tdiv g2 * d₂.toInt.tdiv g1)
  pure ⟨n, d⟩

variable {n₁ d₁ n₂ d₂ : Int32}

theorem reduced_eq_some : reduced n₁ d₁ n₂ d₂ = some r ↔
    Magnitudes n₁ d₂ ∧ Magnitudes n₂ d₁ ∧
      r.numerator.toInt = n₁.toInt / Int.gcd n₁.toInt d₂.toInt * (n₂.toInt / Int.gcd n₂.toInt d₁.toInt) ∧
      r.denominator.toInt = d₁.toInt / Int.gcd n₂.toInt d₁.toInt * (d₂.toInt / Int.gcd n₁.toInt d₂.toInt) := by
  simp only [reduced, bind, Option.bind_eq_some_iff, gcd_eq_some, pure, Option.some.injEq, fit_eq_some]
  constructor
  · rintro ⟨g1, ⟨h1, rfl⟩, g2, ⟨h2, rfl⟩, n, hn, d, hd, rfl⟩
    rw [tdiv_gcd_left, tdiv_gcd_left] at hn
    rw [tdiv_gcd_right, tdiv_gcd_right] at hd
    exact ⟨h1, h2, hn, hd⟩
  · rintro ⟨h1, h2, hn, hd⟩
    refine ⟨_, ⟨h1, rfl⟩, _, ⟨h2, rfl⟩, r.numerator, ?_, r.denominator, ?_, rfl⟩
    · rw [tdiv_gcd_left, tdiv_gcd_left, hn]
    · rw [tdiv_gcd_right, tdiv_gcd_right, hd]

theorem exists_reduced_iff : (∃ r, reduced n₁ d₁ n₂ d₂ = some r) ↔ ProductStays n₁ d₁ n₂ d₂ := by
  simp only [reduced_eq_some]
  constructor
  · rintro ⟨r, h1, h2, hn, hd⟩
    exact ⟨h1, h2, hn ▸ inRange_toInt r.numerator, hd ▸ inRange_toInt r.denominator⟩
  · rintro ⟨h1, h2, hn, hd⟩
    obtain ⟨n, hn⟩ := exists_fit.mpr hn
    obtain ⟨d, hd⟩ := exists_fit.mpr hd
    exact ⟨⟨n, d⟩, h1, h2, fit_eq_some.mp hn, fit_eq_some.mp hd⟩

theorem value_of_reduced (hd₁ : d₁ ≠ 0) (hd₂ : d₂ ≠ 0) (h : reduced n₁ d₁ n₂ d₂ = some r) :
    r.denominator ≠ 0 ∧ r.value = (n₁.toInt / d₁.toInt : ℚ) * (n₂.toInt / d₂.toInt) := by
  obtain ⟨-, -, hn, hd⟩ := reduced_eq_some.mp h
  have h1 : (d₁.toInt : ℚ) ≠ 0 := Int.cast_ne_zero.mpr fun h => hd₁ (toInt_eq_zero.mp h)
  have h2 : (d₂.toInt : ℚ) ≠ 0 := Int.cast_ne_zero.mpr fun h => hd₂ (toInt_eq_zero.mp h)
  have hg1 : ((Int.gcd n₁.toInt d₂.toInt : Int) : ℚ) ≠ 0 := by
    rw [Int.cast_ne_zero, Nat.cast_ne_zero, ne_eq, Int.gcd_eq_zero_iff]
    exact fun h => hd₂ (toInt_eq_zero.mp h.2)
  have hg2 : ((Int.gcd n₂.toInt d₁.toInt : Int) : ℚ) ≠ 0 := by
    rw [Int.cast_ne_zero, Nat.cast_ne_zero, ne_eq, Int.gcd_eq_zero_iff]
    exact fun h => hd₁ (toInt_eq_zero.mp h.2)
  have hn' : (r.numerator.toInt : ℚ) =
      n₁.toInt / (Int.gcd n₁.toInt d₂.toInt : Int) * (n₂.toInt / (Int.gcd n₂.toInt d₁.toInt : Int)) := by
    rw [hn, Int.cast_mul, Int.cast_div (Int.gcd_dvd_left ..) hg1, Int.cast_div (Int.gcd_dvd_left ..) hg2]
  have hd' : (r.denominator.toInt : ℚ) =
      d₁.toInt / (Int.gcd n₂.toInt d₁.toInt : Int) * (d₂.toInt / (Int.gcd n₁.toInt d₂.toInt : Int)) := by
    rw [hd, Int.cast_mul, Int.cast_div (Int.gcd_dvd_right ..) hg2, Int.cast_div (Int.gcd_dvd_right ..) hg1]
  have hne : (r.denominator.toInt : ℚ) ≠ 0 := by
    rw [hd']
    exact mul_ne_zero (div_ne_zero h1 hg2) (div_ne_zero h2 hg1)
  refine ⟨fun h0 => hne (by rw [toInt_eq_zero.mpr h0]; exact Int.cast_zero), ?_⟩
  rw [value, hn', hd']
  field_simp

theorem mul_gives_iff (ha : a.denominator ≠ 0) (hb : b.denominator ≠ 0) :
    Gives (mul a b) (a.value * b.value) ↔
      (Fits (a.value * b.value) → ProductStays a.numerator a.denominator b.numerator b.denominator) :=
  gives_iff exists_reduced_iff fun _ hr => value_of_reduced ha hb hr

/-- A quotient is the product with the reciprocal. -/
theorem div_eq_reduced (a b : Ratio) : div a b = reduced a.numerator a.denominator b.denominator b.numerator := by
  have hgcd : gcd a.denominator b.denominator = gcd b.denominator a.denominator := by
    simp only [gcd, Int.gcd_comm a.denominator.toInt, or_comm]
  rw [div, reduced, hgcd]

theorem div_gives_iff (ha : a.denominator ≠ 0) (hb : b.numerator ≠ 0) :
    Gives (div a b) (a.value / b.value) ↔
      (Fits (a.value / b.value) → ProductStays a.numerator a.denominator b.denominator b.numerator) := by
  have hvalue : a.value / b.value = (a.numerator.toInt / a.denominator.toInt : ℚ) * (b.denominator.toInt / b.numerator.toInt) := by
    rw [value, value, div_eq_mul_inv, inv_div]
  rw [div_eq_reduced, hvalue]
  exact gives_iff exists_reduced_iff fun _ hr => value_of_reduced ha hb hr

theorem neg_gives_iff (ha : a.denominator ≠ 0) :
    Gives (neg a) (-a.value) ↔ (Fits (-a.value) → a.numerator ≠ Int32.minValue) := by
  have hneg : ∀ r, neg a = some r ↔ r.numerator.toInt = -a.numerator.toInt ∧ r.denominator = a.denominator := by
    intro r
    simp only [neg, bind, Option.bind_eq_some_iff, pure, Option.some.injEq, fit_eq_some]
    constructor
    · rintro ⟨n, hn, rfl⟩
      exact ⟨hn, rfl⟩
    · rintro ⟨hn, hd⟩
      exact ⟨r.numerator, hn, by rw [← hd]⟩
  refine gives_iff ?_ fun r hr => ?_
  · rw [← inRange_neg_iff]
    constructor
    · rintro ⟨r, hr⟩
      exact ((hneg r).mp hr).1 ▸ inRange_toInt r.numerator
    · intro h
      obtain ⟨n, hn⟩ := exists_fit.mpr h
      exact ⟨⟨n, a.denominator⟩, (hneg _).mpr ⟨fit_eq_some.mp hn, rfl⟩⟩
  · obtain ⟨hn, hd⟩ := (hneg r).mp hr
    refine ⟨hd ▸ ha, ?_⟩
    rw [value, value, hn, hd, Int.cast_neg, neg_div]

/-! ### The normal form -/

theorem Normalised.num_value (h : r.Normalised) : r.value.num = r.numerator.toInt :=
  Rat.num_div_eq_of_coprime h.pos h.coprime

theorem Normalised.den_value (h : r.Normalised) : (r.value.den : Int) = r.denominator.toInt :=
  Rat.den_div_eq_of_coprime h.pos h.coprime

/-- A number has one normalised ratio. -/
theorem Normalised.eq_of_value_eq (ha : a.Normalised) (hb : b.Normalised) (h : a.value = b.value) : a = b := by
  have hn : a.numerator = b.numerator := by
    rw [← Int32.toInt_inj, ← ha.num_value, h, hb.num_value]
  have hd : a.denominator = b.denominator := by
    rw [← Int32.toInt_inj, ← ha.den_value, h, hb.den_value]
  cases a
  cases b
  simp only at hn hd
  rw [hn, hd]

/-- The second half of `normalise()`. -/
def cancel (r : Ratio) : Option Ratio := do
  let g ← gcd r.numerator r.denominator
  if g > 1 then do
    let n ← fit (r.numerator.toInt.tdiv g)
    let d ← fit (r.denominator.toInt.tdiv g)
    pure ⟨n, d⟩
  else pure r

theorem cancel_of_pos (hpos : 0 < r.denominator.toInt) (hmin : r.numerator ≠ Int32.minValue) :
    ∃ t, cancel r = some t ∧ t.Normalised ∧ t.value = r.value := by
  have hmag : Magnitudes r.numerator r.denominator := by
    refine ⟨hmin, fun h => ?_⟩
    rw [eq_minValue] at h
    omega
  have hg := gcd_eq_some.mpr ⟨hmag, rfl⟩
  have hgpos : 0 < Int.gcd r.numerator.toInt r.denominator.toInt := Int.gcd_pos_iff.mpr (.inr hpos.ne')
  have hgq : ((Int.gcd r.numerator.toInt r.denominator.toInt : Int) : ℚ) ≠ 0 := by
    rw [Int.cast_ne_zero]
    omega
  by_cases hone : (Int.gcd r.numerator.toInt r.denominator.toInt : Int) > 1
  · have hrange : ∀ x : Int32, InRange (x.toInt / Int.gcd r.numerator.toInt r.denominator.toInt) := by
      intro x
      have hle := x.le_toInt
      have hlt := x.toInt_lt
      refine ⟨?_, ?_⟩
      · exact Int.le_ediv_of_mul_le (by omega) (by nlinarith)
      · exact (Int.ediv_lt_of_lt_mul (by omega) (by nlinarith))
    obtain ⟨n, hn⟩ := exists_fit.mpr (hrange r.numerator)
    obtain ⟨d, hd⟩ := exists_fit.mpr (hrange r.denominator)
    refine ⟨⟨n, d⟩, ?_, ?_, ?_⟩
    · simp only [cancel, hg, bind, Option.bind_some, if_pos hone, tdiv_gcd_left, tdiv_gcd_right, hn, hd]
      rfl
    · rw [fit_eq_some] at hn hd
      refine ⟨?_, ?_⟩
      · rw [hd]
        exact Int.ediv_pos_of_pos_of_dvd hpos (by omega) (Int.gcd_dvd_right ..)
      · rw [hn, hd]
        exact Int.gcd_ediv_gcd_ediv_gcd hgpos
    · rw [fit_eq_some] at hn hd
      rw [value, hn, hd, Int.cast_div (Int.gcd_dvd_left ..) hgq, Int.cast_div (Int.gcd_dvd_right ..) hgq,
        div_div_div_cancel_right₀ hgq, value]
  · refine ⟨r, ?_, ⟨hpos, by omega⟩, rfl⟩
    simp only [cancel, hg, bind, Option.bind_some, if_neg hone]
    rfl

theorem normalise_of_pos (hpos : 0 < r.denominator.toInt) : normalise r = cancel r := by
  have hne : ¬r.denominator = 0 := fun h => by
    rw [toInt_eq_zero.mpr h] at hpos
    exact lt_irrefl 0 hpos
  have hneg : ¬r.denominator.toInt < 0 := by omega
  simp only [normalise, if_neg hne, if_neg hneg]
  rfl

theorem normalise_of_neg (hneg : r.denominator.toInt < 0) :
    normalise r = (fit (-r.denominator.toInt)).bind fun d => (fit (-r.numerator.toInt)).bind fun n => cancel ⟨n, d⟩ := by
  have hne : ¬r.denominator = 0 := fun h => by
    rw [toInt_eq_zero.mpr h] at hneg
    exact lt_irrefl 0 hneg
  simp only [normalise, if_neg hne, if_pos hneg, bind]
  rfl

theorem normalises_iff (ha : a.denominator ≠ 0) : Normalises a ↔ Magnitudes a.numerator a.denominator := by
  have ha' : a.denominator.toInt ≠ 0 := fun h => ha (toInt_eq_zero.mp h)
  have hunique : ∀ t, normalise a = some t → t.Normalised → t.value = a.value → Normalises a := fun t ht hn hv =>
    ⟨t, ht, hn, hv, fun u hu huv => hu.eq_of_value_eq hn (huv.trans hv.symm)⟩
  constructor
  · rintro ⟨t, ht, -⟩
    rcases lt_or_gt_of_ne ha' with hneg | hpos
    · rw [normalise_of_neg hneg] at ht
      obtain ⟨d, hd, ht⟩ := Option.bind_eq_some_iff.mp ht
      obtain ⟨n, hn, -⟩ := Option.bind_eq_some_iff.mp ht
      exact ⟨inRange_neg_iff.mp (exists_fit.mp ⟨n, hn⟩), inRange_neg_iff.mp (exists_fit.mp ⟨d, hd⟩)⟩
    · rw [normalise_of_pos hpos] at ht
      obtain ⟨g, hg, -⟩ := Option.bind_eq_some_iff.mp ht
      exact (gcd_eq_some.mp hg).1
  · rintro ⟨hnum, hden⟩
    rcases lt_or_gt_of_ne ha' with hneg | hpos
    · obtain ⟨d, hd⟩ := exists_fit.mpr (inRange_neg_iff.mpr hden)
      obtain ⟨n, hn⟩ := exists_fit.mpr (inRange_neg_iff.mpr hnum)
      have hd' := fit_eq_some.mp hd
      have hn' := fit_eq_some.mp hn
      have hnmin : n ≠ Int32.minValue := by
        have := a.numerator.toInt_lt
        rw [ne_eq, eq_minValue, hn']
        omega
      obtain ⟨t, ht, hnorm, hvalue⟩ := cancel_of_pos (r := ⟨n, d⟩) (show 0 < d.toInt by omega) hnmin
      refine hunique t ?_ hnorm ?_
      · rw [normalise_of_neg hneg, hd, Option.bind_some, hn, Option.bind_some, ht]
      · rw [hvalue, value, value, hn', hd', Int.cast_neg, Int.cast_neg, neg_div_neg_eq]
    · obtain ⟨t, ht, hnorm, hvalue⟩ := cancel_of_pos hpos hnum
      exact hunique t (by rw [normalise_of_pos hpos, ht]) hnorm hvalue

/-! ### The order -/

theorem value_lt_iff (ha : a.Normalised) (hb : b.Normalised) :
    a.value < b.value ↔
      a.numerator.toInt * b.denominator.toInt < b.numerator.toInt * a.denominator.toInt := by
  have h1 : (0 : ℚ) < a.denominator.toInt := Int.cast_pos.mpr ha.pos
  have h2 : (0 : ℚ) < b.denominator.toInt := Int.cast_pos.mpr hb.pos
  rw [value, value, div_lt_div_iff₀ h1 h2]
  exact_mod_cast Iff.rfl

theorem value_eq_iff (ha : a.Normalised) (hb : b.Normalised) :
    a.value = b.value ↔ a.numerator.toInt = b.numerator.toInt ∧ a.denominator.toInt = b.denominator.toInt := by
  constructor
  · intro h
    rw [ha.eq_of_value_eq hb h]
    exact ⟨rfl, rfl⟩
  · rintro ⟨hn, hd⟩
    rw [value, value, hn, hd]

theorem compare_eq_lt : compare a b = .lt ↔
    a.numerator.toInt < b.numerator.toInt ∨
      a.numerator.toInt = b.numerator.toInt ∧ a.denominator.toInt < b.denominator.toInt := by
  rw [compare, Ordering.then_eq_lt, compare_lt_iff_lt, compare_eq_iff_eq, compare_lt_iff_lt]

theorem compare_eq_gt : compare a b = .gt ↔
    b.numerator.toInt < a.numerator.toInt ∨
      a.numerator.toInt = b.numerator.toInt ∧ b.denominator.toInt < a.denominator.toInt := by
  rw [compare, Ordering.then_eq_gt, compare_gt_iff_gt, compare_eq_iff_eq, compare_gt_iff_gt]

theorem compare_eq_eq : compare a b = .eq ↔
    a.numerator.toInt = b.numerator.toInt ∧ a.denominator.toInt = b.denominator.toInt := by
  rw [compare, Ordering.then_eq_eq, compare_eq_iff_eq, compare_eq_iff_eq]

theorem compare_eq_gt_iff : compare a b = .gt ↔ compare b a = .lt := by
  rw [compare_eq_gt, compare_eq_lt, eq_comm]

theorem OrderedAlike.symm (h : OrderedAlike a b) : OrderedAlike b a := by
  obtain ⟨heq, hlt, hgt⟩ := h
  refine ⟨fun hn => ?_, hgt, hlt⟩
  rcases heq hn.symm with hd | hneg
  · exact .inl hd.symm
  · exact .inr (hn ▸ hneg)

theorem OrderedAlike.lt_iff (h : OrderedAlike a b) (ha : a.Normalised) (hb : b.Normalised) :
    compare a b = .lt ↔ a.value < b.value := by
  obtain ⟨heq, hlt, hgt⟩ := h
  rw [compare_eq_lt, value_lt_iff ha hb]
  rcases lt_trichotomy a.numerator.toInt b.numerator.toInt with hn | hn | hn
  · exact iff_of_true (.inl hn) (hlt hn)
  · rw [hn]
    rcases heq (Int32.toInt_inj.mp hn) with hd | hneg
    · rw [hd]
      simp
    · rw [hn] at hneg
      rw [mul_lt_mul_left_of_neg hneg]
      simp
  · have := hgt hn
    refine iff_of_false ?_ (by omega)
    rintro (h | ⟨h, -⟩) <;> omega

/-- The comparison is that of the values just where it can be. -/
theorem ordered_iff (ha : a.Normalised) (hb : b.Normalised) : Ordered a b ↔ OrderedAlike a b := by
  constructor
  · intro h
    refine ⟨fun hn => ?_, fun hn => ?_, fun hn => ?_⟩
    · have hn' := congrArg Int32.toInt hn
      rcases lt_trichotomy a.denominator.toInt b.denominator.toInt with hd | hd | hd
      · have := (value_lt_iff ha hb).mp (h.lt.mp (compare_eq_lt.mpr (.inr ⟨hn', hd⟩)))
        rw [← hn'] at this
        by_contra hneg
        rw [not_or, not_lt] at hneg
        have := Int.mul_le_mul_of_nonneg_left hd.le hneg.2
        omega
      · exact .inl (Int32.toInt_inj.mp hd)
      · have := (value_lt_iff hb ha).mp (h.gt.mp (compare_eq_gt.mpr (.inr ⟨hn', hd⟩)))
        rw [← hn'] at this
        by_contra hneg
        rw [not_or, not_lt] at hneg
        have := Int.mul_le_mul_of_nonneg_left hd.le hneg.2
        omega
    · exact (value_lt_iff ha hb).mp (h.lt.mp (compare_eq_lt.mpr (.inl hn)))
    · exact (value_lt_iff hb ha).mp (h.gt.mp (compare_eq_gt.mpr (.inl hn)))
  · intro h
    refine ⟨h.lt_iff ha hb, ?_, ?_⟩
    · rw [compare_eq_eq, value_eq_iff ha hb]
    · rw [compare_eq_gt_iff, h.symm.lt_iff hb ha]

/-! ### Texts -/

/-- The greatest magnitude of a number with this sign. -/
def bound (neg : Bool) : Nat := if neg then 2 ^ 31 else 2 ^ 31 - 1

/-- A magnitude with its sign. -/
def signed (neg : Bool) (u : Nat) : Int := if neg then -u else u

/-- The number that digits continue. -/
def decimalFrom (u : Nat) (s : Bytes) : Nat := s.foldl (fun n c => 10 * n + digitValue c) u

theorem le_decimalFrom (u : Nat) (s : Bytes) : u ≤ decimalFrom u s := by
  induction s generalizing u with
  | nil => exact le_refl u
  | cons c s ih =>
    have := ih (10 * u + digitValue c)
    simp only [decimalFrom, List.foldl_cons] at this ⊢
    omega

variable {c : Char}

theorem isDigit_iff : c.isDigit = true ↔ '0' ≤ c ∧ c ≤ '9' := by
  simp only [Char.isDigit, Bool.and_eq_true, decide_eq_true_eq]
  exact Iff.rfl

theorem not_isDigit_iff : c < '0' ∨ '9' < c ↔ c.isDigit = false := by
  rw [← Bool.not_eq_true, isDigit_iff, not_and_or, Char.not_le, Char.not_le]

theorem digitValue_le (h : c.isDigit = true) : digitValue c ≤ 9 := by
  have hle : c.toNat ≤ '9'.toNat := (isDigit_iff.mp h).2
  have hnine : '9'.toNat = 57 := rfl
  have hzero : '0'.toNat = 48 := rfl
  unfold digitValue
  omega

variable {s : Bytes}

/-- The check of a digit is that of the number that it continues. -/
theorem parseDigits_cons (neg : Bool) (u : Nat) (h : c.isDigit = true) :
    parseDigits neg (signed neg u) (c :: s) =
      if 10 * u + digitValue c ≤ bound neg then parseDigits neg (signed neg (10 * u + digitValue c)) s else none := by
  have hd := digitValue_le h
  have hdigit : ¬(c < '0' ∨ '9' < c) := by
    rw [not_isDigit_iff, h]
    exact Bool.noConfusion
  rw [parseDigits, if_neg hdigit]
  cases neg with
  | false =>
    have hdiv : (2 ^ 31 - 1 - (digitValue c : Int)).tdiv 10 = (2 ^ 31 - 1 - (digitValue c : Int)) / 10 :=
      Int.tdiv_eq_ediv_of_nonneg (by omega)
    have hcheck : (u : Int) > (2 ^ 31 - 1 - (digitValue c : Int)) / 10 ↔ ¬10 * u + digitValue c ≤ 2 ^ 31 - 1 := by omega
    have hnext : (u : Int) * 10 + digitValue c = (10 * u + digitValue c : Nat) := by omega
    simp only [signed, bound, Bool.not_false, if_true, Bool.false_eq_true, if_false, hdiv, hcheck, hnext, ite_not]
  | true =>
    have hdiv : (-2 ^ 31 + (digitValue c : Int)).tdiv 10 = -((2 ^ 31 - (digitValue c : Int)) / 10) := by
      rw [← Int.tdiv_eq_ediv_of_nonneg (show 0 ≤ 2 ^ 31 - (digitValue c : Int) by omega), ← Int.neg_tdiv]
      congr 1
      omega
    have hcheck : -(u : Int) < -((2 ^ 31 - (digitValue c : Int)) / 10) ↔ ¬10 * u + digitValue c ≤ 2 ^ 31 := by omega
    have hnext : -(u : Int) * 10 - digitValue c = -((10 * u + digitValue c : Nat) : Int) := by omega
    simp only [signed, bound, Bool.not_true, if_true, Bool.false_eq_true, if_false, hdiv, hcheck, hnext, ite_not]

theorem parseDigits_eq_some {neg : Bool} {u : Nat} {v : Int} (hu : u ≤ bound neg) :
    parseDigits neg (signed neg u) s = some v ↔
      s.all Char.isDigit = true ∧ decimalFrom u s ≤ bound neg ∧ v = signed neg (decimalFrom u s) := by
  induction s generalizing u with
  | nil =>
    simp only [parseDigits, Option.some.injEq, List.all_nil, true_and, decimalFrom, List.foldl_nil, hu]
    exact eq_comm
  | cons c s ih =>
    cases hc : c.isDigit with
    | false =>
      rw [parseDigits, if_pos (not_isDigit_iff.mpr hc)]
      simp [hc]
    | true =>
      rw [parseDigits_cons neg u hc]
      split
      · rename_i hle
        rw [ih hle]
        simp [hc, decimalFrom]
      · rename_i hgt
        have := le_decimalFrom (10 * u + digitValue c) s
        simp only [reduceCtorEq, false_iff, not_and]
        intro _ hle
        simp only [decimalFrom, List.foldl_cons] at this hle
        omega

variable {x : Int32}

/-- The number of a text of digits that is in range for its sign. -/
theorem parseDigits_zero {neg : Bool} :
    (parseDigits neg 0 s).map Int32.ofInt = some x ↔ s.all Char.isDigit = true ∧ x.toInt = signed neg (decimal s) := by
  have hzero : signed neg 0 = 0 := by cases neg <;> rfl
  have hparse : ∀ v, parseDigits neg 0 s = some v ↔
      s.all Char.isDigit = true ∧ decimalFrom 0 s ≤ bound neg ∧ v = signed neg (decimalFrom 0 s) := by
    intro v
    rw [← parseDigits_eq_some (Nat.zero_le _), hzero]
  have hfrom : decimalFrom 0 s = decimal s := rfl
  rw [Option.map_eq_some_iff]
  simp only [hparse, hfrom]
  have hle := x.le_toInt
  have hlt := x.toInt_lt
  constructor
  · rintro ⟨v, ⟨hall, hbound, rfl⟩, rfl⟩
    refine ⟨hall, Int32.toInt_ofInt_of_le ?_ ?_⟩
    · cases neg <;> simp only [signed, bound, Bool.false_eq_true, if_true, if_false] at hbound ⊢ <;> omega
    · cases neg <;> simp only [signed, bound, Bool.false_eq_true, if_true, if_false] at hbound ⊢ <;> omega
  · rintro ⟨hall, hx⟩
    refine ⟨_, ⟨hall, ?_, rfl⟩, by rw [← hx, Int32.ofInt_toInt]⟩
    cases neg <;> simp only [signed, bound, Bool.false_eq_true, if_true, if_false] at hx ⊢ <;> omega

theorem parseInteger_cons (c : Char) (rest : Bytes) :
    parseInteger (c :: rest) = some x ↔
      let digits := if c = '+' ∨ c = '-' then rest else c :: rest
      digits ≠ [] ∧ digits.all Char.isDigit = true ∧ x.toInt = signed (c = '-') (decimal digits) := by
  simp only [parseInteger]
  generalize (if c = '+' ∨ c = '-' then rest else c :: rest) = digits
  rw [← parseDigits_zero]
  by_cases hempty : digits = []
  · simp [hempty]
  · simp [hempty]

theorem head_isDigit {s number : Bytes} (h : number.all Char.isDigit = true) (heq : c :: s = number) :
    c.isDigit = true := by
  subst heq
  exact List.all_eq_true.mp h c (.head _)

theorem parseInteger_eq_some : parseInteger s = some x ↔ IsInteger s x := by
  cases s with
  | nil =>
    refine iff_of_false (nofun) ?_
    rintro ⟨number, hne, -, (⟨h | h, -⟩ | ⟨h, -⟩)⟩
    · exact hne h.symm
    · cases h
    · cases h
  | cons c rest =>
    rw [parseInteger_cons]
    constructor
    · rintro ⟨hne, hall, hx⟩
      refine ⟨_, hne, hall, ?_⟩
      by_cases hplus : c = '+'
      · subst hplus
        exact .inl ⟨.inr rfl, hx⟩
      · by_cases hminus : c = '-'
        · subst hminus
          exact .inr ⟨rfl, hx⟩
        · simp only [hplus, hminus, or_self, if_false, decide_false] at hx ⊢
          exact .inl ⟨.inl trivial, hx⟩
    · rintro ⟨number, hne, hall, (⟨h | h, hx⟩ | ⟨h, hx⟩)⟩
      · have hdigit := head_isDigit hall h
        have hplus : c ≠ '+' := by
          rintro rfl
          exact absurd hdigit (by decide)
        have hminus : c ≠ '-' := by
          rintro rfl
          exact absurd hdigit (by decide)
        simp only [hplus, hminus, or_self, if_false, decide_false]
        exact ⟨by rw [h]; exact hne, by rw [h]; exact hall, by rw [h]; exact hx⟩
      · cases h
        exact ⟨hne, hall, hx⟩
      · cases h
        exact ⟨hne, hall, hx⟩

theorem slash_not_mem (h : IsInteger s x) : '/' ∉ s := by
  obtain ⟨number, -, hall, htext⟩ := h
  have hnumber : '/' ∉ number := fun hmem => absurd (List.all_eq_true.mp hall _ hmem) (by decide)
  rcases htext with ⟨rfl | rfl, -⟩ | ⟨rfl, -⟩
  · exact hnumber
  · simpa using hnumber
  · simpa using hnumber

theorem isInteger_one : IsInteger ['1'] x ↔ x = 1 := by
  rw [← parseInteger_eq_some]
  constructor
  · intro h
    exact (Option.some.inj ((show parseInteger ['1'] = some 1 by decide).symm.trans h)).symm
  · rintro rfl
    decide

/-- A text is cut at its first slash. -/
theorem cut_eq {lhs : Bytes} (h : '/' ∉ lhs) (rhs : Bytes) :
    (lhs ++ '/' :: rhs).takeWhile (· ≠ '/') = lhs ∧ (lhs ++ '/' :: rhs).dropWhile (· ≠ '/') = '/' :: rhs := by
  have hall : ∀ c ∈ lhs, decide (c ≠ '/') = true := fun c hc => decide_eq_true fun heq => h (heq ▸ hc)
  constructor
  · rw [List.takeWhile_append_of_pos hall]
    simp
  · rw [List.dropWhile_append_of_pos hall]
    simp

theorem exists_cut {sv : Bytes} (h : '/' ∈ sv) : ∃ lhs rhs, sv = lhs ++ '/' :: rhs ∧ '/' ∉ lhs := by
  refine ⟨sv.takeWhile (· ≠ '/'), (sv.dropWhile (· ≠ '/')).tail, ?_, fun hmem => ?_⟩
  · have hsplit := List.takeWhile_append_dropWhile (p := fun c => decide (c ≠ '/')) (l := sv)
    have hhead := List.head?_dropWhile_not (fun c => decide (c ≠ '/')) sv
    cases hdrop : sv.dropWhile (· ≠ '/') with
    | nil =>
      have := List.dropWhile_eq_nil_iff.mp hdrop _ h
      simp at this
    | cons c rest =>
      rw [hdrop] at hsplit hhead
      have hc : c = '/' := by simpa using hhead
      rw [hc] at hsplit
      rw [List.tail_cons, hsplit]
  · have := List.all_eq_true.mp List.all_takeWhile _ hmem
    simp at this

/-- The texts that `parse()` takes, and what it makes of them. -/
theorem parts_eq_some (lhs rhs : Bytes) : (match parseInteger lhs, parseInteger rhs with
    | some n, some d => if d = 0 then none else some (⟨n, d⟩ : Ratio)
    | _, _ => none) = some r ↔ r.denominator ≠ 0 ∧ IsInteger lhs r.numerator ∧ IsInteger rhs r.denominator := by
  rw [← parseInteger_eq_some, ← parseInteger_eq_some]
  cases parseInteger lhs with
  | none => simp
  | some n =>
    cases parseInteger rhs with
    | none => simp
    | some d =>
      by_cases hd : d = 0
      · subst hd
        simp only [if_true, reduceCtorEq, false_iff, not_and, Option.some.injEq]
        exact fun h _ h' => h h'.symm
      · simp only [hd, if_false, Option.some.injEq]
        constructor
        · rintro rfl
          exact ⟨hd, rfl, rfl⟩
        · rintro ⟨-, rfl, rfl⟩
          rfl

theorem parse_eq_some {sv : Bytes} : parse sv = some r ↔ IsQuotient sv r := by
  unfold parse IsQuotient
  by_cases hslash : '/' ∈ sv
  · obtain ⟨lhs, rhs, rfl, hnot⟩ := exists_cut hslash
    obtain ⟨htake, hdrop⟩ := cut_eq hnot rhs
    simp only [htake, hdrop]
    refine (parts_eq_some lhs rhs).trans (and_congr_right fun _ => ?_)
    constructor
    · rintro ⟨hl, hr⟩
      exact .inr ⟨lhs, rhs, rfl, hl, hr⟩
    · rintro (⟨h, -⟩ | ⟨lhs', rhs', heq, hl, hr⟩)
      · exact absurd (List.mem_append_right lhs (.head _)) (slash_not_mem h)
      · obtain ⟨htake', hdrop'⟩ := cut_eq (slash_not_mem hl) rhs'
        rw [← heq] at htake' hdrop'
        rw [htake] at htake'
        rw [hdrop] at hdrop'
        obtain ⟨-, hrhs⟩ := List.cons.inj hdrop'
        exact ⟨htake' ▸ hl, hrhs ▸ hr⟩
  · have htake : sv.takeWhile (· ≠ '/') = sv := by
      rw [List.takeWhile_eq_self_iff]
      intro c hc
      exact decide_eq_true fun h => hslash (h ▸ hc)
    have hdrop : sv.dropWhile (· ≠ '/') = [] := by
      rw [List.dropWhile_eq_nil_iff]
      intro c hc
      exact decide_eq_true fun h => hslash (h ▸ hc)
    simp only [htake, hdrop]
    refine (parts_eq_some sv ['1']).trans (and_congr_right fun _ => ?_)
    rw [isInteger_one]
    constructor
    · exact .inl
    · rintro (h | ⟨lhs, rhs, rfl, -⟩)
      · exact h
      · exact absurd (List.mem_append_right lhs (.head _)) hslash

theorem isInteger_toText (x : Int32) : IsInteger (toText x.toInt) x := by
  obtain ⟨number, hne, hall, htext, hx⟩ := Pmt.isDecimal_toText x.toInt
  refine ⟨number, hne, hall, ?_⟩
  by_cases hneg : x.toInt < 0
  · simp only [hneg, decide_true, if_true] at htext hx
    exact .inr ⟨htext, hx⟩
  · simp only [hneg, decide_false, Bool.false_eq_true, if_false] at htext hx
    exact .inl ⟨.inl htext, hx⟩

/-- The text of a ratio is read back. -/
theorem parse_format (hr : r.denominator ≠ 0) : parse (format r) = some r := by
  rw [parse_eq_some]
  refine ⟨hr, ?_⟩
  unfold format
  split
  · rename_i hone
    exact .inl ⟨isInteger_toText r.numerator, hone⟩
  · exact .inr ⟨_, _, rfl, isInteger_toText r.numerator, isInteger_toText r.denominator⟩

/-! ### Exactness -/

/-- An operation is exact just where its intermediate results stay in the type, the normal form is there where both integers
    have a magnitude, and the order is that of the values where the members' own is. Texts are read exactly. -/
theorem exact_iff (a b : Ratio) (ha : a.denominator ≠ 0) (hb : b.denominator ≠ 0) :
    (Gives (add a b) (a.value + b.value) ↔ (Fits (a.value + b.value) → AddStays a b)) ∧
      (Gives (sub a b) (a.value - b.value) ↔ (Fits (a.value - b.value) → SubStays a b)) ∧
      (Gives (mul a b) (a.value * b.value) ↔
        (Fits (a.value * b.value) → ProductStays a.numerator a.denominator b.numerator b.denominator)) ∧
      (b.numerator ≠ 0 → (Gives (div a b) (a.value / b.value) ↔
        (Fits (a.value / b.value) → ProductStays a.numerator a.denominator b.denominator b.numerator))) ∧
      (Gives (neg a) (-a.value) ↔ (Fits (-a.value) → a.numerator ≠ Int32.minValue)) ∧
      (Normalises a ↔ Magnitudes a.numerator a.denominator) ∧
      (a.Normalised → b.Normalised → (Ordered a b ↔ OrderedAlike a b)) ∧
      parse (format a) = some a ∧
      ∀ (sv : Bytes) (r : Ratio), parse sv = some r ↔ IsQuotient sv r :=
  ⟨add_gives_iff ha hb, sub_gives_iff ha hb, mul_gives_iff ha hb, fun h => div_gives_iff ha h, neg_gives_iff ha,
    normalises_iff ha, ordered_iff, parse_format ha, fun _ _ => parse_eq_some⟩

theorem exact_third_twofifths :
    Gives (add ⟨1, 3⟩ ⟨2, 5⟩) ((⟨1, 3⟩ : Ratio).value + (⟨2, 5⟩ : Ratio).value) ∧ Ordered ⟨1, 3⟩ ⟨2, 5⟩ := by
  obtain ⟨hadd, -, -, -, -, -, hordered, -⟩ := exact_iff ⟨1, 3⟩ ⟨2, 5⟩ (by decide) (by decide)
  refine ⟨hadd.mpr fun _ => ?_, (hordered ⟨by decide, by decide⟩ ⟨by decide, by decide⟩).mpr ?_⟩
  · unfold AddStays Crosses Magnitudes
    decide
  · unfold OrderedAlike
    decide

/-- The sum of 2147483647/2 and 1/2 is an integer, and it overflows on the way; and 1/2 compares less than 1/3. -/
theorem sum_overflows_and_half_less :
    ¬Gives (add ⟨2147483647, 2⟩ ⟨1, 2⟩) ((⟨2147483647, 2⟩ : Ratio).value + (⟨1, 2⟩ : Ratio).value) ∧
      ¬Ordered ⟨1, 2⟩ ⟨1, 3⟩ := by
  constructor
  · intro h
    have hsum : (⟨2147483647, 2⟩ : Ratio).value + (⟨1, 2⟩ : Ratio).value = (1073741824 : Int) := by
      have h1 : (2147483647 : Int32).toInt = 2147483647 := rfl
      have h2 : (2 : Int32).toInt = 2 := rfl
      have h3 : (1 : Int32).toInt = 1 := rfl
      simp only [value, h1, h2, h3]
      norm_num
    have hfits : Fits ((⟨2147483647, 2⟩ : Ratio).value + (⟨1, 2⟩ : Ratio).value) := by
      rw [hsum]
      exact ⟨by rw [Rat.num_intCast]; decide, by rw [Rat.den_intCast]; decide⟩
    obtain ⟨r, hr, -⟩ := h hfits
    have hnone : add ⟨2147483647, 2⟩ ⟨1, 2⟩ = none := by decide
    rw [hnone] at hr
    cases hr
  · intro h
    have hlt := h.lt.mp (by decide)
    have h1 : (1 : Int32).toInt = 1 := rfl
    have h2 : (2 : Int32).toInt = 2 := rfl
    have h3 : (3 : Int32).toInt = 3 := rfl
    simp only [value, h1, h2, h3] at hlt
    norm_num at hlt

end GnuRadio.Ratio
