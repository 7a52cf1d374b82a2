import GnuRadio.Settings.Limits

/-! The check against integer limits is exact, and no cast in it is out of range. A floating-point number is compared
    through its floor and its ceiling, and only between the lowest value of the bounds' type and the power of two above
    its maximum. -/

namespace GnuRadio.Annotated

open Pmt (truncate truncate_intCast truncate_of_nonneg truncate_of_nonpos)

variable {t : IntegerType} {q : ℚ} {n : Int}

/-! ### The range of a type -/

theorem kTwoToDigits_eq (t : IntegerType) : kTwoToDigits t = 2 ^ t.digits := by
  obtain ⟨d, hd⟩ := Nat.exists_eq_succ_of_ne_zero t.digits_pos.ne'
  have hhalf : t.max / 2 + 1 = 2 ^ d := by
    rw [IntegerType.max, hd, Int.pow_succ]
    omega
  rw [kTwoToDigits, hhalf, hd, pow_succ]
  push_cast
  rfl

theorem one_le_pow (t : IntegerType) : (1 : Int) ≤ 2 ^ t.digits := one_le_pow₀ (by decide)

theorem le_max_iff : n ≤ t.max ↔ n < 2 ^ t.digits := Int.le_sub_one_iff

theorem castInteger_eq (h : t.lowest ≤ n ∧ n ≤ t.max) : castInteger t n = some ⟨n, h⟩ := dif_pos h

theorem lowest_cast (t : IntegerType) : (t.lowest : ℚ) = if t.signed then -2 ^ t.digits else 0 := by
  unfold IntegerType.lowest
  split <;> push_cast <;> rfl

theorem lowest_nonpos (t : IntegerType) : t.lowest ≤ 0 := by
  have := one_le_pow t
  unfold IntegerType.lowest
  split <;> omega

theorem cast_lt_pow : (n : ℚ) < 2 ^ t.digits ↔ n < 2 ^ t.digits := by
  rw [← Int.cast_lt (R := ℚ)]
  push_cast
  rfl

/-- The floor of a number of the range is in it. -/
theorem floor_mem (hlow : (t.lowest : ℚ) ≤ q) (hlt : q < 2 ^ t.digits) : t.lowest ≤ ⌊q⌋ ∧ ⌊q⌋ ≤ t.max := by
  refine ⟨Int.le_floor.mpr hlow, le_max_iff.mpr (cast_lt_pow.mp ?_)⟩
  exact (Int.floor_le q).trans_lt hlt

/-- The ceiling of a number of the range is in it, unless it is the power of two above the maximum. -/
theorem ceil_mem (hlow : (t.lowest : ℚ) ≤ q) (hlt : ⌈q⌉ < 2 ^ t.digits) : t.lowest ≤ ⌈q⌉ ∧ ⌈q⌉ ≤ t.max :=
  ⟨Int.cast_le.mp (hlow.trans (Int.le_ceil q)), le_max_iff.mpr hlt⟩

/-! ### Bounds -/

theorem integerWithinBounds_iff {value lower upper : Int} :
    integerWithinBounds value lower upper = true ↔ lower ≤ value ∧ value ≤ upper := by
  rw [integerWithinBounds, Bool.and_eq_true, decide_eq_true_iff, decide_eq_true_iff]

theorem floatingWithinBounds_finite (lower upper : Integer t) :
    floatingWithinBounds t (.finite q) lower upper = some (decide ((lower.val : ℚ) ≤ q ∧ q ≤ upper.val)) := by
  have hlowest : (if t.signed = true then -(2 : ℚ) ^ t.digits else 0) = t.lowest := (lowest_cast t).symm
  obtain ⟨lower, hlower, hlower'⟩ := lower
  obtain ⟨upper, hupper, hupper'⟩ := upper
  simp only [floatingWithinBounds, kTwoToDigits_eq, hlowest, Floating.ge, Floating.lt, Floating.ceil, Floating.floor,
    castFloating, truncate_intCast]
  by_cases hin : (t.lowest : ℚ) ≤ q ∧ q < 2 ^ t.digits
  · obtain ⟨hlow, hlt⟩ := hin
    rw [if_neg (by simp [hlow, hlt]), castInteger_eq (floor_mem hlow hlt), Option.bind_some]
    by_cases hceil : ⌈q⌉ < 2 ^ t.digits
    · rw [castInteger_eq (ceil_mem hlow hceil)]
      by_cases hfloor : lower ≤ ⌊q⌋
      · rw [if_pos (by simp [hfloor, cast_lt_pow.mpr hceil]), Option.map_some]
        simp only [Int.ceil_le, Int.le_floor.mp hfloor, true_and]
      · have hbelow : ¬ (lower : ℚ) ≤ q := fun h => hfloor (Int.le_floor.mpr h)
        rw [if_neg (by simp [hfloor])]
        simp only [hbelow, false_and, decide_false]
    · -- such a number is above the maximum
      have habove : ¬ q ≤ upper := fun h => hceil (le_max_iff.mp ((Int.ceil_le.mpr h).trans hupper'))
      rw [if_neg (by simp [cast_lt_pow, hceil])]
      simp only [habove, and_false, decide_false]
  · have hout : ¬ ((lower : ℚ) ≤ q ∧ q ≤ upper) := fun ⟨hle, hle'⟩ => hin
      ⟨(Int.cast_le.mpr hlower).trans hle, hle'.trans_lt (cast_lt_pow.mpr (le_max_iff.mp hupper'))⟩
    rw [if_pos (by simpa only [Bool.not_eq_true', Bool.and_eq_false_iff, decide_eq_false_iff_not, not_and_or] using hin)]
    simp only [hout, decide_false]

theorem floatingWithinBounds_eq (x : Floating) (lower upper : Integer t) :
    ∃ b, floatingWithinBounds t x lower upper = some b ∧
      (b = true ↔ (Number.floating x).Between lower.val upper.val) := by
  cases x with
  | finite q => exact ⟨_, floatingWithinBounds_finite lower upper, decide_eq_true_iff⟩
  | infinite negative =>
    refine ⟨false, ?_, by simp [Number.Between]⟩
    cases negative <;> simp [floatingWithinBounds, Floating.ge, Floating.lt]
  | nan => exact ⟨false, rfl, by simp [Number.Between]⟩

/-! ### Casts -/

/-- A number of the range, or an unsigned type's number above -1, has its truncation in the range. -/
theorem truncate_mem (hlow : if t.signed then (t.lowest : ℚ) ≤ q else -1 < q) (hlt : q < 2 ^ t.digits) :
    t.lowest ≤ truncate q ∧ truncate q ≤ t.max := by
  rcases le_total 0 q with hq | hq
  · rw [truncate_of_nonneg hq]
    exact floor_mem ((Int.cast_nonpos.mpr (lowest_nonpos t)).trans hq) hlt
  · have hzero : ⌈q⌉ ≤ 0 := Int.ceil_le.mpr (by exact_mod_cast hq)
    rw [truncate_of_nonpos hq]
    refine ⟨?_, hzero.trans (le_max_iff.mpr (by have := one_le_pow t; omega))⟩
    split at hlow
    · exact Int.cast_le.mp (hlow.trans (Int.le_ceil q))
    · next hunsigned =>
      rw [IntegerType.lowest, if_neg hunsigned]
      have habove : (-1 : Int) < ⌈q⌉ := Int.lt_ceil.mpr (by exact_mod_cast hlow)
      omega

theorem floatingKeepsValue_finite :
    floatingKeepsValue t (.finite q) = true ↔ (Number.floating (.finite q)).AboveLowest t ∧ q < 2 ^ t.digits := by
  simp only [floatingKeepsValue, kTwoToDigits_eq, Number.AboveLowest, lowest_cast, Floating.ge, Floating.gt, Floating.lt]
  split <;> simp

/-- A number that keeps its value is cast in the range, and a number that converts keeps it. -/
theorem floatingKeepsValue_iff (x : Floating) :
    floatingKeepsValue t x = true ↔ (Number.floating x).AboveLowest t ∧ ∃ n, (Number.floating x).Converts t n := by
  cases x with
  | finite q =>
    rw [floatingKeepsValue_finite]
    refine and_congr_right fun hlow => ⟨fun hlt => ⟨⟨_, truncate_mem hlow hlt⟩, rfl⟩, fun ⟨n, hn⟩ => ?_⟩
    rcases le_total 0 q with hq | hq
    · have hfloor : ⌊q⌋ < 2 ^ t.digits := by
        rw [← truncate_of_nonneg hq, ← hn]
        exact le_max_iff.mp n.2.2
      exact_mod_cast Int.floor_lt.mp hfloor
    · exact hq.trans_lt (by positivity)
  | infinite negative =>
    refine ⟨fun h => ?_, fun ⟨_, _, hn⟩ => hn.elim⟩
    cases negative <;> simp [floatingKeepsValue, Floating.ge, Floating.gt, Floating.lt] at h
  | nan =>
    refine ⟨fun h => ?_, fun ⟨_, _, hn⟩ => hn.elim⟩
    simp [floatingKeepsValue, Floating.ge, Floating.gt] at h

theorem castFloating_of_converts {x : Floating} {n : Integer t} (h : (Number.floating x).Converts t n) :
    castFloating t x = some n := by
  cases x with
  | finite q =>
    obtain ⟨n, hn⟩ := n
    obtain rfl : n = truncate q := h
    exact castInteger_eq hn
  | infinite | nan => exact h.elim

/-- The truncation of a number between two integers is between them. -/
theorem between_of_converts {u : Number} {n : Integer t} {lower upper : Int} (h : u.Between lower upper)
    (hn : u.Converts t n) : lower ≤ n.val ∧ n.val ≤ upper := by
  cases u with
  | bool b => exact hn ▸ h
  | integer s m => exact hn ▸ h
  | floating x =>
    cases x with
    | finite q =>
      obtain ⟨hlower, hupper⟩ := h
      obtain hn : n.val = truncate q := hn
      rw [hn]
      rcases le_total 0 q with hq | hq
      · rw [truncate_of_nonneg hq]
        exact ⟨Int.le_floor.mpr hlower, Int.cast_le.mp ((Int.floor_le q).trans hupper)⟩
      · rw [truncate_of_nonpos hq]
        exact ⟨Int.cast_le.mp (hlower.trans (Int.le_ceil q)), Int.ceil_le.mpr hupper⟩
    | infinite | nan => exact h.elim

/-- What a number that is an integer of the type converts to. -/
theorem is_spec {u : Number} {n : Integer t} (h : u.Is n) :
    u.AboveLowest t ∧ u.Converts t n ∧ ∀ lower upper, u.Between lower upper ↔ lower ≤ n.val ∧ n.val ≤ upper := by
  cases u with
  | bool b | integer s m => exact ⟨trivial, h, fun _ _ => by rw [h]; exact Iff.rfl⟩
  | floating x =>
    cases x with
    | finite q =>
      obtain rfl : (n.val : ℚ) = q := h
      refine ⟨?_, (truncate_intCast n.val).symm, fun lower upper => ?_⟩
      · have hlow := n.2.1
        unfold Number.AboveLowest
        dsimp only
        split
        · exact_mod_cast hlow
        · next hunsigned =>
          have hzero : t.lowest = 0 := if_neg hunsigned
          have hneg : (-1 : Int) < n.val := by omega
          exact_mod_cast hneg
      · exact and_congr Int.cast_le Int.cast_le
    | infinite | nan => exact h.elim

theorem converts_unique {u : Number} {n m : Integer t} (h : u.Converts t n) (h' : u.Converts t m) : n = m := by
  cases u with
  | bool b | integer s k => exact Subtype.ext (h.trans h'.symm)
  | floating x =>
    cases x with
    | finite q => exact Subtype.ext (h.trans h'.symm)
    | infinite | nan => exact h.elim

/-! ### The check -/

namespace Limits

variable {l : Limits t} {u : Number}

/-- The number meets the limits: it is between them, if they differ, and the validator accepts what it converts to. -/
def Meets (l : Limits t) (u : Number) : Prop :=
  (l.lower = l.upper ∨ u.Between l.lower.val l.upper.val) ∧
    ∀ f, l.validator = some f → u.AboveLowest t ∧ ∃ n, u.Converts t n ∧ accepts f n = true

theorem validateSame_iff (n : Integer t) :
    l.validateSame n = true ↔
      (l.lower = l.upper ∨ l.lower.val ≤ n.val ∧ n.val ≤ l.upper.val) ∧ ∀ f, l.validator = some f → accepts f n = true := by
  unfold validateSame
  cases l.validator with
  | none | some f => by_cases hsame : l.lower = l.upper <;> simp [hsame]

/-- A number that is an integer of the type is checked as that integer. -/
theorem meets_iff_of_is {n : Integer t} (h : u.Is n) : l.Meets u ↔ l.validateSame n = true := by
  obtain ⟨hlow, hconverts, hbetween⟩ := is_spec h
  rw [validateSame_iff, Meets, hbetween]
  refine and_congr_right fun _ => forall₂_congr fun f _ => ⟨fun ⟨_, m, hm, hf⟩ => ?_, fun hf => ⟨hlow, n, hconverts, hf⟩⟩
  rwa [converts_unique hconverts hm]

/-- The check of a number of another type is that of its comparison, of whether a cast keeps it and of its cast. -/
theorem validateOther_spec {inside keeps : Bool} {converted : Option (Integer t)}
    (hinside : inside = true ↔ u.Between l.lower.val l.upper.val)
    (hkeeps : keeps = true ↔ u.AboveLowest t ∧ ∃ n, u.Converts t n)
    (hconverted : ∀ n, u.Converts t n → converted = some n) :
    ∃ b, l.validateOther (some inside) keeps converted = some b ∧ (b = true ↔ l.Meets u) := by
  have hfirst : (if l.lower ≠ l.upper then some inside else some true) =
      some (decide (l.lower = l.upper) || inside) := by
    by_cases hsame : l.lower = l.upper <;> simp [hsame]
  have hrange : (decide (l.lower = l.upper) || inside) = true ↔
      l.lower = l.upper ∨ u.Between l.lower.val l.upper.val := by
    rw [Bool.or_eq_true, decide_eq_true_iff, hinside]
  rw [validateOther, hfirst, Option.bind_some]
  by_cases hin : l.lower = l.upper ∨ u.Between l.lower.val l.upper.val
  · rw [hrange.mpr hin]
    unfold Meets
    cases hvalidator : l.validator with
    | none => exact ⟨true, rfl, by simp [hin]⟩
    | some f =>
      by_cases hk : keeps = true
      · obtain ⟨hlow, n, hn⟩ := hkeeps.mp hk
        refine ⟨l.validateSame n, by simp [hk, hconverted n hn], ?_⟩
        have hsame : l.lower = l.upper ∨ l.lower.val ≤ n.val ∧ n.val ≤ l.upper.val :=
          hin.imp_right fun h => between_of_converts h hn
        rw [validateSame_iff, hvalidator]
        constructor
        · rintro ⟨-, hf⟩
          refine ⟨hin, fun g hg => ⟨hlow, n, hn, hf g hg⟩⟩
        · rintro ⟨-, hf⟩
          refine ⟨hsame, fun g hg => ?_⟩
          obtain ⟨-, m, hm, hg⟩ := hf g hg
          rwa [converts_unique hn hm]
      · refine ⟨false, by simp [hk], ?_⟩
        simp only [Bool.false_eq_true, false_iff]
        rintro ⟨-, hf⟩
        obtain ⟨hlow, n, hn, -⟩ := hf f rfl
        exact hk (hkeeps.mpr ⟨hlow, n, hn⟩)
  · rw [Bool.eq_false_iff.mpr (fun h => hin (hrange.mp h))]
    exact ⟨false, rfl, by simp only [Bool.false_eq_true, false_iff]; exact fun h => hin h.1⟩

theorem validate_spec (l : Limits t) (u : Number) : ∃ b, l.validate u = some b ∧ (b = true ↔ l.Meets u) := by
  cases u with
  | bool b =>
    have hmem : t.lowest ≤ (if b then 1 else 0) ∧ (if b then 1 else 0) ≤ t.max := by
      have hlow := lowest_nonpos t
      have hpow : (2 : Int) ^ 1 ≤ 2 ^ t.digits := pow_le_pow_right₀ (by decide) t.digits_pos
      unfold IntegerType.max
      split <;> omega
    refine ⟨l.validateSame ⟨_, hmem⟩, ?_, (meets_iff_of_is (by exact rfl)).symm⟩
    rw [validate, castInteger_eq hmem, Option.map_some]
  | integer s n =>
    by_cases hst : s = t
    · subst hst
      exact ⟨l.validateSame n, dif_pos rfl, (meets_iff_of_is (by exact rfl)).symm⟩
    · simp only [validate, dif_neg hst]
      refine validateOther_spec integerWithinBounds_iff ?_ fun m hm => ?_
      · rw [integerKeepsValue, integerWithinBounds_iff]
        exact ⟨fun h => ⟨trivial, ⟨_, h⟩, rfl⟩, fun ⟨_, m, hm⟩ => hm ▸ m.2⟩
      · obtain ⟨m, hmem⟩ := m
        obtain rfl : m = n.val := hm
        exact castInteger_eq hmem
  | floating x =>
    obtain ⟨inside, hwithin, hinside⟩ := floatingWithinBounds_eq x l.lower l.upper
    rw [validate, hwithin]
    exact validateOther_spec hinside (floatingKeepsValue_iff x) fun n hn => castFloating_of_converts hn

/-- The check has a result for every number, true if and only if the number meets the limits, and a number that is an
    integer of the bounds' type is checked as that integer. -/
theorem validate_iff (l : Limits t) (u : Number) :
    ∃ b, l.validate u = some b ∧
      (b = true ↔ (l.lower = l.upper ∨ u.Between l.lower.val l.upper.val) ∧
        ∀ f, l.validator = some f → u.AboveLowest t ∧ ∃ n, u.Converts t n ∧ accepts f n = true) ∧
      ∀ n : Integer t, u.Is n.val → b = l.validateSame n := by
  obtain ⟨b, hb, hiff⟩ := l.validate_spec u
  refine ⟨b, hb, hiff, fun n hn => ?_⟩
  rw [Bool.eq_iff_iff, hiff, meets_iff_of_is hn]

end Limits

/-! ### Below the lowest value -/

/-- `std::int8_t` -/
def int8 : IntegerType := ⟨true, 7, false, Nat.succ_pos 6⟩

/-- No limits, and a validator that accepts every number. -/
def anyInt8 : Limits int8 :=
  let zero : Integer int8 := ⟨0, by decide⟩
  ⟨zero, zero, some fun _ => .ok true⟩

/-- The cast of -128.5 to `std::int8_t` is -128, which the validator accepts, and the check refuses -128.5. -/
theorem fraction_below_lowest_refused :
    ∃ n : Integer int8, castFloating int8 (.finite (-257 / 2)) = some n ∧ anyInt8.lower = anyInt8.upper ∧
      anyInt8.validator.map (Limits.accepts · n) = some true ∧
      anyInt8.validate (.floating (.finite (-257 / 2))) = some false :=
  ⟨⟨-128, by decide⟩, by decide +kernel, rfl, rfl, by decide +kernel⟩

end GnuRadio.Annotated
