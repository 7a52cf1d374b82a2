import GnuRadio.Pmt.Conversion
import Mathlib.Data.List.TakeWhile

/-! Which conversions are exact. The conversions of integers and floating-point numbers are, and so are those of decimal
    texts. A complex number loses its way to another type: its parts are converted as variants, which no branch of
    `convert_safely()` takes. The same happens to the text of a floating-point number. -/

namespace GnuRadio.Pmt

open FloatingPoint (Format)
open Yaml (Bytes FloatType IntType isspace)

variable {S T : IntType} {F : FloatType} {n : Int}

/-! ### The limits of the types -/

theorem max_eq (t : IntType) : t.max = 2 ^ digits t - 1 := by
  cases t <;> rfl

theorem min_eq (t : IntType) : t.min = if t.signed then -2 ^ digits t else 0 := by
  cases t <;> rfl

theorem digits_le (t : IntType) : digits t ≤ 64 := by
  cases t <;> decide

theorem min_nonpos (t : IntType) : t.min ≤ 0 := by
  cases t <;> decide

theorem max_lt (t : IntType) : t.max < 2 ^ 64 := by
  cases t <;> decide

theorem le_min (t : IntType) : -2 ^ 63 ≤ t.min := by
  cases t <;> decide

/-- Only a signed type has negative numbers. -/
theorem signed_of_neg (hmin : T.min ≤ n) (hneg : n < 0) : T.signed = true := by
  by_contra hunsigned
  have := min_eq T
  rw [if_neg hunsigned] at this
  omega

theorem wrap_eq (hmin : T.min ≤ n) (hmax : n ≤ T.max) : wrap T n = n := by
  cases T <;> simp only [wrap, IntType.min, IntType.max, IntType.signed, IntType.bits, Int.bmod] at hmin hmax ⊢ <;>
    norm_num at hmin hmax ⊢ <;> omega

/-- A number of the target type is cast to itself. -/
theorem castInteger_eq_iff (h : T.min ≤ n ∧ n ≤ T.max) {y : Integer T} : castInteger T n = y ↔ y.val = n := by
  have hval : (castInteger T n).val = n := wrap_eq h.1 h.2
  rw [Subtype.ext_iff, hval]
  exact eq_comm

theorem error_ne_ok {α : Type} {error : ConversionError} {x : α} :
    (Except.error error : Except ConversionError α) ≠ .ok x := nofun

/-! ### Integers to integers -/

theorem uintmax_eq (hpos : 0 ≤ n) (hlt : n < 2 ^ 64) : uintmax n = n := Int.emod_eq_of_lt hpos hlt

theorem integerInRange_iff (hn : S.min ≤ n ∧ n ≤ S.max) : integerInRange T S n = true ↔ T.min ≤ n ∧ n ≤ T.max := by
  have hTmax : 0 ≤ T.max := by cases T <;> decide
  unfold integerInRange
  by_cases hneg : n < 0
  · rw [if_pos ⟨signed_of_neg hn.1 hneg, hneg⟩, Bool.and_eq_true, decide_eq_true_iff]
    constructor
    · rintro ⟨-, hmin⟩
      exact ⟨hmin, by omega⟩
    · rintro ⟨hmin, -⟩
      exact ⟨signed_of_neg hmin hneg, hmin⟩
  · have hlt := max_lt S
    rw [if_neg fun h => hneg h.2, decide_eq_true_iff, uintmax_eq (by omega) (by omega), uintmax_eq hTmax (max_lt T)]
    have := min_nonpos T
    omega

theorem le_max_of_digits_le (hdigits : digits S ≤ digits T) (hn : n ≤ S.max) : n ≤ T.max := by
  rw [max_eq] at hn ⊢
  have : (2 : Int) ^ digits S ≤ 2 ^ digits T := pow_le_pow_right₀ (by decide) hdigits
  omega

theorem integerToInteger_ok_iff (srcValue : Integer S) {y : Integer T} :
    integerToInteger T srcValue = .ok y ↔ y.val = srcValue.val := by
  obtain ⟨n, hn⟩ := srcValue
  obtain ⟨y, hy⟩ := y
  unfold integerToInteger
  split
  · next hneg =>
    have hzero : T.min = 0 := by rw [min_eq, hneg.1]; rfl
    refine iff_of_false error_ne_ok fun h => ?_
    have : y = n := h
    have := hneg.2.2
    dsimp only at this
    omega
  · next hsign =>
    split
    · next hdigits =>
      have hin : T.min ≤ n ∧ n ≤ T.max := by
        refine ⟨?_, le_max_of_digits_le hdigits hn.2⟩
        by_cases hneg : n < 0
        · have hS : S.signed = true := signed_of_neg hn.1 hneg
          have hT : T.signed = true := by
            by_contra hunsigned
            exact hsign ⟨Bool.eq_false_of_not_eq_true hunsigned, hS, hneg⟩
          have hpow : (2 : Int) ^ digits S ≤ 2 ^ digits T := pow_le_pow_right₀ (by decide) hdigits
          have hSmin := min_eq S
          have hTmin := min_eq T
          rw [if_pos hS] at hSmin
          rw [if_pos hT] at hTmin
          omega
        · have := min_nonpos T
          omega
      rw [Except.ok.injEq, castInteger_eq_iff hin]
    · split
      · next hin => rw [Except.ok.injEq, castInteger_eq_iff ((integerInRange_iff hn).mp hin)]
      · next hout =>
        refine iff_of_false error_ne_ok fun h => ?_
        have : y = n := h
        exact absurd ((integerInRange_iff hn).mpr (this ▸ hy)) hout

/-! ### Integers to floating-point numbers -/

theorem finite_eq_iff {q : ℚ} {h : (format F).Holds q} {y : Floating F} :
    Floating.finite q h = y ↔ y.value = some q := by
  constructor
  · rintro rfl
    rfl
  · intro hy
    cases y with
    | finite q' h' =>
      cases hy
      rfl
    | infinite negative => cases hy
    | nan => cases hy

theorem castFloating_eq_iff {srcValue : Integer S} (h : (format F).Holds srcValue.val) {y : Floating F} :
    castFloating F srcValue = y ↔ y.value = some (srcValue.val : ℚ) := by
  rw [castFloating, finite_eq_iff, Format.round_eq h]

theorem holds_of_value {y : Floating F} {q : ℚ} (h : y.value = some q) : (format F).Holds q := by
  cases y with
  | finite q' h' =>
    cases h
    exact h'
  | infinite negative => cases h
  | nan => cases h

theorem natAbs_le (srcValue : Integer S) : srcValue.val.natAbs ≤ 2 ^ digits S := by
  obtain ⟨n, hn⟩ := srcValue
  have hmax := max_eq S
  have hmin := min_eq S
  have hpow : ((2 ^ digits S : Nat) : Int) = 2 ^ digits S := by push_cast; rfl
  split at hmin <;> dsimp only <;> omega

/-- The lowest number of a type is a power of two. -/
theorem holds_of_digits_le (srcValue : Integer S) (h : digits S ≤ (format F).precision) :
    (format F).Holds srcValue.val := by
  have hle := natAbs_le srcValue
  have hpow : 2 ^ digits S ≤ 2 ^ (format F).precision := Nat.pow_le_pow_right (by decide) h
  rw [Format.holds_int_iff]
  rcases Nat.lt_or_eq_of_le (Nat.le_trans hle hpow) with hlt | heq
  · exact ⟨srcValue.val, 0, hlt, Nat.zero_le _, (mul_one _).symm⟩
  · refine ⟨srcValue.val.sign, (format F).precision, ?_, by cases F <;> decide, ?_⟩
    · have hone : srcValue.val.sign.natAbs ≤ 1 := by
        rw [Int.natAbs_sign]
        split <;> decide
      exact Nat.lt_of_le_of_lt hone (Nat.one_lt_two_pow (format F).precision_pos.ne')
    · conv_lhs => rw [← Int.sign_mul_natAbs srcValue.val, heq]
      push_cast
      rfl

theorem magnitude_eq (srcValue : Integer S) : magnitude S srcValue.val = srcValue.val.natAbs := by
  obtain ⟨n, hn⟩ := srcValue
  have hlow := le_min S
  have hmax := max_lt S
  dsimp only
  rw [magnitude]
  by_cases hneg : n < 0
  · have hwide : uintmax n = n + 2 ^ 64 := by
      unfold uintmax
      omega
    rw [if_pos ⟨.inr (signed_of_neg hn.1 hneg), hneg⟩, hwide]
    omega
  · rw [if_neg fun h => hneg h.2, uintmax_eq (by omega) (by omega)]
    omega

theorem integerToFloating_ok_iff (srcValue : Integer S) {y : Floating F} :
    integerToFloating F srcValue = .ok y ↔ y.value = some (srcValue.val : ℚ) := by
  unfold integerToFloating
  split
  · next hdigits => rw [Except.ok.injEq, castFloating_eq_iff (holds_of_digits_le srcValue hdigits)]
  · dsimp only
    rw [magnitude_eq]
    split
    · next hzero =>
      have hholds : (format F).Holds srcValue.val := by
        rw [Int.natAbs_eq_zero.mp hzero, Int.cast_zero]
        exact Format.holds_zero _
      rw [Except.ok.injEq, castFloating_eq_iff hholds]
    · next hne =>
      have hne : srcValue.val ≠ 0 := fun h => hne (Int.natAbs_eq_zero.mpr h)
      have hlt : srcValue.val.natAbs < 2 ^ 64 := by
        have hlow := le_min S
        have hmax := max_lt S
        have := srcValue.property
        omega
      have hsize := Format.holds_iff_size_le (f := format F) hne hlt (by cases F <;> decide)
      split
      · next hle => rw [Except.ok.injEq, castFloating_eq_iff (hsize.mpr hle)]
      · next hgt => exact iff_of_false error_ne_ok fun hy => hgt (hsize.mp (holds_of_value hy))

/-! ### Floating-point numbers to integers -/

theorem one_lt_precision (F : FloatType) : 1 < (format F).precision := by
  cases F <;> decide

theorem round_two_pow {k : Nat} (m : Int) (hm : m.natAbs ≤ 1) (h : k ≤ 64) :
    (format F).round (m * 2 ^ k) = m * 2 ^ k := by
  refine Format.round_eq (Format.holds_int_iff.mpr ⟨m, k, ?_, Nat.le_trans h (by cases F <;> decide), rfl⟩)
  exact Nat.lt_of_le_of_lt hm (Nat.one_lt_two_pow (Nat.ne_of_gt (Nat.lt_of_succ_lt (one_lt_precision F))))

/-- The lowest number is zero or a power of two. -/
theorem integerLowest_eq (T : IntType) (F : FloatType) : integerLowest T F = T.min := by
  have hround : (format F).round T.min = T.min := by
    rw [min_eq]
    split
    · have := round_two_pow (F := F) (-1) (by decide) (digits_le T)
      rwa [neg_one_mul] at this
    · have := round_two_pow (F := F) (k := 0) 0 (by decide) (by decide)
      rwa [zero_mul] at this
  rw [integerLowest, hround]

/-- The limit is the power of two above the largest number. -/
theorem integerUpperLimit_eq (T : IntType) (F : FloatType) : integerUpperLimit T F = T.max + 1 := by
  have hhalf : T.max / 2 + 1 = 1 * 2 ^ (digits T - 1) := by cases T <;> rfl
  have hle : digits T - 1 ≤ 64 := Nat.le_trans (Nat.sub_le _ _) (digits_le T)
  have htwice : (1 * 2 ^ (digits T - 1) : Int) * 2 = T.max + 1 := by cases T <;> rfl
  rw [integerUpperLimit, hhalf, round_two_pow 1 (by decide) hle]
  exact_mod_cast htwice

theorem nearbyint_intCast (k : Int) : nearbyint k = k := by
  rw [nearbyint, Int.floor_intCast, sub_self, mul_zero]
  exact if_pos (.inl one_pos)

theorem floatingToInteger_ok_iff {q : ℚ} (hq : (format F).Holds q) {y : Integer T} :
    floatingToInteger T (.finite q hq) = .ok y ↔ (y.val : ℚ) = q := by
  obtain ⟨y, hy⟩ := y
  rw [floatingToInteger, integerLowest_eq, integerUpperLimit_eq]
  split
  · next hout =>
    refine iff_of_false error_ne_ok fun h => ?_
    have hmin : (T.min : ℚ) ≤ y := by exact_mod_cast hy.1
    have hmax : (y : ℚ) < T.max + 1 := by exact_mod_cast Int.lt_add_one_of_le hy.2
    dsimp only at h
    rw [← h] at hout
    rcases hout with hlow | hhigh
    · exact absurd hlow (not_lt.mpr hmin)
    · exact absurd hhigh (not_le.mpr hmax)
  · next hin =>
    split
    · next hfraction =>
      refine iff_of_false error_ne_ok fun h => hfraction ?_
      dsimp only at h
      rw [← h, nearbyint_intCast]
    · next hinteger =>
      obtain ⟨k, rfl⟩ : ∃ k : Int, q = k := ⟨_, not_not.mp hinteger⟩
      obtain ⟨hlow, hhigh⟩ := not_or.mp hin
      have hmin : T.min ≤ k := by exact_mod_cast not_lt.mp hlow
      have hmax : k < T.max + 1 := by exact_mod_cast not_le.mp hhigh
      rw [Except.ok.injEq, truncate_intCast, castInteger_eq_iff ⟨hmin, Int.le_of_lt_add_one hmax⟩]
      exact Int.cast_inj.symm

/-! ### Numbers -/

section
variable (platform : Platform) {S T : NumericType}

theorem eq_of_floating_value {x y : Floating F} {q : ℚ} (hx : x.value = some q) (hy : y.value = some q) : x = y := by
  have hfinite := holds_of_value hx
  rw [← (finite_eq_iff (h := hfinite)).mpr hx, ← (finite_eq_iff (h := hfinite)).mpr hy]

/-- A type has one number for a value. -/
theorem eq_of_value {x y : T.Val} {z : ℚ × ℚ} (hx : T.value x = some z) (hy : T.value y = some z) : x = y := by
  cases T with
  | integer t =>
    cases hx
    have hval : (y.val : ℚ) = x.val := (Prod.mk.inj (Option.some.inj hy)).1
    exact Subtype.ext (Int.cast_injective hval.symm)
  | floating t =>
    obtain ⟨q, hq, rfl⟩ := Option.map_eq_some_iff.mp hx
    obtain ⟨q', hq', heq⟩ := Option.map_eq_some_iff.mp hy
    cases heq
    exact eq_of_floating_value hq hq'
  | complex t =>
    obtain ⟨re, hre, hx⟩ := Option.bind_eq_some_iff.mp hx
    obtain ⟨im, him, rfl⟩ := Option.map_eq_some_iff.mp hx
    obtain ⟨re', hre', hy⟩ := Option.bind_eq_some_iff.mp hy
    obtain ⟨im', him', heq⟩ := Option.map_eq_some_iff.mp hy
    cases heq
    exact Prod.ext (eq_of_floating_value hre hre') (eq_of_floating_value him him')

theorem convertSafely_self (x : T.Val) : convertSafely platform T T x = .ok x := dif_pos rfl

theorem convertSafely_of_ne (h : S ≠ T) (x : S.Val) :
    convertSafely platform S T x = convertNumber platform S T x := dif_neg h

/-- No complex number is converted to another type. -/
theorem convertNumber_complex (T : NumericType) (x : (NumericType.complex F).Val) (y : T.Val) :
    convertNumber platform (.complex F) T x ≠ .ok y := by
  intro h
  cases T with
  | complex t => cases h
  | integer t | floating t =>
    rw [convertNumber] at h
    split at h <;> cases h

theorem map_value_eq_iff {x : Floating F} {q : ℚ} : x.value.map (fun re => (re, (0 : ℚ))) = some (q, 0) ↔ x.value = some q := by
  cases x.value <;> simp

/-- A number of a real type is converted if the target can represent it. -/
theorem convertNumber_ok_iff {x : S.Val} (hreal : ∀ F, S ≠ .complex F) (hcovers : Request.Covers S T x)
    (hfinite : (S.value x).isSome) (y : T.Val) :
    convertNumber platform S T x = .ok y ↔ T.value y = S.value x := by
  cases S with
  | integer s =>
    cases T with
    | integer t =>
      refine (integerToInteger_ok_iff x).trans ⟨fun h => ?_, fun h => ?_⟩
      · exact congrArg some (Prod.ext (congrArg Int.cast h) rfl)
      · exact Int.cast_injective (Prod.mk.inj (Option.some.inj h)).1
    | floating t => exact (integerToFloating_ok_iff x).trans map_value_eq_iff.symm
    | complex t => exact absurd hcovers id
  | floating s =>
    cases T with
    | integer t =>
      obtain ⟨z, hz⟩ := Option.isSome_iff_exists.mp hfinite
      obtain ⟨q, hq, -⟩ := Option.map_eq_some_iff.mp hz
      have hx : Floating.finite q (holds_of_value hq) = x := finite_eq_iff.mpr hq
      rw [← hx]
      refine (floatingToInteger_ok_iff (holds_of_value hq)).trans ⟨fun h => ?_, fun h => ?_⟩
      · exact congrArg some (Prod.ext h rfl)
      · exact (Prod.mk.inj (Option.some.inj h)).1
    | floating t | complex t => exact absurd hcovers id
  | complex s => exact absurd rfl (hreal s)

theorem number_met_iff (x : S.Val) (hdomain : (Request.number S T x).InDomain platform) :
    (Request.number S T x).Met platform ↔ (Request.number S T x).HoldsWhen := by
  obtain ⟨hcovers, hfinite⟩ := hdomain
  obtain ⟨z, hz⟩ := Option.isSome_iff_exists.mp hfinite
  by_cases hsame : S = T
  · subst hsame
    refine iff_of_true (fun y => ?_) fun _ => .inl rfl
    rw [convertSafely_self, Except.ok.injEq]
    exact ⟨fun h => h ▸ rfl, fun h => eq_of_value hz (h.trans hz)⟩
  · simp only [Request.Met, Request.HoldsWhen, convertSafely_of_ne platform hsame, or_iff_right hsame]
    by_cases hcomplex : ∃ F, S = .complex F
    · obtain ⟨F, rfl⟩ := hcomplex
      refine ⟨fun h _ y hy => convertNumber_complex platform T x y ((h y).mpr hy), fun h y => ?_⟩
      exact iff_of_false (convertNumber_complex platform T x y) (h ⟨F, rfl⟩ y)
    · have hreal (F : FloatType) : S ≠ .complex F := fun h => hcomplex ⟨F, h⟩
      exact iff_of_true (convertNumber_ok_iff platform hreal hcovers hfinite) fun h => absurd h hcomplex

end

/-! ### Decimal texts -/

section
variable {isNegative : Bool} {s text : Bytes}

theorem isspace_of_isDigit {c : Char} (h : c.isDigit = true) : isspace c = false := by
  simp only [Char.isDigit, isspace, Bool.and_eq_true, decide_eq_true_eq, Bool.or_eq_false_iff, decide_eq_false_iff_not] at h ⊢
  have hlow : 48 ≤ c.toNat := h.1
  refine ⟨?_, by simp; omega⟩
  rintro rfl
  exact absurd hlow (by decide)

theorem takeWhile_isDigit {number : Bytes} (h : number.all Char.isDigit = true) :
    number.takeWhile Char.isDigit = number ∧ number.dropWhile Char.isDigit = [] := by
  have hall := List.all_eq_true.mp h
  exact ⟨List.takeWhile_eq_self_iff.mpr hall, List.dropWhile_eq_nil_iff.mpr hall⟩

theorem head?_ne_minus {number : Bytes} (h : number.all Char.isDigit = true) : number.head?.any (· = '-') = false := by
  cases number with
  | nil => rfl
  | cons c cs =>
    simp only [List.all_cons, Bool.and_eq_true] at h
    simp only [List.head?_cons, Option.any_some, decide_eq_false_iff_not]
    rintro rfl
    exact absurd h.1 (by decide)

/-- The sign of a text is its first character. -/
theorem head?_of_isDecimal (h : IsDecimal isNegative s n) : s.head?.any (· = '-') = isNegative := by
  obtain ⟨number, -, hdigits, rfl, -⟩ := h
  cases isNegative with
  | false => exact head?_ne_minus hdigits
  | true => rfl

theorem isDecimal_unique {isNegative' : Bool} {n' : Int} (h : IsDecimal isNegative s n) (h' : IsDecimal isNegative' s n') :
    isNegative = isNegative' ∧ n = n' := by
  obtain rfl := (head?_of_isDecimal h).symm.trans (head?_of_isDecimal h')
  obtain ⟨number, -, -, htext, rfl⟩ := h
  obtain ⟨number', -, -, htext', rfl⟩ := h'
  obtain rfl : number = number' := by
    cases isNegative with
    | false => exact htext.symm.trans htext'
    | true => exact (List.cons.inj (htext.symm.trans htext')).2
  exact ⟨rfl, rfl⟩

theorem isNegated_of_isDecimal (hsigned : isNegative = true → T.signed = true) (h : IsDecimal isNegative s n) :
    isNegated T s = isNegative := by
  rw [isNegated, head?_of_isDecimal h]
  cases isNegative with
  | false => exact Bool.and_false _
  | true => rw [hsigned rfl, Bool.and_true]

/-- The sign in front of what is behind it. -/
theorem eq_behindSign (T : IntType) (s : Bytes) :
    s = if isNegated T s then '-' :: behindSign T s else behindSign T s := by
  unfold behindSign
  split
  · next hneg =>
    obtain ⟨-, hhead⟩ := (Bool.and_eq_true ..).mp hneg
    cases s with
    | nil => cases hhead
    | cons c cs =>
      obtain rfl : c = '-' := of_decide_eq_true hhead
      rfl
  · rfl

/-- A whole text is read if it is the decimal text of a number of the type. -/
theorem fromChars_ok_iff :
    fromChars T s = (.ok n, []) ↔ T.min ≤ n ∧ n ≤ T.max ∧
      ∃ isNegative, (isNegative = true → T.signed = true) ∧ IsDecimal isNegative s n := by
  constructor
  · intro h
    generalize hvalue : (if isNegated T s then -(decimal ((behindSign T s).takeWhile Char.isDigit) : Int)
      else decimal ((behindSign T s).takeWhile Char.isDigit)) = value
    simp only [fromChars, hvalue] at h
    split at h
    · cases h
    · next hne =>
      split at h
      · cases h
      · next hrange =>
        obtain ⟨hok, hrest⟩ := Prod.mk.inj h
        obtain rfl : value = n := Except.ok.inj hok
        have hall : (behindSign T s).all Char.isDigit = true :=
          List.all_eq_true.mpr (List.dropWhile_eq_nil_iff.mp hrest)
        rw [(takeWhile_isDigit hall).1] at hne hvalue
        refine ⟨by omega, by omega, isNegated T s, fun hneg => ((Bool.and_eq_true ..).mp hneg).1, ?_⟩
        exact ⟨behindSign T s, hne, hall, eq_behindSign T s, hvalue.symm⟩
  · rintro ⟨hmin, hmax, isNegative, hsigned, hdecimal⟩
    have hneg := isNegated_of_isDecimal hsigned hdecimal
    obtain ⟨number, hne, hdigits, htext, hvalue⟩ := hdecimal
    have hbehind : behindSign T s = number := by
      rw [behindSign, hneg]
      cases isNegative with
      | false => exact htext
      | true => exact congrArg (List.drop 1) htext
    obtain ⟨htake, hdrop⟩ := takeWhile_isDigit hdigits
    have hrange : ¬ (n < T.min ∨ T.max < n) := by omega
    simp only [fromChars, hbehind, htake, hdrop, hneg, ← hvalue, if_neg hne, if_neg hrange]

theorem parseInteger_ok_iff {y : Integer T} :
    parseInteger T s = .ok y ↔ ∃ isNegative, (isNegative = true → T.signed = true) ∧ IsDecimal isNegative s y.val := by
  have hiff : parseInteger T s = .ok y ↔ fromChars T s = (.ok y.val, []) := by
    unfold parseInteger
    have hrange (n : Int) (rest : Bytes) (h : fromChars T s = (.ok n, rest)) (hrest : rest = []) :
        T.min ≤ n ∧ n ≤ T.max := by
      subst hrest
      obtain ⟨hmin, hmax, -⟩ := fromChars_ok_iff.mp h
      exact ⟨hmin, hmax⟩
    rcases h : fromChars T s with ⟨errc | n, rest⟩
    · refine iff_of_false ?_ (nofun)
      cases errc with
      | invalidArgument => exact error_ne_ok
      | resultOutOfRange =>
        dsimp only
        split <;> exact error_ne_ok
    · by_cases hrest : rest = []
      · have hcast := castInteger_eq_iff (hrange n rest h hrest) (y := y)
        simp only [hrest, if_pos, Except.ok.injEq, Prod.mk.injEq, and_true]
        exact hcast.trans eq_comm
      · simp only [hrest, Prod.mk.injEq, and_false]
        exact iff_of_false error_ne_ok id
  rw [hiff, fromChars_ok_iff, ← and_assoc, and_iff_right y.property]

/-! ### Texts of integers -/

theorem trimAndCutComment_eq (h : ∀ c ∈ s, isspace c = false ∧ c ≠ '#') : trimAndCutComment s = s := by
  have hdrop {t : Bytes} (ht : ∀ c ∈ t, isspace c = false) : t.dropWhile isspace = t := by
    cases t with
    | nil => rfl
    | cons c cs => exact List.dropWhile_cons_of_neg (by rw [ht c (.head _)]; exact Bool.false_ne_true)
  have htake : s.takeWhile (· ≠ '#') = s := List.takeWhile_eq_self_iff.mpr fun c hc => decide_eq_true (h c hc).2
  rw [trimAndCutComment, hdrop fun c hc => (h c hc).1, htake, hdrop, List.reverse_reverse]
  exact fun c hc => (h c (List.mem_reverse.mp hc)).1

theorem digitValue_digitChar {d : Nat} (h : d < 10) : digitValue d.digitChar = d := by
  have hall : ∀ d < 10, digitValue (Nat.digitChar d) = d := by decide
  exact hall d h

theorem decimal_append (number : Bytes) (c : Char) : decimal (number ++ [c]) = 10 * decimal number + digitValue c := by
  rw [decimal, List.foldl_append]
  rfl

theorem decimal_toDigits (n : Nat) : decimal (Nat.toDigits 10 n) = n := by
  induction n using Nat.strong_induction_on with
  | h n ih =>
    rw [Nat.toDigits_eq_if (by decide)]
    split
    · next hlt =>
      have := digitValue_digitChar hlt
      simpa [decimal] using this
    · next hge =>
      rw [decimal_append, ih (n / 10) (by omega), digitValue_digitChar (Nat.mod_lt n (by decide))]
      omega

theorem isDecimal_toText (n : Int) : IsDecimal (decide (n < 0)) (toText n) n := by
  refine ⟨Nat.toDigits 10 n.natAbs, Nat.toDigits_ne_nil, ?_, ?_, ?_⟩
  · exact List.all_eq_true.mpr fun c hc => Nat.isDigit_of_mem_toDigits (by decide) (by decide) hc
  · simp only [toText, decide_eq_true_eq]
  · rw [decimal_toDigits]
    by_cases hneg : n < 0
    · rw [if_pos (decide_eq_true hneg)]
      omega
    · rw [if_neg fun h => hneg (of_decide_eq_true h)]
      omega

theorem clean_of_isDecimal (h : IsDecimal isNegative s n) :
    ∀ c ∈ s, (isspace c = false ∧ c ≠ '#') ∧ (c = '.' || c = 'e' || c = 'E') = false := by
  obtain ⟨number, -, hdigits, rfl, -⟩ := h
  have hdigit (c : Char) (hc : c ∈ number) :
      (isspace c = false ∧ c ≠ '#') ∧ (c = '.' || c = 'e' || c = 'E') = false := by
    have hisDigit := List.all_eq_true.mp hdigits c hc
    refine ⟨⟨isspace_of_isDigit hisDigit, ?_⟩, ?_⟩
    · rintro rfl
      exact absurd hisDigit (by decide)
    · simp only [Bool.or_eq_false_iff, decide_eq_false_iff_not]
      refine ⟨⟨?_, ?_⟩, ?_⟩ <;>
      · rintro rfl
        exact absurd hisDigit (by decide)
  intro c hc
  cases isNegative with
  | false => exact hdigit c hc
  | true =>
    rcases List.mem_cons.mp hc with rfl | hc
    · decide
    · exact hdigit c hc

theorem trimAndCutComment_toText (n : Int) : trimAndCutComment (toText n) = toText n :=
  trimAndCutComment_eq fun c hc => (clean_of_isDecimal (isDecimal_toText n) c hc).1

/-- The text of an integer is converted to a type that holds it. -/
theorem convertText_toText (platform : Platform) (n : Int) (y : Integer T) :
    convertText platform (.integer T) (toText n) = .ok y ↔ y.val = n := by
  rw [convertText, trimAndCutComment_toText]
  refine (parseInteger_ok_iff (y := y)).trans ⟨fun ⟨_, _, hdecimal⟩ => ?_, fun h => ?_⟩
  · exact (isDecimal_unique hdecimal (isDecimal_toText n)).2
  · refine ⟨decide (n < 0), fun hneg => ?_, h ▸ isDecimal_toText n⟩
    exact signed_of_neg (h ▸ y.property.1) (of_decide_eq_true hneg)

/-! ### The smallest type of a number -/

theorem widest_of_is64Bit (h : Is64Bit n) (hdecimal : IsDecimal isNegative s n) :
    (widest isNegative).min ≤ n ∧ n ≤ (widest isNegative).max := by
  obtain ⟨hlow, hhigh⟩ := h
  obtain ⟨number, -, -, -, hn⟩ := hdecimal
  cases isNegative with
  | false =>
    refine ⟨?_, hhigh⟩
    rw [hn]
    exact Int.natCast_nonneg _
  | true =>
    refine ⟨hlow, ?_⟩
    have hnonpos : n ≤ 0 := by
      rw [hn]
      exact Int.neg_nonpos_of_nonneg (Int.natCast_nonneg _)
    exact Int.le_trans hnonpos (by decide)

theorem is64Bit_of_widest (h : (widest isNegative).min ≤ n ∧ n ≤ (widest isNegative).max) : Is64Bit n := by
  obtain ⟨hlow, hhigh⟩ := h
  cases isNegative with
  | false => exact ⟨Int.le_trans (by decide) hlow, hhigh⟩
  | true => exact ⟨hlow, Int.le_trans hhigh (by decide)⟩

/-- The checks that the code leaves out hold of every number that it reads. -/
theorem fits_eq (h : (widest isNegative).min ≤ n ∧ n ≤ (widest isNegative).max) (t : IntType) :
    fits isNegative t n = decide (t.min ≤ n ∧ n ≤ t.max) := by
  cases isNegative with
  | false =>
    have hmin : t.min ≤ n := Int.le_trans (min_nonpos t) h.1
    simp [fits, hmin]
  | true =>
    by_cases ht : t = .int64
    · subst ht
      exact (decide_eq_true h).symm
    · simp [fits, ht, Bool.decide_and]

variable {variant : List NumericType} {result : Minimal}

theorem minimalInteger_ok_iff (h : (widest isNegative).min ≤ n ∧ n ≤ (widest isNegative).max) :
    minimalInteger variant isNegative n = .ok result ↔
      ∃ t h, firstHolding variant isNegative n = some t ∧ result = ⟨.integer t, ⟨n, h⟩⟩ := by
  have hfind : ((typesInOrder isNegative).find? fun t => variant.contains (.integer t) && fits isNegative t n) =
      firstHolding variant isNegative n := by
    simp only [fits_eq h, firstHolding]
  rw [minimalInteger, hfind]
  cases hfirst : firstHolding variant isNegative n with
  | none => exact iff_of_false error_ne_ok fun ⟨_, _, hnone, _⟩ => by cases hnone
  | some t =>
    have hholds := List.find?_some hfirst
    simp only [Bool.and_eq_true, decide_eq_true_eq] at hholds
    have hcast : castInteger t n = ⟨n, hholds.2⟩ := (castInteger_eq_iff hholds.2).mpr rfl
    rw [Except.ok.injEq, hcast]
    constructor
    · rintro rfl
      exact ⟨t, hholds.2, rfl, rfl⟩
    · rintro ⟨t', h', htype, rfl⟩
      cases htype
      rfl

theorem minimalFloating_ne_ok : minimalFloating variant ≠ .ok result := by
  unfold minimalFloating convertVariant
  dsimp only
  split
  · split <;> exact error_ne_ok
  · split <;> exact error_ne_ok

/-- Without a sign of a floating-point number, the text is read as an integer. -/
theorem parseToMinimalNumeric_of_isDecimal (hdecimal : IsDecimal isNegative (trimAndCutComment text) n) (h : Is64Bit n) :
    parseToMinimalNumeric variant text = minimalInteger variant isNegative n := by
  have hrange := widest_of_is64Bit h hdecimal
  have hne : trimAndCutComment text ≠ [] := by
    obtain ⟨number, hne, -, htext, -⟩ := hdecimal
    rw [htext]
    cases isNegative with
    | false => exact hne
    | true => exact List.cons_ne_nil _ _
  have hpoint : ¬ (trimAndCutComment text).any (fun c => c = '.' || c = 'e' || c = 'E') = true := by
    simp only [List.any_eq_true, not_exists, not_and]
    intro c hc
    rw [(clean_of_isDecimal hdecimal c hc).2]
    exact Bool.false_ne_true
  have hparse : parseInteger (widest isNegative) (trimAndCutComment text) = .ok ⟨n, hrange⟩ := by
    refine parseInteger_ok_iff.mpr ⟨isNegative, fun hneg => ?_, hdecimal⟩
    rw [hneg]
    rfl
  have hhead := head?_of_isDecimal hdecimal
  simp only [parseToMinimalNumeric, if_neg hne, if_neg hpoint]
  generalize (trimAndCutComment text).head?.any (· = '-') = head at hhead ⊢
  subst hhead
  rw [hparse]
  rfl

/-- A result is that of an integer text. -/
theorem isDecimal_of_parseToMinimalNumeric (h : parseToMinimalNumeric variant text = .ok result) :
    ∃ isNegative n, IsDecimal isNegative (trimAndCutComment text) n ∧ Is64Bit n ∧
      (firstHolding variant isNegative n).isSome := by
  simp only [parseToMinimalNumeric] at h
  split at h
  · cases h
  · split at h
    · exact absurd h minimalFloating_ne_ok
    · generalize hhead : (trimAndCutComment text).head?.any (· = '-') = head at h
      cases hparse : parseInteger (widest head) (trimAndCutComment text) with
      | error _ =>
        rw [hparse] at h
        cases h
      | ok val =>
        rw [hparse] at h
        obtain ⟨isNegative, -, hdecimal⟩ := parseInteger_ok_iff.mp hparse
        obtain rfl : head = isNegative := hhead.symm.trans (head?_of_isDecimal hdecimal)
        obtain ⟨t, -, hfirst, -⟩ := (minimalInteger_ok_iff val.property).mp h
        exact ⟨head, val.val, hdecimal, is64Bit_of_widest val.property, Option.isSome_iff_exists.mpr ⟨t, hfirst⟩⟩

/-- The exact conversions: every one between numbers and from text, but none of a complex number to another type that can
    represent it, and none of a text that only a floating-point type accepts. -/
theorem request_met_iff (platform : Platform) (r : Request) (hdomain : r.InDomain platform) :
    r.Met platform ↔ r.HoldsWhen := by
  cases r with
  | number S T srcValue => exact number_met_iff platform srcValue hdomain
  | text T n => exact iff_of_true (convertText_toText platform n) trivial
  | minimalInteger variant isNegative text n =>
    obtain ⟨hdecimal, h⟩ := hdomain
    refine iff_of_true (fun result => ?_) trivial
    rw [parseToMinimalNumeric_of_isDecimal hdecimal h]
    exact minimalInteger_ok_iff (widest_of_is64Bit h hdecimal)
  | minimalFloating variant text =>
    constructor
    · rintro ⟨result, h⟩
      exact isDecimal_of_parseToMinimalNumeric h
    · rintro ⟨isNegative, n, hdecimal, h, hfirst⟩
      obtain ⟨t, ht⟩ := Option.isSome_iff_exists.mp hfirst
      have hholds := List.find?_some ht
      simp only [Bool.and_eq_true, decide_eq_true_eq] at hholds
      refine ⟨⟨.integer t, ⟨n, hholds.2⟩⟩, ?_⟩
      rw [parseToMinimalNumeric_of_isDecimal hdecimal h]
      exact (minimalInteger_ok_iff (widest_of_is64Bit h hdecimal)).mpr ⟨t, hholds.2, ht, rfl⟩

/-- A platform for numbers that need none of it. -/
def silent : Platform := ⟨fun _ _ _ => .nan, fun _ _ => none⟩

/-- An odd integer of 25 bits is no number of 24, and is refused. -/
theorem request_met_iff_odd :
    (Request.number (.integer .int64) (.floating .float32) ⟨16777217, by decide⟩).Met silent :=
  (request_met_iff silent (.number (.integer .int64) (.floating .float32) ⟨16777217, by decide⟩) ⟨trivial, rfl⟩).mpr
    fun ⟨_, h⟩ => by cases h

theorem holds_one : (format .float32).Holds 1 := ⟨1, 0, 0, by decide, by decide, by decide, by norm_num⟩

theorem one_mem : IntType.min .int32 ≤ 1 ∧ (1 : Int) ≤ IntType.max .int32 := by
  decide

def complexOne : (NumericType.complex .float32).Val := (.finite 1 holds_one, zero .float32)

def integerOne : (NumericType.integer .int32).Val := (⟨1, one_mem⟩ : Integer .int32)

/-- The complex number 1 is not converted to an integer. -/
theorem complex_one_not_converted : ¬ ∀ (platform : Platform) (r : Request), r.InDomain platform → r.Met platform := by
  intro hmet
  have hone := hmet silent (.number (.complex .float32) (.integer .int32) complexOne) ⟨rfl, rfl⟩ integerOne
  have hvalue : NumericType.value _ integerOne = NumericType.value _ complexOne := by
    simp [NumericType.value, Floating.value, zero, integerOne, complexOne]
  have hok := hone.mpr hvalue
  rw [convertSafely_of_ne silent (by decide)] at hok
  exact convertNumber_complex silent (.integer .int32) _ _ hok

end

end GnuRadio.Pmt
