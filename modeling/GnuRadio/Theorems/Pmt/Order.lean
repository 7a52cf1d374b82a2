import GnuRadio.Library.ThreeWay
import GnuRadio.Theorems.Pmt.Equality

/-! When equality and order of values agree. The order of values of different types goes by the value type alone, so a
    tensor counts as equivalent to each of the scalars that it may hold. Where no two values of one value type are of
    different container types, the order is a strict weak one, and equivalent values are equal. The contexts of settings
    compare both types. -/

namespace GnuRadio.Pmt

open Yaml (Bytes FloatType IntType)
open ThreeWay (Lawful byKey)

variable {std : StdHash}

/-! ### Scalars -/

theorem lawful_floatNumber : Lawful FloatNumber.threeWay := by
  have heq : FloatNumber.threeWay = byKey FloatNumber.key := by
    funext x y
    unfold FloatNumber.threeWay byKey
    cases x.key <;> cases y.key <;> rfl
  rw [heq]
  exact ThreeWay.lawful_byKey _

theorem lawful_compare {κ : Type} [Ord κ] [Std.TransOrd κ] : Lawful fun k l : κ => some (compare k l) :=
  ThreeWay.lawful_byKey some

namespace Scalar

variable {x y z : Scalar}

theorem lawful_threeWay : Lawful Scalar.threeWay where
  swap x y := by
    cases x <;> cases y <;> try rfl
    case bool.bool b c => exact lawful_compare.swap b c
    case integer.integer n _ m => exact lawful_compare.swap n m
    case floating.floating x _ y => exact lawful_floatNumber.swap x y
    case string.string s r => exact lawful_compare.swap (bytes s) (bytes r)
  lt_trans x y z hxy hyz := by
    cases x <;> cases y <;> try cases hxy
    all_goals cases z <;> try cases hyz
    case bool.bool.bool | integer.integer.integer | string.string.string => exact lawful_compare.lt_trans _ _ _ hxy hyz
    case floating.floating.floating => exact lawful_floatNumber.lt_trans _ _ _ hxy hyz
  eq_trans x y z hxy hyz := by
    cases x <;> cases y <;> try cases hxy
    all_goals cases z <;> try cases hyz
    case bool.bool.bool | integer.integer.integer | string.string.string => exact lawful_compare.eq_trans _ _ _ hxy hyz
    case floating.floating.floating => exact lawful_floatNumber.eq_trans _ _ _ hxy hyz

theorem bytes_injective {s r : Bytes} (h : bytes s = bytes r) : s = r :=
  List.map_injective_iff.mpr (fun _ _ hc => Char.toNat_inj.mp hc) h

theorem equal_of_threeWay (htype : x.valueType = y.valueType) (h : x.threeWay y = some .eq) : x.equal y = true := by
  cases x <;> cases y <;> try cases h
  case bool.bool b c => exact beq_iff_eq.mpr (compare_eq_iff_eq.mp (Option.some.inj h))
  case integer.integer t n u m =>
    obtain rfl : t = u := ValueType.integer.inj htype
    obtain rfl : n = m := compare_eq_iff_eq.mp (Option.some.inj h)
    simp [Scalar.equal]
  case floating.floating t x u y =>
    obtain rfl : t = u := ValueType.floating.inj htype
    simp only [Scalar.equal, beq_self_eq_true, Bool.true_and, FloatNumber.equal_iff]
    simp only [Scalar.threeWay, FloatNumber.threeWay] at h
    cases hx : x.key <;> cases hy : y.key <;> rw [hx, hy] at h <;> try cases h
    case some.some k l => exact ⟨k, rfl, congrArg some (compare_eq_iff_eq.mp (Option.some.inj h)).symm⟩
  case string.string s r =>
    have hbytes : bytes s = bytes r := Std.LawfulEqCmp.compare_eq_iff_eq.mp (Option.some.inj h)
    exact beq_iff_eq.mpr (bytes_injective hbytes)

end Scalar

/-! ### Types -/

/-- The type of a number. -/
def ofCode (n : Nat) : ValueType :=
  ([.monostate, .bool, .integer .int8, .integer .int16, .integer .int32, .integer .int64, .integer .uint8,
    .integer .uint16, .integer .uint32, .integer .uint64, .floating .float32, .floating .float64, .complex .float32,
    .complex .float64, .string] : List ValueType).getD n .value

theorem ofCode_code (t : ValueType) : ofCode t.code = t := by
  cases t with
  | integer t | floating t | complex t => cases t <;> rfl
  | monostate | bool | string | value => rfl

theorem code_injective {t u : ValueType} (h : t.code = u.code) : t = u := by
  rw [← ofCode_code t, h, ofCode_code]

namespace Value

variable {a b c : Value} {values : Set Value}

theorem sameTags_comm : sameTags a b = sameTags b a := by
  rw [Bool.eq_iff_iff, sameTags_iff, sameTags_iff]
  exact ⟨fun h => ⟨h.1.symm, h.2.symm⟩, fun h => ⟨h.1.symm, h.2.symm⟩⟩

theorem sameTags_trans (hab : sameTags a b = true) (hbc : sameTags b c = true) : sameTags a c = true := by
  rw [sameTags_iff] at *
  exact ⟨hab.1.trans hbc.1, hab.2.trans hbc.2⟩

theorem code_of_sameTags (h : sameTags a b = true) : a.valueType.code = b.valueType.code :=
  congrArg ValueType.code (sameTags_iff.mp h).1

theorem lawful_compareContents : Lawful compareContents where
  swap a b := by
    cases a <;> cases b <;> try rfl
    case scalar.scalar x y => exact Scalar.lawful_threeWay.swap x y
  lt_trans a b c hab hbc := by
    cases a <;> cases b <;> try cases hab
    all_goals cases c <;> try cases hbc
    case scalar.scalar.scalar => exact Scalar.lawful_threeWay.lt_trans _ _ _ hab hbc
  eq_trans a b c hab hbc := by
    cases a <;> cases b <;> try cases hab
    all_goals cases c <;> try cases hbc
    all_goals try rfl
    case scalar.scalar.scalar => exact Scalar.lawful_threeWay.eq_trans _ _ _ hab hbc

theorem threeWay_swap (a b : Value) : threeWay b a = (threeWay a b).map Ordering.swap := by
  unfold threeWay
  rw [sameTags_comm]
  split
  · exact lawful_compareContents.swap a b
  · exact congrArg some Std.OrientedCmp.eq_swap

/-! ### What is less -/

theorem less_iff :
    less a b ↔ (sameTags a b = true ∧ compareContents a b = some .lt) ∨ a.valueType.code < b.valueType.code := by
  unfold less threeWay
  split
  · next hsame =>
    have hcode := code_of_sameTags hsame
    constructor
    · exact fun h => .inl ⟨hsame, h⟩
    · rintro (⟨-, h⟩ | h)
      · exact h
      · omega
  · next hdiffer =>
    rw [Option.some.injEq, compare_lt_iff_lt]
    constructor
    · exact .inr
    · rintro (⟨hsame, -⟩ | h)
      · exact absurd hsame hdiffer
      · exact h

theorem not_less_self (a : Value) : ¬ less a a := by
  rw [less_iff]
  rintro (⟨-, h⟩ | h)
  · exact lawful_compareContents.irrefl a h
  · exact Nat.lt_irrefl _ h

theorem less_trans (hab : less a b) (hbc : less b c) : less a c := by
  rw [less_iff] at *
  rcases hab with ⟨hsame, hab⟩ | hab
  · rcases hbc with ⟨hsame', hbc⟩ | hbc
    · exact .inl ⟨sameTags_trans hsame hsame', lawful_compareContents.lt_trans _ _ _ hab hbc⟩
    · exact .inr (code_of_sameTags hsame ▸ hbc)
  · rcases hbc with ⟨hsame', hbc⟩ | hbc
    · exact .inr (code_of_sameTags hsame' ▸ hab)
    · exact .inr (Nat.lt_trans hab hbc)

/-! ### What is equivalent -/

/-- Values of one type, with equivalent contents. -/
def Equivalent (a b : Value) : Prop := sameTags a b = true ∧ compareContents a b = some .eq

theorem Equivalent.trans (hab : Equivalent a b) (hbc : Equivalent b c) : Equivalent a c :=
  ⟨sameTags_trans hab.1 hbc.1, lawful_compareContents.eq_trans _ _ _ hab.2 hbc.2⟩

theorem Equivalent.symm (h : Equivalent a b) : Equivalent b a :=
  ⟨sameTags_comm ▸ h.1, lawful_compareContents.eq_symm h.2⟩

theorem Equivalent.not_less (h : Equivalent a b) : ¬ less a b := by
  have heq : threeWay a b = some .eq := (if_pos h.1).trans h.2
  unfold less
  rw [heq]
  exact nofun

theorem equal_of_equivalent (h : Equivalent a b) : equal a b = true := by
  obtain ⟨htags, heq⟩ := h
  cases a <;> cases b <;> try cases heq
  case monostate.monostate => exact equal_monostate_iff.mpr rfl
  case scalar.scalar x y =>
    exact equal_scalar_iff.mpr ⟨y, rfl, Scalar.equal_of_threeWay (sameTags_iff.mp htags).1 heq⟩

/-- Where the value types tell the container types, nothing else is equivalent. -/
theorem equivalent_of_threeWay (hsep : Separated values) (ha : a ∈ values) (hb : b ∈ values)
    (h : threeWay a b = some .eq) : Equivalent a b := by
  unfold threeWay at h
  split at h
  · next hsame => exact ⟨hsame, h⟩
  · next hdiffer =>
    have hcode : a.valueType.code = b.valueType.code := compare_eq_iff_eq.mp (Option.some.inj h)
    have hvalue := code_injective hcode
    exact absurd (sameTags_iff.mpr ⟨hvalue, hsep a ha b hb hvalue⟩) hdiffer

theorem equivalent_of_not_less (hsep : Separated values) (hcomparable : PairwiseComparable values) (ha : a ∈ values)
    (hb : b ∈ values) (hab : ¬ less a b) (hba : ¬ less b a) : a = b ∨ Equivalent a b := by
  by_cases hne : a = b
  · exact .inl hne
  · obtain ⟨o, ho⟩ := Option.isSome_iff_exists.mp (hcomparable a ha b hb hne)
    cases o with
    | lt => exact absurd ho hab
    | eq => exact .inr (equivalent_of_threeWay hsep ha hb ho)
    | gt =>
      refine absurd ?_ hba
      unfold less
      rw [threeWay_swap a b, ho]
      rfl

theorem strictWeakOrder (hsep : Separated values) (hcomparable : PairwiseComparable values) :
    StrictWeakOrder values where
  irrefl a _ := not_less_self a
  trans _ _ _ _ _ _ hab hbc := less_trans hab hbc
  incomparable a ha b hb c hc hab hba hbc hcb := by
    have hac : a = c ∨ Equivalent a c := by
      rcases equivalent_of_not_less hsep hcomparable ha hb hab hba with rfl | hab
      · exact equivalent_of_not_less hsep hcomparable ha hc hbc hcb
      · rcases equivalent_of_not_less hsep hcomparable hb hc hbc hcb with rfl | hbc
        · exact .inr hab
        · exact .inr (hab.trans hbc)
    rcases hac with rfl | hac
    · exact ⟨not_less_self a, not_less_self a⟩
    · exact ⟨hac.not_less, hac.symm.not_less⟩

/-! ### Agreement -/

theorem agree_of_separated (hproper : ∀ v ∈ values, v.Proper) (hsep : Separated values) : Agree std values where
  refl a ha := equal_self (hproper a ha)
  symm a ha b hb h := equal_symm (hproper a ha).wellFormed (hproper b hb).wellFormed h
  trans _ _ _ _ _ _ hab hbc := equal_trans hab hbc
  hash a ha b hb h := hash_eq (hproper a ha).wellFormed (hproper b hb).wellFormed h
  equivalent _ ha _ hb h := equal_of_equivalent (equivalent_of_threeWay hsep ha hb h)
  order hcomparable := strictWeakOrder hsep hcomparable

/-- Values of one value type and different container types are equivalent, and never equal. -/
theorem separated_of_agree (h : Agree std values) : Separated values := by
  intro a ha b hb hvalue
  by_contra hcontainer
  have hdiffer : ¬ sameTags a b = true := fun hsame => hcontainer (sameTags_iff.mp hsame).2
  have hequivalent : threeWay a b = some .eq := by
    rw [threeWay, if_neg hdiffer, hvalue]
    exact congrArg some (compare_eq_iff_eq.mpr rfl)
  exact hdiffer (sameTags_of_equal (h.equivalent a ha b hb hequivalent))

end Value

/-! ### Contexts of settings -/

namespace SettingsCtx

variable {a b : SettingsCtx}

/-- Plain contexts are ordered, each against the other, and equivalent only to themselves. -/
theorem comparePmt_plain (ha : a.Plain) (hb : b.Plain) :
    ∃ o, comparePmt a.context b.context = some o ∧ comparePmt b.context a.context = some o.swap ∧
      (o = .eq ↔ a.context = b.context) := by
  rcases ha with ⟨s, ha⟩ | ⟨n, ha⟩ <;> rcases hb with ⟨r, hb⟩ | ⟨m, hb⟩ <;> rw [ha, hb]
  · refine ⟨compare (bytes s) (bytes r), rfl, congrArg some Std.OrientedCmp.eq_swap, ?_⟩
    rw [Std.LawfulEqCmp.compare_eq_iff_eq]
    constructor
    · exact fun h => congrArg (Value.scalar ∘ Scalar.string) (Scalar.bytes_injective h)
    · exact fun h => congrArg bytes (Scalar.string.inj (Value.scalar.inj h))
  · exact ⟨.gt, rfl, rfl, by simp⟩
  · exact ⟨.lt, rfl, rfl, by simp⟩
  · refine ⟨compare n m, rfl, congrArg some Std.OrientedCmp.eq_swap, ?_⟩
    rw [compare_eq_iff_eq]
    constructor
    · exact fun h => congrArg (Value.scalar ∘ Scalar.integer .int32) h
    · exact fun h => (Scalar.integer.inj (Value.scalar.inj h)).2

theorem equal_plain (ha : a.Plain) (hb : b.Plain) : a.context.equal b.context = true ↔ a.context = b.context := by
  rcases ha with ⟨s, ha⟩ | ⟨n, ha⟩ <;> rcases hb with ⟨r, hb⟩ | ⟨m, hb⟩ <;> rw [ha, hb, Value.equal_scalar_iff] <;>
    simp [Scalar.equal]

theorem less_iff :
    less a b ↔ a.time < b.time ∨ (a.time = b.time ∧ comparePmt a.context b.context = some .lt) := by
  unfold less threeWay
  by_cases htime : a.time = b.time
  · rw [if_neg (not_not.mpr htime), htime]
    simp
  · rw [if_pos htime, Option.some.injEq, compare_lt_iff_lt]
    omega

theorem agree_of_plain (ha : a.Plain) (hb : b.Plain) : Agree std a b where
  equal_iff := by
    obtain ⟨o, hab, hba, heq⟩ := comparePmt_plain ha hb
    rw [less_iff, less_iff, hab, hba, equal, Bool.and_eq_true, beq_iff_eq, equal_plain ha hb, ← heq]
    constructor
    · rintro ⟨htime, rfl⟩
      simp [htime]
    · rintro ⟨hab, hba⟩
      have htime : a.time = b.time := by omega
      refine ⟨htime, ?_⟩
      cases o with
      | eq => rfl
      | lt => exact absurd (.inr ⟨htime, rfl⟩) hab
      | gt => exact absurd (.inr ⟨htime.symm, rfl⟩) hba
  hash h := by
    rw [equal, Bool.and_eq_true, beq_iff_eq, equal_plain ha hb] at h
    rw [hash, hash, h.1, h.2]

end SettingsCtx

/-! ### Where they agree -/

/-- Equality, hash and order agree on a set of values if and only if the value types in it tell the container types. They
    agree on the contexts of settings. -/
theorem agree_iff_separated (std : StdHash) (values : Set Value) (hproper : ∀ v ∈ values, v.Proper) :
    (Value.Agree std values ↔ Value.Separated values) ∧
      ∀ a b : SettingsCtx, a.Plain → b.Plain → SettingsCtx.Agree std a b :=
  ⟨⟨Value.separated_of_agree, Value.agree_of_separated hproper⟩, fun _ _ => SettingsCtx.agree_of_plain⟩

/-- Hashes that tell nothing apart. -/
def constantHash : StdHash := ⟨fun _ => 0, fun _ _ => 0, fun _ _ => 0, fun _ => 0, fun _ _ _ _ => rfl⟩

/-- The integers. -/
theorem agree_iff_separated_integers :
    Value.Agree constantHash { v | ∃ n, v = .scalar (.integer .int32 n) } := by
  refine (agree_iff_separated constantHash _ ?_).1.mpr ?_
  · rintro v ⟨n, rfl⟩
    exact ⟨trivial, trivial⟩
  · rintro a ⟨n, rfl⟩ b ⟨m, rfl⟩ -
    rfl

/-- A tensor of integers is equivalent to the integer 1 and to 2, of which one is less than the other, and equals
    neither. -/
theorem tensor_equivalent_to_scalars :
    ∃ one two tensor : Value, one.Proper ∧ two.Proper ∧ tensor.Proper ∧
      one.less two ∧ one.threeWay tensor = some .eq ∧ tensor.threeWay two = some .eq ∧ one.equal tensor = false :=
  ⟨.scalar (.integer .int32 1), .scalar (.integer .int32 2), .tensor (.integer .int32) [0] [],
    ⟨trivial, trivial⟩, ⟨trivial, trivial⟩, ⟨trivial, nofun⟩, rfl, rfl, rfl, rfl⟩

end GnuRadio.Pmt
