import Mathlib.Order.Defs.LinearOrder

/-! Three-way comparisons that may leave two values unordered. A comparison is lawful if it turns round with its arguments
    and the values that it finds less, or equivalent, form chains. -/

namespace ThreeWay

variable {α β κ : Type}

structure Lawful (cmp : α → α → Option Ordering) : Prop where
  swap : ∀ x y, cmp y x = (cmp x y).map Ordering.swap
  lt_trans : ∀ x y z, cmp x y = some .lt → cmp y z = some .lt → cmp x z = some .lt
  eq_trans : ∀ x y z, cmp x y = some .eq → cmp y z = some .eq → cmp x z = some .eq

variable {cmp : α → α → Option Ordering} {x y z : α}

theorem Lawful.eq_symm (h : Lawful cmp) (hxy : cmp x y = some .eq) : cmp y x = some .eq := by
  rw [h.swap, hxy]
  rfl

/-- Nothing is less than itself. -/
theorem Lawful.irrefl (h : Lawful cmp) (x : α) : cmp x x ≠ some .lt := by
  intro hlt
  have hswap := h.swap x x
  rw [hlt] at hswap
  cases hswap

section
variable [Ord κ]

/-- The comparison of the keys that values have. -/
def byKey (key : α → Option κ) (x y : α) : Option Ordering :=
  (key x).bind fun k => (key y).map fun l => compare k l

theorem byKey_eq_some {key : α → Option κ} {o : Ordering} :
    byKey key x y = some o ↔ ∃ k l, key x = some k ∧ key y = some l ∧ compare k l = o := by
  simp [byKey, Option.bind_eq_some_iff, Option.map_eq_some_iff]

theorem lawful_byKey [Std.TransOrd κ] (key : α → Option κ) : Lawful (byKey key) where
  swap x y := by
    unfold byKey
    cases key x with
    | none => cases key y <;> rfl
    | some k =>
      cases key y with
      | none => rfl
      | some l => exact congrArg some Std.OrientedCmp.eq_swap
  lt_trans x y z hxy hyz := by
    obtain ⟨k, l, hk, hl, hkl⟩ := byKey_eq_some.mp hxy
    obtain ⟨l', m, hl', hm, hlm⟩ := byKey_eq_some.mp hyz
    cases hl.symm.trans hl'
    exact byKey_eq_some.mpr ⟨k, m, hk, hm, Std.TransCmp.lt_trans hkl hlm⟩
  eq_trans x y z hxy hyz := by
    obtain ⟨k, l, hk, hl, hkl⟩ := byKey_eq_some.mp hxy
    obtain ⟨l', m, hl', hm, hlm⟩ := byKey_eq_some.mp hyz
    cases hl.symm.trans hl'
    exact byKey_eq_some.mpr ⟨k, m, hk, hm, Std.TransCmp.eq_trans hkl hlm⟩

end

end ThreeWay
