import Mathlib.Algebra.BigOperators.Group.List.Basic
import Mathlib.Algebra.Order.Group.Nat
import Mathlib.Algebra.Ring.Nat

/-! Lists that stand in a relation element by element, such as one and the same that has grown. -/

namespace Pointwise

universe u v w

section
variable {α : Type u} {R : α → α → Prop} {l : List α}

theorem forall₂_modify {f : α → α} {i : Nat} (refl : ∀ a, R a a) (h : ∀ a, R a (f a)) :
    List.Forall₂ R l (l.modify i f) := by
  induction l generalizing i with
  | nil =>
    cases i <;> exact .nil
  | cons a l ih =>
    cases i with
    | zero => exact .cons (h a) (List.forall₂_same.mpr fun b _ => refl b)
    | succ i => exact .cons (refl a) ih

theorem forall₂_mapIdx {f : Nat → α → α} (h : ∀ i a, R a (f i a)) : List.Forall₂ R l (l.mapIdx f) := by
  induction l generalizing f with
  | nil => exact .nil
  | cons a l ih =>
    rw [List.mapIdx_cons]
    exact .cons (h 0 a) (ih fun i => h (i + 1))

theorem forall₂_map {f : α → α} (h : ∀ a, R a (f a)) : List.Forall₂ R l (l.map f) := by
  rw [List.forall₂_map_right_iff]
  exact List.forall₂_same.mpr fun a _ => h a

end

theorem forall₂_trans {α : Type u} {β : Type v} {γ : Type w} {R : α → β → Prop} {S : β → γ → Prop} {T : α → γ → Prop}
    {l : List α} {m : List β} {n : List γ} (h : List.Forall₂ R l m) (h' : List.Forall₂ S m n)
    (trans : ∀ a b c, R a b → S b c → T a c) : List.Forall₂ T l n := by
  induction h generalizing n with
  | nil =>
    cases h'
    exact .nil
  | cons hab _ ih =>
    cases h' with
    | cons hbc h' => exact .cons (trans _ _ _ hab hbc) (ih h')

theorem sum_le_of_forall₂ {l m : List Nat} (h : List.Forall₂ (· ≤ ·) l m) : l.sum ≤ m.sum := by
  induction h with
  | nil => exact le_rfl
  | cons hab _ ih => simpa using Nat.add_le_add hab ih

/-- Numbers that have grown and have the same sum are the same. -/
theorem eq_of_forall₂_of_sum_le {l m : List Nat} (h : List.Forall₂ (· ≤ ·) l m) (hsum : m.sum ≤ l.sum) : l = m := by
  induction h with
  | nil => rfl
  | @cons a b l m hab hlm ih =>
    have hle := sum_le_of_forall₂ hlm
    simp only [List.sum_cons] at hsum
    obtain rfl : a = b := by omega
    rw [ih (by omega)]

/-- The elements with a property get no more where none gets it. -/
theorem length_filter_le {α : Type u} {p q : α → Prop} [DecidablePred p] [DecidablePred q] (h : ∀ a, q a → p a) (l : List α) :
    (l.filter fun a => decide (q a)).length ≤ (l.filter fun a => decide (p a)).length :=
  (List.monotone_filter_right l fun a ha => by
    rw [decide_eq_true_eq] at ha ⊢
    exact h a ha).length_le

/-- They get fewer where one of the list loses it. -/
theorem length_filter_lt {α : Type u} {p q : α → Prop} [DecidablePred p] [DecidablePred q] (h : ∀ a, q a → p a) {l : List α}
    {a : α} (ha : a ∈ l) (hp : p a) (hq : ¬ q a) :
    (l.filter fun a => decide (q a)).length < (l.filter fun a => decide (p a)).length := by
  have hsub : (l.filter fun a => decide (q a)).Sublist (l.filter fun a => decide (p a)) :=
    List.monotone_filter_right l fun a ha => by
      rw [decide_eq_true_eq] at ha ⊢
      exact h a ha
  refine lt_of_le_of_ne hsub.length_le fun he => ?_
  have hmem : a ∈ l.filter fun a => decide (p a) := List.mem_filter.mpr ⟨ha, decide_eq_true hp⟩
  rw [← hsub.eq_of_length he] at hmem
  exact hq (of_decide_eq_true (List.mem_filter.mp hmem).2)

end Pointwise
