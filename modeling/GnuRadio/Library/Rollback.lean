import Mathlib.Data.List.Basic

/-! A change made to the members of a list one after the other. A member that refuses it ends the change, and the members
    changed before it are restored in the same order, up to one that refuses that. -/

namespace Rollback

universe u v w

variable {α : Type u} {μ : Type v} {β : Type w} (change : α → Option (α × μ)) (restore : α → μ → Option α)

/-- The members that are changed, each with what is noted of it, and the members from the refusing one on. -/
def changeAll : List α → List (α × μ) × List α
  | [] => ([], [])
  | a :: l =>
    match change a with
    | some c => (c :: (changeAll l).1, (changeAll l).2)
    | none => ([], a :: l)

/-- The changed members after the restoring, and how many of them are restored. -/
def restoreAll : List (α × μ) → List α × Nat
  | [] => ([], 0)
  | c :: l =>
    match restore c.1 c.2 with
    | some a => (a :: (restoreAll l).1, (restoreAll l).2 + 1)
    | none => (c.1 :: l.map Prod.fst, 0)

variable {change restore}

theorem changeAll_eq (l : List α) :
    changeAll change l = ((l.takeWhile fun a => (change a).isSome).filterMap change,
      l.dropWhile fun a => (change a).isSome) := by
  induction l with
  | nil => rfl
  | cons a l ih =>
    rw [changeAll]
    cases h : change a with
    | none => simp [h]
    | some c => simp [h, ih]

/-- What can be seen of the members is as before the change. -/
theorem map_restoreAll_eq_iff {f : α → β} {refuses : α → Bool} {l : List α} {changed : α → α × μ}
    (hchange : ∀ a ∈ l, change a = some (changed a))
    (hrefuses : ∀ a ∈ l, refuses a = (restore (changed a).1 (changed a).2).isNone) :
    (restoreAll restore (l.filterMap change)).1.map f = l.map f ↔
      (∀ a ∈ l.takeWhile (!refuses ·), (restore (changed a).1 (changed a).2).map f = some (f a)) ∧
        ∀ a ∈ l.dropWhile (!refuses ·), f (changed a).1 = f a := by
  induction l with
  | nil => simp [restoreAll]
  | cons a l ih =>
    have ih := ih (fun b hb => hchange b (List.mem_cons_of_mem a hb)) fun b hb => hrefuses b (List.mem_cons_of_mem a hb)
    rw [List.filterMap_cons_some (hchange a (.head _)), restoreAll]
    have href := hrefuses a (.head _)
    cases hr : restore (changed a).1 (changed a).2 with
    | some b =>
      rw [hr] at href
      simp only [List.map_cons, List.cons.injEq, ih, List.takeWhile_cons, List.dropWhile_cons, href, Option.isNone_some,
        Bool.not_false, if_true, List.forall_mem_cons, hr, Option.map_some, Option.some.injEq, and_assoc]
    | none =>
      rw [hr] at href
      have hmap : (l.filterMap change).map Prod.fst = l.map fun b => (changed b).1 := by
        rw [List.map_filterMap, ← List.filterMap_eq_map]
        refine List.filterMap_congr fun b hb => ?_
        rw [hchange b (List.mem_cons_of_mem a hb)]
        rfl
      simp only [List.map_cons, List.cons.injEq, hmap, List.map_map, List.takeWhile_cons, List.dropWhile_cons, href,
        Option.isNone_none, Bool.not_true, Bool.false_eq_true, if_false, List.forall_mem_cons, List.not_mem_nil,
        false_imp_iff, implies_true, true_and, List.map_inj_left, Function.comp_apply]

theorem restoreAll_snd {l : List (α × μ)} :
    (restoreAll restore l).2 = (l.takeWhile fun c => (restore c.1 c.2).isSome).length := by
  induction l with
  | nil => rfl
  | cons c l ih =>
    rw [restoreAll]
    cases h : restore c.1 c.2 with
    | none => simp [h]
    | some a => simp [h, ih]

end Rollback
