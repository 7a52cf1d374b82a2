import Mathlib.Data.List.Induction
import Mathlib.Order.Lattice

/-! A queue that gives its entries out by key, the greatest first, and entries of one key as they came. It may be kept as a
    list of the entries as they came, or as a list in the order in which they leave. -/

namespace StableQueue

universe u v

variable {α : Type u} {κ : Type v} [LinearOrder κ] (key : α → κ)

/-- Behind the entries of no lesser key. -/
def insert (q : List α) (x : α) : List α :=
  q.takeWhile (key x ≤ key ·) ++ x :: q.dropWhile (key x ≤ key ·)

/-- The entries of a list in the order in which they leave. -/
def ordered (q : List α) : List α := q.foldl (insert key) []

/-- Of the entries as they came, `x` leaves next: no entry has a greater key, and none before it an equal one. -/
structure Next (before : List α) (x : α) (after : List α) : Prop where
  lt : ∀ y ∈ before, key y < key x
  le : ∀ y ∈ after, key y ≤ key x

variable {key} {q : List α} {x a : α}

theorem insert_cons : insert key (a :: q) x = if key x ≤ key a then a :: insert key q x else x :: a :: q := by
  unfold insert
  by_cases h : key x ≤ key a
  · simp [h]
  · simp [h]

/-- A place behind entries of no lesser key and before one of a lesser key is where an entry is inserted. -/
theorem insert_append {l r : List α} (hl : ∀ y ∈ l, key x ≤ key y) (hr : ∀ y ∈ r.head?, key y < key x) :
    insert key (l ++ r) x = l ++ x :: r := by
  induction l with
  | nil =>
    cases r with
    | nil => rfl
    | cons y r => rw [List.nil_append, insert_cons, if_neg (not_le.mpr (hr y rfl)), List.nil_append]
  | cons a l ih =>
    rw [List.cons_append, insert_cons, if_pos (hl a (.head _)), ih fun y hy => hl y (List.mem_cons_of_mem a hy)]
    rfl

theorem exists_insert_eq (key : α → κ) (q : List α) (x : α) :
    ∃ l r, q = l ++ r ∧ insert key q x = l ++ x :: r ∧ (∀ y ∈ l, key x ≤ key y) ∧ ∀ y ∈ r.head?, key y < key x := by
  induction q with
  | nil => exact ⟨[], [], rfl, rfl, by simp, by simp⟩
  | cons a q ih =>
    rw [insert_cons]
    split
    · rename_i hle
      obtain ⟨l, r, rfl, hins, hl, hr⟩ := ih
      refine ⟨a :: l, r, rfl, by rw [hins, List.cons_append], fun y hy => ?_, hr⟩
      rcases List.mem_cons.mp hy with rfl | hy
      · exact hle
      · exact hl y hy
    · rename_i hlt
      refine ⟨[], a :: q, rfl, rfl, by simp, fun y hy => ?_⟩
      rw [List.head?_cons, Option.mem_some_iff] at hy
      exact hy ▸ lt_of_not_ge hlt

theorem perm_insert : (insert key q x).Perm (x :: q) := by
  unfold insert
  refine List.perm_middle.trans ?_
  rw [List.takeWhile_append_dropWhile]

theorem ordered_concat : ordered key (q ++ [x]) = insert key (ordered key q) x := by
  simp [ordered]

theorem perm_ordered (key : α → κ) (q : List α) : (ordered key q).Perm q := by
  induction q using List.reverseRecOn with
  | nil => exact .nil
  | append_singleton q x ih =>
    rw [ordered_concat]
    exact perm_insert.trans ((ih.cons x).trans (List.perm_append_singleton x q).symm)

theorem mem_ordered : x ∈ ordered key q ↔ x ∈ q := (perm_ordered key q).mem_iff

theorem pairwise_insert (h : q.Pairwise (key · ≥ key ·)) : (insert key q x).Pairwise (key · ≥ key ·) := by
  induction q with
  | nil => simp [insert]
  | cons a q ih =>
    obtain ⟨ha, hq⟩ := List.pairwise_cons.mp h
    rw [insert_cons]
    split
    · rename_i hxa
      refine List.pairwise_cons.mpr ⟨fun y hy => ?_, ih hq⟩
      rcases List.mem_cons.mp (perm_insert.mem_iff.mp hy) with rfl | hy
      · exact hxa
      · exact ha y hy
    · rename_i hxa
      refine List.pairwise_cons.mpr ⟨fun y hy => ?_, h⟩
      rcases List.mem_cons.mp hy with rfl | hy
      · exact (lt_of_not_ge hxa).le
      · exact (ha y hy).trans (lt_of_not_ge hxa).le

theorem pairwise_ordered (key : α → κ) (q : List α) : (ordered key q).Pairwise (key · ≥ key ·) := by
  induction q using List.reverseRecOn with
  | nil => exact .nil
  | append_singleton q x ih =>
    rw [ordered_concat]
    exact pairwise_insert ih

theorem ordered_eq_nil : ordered key q = [] ↔ q = [] := by
  constructor
  · intro h
    have := perm_ordered key q
    rw [h] at this
    exact this.nil_eq.symm
  · rintro rfl
    rfl

/-- The first of the ordered entries is the one that leaves next, and the others are ordered without it. -/
theorem next_of_ordered {c : List α} (h : ordered key q = a :: c) :
    ∃ l r, q = l ++ a :: r ∧ Next key l a r ∧ ordered key (l ++ r) = c := by
  induction q using List.reverseRecOn generalizing a c with
  | nil => cases h
  | append_singleton q x ih =>
    rw [ordered_concat] at h
    cases hq : ordered key q with
    | nil =>
      rw [hq] at h
      cases h
      have := ordered_eq_nil.mp hq
      subst this
      exact ⟨[], [], rfl, ⟨by simp, by simp⟩, rfl⟩
    | cons b c' =>
      rw [hq, insert_cons] at h
      split at h
      · rename_i hle
        cases h
        obtain ⟨l, r, rfl, hnext, hord⟩ := ih hq
        refine ⟨l, r ++ [x], by simp, ⟨hnext.lt, fun y hy => ?_⟩, ?_⟩
        · rcases List.mem_append.mp hy with hy | hy
          · exact hnext.le y hy
          · rw [List.mem_singleton.mp hy]
            exact hle
        · rw [← List.append_assoc, ordered_concat, hord]
      · rename_i hlt
        cases h
        refine ⟨q, [], rfl, ⟨fun y hy => ?_, by simp⟩, by rw [List.append_nil, hq]⟩
        -- the first of the ordered entries is the greatest
        have hall := pairwise_ordered key q
        rw [hq] at hall
        have hy' := (mem_ordered : y ∈ ordered key q ↔ y ∈ q).mpr hy
        rw [hq] at hy'
        rcases List.mem_cons.mp hy' with rfl | hy'
        · exact lt_of_not_ge hlt
        · exact ((List.pairwise_cons.mp hall).1 y hy').trans_lt (lt_of_not_ge hlt)

end StableQueue
