import Mathlib.Data.Finset.Card

/-! The local states of threads, in the order in which the threads began. A step begins a thread or changes one, and every
    total over the threads follows: a counter that the threads keep is such a total. -/

namespace Roster

universe u

variable {β : Type u} {w v : β → Int} {l : List β} {i : Nat} {a b : β}

/-- The sum of a weight over the threads. -/
def total (w : β → Int) : List β → Int
  | [] => 0
  | b :: l => w b + total w l

@[simp] theorem total_nil : total w [] = 0 := rfl

@[simp] theorem total_cons : total w (b :: l) = w b + total w l := rfl

theorem total_append : total w (l ++ [b]) = total w l + w b := by
  induction l with
  | nil => simp
  | cons c l ih =>
    rw [List.cons_append, total_cons, total_cons, ih]
    omega

theorem total_set (h : l[i]? = some a) (b : β) : total w (l.set i b) = total w l - w a + w b := by
  induction l generalizing i with
  | nil => simp at h
  | cons c l ih =>
    cases i with
    | zero =>
      cases h
      rw [List.set_cons_zero, total_cons, total_cons]
      omega
    | succ i =>
      rw [List.set_cons_succ, total_cons, total_cons, ih h]
      omega

theorem total_nonneg (h : ∀ b, 0 ≤ w b) : 0 ≤ total w l := by
  induction l with
  | nil => exact Int.le_refl 0
  | cons c l ih =>
    have := h c
    rw [total_cons]
    omega

/-- No thread has more than all of them together. -/
theorem le_total (hw : ∀ b, 0 ≤ w b) (h : l[i]? = some a) : w a ≤ total w l := by
  induction l generalizing i with
  | nil => simp at h
  | cons c l ih =>
    have hc := hw c
    have hl : 0 ≤ total w l := total_nonneg hw
    rw [total_cons]
    cases i with
    | zero =>
      cases h
      omega
    | succ i =>
      have := ih h
      omega

theorem total_eq_zero (h : ∀ b ∈ l, w b = 0) : total w l = 0 := by
  induction l with
  | nil => rfl
  | cons c l ih =>
    rw [total_cons, h c (.head _), ih fun b hb => h b (List.mem_cons_of_mem c hb)]
    rfl

/-- The threads with weight are one thread. -/
theorem total_eq_of_only (h : l[i]? = some a) (hother : ∀ j b, j ≠ i → l[j]? = some b → w b = 0) : total w l = w a := by
  induction l generalizing i with
  | nil => simp at h
  | cons c l ih =>
    rw [total_cons]
    cases i with
    | zero =>
      cases h
      rw [total_eq_zero fun b hb => ?_, Int.add_zero]
      obtain ⟨j, hj⟩ := List.mem_iff_getElem?.mp hb
      exact hother (j + 1) b (Nat.succ_ne_zero j) hj
    | succ i =>
      rw [hother 0 c (Nat.succ_ne_zero i).symm rfl, ih h fun j b hj => hother (j + 1) b (by omega)]
      exact Int.zero_add _

theorem total_add : total (fun b => w b + v b) l = total w l + total v l := by
  induction l with
  | nil => rfl
  | cons c l ih =>
    rw [total_cons, total_cons, total_cons, ih]
    omega

/-- The number of threads at a place is a total. -/
theorem total_toInt (P : β → Bool) : total (fun b => (P b).toInt) l = l.countP P := by
  induction l with
  | nil => rfl
  | cons c l ih =>
    rw [total_cons, ih, List.countP_cons]
    cases P c
    · simp
    · simp [Int.add_comm]

/-! ### Facts about each thread -/

variable {P : Nat → β → Prop}

theorem forall_set (hi : P i b) (h : ∀ j c, j ≠ i → l[j]? = some c → P j c) :
    ∀ j c, (l.set i b)[j]? = some c → P j c := by
  intro j c hc
  obtain rfl | hj := eq_or_ne i j
  · obtain ⟨hlen, rfl⟩ := List.getElem?_eq_some_iff.mp hc
    rwa [List.getElem_set_self]
  · rw [List.getElem?_set_ne hj] at hc
    exact h j c hj.symm hc

theorem forall_append (hb : P l.length b) (h : ∀ j c, l[j]? = some c → P j c) :
    ∀ j c, (l ++ [b])[j]? = some c → P j c := by
  intro j c hc
  rw [List.getElem?_append] at hc
  split at hc
  · exact h j c hc
  · obtain ⟨hlen, rfl⟩ := List.getElem?_eq_some_iff.mp hc
    have hj : j = l.length := by
      rw [List.length_singleton] at hlen
      omega
    rw [List.getElem_singleton]
    exact hj ▸ hb

end Roster

/-! Counters of the threads that are at certain places: a counter that each thread raises when it gets to such a place
    and lowers when it leaves counts them, in whatever order they come and go. -/

universe u v

/-- `n` threads are at a place with `P`. -/
def Counted {ι : Type u} {β : Type v} (P : β → Prop) (f : ι → β) (n : Nat) : Prop :=
  ∃ S : Finset ι, (∀ i, i ∈ S ↔ P (f i)) ∧ S.card = n

namespace Counted

variable {ι : Type u} {β : Type v} {P : β → Prop} {f : ι → β} {n : Nat}

theorem none (h : ∀ i, ¬ P (f i)) : Counted P f 0 := ⟨∅, fun i => by simp [h i], rfl⟩

theorem pos {i : ι} (h : Counted P f n) (hi : P (f i)) : 0 < n := by
  obtain ⟨S, hS, rfl⟩ := h
  exact Finset.card_pos.mpr ⟨i, (hS i).mpr hi⟩

theorem exists_of_ne (h : Counted P f n) (hn : n ≠ 0) : ∃ i, P (f i) := by
  obtain ⟨S, hS, rfl⟩ := h
  obtain ⟨i, hi⟩ := Finset.card_ne_zero.mp hn
  exact ⟨i, (hS i).mp hi⟩

variable [DecidableEq ι] {i : ι} {b : β}

theorem keep (h : Counted P f n) (hb : P b ↔ P (f i)) : Counted P (Function.update f i b) n := by
  obtain ⟨S, hS, hn⟩ := h
  refine ⟨S, fun j => ?_, hn⟩
  rcases eq_or_ne j i with rfl | hj
  · rw [Function.update_self, hS j, hb]
  · rw [Function.update_of_ne hj, hS j]

theorem enter (h : Counted P f n) (hi : ¬ P (f i)) (hb : P b) : Counted P (Function.update f i b) (n + 1) := by
  obtain ⟨S, hS, hn⟩ := h
  refine ⟨insert i S, fun j => ?_, ?_⟩
  · rw [Finset.mem_insert]
    rcases eq_or_ne j i with rfl | hj
    · rw [Function.update_self]
      exact iff_of_true (.inl rfl) hb
    · rw [Function.update_of_ne hj, hS j]
      exact or_iff_right hj
  · rw [Finset.card_insert_of_notMem (mt (hS i).mp hi), hn]

theorem leave (h : Counted P f n) (hi : P (f i)) (hb : ¬ P b) : Counted P (Function.update f i b) (n - 1) := by
  obtain ⟨S, hS, hn⟩ := h
  refine ⟨S.erase i, fun j => ?_, ?_⟩
  · rw [Finset.mem_erase]
    rcases eq_or_ne j i with rfl | hj
    · rw [Function.update_self]
      exact iff_of_false (fun hj => hj.1 rfl) hb
    · rw [Function.update_of_ne hj, hS j]
      exact and_iff_right hj
  · rw [Finset.card_erase_of_mem ((hS i).mpr hi), hn]

end Counted
