import Mathlib.Order.Lattice.Nat
import Mathlib.Algebra.Order.Ring.Nat

/-! Intervals of numbers that follow one another, each from its first number up to the one past its last. -/

namespace Intervals

/-- Intervals that follow one another from `a` to `b`, each of them with a number in it. -/
def Consecutive : Nat → List (Nat × Nat) → Nat → Prop
  | a, [], b => a = b
  | a, r :: rs, b => r.1 = a ∧ a < r.2 ∧ Consecutive r.2 rs b

variable {a b c : Nat} {r : Nat × Nat} {rs : List (Nat × Nat)}

namespace Consecutive

theorem le (h : Consecutive a rs b) : a ≤ b := by
  induction rs generalizing a with
  | nil => exact h.le
  | cons r rs ih =>
    obtain ⟨-, hlt, h⟩ := h
    exact hlt.le.trans (ih h)

/-- One more interval, behind the others. -/
theorem concat (h : Consecutive a rs b) (hlt : b < c) : Consecutive a (rs ++ [(b, c)]) c := by
  induction rs generalizing a with
  | nil => exact ⟨h.symm, h.trans_lt hlt, rfl⟩
  | cons r rs ih =>
    obtain ⟨hfirst, hr, h⟩ := h
    exact ⟨hfirst, hr, ih h⟩

theorem le_of_mem (h : Consecutive a rs b) (hr : r ∈ rs) : a ≤ r.1 := by
  induction rs generalizing a with
  | nil => cases hr
  | cons r' rs ih =>
    obtain ⟨hfirst, hlt, h⟩ := h
    rcases List.mem_cons.mp hr with rfl | hr
    · exact hfirst.ge
    · exact hlt.le.trans (ih h hr)

/-- They are in increasing order, and no two of them meet. -/
theorem pairwise (h : Consecutive a rs b) : rs.Pairwise fun r s => r.2 ≤ s.1 := by
  induction rs generalizing a with
  | nil => exact .nil
  | cons r rs ih =>
    obtain ⟨-, -, h⟩ := h
    exact .cons (fun s hs => h.le_of_mem hs) (ih h)

/-- The numbers from `a` up to `b` are those of the intervals. -/
theorem mem_iff (h : Consecutive a rs b) (j : Nat) : (∃ r ∈ rs, r.1 ≤ j ∧ j < r.2) ↔ a ≤ j ∧ j < b := by
  induction rs generalizing a with
  | nil =>
    obtain rfl : a = b := h
    constructor
    · rintro ⟨r, hr, -⟩
      cases hr
    · exact fun ⟨hle, hlt⟩ => absurd hlt hle.not_gt
  | cons r rs ih =>
    obtain ⟨rfl, hlt, h⟩ := h
    rw [List.exists_mem_cons_iff, ih h]
    have hle := h.le
    constructor
    · rintro (⟨hj, hj'⟩ | ⟨hj, hj'⟩)
      · exact ⟨hj, hj'.trans_le hle⟩
      · exact ⟨hlt.le.trans hj, hj'⟩
    · rintro ⟨hj, hj'⟩
      rcases Nat.lt_or_ge j r.2 with hin | hout
      · exact .inl ⟨hj, hin⟩
      · exact .inr ⟨hout, hj'⟩

end Consecutive

end Intervals

/-! Even slices: `total` items divided among `n` slices, the `k`-th of them in slice `((k + 1) * n - 1) / total`. -/

namespace Slices

variable {total n j k : Nat}

def index (total n k : Nat) : Nat := ((k + 1) * n - 1) / total

/-- How many items the slice takes. -/
def size (total n j : Nat) : Nat := (j + 1) * total / n - j * total / n

theorem index_eq_iff (hn : 0 < n) (htotal : 0 < total) :
    index total n k = j ↔ j * total < (k + 1) * n ∧ (k + 1) * n ≤ (j + 1) * total := by
  have hpos : 0 < (k + 1) * n := Nat.mul_pos (Nat.succ_pos k) hn
  have hnext : (j + 1) * total = j * total + total := Nat.succ_mul j total
  rw [index, Nat.div_eq_iff htotal, hnext]
  omega

theorem index_lt (hn : 0 < n) (hk : k < total) : index total n k < n := by
  have htotal : 0 < total := by omega
  have hpos : 0 < (k + 1) * n := Nat.mul_pos (Nat.succ_pos k) hn
  have hle : (k + 1) * n ≤ total * n := Nat.mul_le_mul_right n hk
  rw [index, Nat.div_lt_iff_lt_mul htotal, Nat.mul_comm n total]
  omega

theorem index_mono {l : Nat} (h : k ≤ l) : index total n k ≤ index total n l :=
  Nat.div_le_div_right (Nat.sub_le_sub_right (Nat.mul_le_mul_right n (Nat.succ_le_succ h)) 1)

/-- The items below a bound. -/
theorem countP_range_le (hn : 0 < n) (total bound : Nat) :
    (List.range total).countP (fun k => decide ((k + 1) * n ≤ bound)) = min total (bound / n) := by
  induction total with
  | zero => simp
  | succ total ih =>
    rw [List.range_succ, List.countP_append, ih, List.countP_singleton]
    have hiff : (total + 1) * n ≤ bound ↔ total + 1 ≤ bound / n := (Nat.le_div_iff_mul_le hn).symm
    by_cases h : total + 1 ≤ bound / n
    · rw [if_pos (decide_eq_true (hiff.mpr h))]
      omega
    · rw [if_neg (fun hd => h (hiff.mp (of_decide_eq_true hd)))]
      omega

/-- An item of a slice is below the next slice, and not below it. -/
theorem countP_index (hn : 0 < n) (hj : j < n) :
    (List.range total).countP (fun k => decide (index total n k = j)) = size total n j := by
  obtain rfl | htotal := Nat.eq_zero_or_pos total
  · simp [size]
  have hbelow (b : Nat) (hb : b ≤ n) :
      (List.range total).countP (fun k => decide ((k + 1) * n ≤ b * total)) = b * total / n := by
    have hle : b * total / n ≤ total := Nat.div_le_of_le_mul (Nat.mul_le_mul_right total hb)
    rw [countP_range_le hn, Nat.min_eq_right hle]
  have hsplit : (List.range total).countP (fun k => decide ((k + 1) * n ≤ (j + 1) * total)) =
      (List.range total).countP (fun k => decide ((k + 1) * n ≤ j * total)) +
        (List.range total).countP (fun k => decide (index total n k = j)) := by
    have hstep : j * total ≤ (j + 1) * total := Nat.mul_le_mul_right total (Nat.le_succ j)
    induction List.range total with
    | nil => rfl
    | cons k rest ih =>
      rw [List.countP_cons, List.countP_cons, List.countP_cons, ih]
      have hiff := index_eq_iff hn htotal (k := k) (j := j)
      by_cases h₁ : (k + 1) * n ≤ j * total
      · have h₂ : (k + 1) * n ≤ (j + 1) * total := h₁.trans hstep
        have h₃ : ¬ index total n k = j := fun h => absurd (hiff.mp h).1 (by omega)
        simp only [h₁, h₂, h₃, decide_true, decide_false, if_true, Bool.false_eq_true, if_false]
        omega
      · by_cases h₂ : (k + 1) * n ≤ (j + 1) * total
        · have h₃ : index total n k = j := hiff.mpr ⟨by omega, h₂⟩
          simp only [h₁, h₂, h₃, decide_true, decide_false, if_true, Bool.false_eq_true, if_false]
          omega
        · have h₃ : ¬ index total n k = j := fun h => h₂ (hiff.mp h).2
          simp only [h₁, h₂, h₃, decide_false, Bool.false_eq_true, if_false]
          omega
  have hlower := hbelow j hj.le
  have hupper := hbelow (j + 1) hj
  unfold size
  omega

/-- Each slice takes the items that everyone gets, or one more. -/
theorem le_size (hn : 0 < n) (total j : Nat) : total / n ≤ size total n j ∧ size total n j ≤ total / n + 1 := by
  unfold size
  rw [Nat.add_mul, Nat.one_mul, Nat.add_div hn]
  generalize total / n = q
  generalize j * total / n = r
  split <;> omega

end Slices
