import GnuRadio.Block.SimdDispatch
import GnuRadio.Library.Intervals

/-! The SIMD calls of a work call cover its samples, each of them once, and write what the scalar loop writes. What is left
    behind the whole widths is less than a width, so at most one call of each halved width covers it. -/

namespace GnuRadio.SimdDispatch

open Intervals (Consecutive)

variable {ι κ : Type} {α : ι → Type} {β : κ → Type} {f : ProcessOne α β} {inputs inputs' : ∀ p, Nat → α p}
  {outputs : ∀ q, Nat → β q} {w : Work β} {n i : Nat}

/-- The output spans when the function has been called for the indices below `i`. -/
def processed (f : ProcessOne α β) (inputs : ∀ p, Nat → α p) (outputs : ∀ q, Nat → β q) (i : Nat) : ∀ q, Nat → β q :=
  fun q j => if j < i then f.scalar (fun p => inputs p j) q else outputs q j

theorem invokeProcessOnePure_eq : invokeProcessOnePure f inputs n outputs = processed f inputs outputs n := by
  induction n with
  | zero => rfl
  | succ n ih =>
    have hlast : invokeProcessOnePure f inputs (n + 1) outputs =
        callPure f inputs (invokeProcessOnePure f inputs n outputs) n := by
      rw [invokeProcessOnePure, List.range_succ, List.foldl_append]
      rfl
    rw [hlast, ih]
    funext q j
    unfold callPure processed
    rcases Nat.lt_trichotomy j n with hj | rfl | hj
    · rw [if_neg hj.ne, if_pos hj, if_pos (hj.trans n.lt_succ_self)]
    · rw [if_pos rfl, if_pos j.lt_succ_self]
    · rw [if_neg hj.ne', if_neg hj.not_gt, if_neg (Nat.not_lt.mpr hj)]

/-! ### The SIMD calls -/

/-- The calls so far are those of the indices below the next one, of which there are at most `n`. -/
structure Progress (f : ProcessOne α β) (inputs : ∀ p, Nat → α p) (outputs : ∀ q, Nat → β q) (n : Nat) (w : Work β) :
    Prop where
  le : w.i ≤ n
  outputs_eq : w.outputs = processed f inputs outputs w.i
  calls : Consecutive 0 w.calls w.i

theorem progress_start (f : ProcessOne α β) (inputs : ∀ p, Nat → α p) (outputs : ∀ q, Nat → β q) (n : Nat) :
    Progress f inputs outputs n ⟨0, outputs, []⟩ where
  le := n.zero_le
  outputs_eq := by
    funext q j
    rw [processed, if_neg j.not_lt_zero]
  calls := rfl

/-- A call of at least one lane that ends before `n` is progress. -/
theorem Progress.callSimd (hf : f.LaneByLane) {width : Nat} (hw : 0 < width) (h : Progress f inputs outputs n w)
    (hle : w.i + width ≤ n) : Progress f inputs outputs n (callSimd f inputs width w) where
  le := hle
  outputs_eq := by
    funext q j
    change copyTo (w.outputs q) w.i _ j = processed f inputs outputs (w.i + width) q j
    unfold copyTo
    by_cases hj : w.i ≤ j ∧ j - w.i < width
    · -- the lane of the index `j`
      obtain ⟨hle, hlt⟩ := hj
      have hindex : w.i + (j - w.i) = j := Nat.add_sub_cancel' hle
      rw [dif_pos ⟨hle, hlt⟩, simdizeTupleLoadAndApply, hf, processed, if_pos (by omega)]
      dsimp only
      rw [hindex]
    · rw [dif_neg hj, h.outputs_eq]
      unfold processed
      by_cases hbelow : j < w.i
      · rw [if_pos hbelow, if_pos (hbelow.trans_le (Nat.le_add_right _ _))]
      · rw [if_neg hbelow, if_neg (by omega)]
  calls := h.calls.concat (Nat.lt_add_of_pos_right hw)

/-- The main loop leaves less than a width. -/
theorem mainLoop_spec (hf : f.LaneByLane) (width : Width) (h : Progress f inputs outputs n w) :
    Progress f inputs outputs n (mainLoop f inputs width n w) ∧ n < (mainLoop f inputs width n w).i + width.lanes := by
  induction w using mainLoop.induct f inputs width n with
  | case1 w hle ih =>
    rw [mainLoop, if_pos hle]
    exact ih (h.callSimd hf width.pos hle)
  | case2 w hgt =>
    rw [mainLoop, if_neg hgt]
    exact ⟨h, Nat.lt_of_not_le hgt⟩

/-- Of less than `width` samples the call of half the width leaves less than that half. -/
theorem epilogueCall_spec (hf : f.LaneByLane) {half : Nat} (hhalf : 0 < half) (h : Progress f inputs outputs n w)
    (hlt : n < w.i + 2 * half) :
    Progress f inputs outputs n (epilogueCall f inputs n half w) ∧ n < (epilogueCall f inputs n half w).i + half := by
  unfold epilogueCall
  by_cases hle : w.i + half ≤ n
  · rw [if_pos hle]
    refine ⟨h.callSimd hf hhalf hle, ?_⟩
    change n < w.i + half + half
    omega
  · rw [if_neg hle]
    exact ⟨h, Nat.lt_of_not_le hle⟩

/-- One call of each halved width leaves no sample. -/
theorem simdEpilogue_spec (hf : f.LaneByLane) (k : Nat) (h : Progress f inputs outputs n w) (hlt : n < w.i + 2 ^ k) :
    Progress f inputs outputs n (simdEpilogue (epilogueCall f inputs n) (2 ^ k) w) ∧
      (simdEpilogue (epilogueCall f inputs n) (2 ^ k) w).i = n := by
  induction k generalizing w with
  | zero =>
    rw [simdEpilogue, if_neg (by decide)]
    exact ⟨h, h.le.antisymm (Nat.le_of_lt_succ hlt)⟩
  | succ k ih =>
    have hhalf : 2 ^ (k + 1) / 2 = 2 ^ k := Nat.div_eq_of_eq_mul_left Nat.two_pos (Nat.pow_succ 2 k)
    have htwice : 2 ^ (k + 1) = 2 * 2 ^ k := Nat.pow_succ'
    obtain ⟨hcall, hleft⟩ := epilogueCall_spec hf (Nat.two_pow_pos k) h (htwice ▸ hlt)
    rw [simdEpilogue, hhalf, if_pos (Nat.two_pow_pos k)]
    exact ih hcall hleft

theorem invokeProcessOneSimd_spec (hf : f.LaneByLane) (width : Width) (n : Nat) (inputs : ∀ p, Nat → α p)
    (outputs : ∀ q, Nat → β q) :
    Progress f inputs outputs n (invokeProcessOneSimd f inputs width n outputs) ∧
      (invokeProcessOneSimd f inputs width n outputs).i = n := by
  obtain ⟨k, hk⟩ := width.hasSingleBit
  obtain ⟨hloop, hleft⟩ := mainLoop_spec hf width (progress_start f inputs outputs n)
  rw [invokeProcessOneSimd, hk]
  exact simdEpilogue_spec hf k hloop (hk ▸ hleft)

theorem processed_congr (h : ∀ p j, j < n → inputs p j = inputs' p j) :
    processed f inputs outputs n = processed f inputs' outputs n := by
  funext q j
  unfold processed
  by_cases hj : j < n
  · have hsamples : (fun p => inputs p j) = fun p => inputs' p j := funext fun p => h p j hj
    rw [if_pos hj, if_pos hj, hsamples]
  · rw [if_neg hj, if_neg hj]

/-! ### Both ways -/

/-- The calls of the SIMD form are of intervals in increasing order that do not meet and that cover the indices below
    `n`. They write what the scalar loop writes, from the inputs' samples below `n`, and no output sample from `n` on. -/
theorem simd_writes_pure (f : ProcessOne α β) (hf : f.LaneByLane) (width : Width) (n : Nat) (inputs : ∀ p, Nat → α p)
    (outputs : ∀ q, Nat → β q) :
    (invokeProcessOneSimd f inputs width n outputs).calls.Pairwise (fun r s => r.2 ≤ s.1) ∧
      (∀ j, (∃ r ∈ (invokeProcessOneSimd f inputs width n outputs).calls, r.1 ≤ j ∧ j < r.2) ↔ j < n) ∧
      (invokeProcessOneSimd f inputs width n outputs).outputs = invokeProcessOnePure f inputs n outputs ∧
      (∀ q j, n ≤ j → (invokeProcessOneSimd f inputs width n outputs).outputs q j = outputs q j) ∧
      ∀ inputs' : ∀ p, Nat → α p, (∀ p j, j < n → inputs p j = inputs' p j) →
        (invokeProcessOneSimd f inputs' width n outputs).outputs = (invokeProcessOneSimd f inputs width n outputs).outputs := by
  obtain ⟨h, hi⟩ := invokeProcessOneSimd_spec hf width n inputs outputs
  have houtputs := h.outputs_eq
  have hcalls := h.calls
  rw [hi] at houtputs hcalls
  refine ⟨hcalls.pairwise, fun j => ?_, houtputs.trans invokeProcessOnePure_eq.symm, fun q j hj => ?_, fun inputs' hin => ?_⟩
  · rw [hcalls.mem_iff j]
    exact and_iff_right j.zero_le
  · rw [houtputs, processed, if_neg hj.not_gt]
  · obtain ⟨h', hi'⟩ := invokeProcessOneSimd_spec hf width n inputs' outputs
    rw [h'.outputs_eq, hi', houtputs, processed_congr hin]

/-- The difference of two samples, seven of them in four lanes. -/
theorem simd_writes_pure_difference :
    (invokeProcessOneSimd (ι := Bool) (κ := Unit) ⟨fun x _ => x true - x false, fun _ x _ l => x true l - x false l⟩
        (fun p j => if p then (j : Int) else 3) ⟨4, 2, rfl⟩ 7 fun _ _ => 0).outputs =
      invokeProcessOnePure ⟨fun x _ => x true - x false, fun _ x _ l => x true l - x false l⟩
        (fun p j => if p then (j : Int) else 3) 7 fun _ _ => 0 :=
  (simd_writes_pure _ (fun _ _ _ _ => rfl) _ _ _ _).2.2.1

end GnuRadio.SimdDispatch
