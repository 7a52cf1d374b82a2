import GnuRadio.Block.WallClock

/-! Paced by the clock, a block is not ahead of it as long as the time that a call counts is all of the time its samples
    last. Rounded down to ticks, it is counted short, and the calls return samples that are not due. -/

namespace GnuRadio.WallClock

open Pmt (truncate truncate_intCast truncate_of_nonneg truncate_of_nonpos)

variable {p : Pace} {s t : State} {call : Sync} {a : Act}

/-! ### Samples and times -/

theorem samplesOf_sub (p : Pace) (a b c : Int) : p.samplesOf (a - c) = p.samplesOf (b - c) + p.samplesOf (a - b) := by
  unfold Pace.samplesOf
  push_cast
  ring

theorem samplesOf_mono (p : Pace) {a b : Int} (h : a ≤ b) (c : Int) : p.samplesOf (a - c) ≤ p.samplesOf (b - c) := by
  have hsub : ((a - c : Int) : ℚ) ≤ (b - c : Int) := Int.cast_le.mpr (Int.sub_le_sub_right h c)
  exact mul_le_mul_of_nonneg_right (div_le_div_of_nonneg_right hsub p.ticks_pos.le) p.rate_pos.le

/-- Samples that last a whole number of ticks are counted in full. -/
theorem samplesOf_ticksOf {n : Nat} {k : Int} (h : n / p.sampleRate * p.ticksPerSecond = k) :
    p.samplesOf (p.ticksOf n) = n := by
  have hticks : p.ticksOf n = k := by rw [Pace.ticksOf, h, truncate_intCast]
  have hpos := p.ticks_pos.ne'
  have hrate := p.rate_pos.ne'
  rw [hticks, Pace.samplesOf, ← h]
  field_simp

/-- The number of samples that are due is not rounded up, and none is due for less than a sample backwards. -/
theorem toSize_eq {x : ℚ} (hlow : -1 < x) (hhigh : x < 2 ^ 64) (outOfRange : UInt64) : toSize outOfRange x = ⌊x⌋.toNat := by
  rw [toSize, if_pos ⟨hlow, hhigh⟩]
  rcases le_total 0 x with hx | hx
  · rw [truncate_of_nonneg hx]
  · have hceil : ⌈x⌉ = 0 := by
      refine le_antisymm (Int.ceil_le.mpr (by exact_mod_cast hx)) ?_
      exact Int.le_of_sub_one_lt (Int.lt_ceil.mpr (by exact_mod_cast hlow))
    have hfloor : ⌊x⌋ ≤ 0 := (Int.floor_le_ceil x).trans hceil.le
    rw [truncate_of_nonpos hx, hceil, Int.toNat_of_nonpos hfloor]
    rfl

theorem toNat_floor_le {x : ℚ} (hx : 0 ≤ x) : ((⌊x⌋.toNat : ℕ) : ℚ) ≤ x := by
  have hcast : ((⌊x⌋.toNat : ℕ) : ℤ) = ⌊x⌋ := Int.toNat_of_nonneg (Int.floor_nonneg.mpr hx)
  calc ((⌊x⌋.toNat : ℕ) : ℚ) = ((⌊x⌋.toNat : ℕ) : ℤ) := by push_cast; rfl
    _ = ⌊x⌋ := by rw [hcast]
    _ ≤ x := Int.floor_le x

theorem lastUpdateTime_le_countedTime (s : State) : s.lastUpdateTime ≤ s.countedTime := by
  unfold State.countedTime
  split
  · exact le_max_left _ _
  · exact le_rfl

/-! ### A call -/

/-- The samples returned are no more than the time counted and the greatest reading allow. -/
structure Paced (p : Pace) (s : State) : Prop where
  counted : (s.total : ℚ) ≤ p.samplesOf (s.lastUpdateTime - s.startTime)
  notAhead : s.NotAhead p

theorem paced_start (p : Pace) (now : Int) : Paced p ⟨now, now, none, now, 0⟩ := by
  have hzero : p.samplesOf (now - now) = 0 := by simp [Pace.samplesOf]
  exact ⟨hzero.ge.trans' Nat.cast_zero.le, hzero.ge.trans' Nat.cast_zero.le⟩

theorem computeWallClockSamples_le (p : Pace) (s : State) (call : Sync) :
    (computeWallClockSamples p s call).1 ≤ min call.chunkSize call.maxSamples := min_le_right _ _

/-- A call without time elapsed since the time counted so far returns nothing. -/
theorem computeWallClockSamples_eq_zero (p : Pace) (h : call.now = s.countedTime) :
    (computeWallClockSamples p s call).1 = 0 := by
  have hzero : p.samplesOf (call.now - s.countedTime) = 0 := by simp [Pace.samplesOf, h]
  have hsize : toSize call.outOfRange 0 = 0 := toSize_eq (by norm_num) (by norm_num) _
  rw [computeWallClockSamples, hzero, hsize]
  exact Nat.zero_min _

theorem samplesOf_self (p : Pace) (a : Int) : p.samplesOf (a - a) = 0 := by simp [Pace.samplesOf]

section
variable (h : Act.Exact p s (.syncSamples call))
include h

theorem lt_of_exact : -1 < p.samplesOf (call.now - s.countedTime) := by
  obtain ⟨-, h⟩ := h
  split at h
  · have hnonneg := samplesOf_mono p h s.countedTime
    rw [samplesOf_self] at hnonneg
    linarith
  · exact h.1

theorem samplesNeeded_eq :
    toSize call.outOfRange (p.samplesOf (call.now - s.countedTime)) =
      ⌊p.samplesOf (call.now - s.countedTime)⌋.toNat :=
  toSize_eq (lt_of_exact h) h.1 _

/-- A call returns no more samples than are due, and none where the clock has gone back. -/
theorem returned_le_due :
    ((computeWallClockSamples p s call).1 : ℚ) ≤ max 0 (p.samplesOf (call.now - s.countedTime)) := by
  have hle : (computeWallClockSamples p s call).1 ≤ ⌊p.samplesOf (call.now - s.countedTime)⌋.toNat :=
    samplesNeeded_eq h ▸ min_le_left _ _
  have hle : ((computeWallClockSamples p s call).1 : ℚ) ≤ (⌊p.samplesOf (call.now - s.countedTime)⌋.toNat : ℕ) :=
    Nat.cast_le.mpr hle
  rcases le_total 0 (p.samplesOf (call.now - s.countedTime)) with hx | hx
  · exact (hle.trans (toNat_floor_le hx)).trans (le_max_right _ _)
  · have hfloor : ⌊p.samplesOf (call.now - s.countedTime)⌋ ≤ 0 := by exact_mod_cast (Int.floor_le _).trans hx
    rw [Int.toNat_of_nonpos hfloor, Nat.cast_zero] at hle
    exact hle.trans (le_max_left _ _)

/-- The time that a call counts is no less than its samples last. -/
theorem returned_le_counted :
    ((computeWallClockSamples p s call).1 : ℚ) ≤
      p.samplesOf ((computeWallClockSamples p s call).2.lastUpdateTime - s.countedTime) := by
  have hdue := returned_le_due h
  have hneeded := samplesNeeded_eq h
  obtain ⟨-, h⟩ := h
  unfold computeWallClockSamples at hdue ⊢
  dsimp only at hdue ⊢
  by_cases hdrop : call.dropIfBehind = true
  · -- the time since the last one is dropped
    rw [if_pos hdrop] at h ⊢
    have hnonneg := samplesOf_mono p h s.countedTime
    rw [samplesOf_self] at hnonneg
    rwa [max_eq_right hnonneg] at hdue
  · rw [if_neg hdrop] at h ⊢
    obtain ⟨-, k, hk⟩ := h
    rw [hneeded]
    split
    · rw [add_sub_cancel_left, samplesOf_ticksOf hk]
    · next hzero =>
      rw [Nat.eq_zero_of_not_pos hzero, Nat.cast_zero, samplesOf_self]

theorem paced_syncSamples (hs : Paced p s) : Paced p (step p s (.syncSamples call)) := by
  have hcounted : (s.total : ℚ) ≤ p.samplesOf (s.countedTime - s.startTime) :=
    hs.counted.trans (samplesOf_mono p (lastUpdateTime_le_countedTime s) _)
  have hcall := returned_le_counted h
  have hdue := returned_le_due h
  constructor
  · change ((s.total + (computeWallClockSamples p s call).1 : ℕ) : ℚ) ≤
      p.samplesOf ((computeWallClockSamples p s call).2.lastUpdateTime - s.startTime)
    rw [samplesOf_sub p _ s.countedTime, Nat.cast_add]
    exact add_le_add hcounted hcall
  · change ((s.total + (computeWallClockSamples p s call).1 : ℕ) : ℚ) ≤
      p.samplesOf (max s.greatest call.now - s.startTime)
    rw [Nat.cast_add]
    rcases max_choice 0 (p.samplesOf (call.now - s.countedTime)) with hmax | hmax <;> rw [hmax] at hdue
    · calc (s.total : ℚ) + (computeWallClockSamples p s call).1 ≤ p.samplesOf (s.greatest - s.startTime) + 0 :=
            add_le_add hs.notAhead hdue
        _ = p.samplesOf (s.greatest - s.startTime) := add_zero _
        _ ≤ p.samplesOf (max s.greatest call.now - s.startTime) := samplesOf_mono p (le_max_left _ _) _
    · calc (s.total : ℚ) + (computeWallClockSamples p s call).1
          ≤ p.samplesOf (s.countedTime - s.startTime) + p.samplesOf (call.now - s.countedTime) :=
            add_le_add hcounted hdue
        _ = p.samplesOf (call.now - s.startTime) := (samplesOf_sub p _ _ _).symm
        _ ≤ p.samplesOf (max s.greatest call.now - s.startTime) := samplesOf_mono p (le_max_right _ _) _

end

/-! ### Runs -/

theorem paced_step (hs : Paced p s) (ha : a.Exact p s) : Paced p (step p s a) := by
  cases a with
  | blockingSyncStart now => exact paced_start p now
  | blockingSyncResetTiming now =>
    have hgreatest : p.samplesOf (s.greatest - s.startTime) ≤ p.samplesOf (max s.greatest now - s.startTime) :=
      samplesOf_mono p (le_max_left _ _) _
    exact ⟨hs.counted.trans (samplesOf_mono p ha _), hs.notAhead.trans hgreatest⟩
  | syncSamples call => exact paced_syncSamples ha hs
  | tick now => exact ⟨hs.counted, hs.notAhead⟩

theorem paced (h : (system p).Reach (fun s a => a.Exact p s) s) : Paced p s := by
  refine h.invariant (fun s ⟨now, hs⟩ => hs ▸ paced_start p now) fun s a t hs ha hstep => ?_
  cases hstep
  exact paced_step hs ha

/-- In a run whose calls count the time exactly, the samples returned are never ahead of the clock. In every state a call
    returns at most a chunk and at most what the output has room for, and nothing if no time has elapsed. -/
theorem never_ahead (p : Pace) {s : State} (h : (system p).Reach (fun s a => a.Exact p s) s) :
    s.NotAhead p ∧ ∀ call : Sync,
      (computeWallClockSamples p s call).1 ≤ min call.chunkSize call.maxSamples ∧
        (call.now = s.countedTime → (computeWallClockSamples p s call).1 = 0) :=
  ⟨(paced h).notAhead, fun call => ⟨computeWallClockSamples_le p s call, computeWallClockSamples_eq_zero p⟩⟩

/-- A clock that counts milliseconds, and 100 samples in a second. -/
def milliseconds : Pace := ⟨1000, 100, by norm_num, by norm_num⟩

/-- Two and a half samples are due after 25 milliseconds, and the two that are returned last 20 of them. -/
theorem never_ahead_milliseconds :
    (step milliseconds ⟨0, 0, none, 0, 0⟩ (.syncSamples ⟨25, 8, 10, false, 0⟩)).NotAhead milliseconds := by
  refine (never_ahead milliseconds (.step (.start ⟨0, rfl⟩) (a := .syncSamples ⟨25, 8, 10, false, 0⟩) ?_ rfl)).1
  refine ⟨by norm_num [milliseconds, Pace.samplesOf, State.countedTime], ?_, 20, ?_⟩
  · norm_num [milliseconds, Pace.samplesOf, State.countedTime]
  · have hfloor : ⌊milliseconds.samplesOf (25 - 0)⌋ = 2 := by
      rw [Int.floor_eq_iff]
      norm_num [milliseconds, Pace.samplesOf]
    change ((min ⌊milliseconds.samplesOf (25 - 0)⌋.toNat (min 10 8) : ℕ) : ℚ) / 100 * 1000 = (20 : Int)
    have hsamples : min (2 : Int).toNat (min 10 8) = 2 := rfl
    rw [hfloor, hsamples]
    norm_num

/-- A clock that counts nanoseconds, and 300 million samples in a second. -/
def nanoseconds : Pace := ⟨1000000000, 300000000, by norm_num, by norm_num⟩

/-- Calls for one sample each. -/
def singles (readings : List Int) : List Act := readings.map fun now => .syncSamples ⟨now, 1, 1, false, 0⟩

/-- A third of a nanosecond of each sample is not counted: four samples are returned within 13 nanoseconds. -/
theorem fourth_sample_ahead :
    ∃ s, (system nanoseconds).Reachable s ∧ s.startTime = 0 ∧ s.greatest = 13 ∧ s.total = 4 ∧ ¬ s.NotAhead nanoseconds := by
  refine ⟨_, (system nanoseconds).reachable_get (singles [4, 7, 10, 13]) ⟨0, rfl⟩ rfl, rfl, by decide +kernel,
    by decide +kernel, ?_⟩
  unfold State.NotAhead
  decide +kernel

end GnuRadio.WallClock
