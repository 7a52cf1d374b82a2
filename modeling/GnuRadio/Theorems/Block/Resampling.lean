import GnuRadio.Block.SampleLimits

/-! `computeResampling()` finds a size within all bounds whenever there is one.

    The work of a call is counted in chunks: `nResamplingChunks` is the largest number of chunks that fits the maxima, and
    the cut for the requested work takes no more of them. So nothing wraps and every clamp has its bounds in order. -/

namespace GnuRadio.WorkSize

variable {c : Chunks} {b : Bounds} {work : Nat}

/-! ### Chunks -/

theorem clamp_le_of_le {v lo hi m : Nat} (hv : v ≤ m) (hlo : lo ≤ m) : clamp v lo hi ≤ m := by
  unfold clamp
  split
  · exact hlo
  · split
    · omega
    · exact hv

theorem le_clamp {v lo hi : Nat} (h : lo ≤ hi) : lo ≤ clamp v lo hi := by
  unfold clamp
  split
  · exact le_rfl
  · split <;> omega

theorem nResamplingChunks_le_out (c : Chunks) (maxSyncIn maxSyncOut : Nat) :
    nResamplingChunks c maxSyncIn maxSyncOut * c.outputChunkSize ≤ maxSyncOut := by
  unfold nResamplingChunks
  split
  · split
    · next h => rw [Nat.one_mul]; exact h.2
    · rw [Nat.zero_mul]; exact Nat.zero_le _
  · exact (Nat.mul_le_mul_right _ (min_le_right _ _)).trans (Nat.div_mul_le_self _ _)

theorem nResamplingChunks_stride (hs : c.strideEnabled) (hstride : c.isStrideActiveAndNotDefault) (maxSyncIn maxSyncOut : Nat) :
    nResamplingChunks c maxSyncIn maxSyncOut ≤ 1 := by
  unfold nResamplingChunks
  rw [if_pos ⟨hs, hstride⟩]
  split <;> omega

/-- No number of chunks that fits is larger than the one that a call starts from. -/
theorem Fits.le_nResamplingChunks {n : Nat} (h : Fits c b n) (hin : 0 < c.inputChunkSize) (hout : 0 < c.outputChunkSize)
    (hone : ¬(c.inputChunkSize = 1 ∧ c.outputChunkSize = 1)) : n ≤ nResamplingChunks c b.maxSyncIn b.maxSyncOut := by
  have maxIn := h.maxIn
  have maxOut := h.maxOut
  unfold nResamplingChunks
  split
  · next hs =>
    obtain rfl : n = 1 := Nat.le_antisymm (h.stride hs.1 hs.2 hone) h.one_le
    rw [Nat.one_mul] at maxIn maxOut
    rw [if_pos ⟨maxIn, maxOut⟩]
  · exact le_min ((Nat.le_div_iff_mul_le hin).2 maxIn) ((Nat.le_div_iff_mul_le hout).2 maxOut)

/-- The chunks that are left by the cut for the requested work. -/
def cutChunks (c : Chunks) (b : Bounds) (work : Nat) : Nat :=
  min (clamp work (max b.minSyncIn c.inputChunkSize) b.maxSyncIn / c.inputChunkSize) (b.maxSyncOut / c.outputChunkSize)

/-- What `withResampling` is when both minima fit. -/
theorem withResampling_of_minima (hin : ¬nResamplingChunks c b.maxSyncIn b.maxSyncOut * c.inputChunkSize < b.minSyncIn)
    (hout : ¬nResamplingChunks c b.maxSyncIn b.maxSyncOut * c.outputChunkSize < b.minSyncOut) :
    withResampling c b.minSyncIn b.maxSyncIn b.minSyncOut b.maxSyncOut work =
      if work < nResamplingChunks c b.maxSyncIn b.maxSyncOut * c.inputChunkSize ∧
          b.minSyncIn ≤ cutChunks c b work * c.inputChunkSize ∧ b.minSyncOut ≤ cutChunks c b work * c.outputChunkSize then
        inChunks c (cutChunks c b work)
      else inChunks c (nResamplingChunks c b.maxSyncIn b.maxSyncOut) := by
  unfold withResampling
  dsimp only
  rw [if_neg hin, if_neg hout]
  rfl

section Cut

variable (hcut : work < nResamplingChunks c b.maxSyncIn b.maxSyncOut * c.inputChunkSize)
include hcut

theorem one_le_of_cut : 1 ≤ nResamplingChunks c b.maxSyncIn b.maxSyncOut := by
  refine Nat.pos_of_ne_zero fun hzero => ?_
  rw [hzero, Nat.zero_mul] at hcut
  exact Nat.not_lt_zero _ hcut

theorem minSync_le_of_cut (hmin : b.minSyncIn ≤ nResamplingChunks c b.maxSyncIn b.maxSyncOut * c.inputChunkSize) :
    max b.minSyncIn c.inputChunkSize ≤ nResamplingChunks c b.maxSyncIn b.maxSyncOut * c.inputChunkSize :=
  max_le hmin (Nat.le_mul_of_pos_left _ (one_le_of_cut hcut))

theorem cutChunks_le
    (hmin : b.minSyncIn ≤ nResamplingChunks c b.maxSyncIn b.maxSyncOut * c.inputChunkSize) :
    cutChunks c b work ≤ nResamplingChunks c b.maxSyncIn b.maxSyncOut := by
  refine (min_le_left _ _).trans ?_
  have hclamp : clamp work (max b.minSyncIn c.inputChunkSize) b.maxSyncIn ≤
      nResamplingChunks c b.maxSyncIn b.maxSyncOut * c.inputChunkSize :=
    clamp_le_of_le hcut.le (minSync_le_of_cut hcut hmin)
  exact Nat.div_le_of_le_mul (by rwa [Nat.mul_comm])

theorem one_le_cutChunks (hin : 0 < c.inputChunkSize) (hout : 0 < c.outputChunkSize)
    (hmin : b.minSyncIn ≤ nResamplingChunks c b.maxSyncIn b.maxSyncOut * c.inputChunkSize) : 1 ≤ cutChunks c b work := by
  have hchunk : c.inputChunkSize ≤ clamp work (max b.minSyncIn c.inputChunkSize) b.maxSyncIn :=
    (le_max_right _ _).trans
      (le_clamp ((minSync_le_of_cut hcut hmin).trans (nResamplingChunks_le c b.maxSyncIn b.maxSyncOut)))
  have hroom : c.outputChunkSize ≤ b.maxSyncOut :=
    (Nat.le_mul_of_pos_left _ (one_le_of_cut hcut)).trans (nResamplingChunks_le_out c b.maxSyncIn b.maxSyncOut)
  exact le_min ((Nat.one_le_div_iff hin).2 hchunk) ((Nat.one_le_div_iff hout).2 hroom)

end Cut

/-! ### What a size is

One case for each way to refuse, and the number of chunks otherwise. -/

inductive Sized (c : Chunks) (b : Bounds) (r : ResamplingResult) : Prop
  | refused (none : ∀ n, ¬Fits c b n) (status : r.status ≠ .ok) (resampledIn : r.resampledIn = 0)
      (resampledOut : r.resampledOut = 0)
  | chunks (n : Nat) (fits : 0 < n → Fits c b n) (pos : (∃ m, Fits c b m) → 0 < n) (eq : r = inChunks c n)

theorem withoutResampling_sized (hone : c.inputChunkSize = 1 ∧ c.outputChunkSize = 1) (hwork : 0 < work) :
    Sized c b (withoutResampling b.minSyncIn b.maxSyncIn b.minSyncOut b.maxSyncOut work) := by
  obtain ⟨hin, hout⟩ := hone
  unfold withoutResampling
  dsimp only
  split
  · next hmin =>
    refine .refused (fun n h => ?_) (by simp) rfl rfl
    obtain ⟨-, minIn, maxIn, -, maxOut, -⟩ := h
    rw [hin] at minIn maxIn
    rw [hout] at maxOut
    omega
  · next hmin =>
    split
    · next hmin' =>
      refine .refused (fun n h => ?_) (by simp) rfl rfl
      obtain ⟨-, -, maxIn, minOut, maxOut, -⟩ := h
      rw [hin] at maxIn
      rw [hout] at minOut maxOut
      omega
    · next hmin' =>
      have hbounds : max b.minSyncIn b.minSyncOut ≤ min b.maxSyncIn b.maxSyncOut :=
        max_le (Nat.le_of_not_lt hmin) (Nat.le_of_not_lt hmin')
      have hlo := le_clamp (v := work) hbounds
      have hhi := clamp_le (v := work) hbounds
      refine .chunks (clamp work (max b.minSyncIn b.minSyncOut) (min b.maxSyncIn b.maxSyncOut)) (fun hpos => ?_) ?_ ?_
      · refine ⟨hpos, ?_, ?_, ?_, ?_, fun _ _ hne => absurd ⟨hin, hout⟩ hne⟩
        · rw [hin]; omega
        · rw [hin]; omega
        · rw [hout]; omega
        · rw [hout]; omega
      · rintro ⟨m, hone, -, maxIn, -, maxOut, -⟩
        rw [hin] at maxIn
        rw [hout] at maxOut
        unfold clamp
        split
        · omega
        · split <;> omega
      · rw [inChunks, hin, hout, Nat.mul_one]

theorem withResampling_sized (hin : 0 < c.inputChunkSize) (hout : 0 < c.outputChunkSize)
    (hone : ¬(c.inputChunkSize = 1 ∧ c.outputChunkSize = 1)) :
    Sized c b (withResampling c b.minSyncIn b.maxSyncIn b.minSyncOut b.maxSyncOut work) := by
  have hmaxIn := nResamplingChunks_le c b.maxSyncIn b.maxSyncOut
  have hmaxOut := nResamplingChunks_le_out c b.maxSyncIn b.maxSyncOut
  have hstride := nResamplingChunks_stride (c := c)
  have hle : ∀ n, Fits c b n → n ≤ nResamplingChunks c b.maxSyncIn b.maxSyncOut :=
    fun n h => h.le_nResamplingChunks hin hout hone
  -- a number of chunks up to the largest that keeps the minima keeps the maxima as well
  have hfits : ∀ n, n ≤ nResamplingChunks c b.maxSyncIn b.maxSyncOut → b.minSyncIn ≤ n * c.inputChunkSize →
      b.minSyncOut ≤ n * c.outputChunkSize → 0 < n → Fits c b n := fun n hn minIn minOut hpos =>
    ⟨hpos, minIn, (Nat.mul_le_mul_right _ hn).trans hmaxIn, minOut, (Nat.mul_le_mul_right _ hn).trans hmaxOut,
      fun hs ha _ => hn.trans (hstride hs ha _ _)⟩
  unfold withResampling
  dsimp only
  split
  · next hmin =>
    refine .refused (fun n h => ?_) (by simp) rfl rfl
    exact absurd (h.minIn.trans (Nat.mul_le_mul_right _ (hle n h))) (Nat.not_le_of_lt hmin)
  · next hmin =>
    split
    · next hmin' =>
      refine .refused (fun n h => ?_) (by simp) rfl rfl
      exact absurd (h.minOut.trans (Nat.mul_le_mul_right _ (hle n h))) (Nat.not_le_of_lt hmin')
    · next hmin' =>
      split
      · next hcut =>
        obtain ⟨hlt, minIn, minOut⟩ := hcut
        exact .chunks (cutChunks c b work) (hfits _ (cutChunks_le hlt (Nat.le_of_not_lt hmin)) minIn minOut)
          (fun _ => one_le_cutChunks hlt hin hout (Nat.le_of_not_lt hmin)) rfl
      · exact .chunks _ (hfits _ le_rfl (Nat.le_of_not_lt hmin) (Nat.le_of_not_lt hmin'))
          (fun ⟨m, h⟩ => h.one_le.trans (hle m h)) rfl

theorem computeResampling_sized (c : ChunkSizes) (b : Bounds) (work : Nat) :
    Sized c.toChunks b (computeResampling c.toChunks b.minSyncIn b.maxSyncIn b.minSyncOut b.maxSyncOut work) := by
  have hwork : 0 < if work = 0 then unlimited else work := by
    split
    · decide
    · omega
  unfold computeResampling
  dsimp only
  split
  · next hone => exact withoutResampling_sized (hone.elim (fun h => c.one_to_one (by simpa using h)) id) hwork
  · next hone => exact withResampling_sized c.input_pos c.output_pos fun h => hone (Or.inr h)

/-! ### Less work

A size with less work is the same refusal, or fewer chunks. -/

theorem withoutResampling_unlimited (b : Bounds) (work : Nat) :
    (withoutResampling b.minSyncIn b.maxSyncIn b.minSyncOut b.maxSyncOut work).resampledIn ≤
      (withoutResampling b.minSyncIn b.maxSyncIn b.minSyncOut b.maxSyncOut unlimited).resampledIn := by
  have hmax : b.maxSyncIn ≤ unlimited := Nat.le_sub_one_of_lt b.maxSyncIn_lt
  unfold withoutResampling
  dsimp only
  split
  · exact le_rfl
  · next hmin =>
    split
    · exact le_rfl
    · next hmin' =>
      have hbounds : max b.minSyncIn b.minSyncOut ≤ min b.maxSyncIn b.maxSyncOut :=
        max_le (Nat.le_of_not_lt hmin) (Nat.le_of_not_lt hmin')
      have hfull : clamp unlimited (max b.minSyncIn b.minSyncOut) (min b.maxSyncIn b.maxSyncOut) =
          min b.maxSyncIn b.maxSyncOut := by
        unfold clamp
        split
        · omega
        · split <;> omega
      exact (clamp_le hbounds).trans_eq hfull.symm

theorem withResampling_unlimited (c : Chunks) (b : Bounds) (work : Nat) : ∃ n m, n ≤ m ∧
    (withResampling c b.minSyncIn b.maxSyncIn b.minSyncOut b.maxSyncOut work).resampledIn = n * c.inputChunkSize ∧
    (withResampling c b.minSyncIn b.maxSyncIn b.minSyncOut b.maxSyncOut work).resampledOut = n * c.outputChunkSize ∧
    (withResampling c b.minSyncIn b.maxSyncIn b.minSyncOut b.maxSyncOut unlimited).resampledIn = m * c.inputChunkSize ∧
    (withResampling c b.minSyncIn b.maxSyncIn b.minSyncOut b.maxSyncOut unlimited).resampledOut =
      m * c.outputChunkSize := by
  have hall : ¬unlimited < nResamplingChunks c b.maxSyncIn b.maxSyncOut * c.inputChunkSize :=
    Nat.not_lt_of_le ((nResamplingChunks_le ..).trans (Nat.le_sub_one_of_lt b.maxSyncIn_lt))
  by_cases hmin : nResamplingChunks c b.maxSyncIn b.maxSyncOut * c.inputChunkSize < b.minSyncIn
  · refine ⟨0, 0, le_rfl, ?_⟩
    simp [withResampling, hmin]
  · by_cases hmin' : nResamplingChunks c b.maxSyncIn b.maxSyncOut * c.outputChunkSize < b.minSyncOut
    · refine ⟨0, 0, le_rfl, ?_⟩
      simp [withResampling, hmin, hmin']
    · have hfull : withResampling c b.minSyncIn b.maxSyncIn b.minSyncOut b.maxSyncOut unlimited =
          inChunks c (nResamplingChunks c b.maxSyncIn b.maxSyncOut) := by
        rw [withResampling_of_minima hmin hmin', if_neg fun h => hall h.1]
      rw [hfull, withResampling_of_minima hmin hmin']
      split
      · next hcut => exact ⟨_, _, cutChunks_le hcut.1 (Nat.le_of_not_lt hmin), rfl, rfl, rfl, rfl⟩
      · exact ⟨_, _, le_rfl, rfl, rfl, rfl, rfl⟩

/-- The size for any requested work is no more than the one without a limit. -/
theorem computeResampling_unlimited (c : ChunkSizes) (b : Bounds) (work : Nat) :
    (computeResampling c.toChunks b.minSyncIn b.maxSyncIn b.minSyncOut b.maxSyncOut work).resampledIn ≤
        (computeResampling c.toChunks b.minSyncIn b.maxSyncIn b.minSyncOut b.maxSyncOut unlimited).resampledIn ∧
      (computeResampling c.toChunks b.minSyncIn b.maxSyncIn b.minSyncOut b.maxSyncOut work).resampledOut ≤
        (computeResampling c.toChunks b.minSyncIn b.maxSyncIn b.minSyncOut b.maxSyncOut unlimited).resampledOut := by
  unfold computeResampling
  dsimp only
  rw [if_neg (show ¬unlimited = 0 by decide)]
  generalize (if work = 0 then unlimited else work) = work
  split
  · rw [withoutResampling_eq, withoutResampling_eq]
    exact ⟨withoutResampling_unlimited b work, withoutResampling_unlimited b work⟩
  · obtain ⟨n, m, hle, hin, hout, hin', hout'⟩ := withResampling_unlimited c.toChunks b work
    rw [hin, hout, hin', hout']
    exact ⟨Nat.mul_le_mul_right _ hle, Nat.mul_le_mul_right _ hle⟩

/-! ### What the machine computes

Every product is one of the maxima at most, so none wraps, and a clamp runs only after the checks that order its bounds. -/

namespace Machine

theorem times_of_le {a x m : Nat} (h : a * x ≤ m) (hm : m < 2 ^ 64) : times a x = a * x :=
  Nat.mod_eq_of_lt (h.trans_lt hm)

theorem clamp_of_le {v lo hi : Nat} (h : lo ≤ hi) : clamp v lo hi = some (WorkSize.clamp v lo hi) := if_pos h

theorem withoutResampling_eq (b : Bounds) (work : Nat) : withoutResampling b work =
    some (WorkSize.withoutResampling b.minSyncIn b.maxSyncIn b.minSyncOut b.maxSyncOut work) := by
  unfold withoutResampling WorkSize.withoutResampling
  dsimp only
  split
  · rfl
  · next hmin =>
    split
    · rfl
    · next hmin' =>
      rw [clamp_of_le (max_le (Nat.le_of_not_lt hmin) (Nat.le_of_not_lt hmin'))]
      rfl

theorem inChunks_eq {n : Nat} (h : n ≤ nResamplingChunks c b.maxSyncIn b.maxSyncOut) :
    inChunks c n = WorkSize.inChunks c n := by
  have hin := (Nat.mul_le_mul_right _ h).trans (nResamplingChunks_le c b.maxSyncIn b.maxSyncOut)
  have hout := (Nat.mul_le_mul_right _ h).trans (nResamplingChunks_le_out c b.maxSyncIn b.maxSyncOut)
  rw [inChunks, times_of_le hin b.maxSyncIn_lt, times_of_le hout b.maxSyncOut_lt, WorkSize.inChunks]

theorem withResampling_eq (c : Chunks) (b : Bounds) (work : Nat) : withResampling c b work =
    some (WorkSize.withResampling c b.minSyncIn b.maxSyncIn b.minSyncOut b.maxSyncOut work) := by
  have hmaxIn := nResamplingChunks_le c b.maxSyncIn b.maxSyncOut
  have hmaxOut := nResamplingChunks_le_out c b.maxSyncIn b.maxSyncOut
  unfold withResampling
  dsimp only
  rw [times_of_le hmaxIn b.maxSyncIn_lt, times_of_le hmaxOut b.maxSyncOut_lt]
  split
  · next hmin => simp [WorkSize.withResampling, hmin]
  · next hmin =>
    split
    · next hmin' => simp [WorkSize.withResampling, hmin, hmin']
    · next hmin' =>
      rw [withResampling_of_minima hmin hmin', inChunks_eq le_rfl]
      split
      · next hcut =>
        have hle : cutChunks c b work ≤ nResamplingChunks c b.maxSyncIn b.maxSyncOut :=
          cutChunks_le hcut (Nat.le_of_not_lt hmin)
        have hcutIn := (Nat.mul_le_mul_right _ hle).trans hmaxIn
        have hcutOut := (Nat.mul_le_mul_right _ hle).trans hmaxOut
        rw [clamp_of_le ((minSync_le_of_cut hcut (Nat.le_of_not_lt hmin)).trans hmaxIn)]
        simp only [Option.bind_eq_bind, Option.bind_some, Option.pure_def, hcut, true_and]
        rw [← cutChunks, times_of_le hcutIn b.maxSyncIn_lt, times_of_le hcutOut b.maxSyncOut_lt, inChunks_eq hle]
        split
        · rfl
        · rfl
      · next hcut => rw [if_neg fun h => hcut h.1]

/-- The machine computes the size, and nothing in it is undefined. -/
theorem computeResampling_eq (c : ChunkSizes) (b : Bounds) (work : Nat) : computeResampling c.toChunks b work =
    some (WorkSize.computeResampling c.toChunks b.minSyncIn b.maxSyncIn b.minSyncOut b.maxSyncOut work) := by
  unfold computeResampling WorkSize.computeResampling
  dsimp only
  generalize (if work = 0 then unlimited else work) = work
  split
  · exact withoutResampling_eq b work
  · exact withResampling_eq c.toChunks b work

/-- `computeResampling()` is always defined: no clamp has its bounds reversed. A size that is not zero is a number of
    chunks within all bounds, there is one whenever such a number exists, and less work asks for no more samples. -/
theorem computeResampling_sound (c : ChunkSizes) (b : Bounds) (requestedWork : Nat) :
    ∃ r, computeResampling c.toChunks b requestedWork = some r ∧
      (r.status = .ok → (r.resampledIn ≠ 0 ∨ r.resampledOut ≠ 0) → ∃ n, Fits c.toChunks b n ∧
        r.resampledIn = n * c.inputChunkSize ∧ r.resampledOut = n * c.outputChunkSize) ∧
      ((∃ n, Fits c.toChunks b n) → r.status = .ok ∧ 0 < r.resampledIn ∧ 0 < r.resampledOut) ∧
      ∃ all, computeResampling c.toChunks b unlimited = some all ∧ r.resampledIn ≤ all.resampledIn ∧
        r.resampledOut ≤ all.resampledOut := by
  refine ⟨_, computeResampling_eq c b requestedWork, ?_, ?_, _, computeResampling_eq c b unlimited,
    computeResampling_unlimited c b requestedWork⟩
  · intro hok hne
    cases computeResampling_sized c b requestedWork with
    | refused _ status => exact absurd hok status
    | chunks n fits _ eq =>
      rw [eq] at hne ⊢
      refine ⟨n, fits (Nat.pos_of_ne_zero fun hzero => ?_), rfl, rfl⟩
      subst hzero
      simp [WorkSize.inChunks] at hne
  · intro hfits
    cases computeResampling_sized c b requestedWork with
    | refused none => exact absurd hfits (by simpa using none)
    | chunks n _ pos eq =>
      rw [eq]
      exact ⟨rfl, Nat.mul_pos (pos hfits) c.input_pos, Nat.mul_pos (pos hfits) c.output_pos⟩

end Machine

end GnuRadio.WorkSize
