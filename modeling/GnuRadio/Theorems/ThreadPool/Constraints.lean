import GnuRadio.ThreadPool.Constraints
import Mathlib.Algebra.Order.Ring.Int
import Mathlib.Data.List.TakeWhile

/-! When a refused change of the workers' constraints is taken back. Of the affinity mask and of the policy alike, the workers
    set before the refusal are all that may differ. -/

namespace GnuRadio.ThreadConstraints

open Rollback (changeAll restoreAll changeAll_eq map_restoreAll_eq_iff restoreAll_snd)

/-! ### The update of the live workers -/

section Update

variable {μ β : Type} {applyToWorker : Worker → Option (Worker × μ)} {restoreWorker : Worker → μ → Option Worker}
  {refuses restoreFails : Worker → Bool} {changed : Worker → Worker × μ} {workers : List Worker} {f : Worker → β}

theorem takeWhile_isSome (h : ∀ w, applyToWorker w = if refuses w then none else some (changed w)) :
    (fun w => (applyToWorker w).isSome) = fun w => !refuses w := by
  funext w
  rw [h]
  cases refuses w <;> rfl

theorem updateLiveWorkers_threw (restoreWorker : Worker → μ → Option Worker) (h : ∀ w, applyToWorker w = if refuses w then none else some (changed w)) :
    (updateLiveWorkers applyToWorker restoreWorker workers).threw = true ↔ ∃ w ∈ workers, refuses w = true := by
  rw [updateLiveWorkers, changeAll_eq, takeWhile_isSome h]
  cases hrest : workers.dropWhile (!refuses ·) with
  | nil =>
    simp only [Bool.false_eq_true, false_iff, not_exists, not_and]
    intro w hw
    have := List.dropWhile_eq_nil_iff.mp hrest w hw
    simpa using this
  | cons w rest =>
    refine iff_of_true rfl ⟨w, ?_, ?_⟩
    · exact List.dropWhile_sublist _ |>.subset (hrest ▸ List.mem_cons_self)
    · have := List.head?_dropWhile_not (!refuses ·) workers
      rw [hrest] at this
      simpa using this

/-- What can be seen of the workers is as before a refused update. -/
theorem map_updateLiveWorkers_eq_iff (h : ∀ w, applyToWorker w = if refuses w then none else some (changed w))
    (hrestore : ∀ w, (restoreWorker (changed w).1 (changed w).2).isNone = restoreFails w)
    (hrefused : ∃ w ∈ workers, refuses w = true) :
    (updateLiveWorkers applyToWorker restoreWorker workers).liveWorkers.map f = workers.map f ↔
      (∀ w ∈ (workers.takeWhile (!refuses ·)).takeWhile (!restoreFails ·),
        (restoreWorker (changed w).1 (changed w).2).map f = some (f w)) ∧
      ∀ w ∈ (workers.takeWhile (!refuses ·)).dropWhile (!restoreFails ·), f (changed w).1 = f w := by
  have hchange : ∀ w ∈ workers.takeWhile (!refuses ·), applyToWorker w = some (changed w) := by
    intro w hw
    have hnot := @List.all_takeWhile _ (!refuses ·) workers
    have := List.all_eq_true.mp hnot w hw
    rw [h, if_neg (by simpa using this)]
  rw [← map_restoreAll_eq_iff hchange fun w _ => (hrestore w).symm]
  have hthrew := (updateLiveWorkers_threw restoreWorker h).mpr hrefused
  rw [updateLiveWorkers, changeAll_eq, takeWhile_isSome h] at hthrew ⊢
  cases hrest : workers.dropWhile (!refuses ·) with
  | nil =>
    rw [hrest] at hthrew
    cases hthrew
  | cons w rest =>
    have hsplit := List.takeWhile_append_dropWhile (p := (!refuses ·)) (l := workers)
    rw [hrest] at hsplit
    conv_lhs => rhs; rw [← hsplit]
    simp only [List.map_append, List.append_cancel_right_eq]

theorem nWorkersRestored_of_not_threw
    (h : (updateLiveWorkers applyToWorker restoreWorker workers).threw = false) :
    (updateLiveWorkers applyToWorker restoreWorker workers).nWorkersRestored = 0 := by
  unfold updateLiveWorkers at h ⊢
  split at h
  · rfl
  · cases h

end Update

variable {pool : Pool} {answers : Answers} {mask : List Bool} {scheduling : Scheduling}

/-! ### The affinity mask -/

/-- A worker with the new mask, and the mask that was read of it. -/
def maskChange (pool : Pool) (answers : Answers) (mask : List Bool) (w : Worker) : Worker × List Bool :=
  (if mask = [] then w
    else setThreadAffinity answers.hardwareConcurrency ({ pool with affinityMask := mask }.workerMask w.threadID) w,
    getThreadAffinity answers.hardwareConcurrency w)

theorem maskChange_snd (w : Worker) :
    (maskChange pool answers mask w).2 = getThreadAffinity answers.hardwareConcurrency w := rfl

theorem maskChange_threadID (w : Worker) : (maskChange pool answers mask w).1.threadID = w.threadID := by
  unfold maskChange
  split <;> rfl

def applyMask (pool : Pool) (answers : Answers) (mask : List Bool) (w : Worker) : Option (Worker × List Bool) :=
  if Pool.refusesMask answers mask w then none else some (maskChange pool answers mask w)

def restoreMask (answers : Answers) (w : Worker) (earlierMask : List Bool) : Option Worker :=
  if answers.restoreFails w.threadID then none
  else some (setThreadAffinity answers.hardwareConcurrency earlierMask w)

theorem applyMask_eq (w : Worker) :
    (if answers.getFails w.threadID = true then none
      else
        ({ pool.joinDepartedThreads answers with affinityMask := mask }.setWorkerAffinity answers.hardwareConcurrency
          (answers.setFails w.threadID) w).map
            fun set => (set, getThreadAffinity answers.hardwareConcurrency w)) =
      applyMask pool answers mask w := by
  by_cases hget : answers.getFails w.threadID = true
  · simp [applyMask, Pool.refusesMask, hget]
  · by_cases hmask : mask = []
    · simp [applyMask, Pool.refusesMask, hget, hmask, Pool.setWorkerAffinity, maskChange]
    · by_cases hset : answers.setFails w.threadID = true
      · simp [applyMask, Pool.refusesMask, hget, hmask, hset, Pool.setWorkerAffinity]
      · simp [applyMask, Pool.refusesMask, hget, hmask, hset, Pool.setWorkerAffinity, maskChange, Pool.workerMask,
          Pool.joinDepartedThreads]

/-- `setAffinityMask()` in a pool that is not shut down. -/
theorem setAffinityMask_eq (pool : Pool) (answers : Answers) (mask : List Bool) (hs : pool.isShutdown = false) :
    let update := updateLiveWorkers (applyMask pool answers mask) (restoreMask answers)
      (pool.joinDepartedThreads answers).liveWorkers
    let call := pool.setAffinityMask answers mask
    call.1 = update.threw ∧ (update.threw = true → call.2.affinityMask = pool.affinityMask) ∧
      call.2.liveWorkers = update.liveWorkers := by
  have hs' : ¬(pool.joinDepartedThreads answers).isShutdown = true := by
    rw [show (pool.joinDepartedThreads answers).isShutdown = false from hs]
    exact Bool.false_ne_true
  simp only [Pool.setAffinityMask, applyMask_eq]
  rw [if_neg hs']
  split
  · rename_i h
    exact ⟨h.symm, fun _ => rfl, rfl⟩
  · rename_i h
    exact ⟨(Bool.not_eq_true _ ▸ h).symm, fun h' => absurd h' h, rfl⟩

/-- A worker that is restored runs on the CPUs that were read of it. -/
theorem restored_affinity_eq_iff (w : Worker) (hardwareConcurrency : Nat) :
    cpuSet hardwareConcurrency (getThreadAffinity hardwareConcurrency w) = w.affinity ↔
      ∀ i, w.affinity i = true → i < readable hardwareConcurrency := by
  have hset : ∀ i, cpuSet hardwareConcurrency (getThreadAffinity hardwareConcurrency w) i =
      (decide (i < readable hardwareConcurrency) && w.affinity i) := by
    intro i
    have hlen : (getThreadAffinity hardwareConcurrency w).length = readable hardwareConcurrency := by
      simp [getThreadAffinity]
    by_cases hi : i < readable hardwareConcurrency
    · have hget : (getThreadAffinity hardwareConcurrency w).getD i false = w.affinity i := by
        simp [getThreadAffinity, List.getD, hi]
      have h1 : i < min (readable hardwareConcurrency) hardwareConcurrency := by
        unfold readable at hi ⊢
        omega
      have h2 : i < 1024 := by
        unfold readable at hi
        omega
      rw [cpuSet, hlen, hget]
      simp [h1, h2, hi]
    · have h1 : ¬i < min (readable hardwareConcurrency) hardwareConcurrency := by omega
      rw [cpuSet, hlen]
      simp [h1, hi]
  rw [funext_iff]
  constructor
  · intro h i hi
    have := h i
    rw [hset, hi, Bool.and_true, decide_eq_true_eq] at this
    exact this
  · intro h i
    rw [hset]
    cases hi : w.affinity i with
    | false => simp
    | true => simp [h i hi]

theorem maskKept_iff (pool : Pool) (answers : Answers) (mask : List Bool) :
    MaskKept pool answers mask ↔ pool.MaskRestorable answers mask := by
  unfold MaskKept Pool.MaskRestorable
  cases hs : pool.isShutdown with
  | true =>
    have hs' : (pool.joinDepartedThreads answers).isShutdown = true := hs
    simp [Pool.setAffinityMask, hs']
  | false =>
    have happly : ∀ w, applyMask pool answers mask w =
        if Pool.refusesMask answers mask w then none else some (maskChange pool answers mask w) := fun w => rfl
    have hnone : ∀ w, (restoreMask answers (maskChange pool answers mask w).1 (maskChange pool answers mask w).2).isNone =
        answers.restoreFails w.threadID := by
      intro w
      rw [restoreMask, maskChange_threadID]
      cases answers.restoreFails w.threadID <;> rfl
    obtain ⟨hthrew, hmask, hlive⟩ := setAffinityMask_eq pool answers mask hs
    simp only [hthrew, hlive, updateLiveWorkers_threw _ happly, forall_const]
    refine imp_congr_right fun hrefused => ?_
    rw [map_updateLiveWorkers_eq_iff happly hnone hrefused,
      and_iff_right (hmask ((updateLiveWorkers_threw _ happly).mpr hrefused))]
    refine and_congr (forall₂_congr fun w hw => ?_) (forall₂_congr fun w _ => ?_)
    · have hok : answers.restoreFails w.threadID = false := by
        simpa using List.all_eq_true.mp (List.all_takeWhile) w hw
      rw [← restored_affinity_eq_iff w answers.hardwareConcurrency, restoreMask, maskChange_threadID, if_neg (by simp [hok])]
      simp [setThreadAffinity, maskChange_threadID, maskChange_snd]
    · by_cases hempty : mask = []
      · simp [maskChange, hempty]
      · rw [or_iff_right hempty, maskChange, if_neg hempty, setThreadAffinity, Prod.mk.injEq, and_iff_right rfl]
        exact Iff.rfl

/-! ### The scheduling policy -/

def applyScheduling (answers : Answers) (scheduling : Scheduling) (w : Worker) : Option (Worker × Unit) :=
  if answers.setFails w.threadID then none else some ({ w with scheduling }, ())

def restoreScheduling (pool : Pool) (answers : Answers) (w : Worker) (_ : Unit) : Option Worker :=
  if answers.restoreFails w.threadID then none else some { w with scheduling := pool.acceptedScheduling }

/-- `setThreadSchedulingPolicy()` in a pool that is not shut down. -/
theorem setThreadSchedulingPolicy_eq (pool : Pool) (answers : Answers) (scheduling : Scheduling)
    (hs : pool.isShutdown = false) :
    let update := updateLiveWorkers (applyScheduling answers scheduling) (restoreScheduling pool answers)
      (pool.joinDepartedThreads answers).liveWorkers
    let call := pool.setThreadSchedulingPolicy answers scheduling
    call.1 = update.threw ∧ call.2.liveWorkers = update.liveWorkers ∧
      (update.threw = true → call.2.scheduling = pool.acceptedScheduling ∧
        call.2.acceptedScheduling = pool.acceptedScheduling ∧
        call.2.lastTaken = if 0 < update.nWorkersRestored then pool.acceptedScheduling
          else if 0 < update.nWorkersSet then scheduling else pool.lastTaken) ∧
      (update.threw = false → call.2.acceptedScheduling = call.2.lastTaken ∨
        call.2.acceptedScheduling = pool.acceptedScheduling ∧ call.2.lastTaken = pool.lastTaken) := by
  have hs' : ¬(pool.joinDepartedThreads answers).isShutdown = true := by
    rw [show (pool.joinDepartedThreads answers).isShutdown = false from hs]
    exact Bool.false_ne_true
  simp only [Pool.setThreadSchedulingPolicy]
  rw [if_neg hs']
  split
  · rename_i h
    exact ⟨h.symm, rfl, fun _ => ⟨rfl, rfl, rfl⟩, fun h' => absurd (h'.symm.trans h) Bool.false_ne_true⟩
  · rename_i h
    have hthrew := Bool.not_eq_true _ ▸ h
    have hnone := Nat.not_lt.mpr (Nat.le_of_eq (nWorkersRestored_of_not_threw hthrew))
    split
    · rename_i hset
      refine ⟨hthrew.symm, rfl, fun h' => absurd h' h, fun _ => .inl ?_⟩
      simp only [if_neg hnone]
    · rename_i hset
      refine ⟨hthrew.symm, rfl, fun h' => absurd h' h, fun _ => .inr ⟨rfl, ?_⟩⟩
      simp only [if_neg hnone]
      rfl

/-- How many workers are set before a refusal, and how many of them are restored. -/
theorem updateLiveWorkers_counts (pool : Pool) (answers : Answers) (scheduling : Scheduling) {workers : List Worker}
    (hrefused : ∃ w ∈ workers, answers.setFails w.threadID = true) :
    let update := updateLiveWorkers (applyScheduling answers scheduling) (restoreScheduling pool answers) workers
    let changed := workers.takeWhile (!answers.setFails ·.threadID)
    update.nWorkersSet = changed.length ∧
      update.nWorkersRestored = (changed.takeWhile (!answers.restoreFails ·.threadID)).length := by
  have happly : ∀ w, applyScheduling answers scheduling w =
      if answers.setFails w.threadID then none else some ({ w with scheduling }, ()) := fun w => rfl
  have hthrew := (updateLiveWorkers_threw (restoreScheduling pool answers) happly).mpr hrefused
  have hall : ∀ w ∈ workers.takeWhile (!answers.setFails ·.threadID),
      applyScheduling answers scheduling w = some ({ w with scheduling }, ()) := by
    intro w hw
    have := List.all_eq_true.mp List.all_takeWhile w hw
    rw [happly, if_neg (by simpa using this)]
  have hmap : (workers.takeWhile (!answers.setFails ·.threadID)).filterMap (applyScheduling answers scheduling) =
      (workers.takeWhile (!answers.setFails ·.threadID)).map fun w => ({ w with scheduling }, ()) := by
    rw [← List.filterMap_eq_map]
    exact List.filterMap_congr hall
  rw [updateLiveWorkers, changeAll_eq, takeWhile_isSome happly] at hthrew ⊢
  cases hrest : workers.dropWhile (!answers.setFails ·.threadID) with
  | nil =>
    rw [hrest] at hthrew
    cases hthrew
  | cons w rest =>
    refine ⟨?_, ?_⟩
    · show List.length _ = _
      rw [hmap, List.length_map]
    · show (restoreAll _ _).2 = _
      rw [restoreAll_snd, hmap, List.takeWhile_map, List.length_map]
      congr 2
      funext w
      simp only [Function.comp_apply, restoreScheduling]
      cases answers.restoreFails w.threadID <;> rfl

theorem policyKept_iff (pool : Pool) (answers : Answers) (scheduling : Scheduling) :
    PolicyKept pool answers scheduling ↔ pool.PolicyRestorable answers scheduling := by
  unfold PolicyKept Pool.PolicyRestorable
  cases hs : pool.isShutdown with
  | true =>
    have hs' : (pool.joinDepartedThreads answers).isShutdown = true := hs
    simp [Pool.setThreadSchedulingPolicy, hs']
  | false =>
    have happly : ∀ w, applyScheduling answers scheduling w =
        if answers.setFails w.threadID then none else some ({ w with scheduling }, ()) := fun w => rfl
    have hnone : ∀ w : Worker, (restoreScheduling pool answers { w with scheduling } ()).isNone =
        answers.restoreFails w.threadID := by
      intro w
      rw [restoreScheduling]
      cases answers.restoreFails w.threadID <;> rfl
    obtain ⟨hthrew, hlive, hstored, -⟩ := setThreadSchedulingPolicy_eq pool answers scheduling hs
    simp only [hthrew, hlive, updateLiveWorkers_threw _ happly, forall_const]
    refine imp_congr_right fun hrefused => ?_
    obtain ⟨hsched, -, hlast⟩ := hstored ((updateLiveWorkers_threw _ happly).mpr hrefused)
    obtain ⟨hset, hrestored⟩ := updateLiveWorkers_counts pool answers scheduling hrefused
    rw [map_updateLiveWorkers_eq_iff happly hnone hrefused, hsched, hlast, hset, hrestored, and_comm, and_assoc]
    refine and_congr (forall₂_congr fun w hw => ?_) (and_congr (forall₂_congr fun w _ => ?_) ?_)
    · have hok : answers.restoreFails w.threadID = false := by
        simpa using List.all_eq_true.mp (List.all_takeWhile) w hw
      rw [restoreScheduling, if_neg (by simp [hok])]
      simp [eq_comm]
    · simp [eq_comm]
    · simp only [List.length_pos_iff]
      split
      · rename_i h
        exact iff_of_true rfl fun h' => absurd h' h
      · rename_i h
        rw [not_not] at h
        rw [imp_iff_right h]
        simp only [ite_not]

/-! ### Stripes -/

section Stripes

variable {stripe threadID : Nat}

theorem getElem?_stripeFrom (coreCount : Nat) (mask : List Bool) (i : Nat) :
    (stripeFrom stripe threadID coreCount mask)[i]? =
      mask[i]?.map fun value => value && (coreCount + (mask.take i).count true) % stripe == threadID % stripe := by
  induction mask generalizing coreCount i with
  | nil => simp [stripeFrom]
  | cons value mask ih =>
    cases value with
    | true =>
      cases i with
      | zero => simp [stripeFrom]
      | succ i =>
        have hcount : coreCount + 1 + (mask.take i).count true = coreCount + ((mask.take i).count true + 1) := by omega
        simp [stripeFrom, ih, hcount]
    | false =>
      cases i with
      | zero => simp [stripeFrom]
      | succ i => simp [stripeFrom, ih]

/-- The CPUs of a mask are numbered from zero. -/
theorem exists_core {mask : List Bool} {r : Nat} (h : r < mask.count true) :
    ∃ i : Nat, mask[i]? = some true ∧ (mask.take i).count true = r := by
  induction mask generalizing r with
  | nil => simp at h
  | cons value mask ih =>
    cases value with
    | true =>
      cases r with
      | zero => exact ⟨0, rfl, rfl⟩
      | succ r =>
        obtain ⟨i, hi, hr⟩ := ih (by simpa using h)
        exact ⟨i + 1, by simpa using hi, by simpa using hr⟩
    | false =>
      obtain ⟨i, hi, hr⟩ := ih (by simpa using h)
      exact ⟨i + 1, by simpa using hi, by simpa using hr⟩

theorem covers {mask : List Bool} (minThreads : Nat) (h : true ∈ mask) : Covers minThreads mask := by
  have hpos : 0 < mask.count true := List.count_pos_iff.mpr h
  have hstripe : 0 < stripeCount minThreads mask ∧ stripeCount minThreads mask ≤ mask.count true := by
    unfold stripeCount
    omega
  refine ⟨fun threadID i hi => ?_, fun threadID => ?_, fun i hi => ?_⟩
  · rw [distributeThreadAffinityAcrossCores, getElem?_stripeFrom] at hi
    obtain ⟨value, hvalue, hand⟩ := Option.map_eq_some_iff.mp hi
    rw [hvalue, ((Bool.and_eq_true _ _).mp hand).1]
  · have hlt := Nat.mod_lt threadID hstripe.1
    obtain ⟨i, hi, hr⟩ := exists_core (hlt.trans_le hstripe.2)
    refine List.mem_of_getElem? (i := i) ?_
    rw [distributeThreadAffinityAcrossCores, getElem?_stripeFrom, hi, hr]
    simp [Nat.mod_eq_of_lt hlt]
  · refine ⟨(mask.take i).count true % stripeCount minThreads mask, Nat.mod_lt _ hstripe.1, ?_⟩
    rw [distributeThreadAffinityAcrossCores, getElem?_stripeFrom, hi]
    simp

end Stripes

/-! ### The constraints of a pool -/

/-- A call that throws leaves what the workers had where it can restore it, and the stripes of every mask with a CPU make up
    the mask. -/
theorem constraints_kept_iff (pool : Pool) (answers : Answers) (threadAffinityMask : List Bool) (scheduling : Scheduling) :
    (MaskKept pool answers threadAffinityMask ↔ pool.MaskRestorable answers threadAffinityMask) ∧
      (PolicyKept pool answers scheduling ↔ pool.PolicyRestorable answers scheduling) ∧
        ∀ (minThreads : Nat) (mask : List Bool), true ∈ mask → Covers minThreads mask :=
  ⟨maskKept_iff pool answers threadAffinityMask, policyKept_iff pool answers scheduling, fun minThreads _ => covers minThreads⟩

/-- Two workers of an I/O-bound pool on a machine with 200 CPUs, the first on the CPUs 5 and 130. -/
def twoWorkers : Pool where
  taskType := .ioBound
  minThreads := 2
  isShutdown := false
  liveWorkers := [⟨0, fun i => i == 5 || i == 130, ⟨.other, 0⟩⟩, ⟨1, fun i => i == 5, ⟨.other, 0⟩⟩]
  departedThreads := []
  affinityMask := []
  scheduling := ⟨.other, 0⟩
  acceptedScheduling := ⟨.other, 0⟩
  lastTaken := ⟨.other, 0⟩

/-- The system sets the first worker and refuses the second. -/
def secondRefused : Answers where
  hardwareConcurrency := 200
  leaves _ := false
  getFails _ := false
  setFails threadID := threadID == 1
  restoreFails _ := false

/-- The first worker no longer runs on CPU 130. -/
theorem restored_without_cpu : ¬MaskKept twoWorkers secondRefused [true] := by
  intro h
  obtain ⟨hrestored, -⟩ := (maskKept_iff _ _ _).mp h rfl ⟨_, .tail _ (.head _), rfl⟩
  have hlt := hrestored _ (.head _) 130 rfl
  revert hlt
  decide

end GnuRadio.ThreadConstraints
