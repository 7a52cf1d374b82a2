import GnuRadio.Theorems.Scheduler.Adoption

/-! While a run goes on, every zombie is with a worker that erases it once it can be deleted, and a removed block that is no
    zombie is in no list, as long as no step drops or strands one. -/

namespace GnuRadio.Adoption

open Function

variable {n : Nat} {β : Type} {s t u : State n β} {b z : β} {i j k : Fin n} {hash : β → Nat}
  {scheduled : β → Bool} {nPasses : Nat}

/-- The edit takes this block out of the run. -/
def Edit.removes : Edit n β → Option β
  | .stopChild block | .unqueue block _ | .jobListHolds block _ | .pushZombie block => some block
  | _ => none

/-- A worker in or before its loop has the block, or takes it from its adoption list before it leaves. -/
def Reaches (s : State n β) (b : β) (i : Fin n) : Prop := Active s i ∧ (Waiting s b i ∨ Holds s b i)

/-- No adoption list and no job list has the block, and no worker has taken it to record it. -/
def Nowhere (s : State n β) (b : β) : Prop := ∀ i, ¬ Waiting s b i ∧ b ∉ s.executionOrder i

/-- Each zombie is with a worker whose cleanup erases it, and no list refers to another removed block once its edit is
    through. -/
structure Released (s : State n β) : Prop where
  erasable : ∀ z ∈ s.zombieBlocks, ∃ i, Reaches s z i
  gone : ∀ b, s.removed b = true → s.edit.removes ≠ some b → b ∉ s.zombieBlocks → Nowhere s b

/-! ### Steps that strand no block -/

variable [DecidableEq β]

/-- The worker deletes no zombie that is queued as well, drops no withdrawn zombie that no other worker reaches, and leaves
    none behind. -/
def WorkerReleases (s : State n β) (i : Fin n) : Prop :=
  match (s.workers i).stage with
  | .cleanup _ => ∀ z ∈ s.zombieBlocks, z ∈ (s.workers i).localBlockList →
      State.deletable (s.blockState z) = true → ∀ k, ¬ Waiting s z k
  | .drop withdrawn => ∀ z ∈ s.zombieBlocks, z ∈ withdrawn → ∃ k, Active s k ∧ (Waiting s z k ∨ k ≠ i ∧ RunBy s z k)
  | .closeIfEmpty => s.adoptionBlocks i = [] → ∀ z ∈ s.zombieBlocks, ∃ k, k ≠ i ∧ Reaches s z k
  | _ => True

/-- A block that becomes a zombie is with a worker, and one that is dropped is no longer queued. -/
def EditReleases (s : State n β) : Prop :=
  match s.edit with
  | .jobListHolds block active => active = false → s.jobListHolding block = none → ∀ i, ¬ Waiting s block i
  | .pushZombie block => ∃ i, Reaches s block i
  | _ => True

/-- No step of the run loses a removed block. -/
def Releases (s : State n β) : Act n β → Prop
  | .worker i _ _ => WorkerReleases s i
  | .edit _ _ => EditReleases s
  | _ => True

/-! ### Cleanup -/

/-- A zombie that the worker deletes: it has the block, in a state in which it can be deleted. -/
def Deletes (s : State n β) (i : Fin n) (z : β) : Prop :=
  z ∈ (s.workers i).localBlockList ∧ State.deletable (s.blockState z) = true

/-- What a cleanup does with the zombies of a list. -/
structure CleansUp (i : Fin n) (zombies : List β) (s t : State n β) : Prop where
  zombieBlocks : ∀ z, z ∈ t.zombieBlocks ↔ z ∈ s.zombieBlocks ∧ ¬ (z ∈ zombies ∧ Deletes s i z)
  nodup : t.zombieBlocks.Nodup
  keeps : ∀ b, ¬ (b ∈ zombies ∧ Deletes s i b) →
    (b ∈ (s.workers i).localBlockList → b ∈ (t.workers i).localBlockList) ∧
      ∀ j, b ∈ s.executionOrder j → b ∈ t.executionOrder j
  erased : ∀ b, b ∈ zombies ∧ Deletes s i b → ∀ j, b ∉ t.executionOrder j

theorem mem_eraseFromJobList {b' : β} (h : b' ∈ (s.eraseFromJobList b).executionOrder j) :
    b' ∈ s.executionOrder j := (Shrinks.eraseFromJobList s b).order b' j h

theorem eraseFromJobList_other {b' : β} (hne : b' ≠ b) (h : b' ∈ s.executionOrder j) :
    b' ∈ (s.eraseFromJobList b).executionOrder j := by
  unfold State.eraseFromJobList
  split
  · next k _ =>
    by_cases hj : j = k
    · subst hj
      simp [h, hne]
    · simpa [update_of_ne hj] using h
  · exact h

/-- A block that one job list at most holds is in none. -/
theorem not_mem_eraseFromJobList (order : ∀ j k, b ∈ s.executionOrder j → b ∈ s.executionOrder k → j = k) (j : Fin n) :
    b ∉ (s.eraseFromJobList b).executionOrder j := by
  intro h
  have hj := mem_eraseFromJobList h
  have hfound := jobListHolding_eq hj fun k hk => order k j hk hj
  unfold State.eraseFromJobList at h
  rw [hfound] at h
  simp at h

theorem eraseFromJobList_zombies : (s.eraseFromJobList b).zombieBlocks = s.zombieBlocks := by
  unfold State.eraseFromJobList
  split <;> rfl

theorem eraseFromJobList_workers : (s.eraseFromJobList b).workers = s.workers := by
  unfold State.eraseFromJobList
  split <;> rfl

theorem eraseFromJobList_blockState : (s.eraseFromJobList b).blockState = s.blockState := by
  unfold State.eraseFromJobList
  split <;> rfl

theorem cleansUp (order : ∀ b j k, b ∈ s.executionOrder j → b ∈ s.executionOrder k → j = k) {zombies : List β}
    (hnodup : zombies.Nodup) (hz : s.zombieBlocks.Nodup) : CleansUp i zombies s (s.cleanupZombies i zombies) := by
  induction zombies generalizing s with
  | nil => exact ⟨fun z => by simp [State.cleanupZombies], hz, fun b _ => ⟨id, fun _ => id⟩, fun b hb => by simp at hb⟩
  | cons zombie rest ih =>
    rw [List.nodup_cons] at hnodup
    simp only [State.cleanupZombies]
    split
    · next hdelete =>
      set v : State n β := { s with
        workers := update s.workers i
          { s.workers i with localBlockList := (s.workers i).localBlockList.erase zombie }
        zombieBlocks := s.zombieBlocks.erase zombie } with hv
      set u := v.eraseFromJobList zombie with hu
      have hlocal : (u.workers i).localBlockList = (s.workers i).localBlockList.erase zombie := by
        simp [hu, hv, eraseFromJobList_workers]
      have hstate : u.blockState = s.blockState := by simp [hu, hv, eraseFromJobList_blockState]
      have hzombies : u.zombieBlocks = s.zombieBlocks.erase zombie := by simp [hu, hv, eraseFromJobList_zombies]
      have horder (b : β) (j : Fin n) (hb : b ∈ u.executionOrder j) : b ∈ s.executionOrder j :=
        (Shrinks.eraseFromJobList v zombie).order b j hb
      have hgone (j : Fin n) : zombie ∉ u.executionOrder j := not_mem_eraseFromJobList (s := v) (order zombie) j
      have hdeletes (b : β) (hne : b ≠ zombie) : Deletes u i b ↔ Deletes s i b := by
        unfold Deletes
        rw [hlocal, hstate, List.mem_erase_of_ne hne]
      obtain ⟨h₁, h₂, h₃, h₄⟩ := ih (fun b j k hj hk => order b j k (horder b j hj) (horder b k hk)) hnodup.2
        (hzombies ▸ hz.erase zombie)
      refine ⟨fun z => ?_, h₂, fun b hb => ?_, fun b hb j => ?_⟩
      · rw [h₁, hzombies]
        by_cases hne : z = zombie
        · subst hne
          have hout : z ∉ s.zombieBlocks.erase z := fun hm => absurd rfl (List.Nodup.mem_erase_iff hz |>.mp hm).1
          have hdel : Deletes s i z := hdelete
          simp [hout, hdel]
        · rw [List.mem_erase_of_ne hne, hdeletes z hne, List.mem_cons]
          simp [hne]
      · have hne : b ≠ zombie := fun hc => hb ⟨hc ▸ (.head _), hc ▸ hdelete⟩
        obtain ⟨hl, ho⟩ := h₃ b fun hm => hb ⟨.tail _ hm.1, (hdeletes b hne).mp hm.2⟩
        refine ⟨fun hm => hl ?_, fun j hm => ho j (eraseFromJobList_other hne hm)⟩
        rw [hlocal, List.mem_erase_of_ne hne]
        exact hm
      · by_cases hne : b = zombie
        · subst hne
          exact fun hm => hgone j ((Shrinks.cleanupZombies u i rest).order b j hm)
        · exact h₄ b ⟨(List.mem_cons.mp hb.1).resolve_left hne, (hdeletes b hne).mpr hb.2⟩ j
    · next hkeep =>
      obtain ⟨h₁, h₂, h₃, h₄⟩ := ih order hnodup.2 hz
      have hiff (b : β) : (b ∈ zombie :: rest ∧ Deletes s i b) ↔ (b ∈ rest ∧ Deletes s i b) := by
        refine ⟨fun h => ⟨(List.mem_cons.mp h.1).resolve_left fun hc => hkeep (hc ▸ h.2), h.2⟩, fun h => ?_⟩
        exact ⟨.tail _ h.1, h.2⟩
      refine ⟨fun z => ?_, h₂, fun b hb => h₃ b fun hm => hb ((hiff b).mpr hm), fun b hb => h₄ b ((hiff b).mp hb)⟩
      rw [h₁, hiff]

/-! ### A step of a worker -/

omit [DecidableEq β] in
theorem Stage.not_before {stage : Stage β} (h : stage.inLoop = true) : stage.before ≠ true := by
  cases stage <;> simp_all [Stage.inLoop, Stage.before]

omit [DecidableEq β] in
/-- A worker that goes on in its loop, and loses no block but those that it has taken to record them. -/
theorem Reaches.goesOn {stage : Stage β} (h : Reaches s z j) (hl : (s.workers i).stage.inLoop = true)
    (hn : (s.workers i).stage.newBlocks = []) (hl' : stage.inLoop = true) : Reaches (s.setStage i stage) z j := by
  obtain ⟨ha, hz⟩ := h
  by_cases hj : j = i
  · subst hj
    have hloop : ((s.setStage j stage).workers j).stage.inLoop = true := by simpa [State.setStage] using hl'
    refine ⟨.inl hloop, ?_⟩
    obtain (hz | hz) | (⟨-, hz⟩ | ⟨hb, -⟩) := hz
    · exact .inl (.inl hz)
    · rw [hn] at hz
      cases hz
    · refine .inr (.inl ⟨hloop, ?_⟩)
      simpa [State.setStage] using hz
    · exact absurd hb (Stage.not_before hl)
  · have hsame : (s.setStage i stage).workers j = s.workers j := update_of_ne hj ..
    unfold Reaches Active Waiting Holds at *
    rw [hsame]
    exact ⟨ha, hz⟩

omit [DecidableEq β] in
/-- Changes that leave a block where it is. -/
theorem Reaches.moved (h : Reaches s z j) (stage : ∀ k, (t.workers k).stage = (s.workers k).stage)
    (waits : ∀ k, z ∈ s.adoptionBlocks k → z ∈ t.adoptionBlocks k)
    (order : ∀ k, z ∈ s.executionOrder k → z ∈ t.executionOrder k)
    (has : ∀ k, z ∈ (s.workers k).localBlockList → z ∈ (t.workers k).localBlockList) : Reaches t z j := by
  unfold Reaches Active Waiting Holds at *
  rw [stage]
  exact ⟨h.1, h.2.imp (Or.imp_left (waits j)) (Or.imp (And.imp_right (has j)) (And.imp_right (order j)))⟩

omit [DecidableEq β] in
theorem setPasses_stage (s : State n β) (i : Fin n) (m : Nat) (k : Fin n) :
    ((s.setPasses i m).workers k).stage = (s.workers k).stage := by
  by_cases hk : k = i
  · subst hk
    simp [State.setPasses]
  · simp [State.setPasses, update_of_ne hk]

omit [DecidableEq β] in
theorem Reaches.setPasses (h : Reaches s z j) (i : Fin n) (m : Nat) : Reaches (s.setPasses i m) z j := by
  refine h.moved (setPasses_stage s i m) (fun _ => id) (fun _ => id) fun k hz => ?_
  by_cases hk : k = i
  · subst hk
    simpa [State.setPasses] using hz
  · simpa [State.setPasses, update_of_ne hk] using hz

theorem record_stage (s : State n β) (newBlocks : List β) (k : Fin n) :
    ((s.record i newBlocks).workers k).stage = (s.workers k).stage := by
  induction newBlocks generalizing s with
  | nil => rfl
  | cons b rest ih => exact (ih (s.adoptBlock i b)).trans adoptBlock_stage

/-- Once recorded, a block is with the worker that took it; other blocks are where they were. -/
theorem Reaches.record {newBlocks : List β} (h : Reaches s z j) (hw : (s.workers i).stage.inLoop = true)
    (hn : ∀ b ∈ (s.workers i).stage.newBlocks, b ∈ newBlocks) {stage : Stage β} (hl : stage.inLoop = true) :
    ∃ k, Reaches ((s.record i newBlocks).setStage i stage) z k := by
  have hlocal (k : Fin n) : z ∈ (s.workers k).localBlockList → z ∈ ((s.record i newBlocks).workers k).localBlockList := by
    clear hn h hw
    induction newBlocks generalizing s with
    | nil => exact id
    | cons b rest ih => exact fun hz => ih (s := s.adoptBlock i b) (mem_adoptBlock_local.mpr (.inr hz))
  have hadoption : (s.record i newBlocks).adoptionBlocks = s.adoptionBlocks := (Frame.record s newBlocks).adoptionBlocks
  have hset : ((s.record i newBlocks).setStage i stage).adoptionBlocks = s.adoptionBlocks := hadoption
  have hat : (((s.record i newBlocks).setStage i stage).workers i).stage.inLoop = true := by
    simpa [State.setStage] using hl
  have howns : (((s.record i newBlocks).setStage i stage).workers i).localBlockList =
      ((s.record i newBlocks).workers i).localBlockList := by simp [State.setStage]
  by_cases hz : z ∈ newBlocks
  · refine ⟨i, .inl (hat), .inr (.inl ⟨hat, ?_⟩)⟩
    rw [howns]
    exact mem_record_local (.inl hz)
  · have horder (k : Fin n) : z ∈ s.executionOrder k → z ∈ (s.record i newBlocks).executionOrder k := by
      clear hn h hw hlocal hadoption hset hat howns
      induction newBlocks generalizing s with
      | nil => exact id
      | cons b rest ih =>
        rw [List.mem_cons, not_or] at hz
        exact fun hm => ih hz.2 (s := s.adoptBlock i b) (mem_adoptBlock_order.mpr (.inr ⟨hz.1, hm⟩))
    obtain ⟨ha, hr⟩ := h
    refine ⟨j, ?_⟩
    by_cases hj : j = i
    · subst hj
      refine ⟨.inl (hat), ?_⟩
      obtain (hm | hm) | (⟨-, hm⟩ | ⟨hb, -⟩) := hr
      · exact .inl (.inl (by rwa [hset]))
      · exact absurd (hn z hm) hz
      · refine .inr (.inl ⟨hat, ?_⟩)
        rw [howns]
        exact hlocal j hm
      · exact absurd hb (Stage.not_before hw)
    · have hsame : ((s.record i newBlocks).setStage i stage).workers j = (s.record i newBlocks).workers j :=
        update_of_ne hj ..
      unfold Reaches Active Waiting Holds
      rw [hsame, hset, record_stage]
      exact ⟨ha, hr.imp id (Or.imp (And.imp_right (hlocal j)) (And.imp_right (horder j)))⟩

omit [DecidableEq β] in
/-- Another worker still reaches the block. -/
theorem Reaches.other (h : Reaches s z j) (hw : t.workers j = s.workers j)
    (waits : z ∈ s.adoptionBlocks j → z ∈ t.adoptionBlocks j)
    (order : z ∈ s.executionOrder j → z ∈ t.executionOrder j) : Reaches t z j := by
  unfold Reaches Active Waiting Holds at *
  rw [hw]
  exact ⟨h.1, h.2.imp (Or.imp_left waits) (Or.imp_right (And.imp_right order))⟩

omit [DecidableEq β] in
/-- A worker before its loop enters it with its job list. -/
theorem Reaches.copyJobs (h : Reaches s z j) (hw : (s.workers i).stage = .copyJobs) :
    Reaches ((s.setLocal i (s.executionOrder i)).setStage i .top) z j := by
  by_cases hj : j = i
  · subst hj
    have hloop : (((s.setLocal j (s.executionOrder j)).setStage j .top).workers j).stage.inLoop = true := by
      simp [State.setStage, Stage.inLoop]
    refine ⟨.inl hloop, ?_⟩
    obtain (hz | hz) | (⟨hl, -⟩ | ⟨-, hz⟩) := h.2
    · exact .inl (.inl hz)
    · rw [hw] at hz
      cases hz
    · rw [hw] at hl
      cases hl
    · refine .inr (.inl ⟨hloop, ?_⟩)
      simpa [State.setStage, State.setLocal] using hz
  · exact h.other (by simp [State.setStage, State.setLocal, update_of_ne hj]) id id

omit [DecidableEq β] in
theorem Reaches.enters (h : Reaches s z j) (hw : (s.workers i).stage = .queued) : Reaches (s.setStage i .copyJobs) z j := by
  by_cases hj : j = i
  · subst hj
    have hbefore : ((s.setStage j .copyJobs).workers j).stage.before = true := by simp [State.setStage, Stage.before]
    refine ⟨.inr hbefore, ?_⟩
    obtain (hz | hz) | (⟨hl, -⟩ | ⟨-, hz⟩) := h.2
    · exact .inl (.inl hz)
    · rw [hw] at hz
      cases hz
    · rw [hw] at hl
      cases hl
    · exact .inr (.inr ⟨hbefore, hz⟩)
  · exact h.other (by simp [State.setStage, update_of_ne hj]) id id

omit [DecidableEq β] in
/-- What a worker takes from its queue it will record. -/
theorem Reaches.adopt (h : Reaches s z j) (hl : (s.workers i).stage.inLoop = true)
    (hn : (s.workers i).stage.newBlocks = []) {stage : Stage β} (hl' : stage.inLoop = true)
    (hnew : s.adoptionBlocks i ≠ [] → stage.newBlocks = s.adoptionBlocks i) :
    Reaches (State.setStage { s with adoptionBlocks := update s.adoptionBlocks i [] } i stage) z j := by
  by_cases hj : j = i
  · subst hj
    set u := State.setStage { s with adoptionBlocks := update s.adoptionBlocks j [] } j stage with hu
    have hstage : (u.workers j).stage = stage := by simp [hu, State.setStage]
    have hloop : (u.workers j).stage.inLoop = true := hstage.symm ▸ hl'
    refine ⟨.inl hloop, ?_⟩
    obtain (hz | hz) | (⟨-, hz⟩ | ⟨hb, -⟩) := h.2
    · refine .inl (.inr ?_)
      rw [hstage, hnew (List.ne_nil_of_mem hz)]
      exact hz
    · rw [hn] at hz
      cases hz
    · refine .inr (.inl ⟨hloop, ?_⟩)
      simpa [hu, State.setStage] using hz
    · exact absurd hb (Stage.not_before hl)
  · refine h.other (by simp [State.setStage, update_of_ne hj]) (fun hz => ?_) id
    simpa [State.setStage, update_of_ne hj] using hz

omit [DecidableEq β] in
theorem mem_of_mem_update {lists : Fin n → List β} {list : List β} (h : z ∈ update lists i list j)
    (hl : z ∈ list → z ∈ lists i) : z ∈ lists j := by
  by_cases hj : j = i
  · subst hj
    rw [update_self] at h
    exact hl h
  · rwa [update_of_ne hj] at h

omit [DecidableEq β] in
/-- What a worker that leaves hands over was in its queue or in the other one. -/
theorem mem_handed (lists : Fin n → List β) (h : z ∈ update (update lists k (lists k ++ lists i)) i [] j) :
    z ∈ lists j ∨ z ∈ lists i := by
  by_cases hj : j = i
  · rw [hj, update_self] at h
    cases h
  · rw [update_of_ne hj] at h
    by_cases hk : j = k
    · subst hk
      rw [update_self] at h
      exact List.mem_append.mp h
    · rw [update_of_ne hk] at h
      exact .inl h

omit [DecidableEq β] in
/-- A worker that has left its loop reaches no block, and its queue goes to another. -/
theorem Reaches.closes (h : Reaches s z j) (hw : (s.workers i).stage = .closing) :
    Reaches ((s.closeAdoptionList i).setStage i .left) z j := by
  have hj : j ≠ i := by
    rintro rfl
    obtain ⟨hl | hb, -⟩ := h
    · rw [hw] at hl
      cases hl
    · rw [hw] at hb
      cases hb
  have hlists := closeAdoptionList_lists hw
  have horder : ((s.closeAdoptionList i).setStage i .left).executionOrder = s.executionOrder := by
    simp only [State.closeAdoptionList]
    split
    · rfl
    · split <;> rfl
  refine h.other (hlists.frame.workers j hj) (fun hz => ?_) (horder ▸ id)
  generalize hu : (s.closeAdoptionList i).setStage i .left = u at hlists
  cases hlists with
  | same hf | ends hf | closes hf _ => exact hf.adoptionBlocks ▸ hz
  | takes hf hl _ =>
    have hout : (((s.closeAdoptionList i).setStage i .left).workers i).stage = .left := by simp [State.setStage]
    rw [hu] at hout
    rw [hout] at hl
    cases hl
  | @hands _ k hf _ _ _ =>
    change z ∈ update (update s.adoptionBlocks k (s.adoptionBlocks k ++ s.adoptionBlocks i)) i [] j
    rw [update_of_ne hj]
    by_cases hk : j = k
    · subst hk
      rw [update_self]
      exact List.mem_append_left _ hz
    · rwa [update_of_ne hk]

/-- A block that waits, or that another worker runs, is not out of reach when one worker drops it. -/
theorem dropped_reaches {withdrawn : List β} (hw : (s.workers i).stage = .drop withdrawn) (ha : Active s k)
    (hr : Waiting s z k ∨ k ≠ i ∧ RunBy s z k) :
    Reaches ((s.dropWithdrawn i withdrawn).setStage i .traverse) z k := by
  by_cases hk : k = i
  · subst hk
    have hloop : (((s.dropWithdrawn k withdrawn).setStage k .traverse).workers k).stage.inLoop = true := by
      simp [State.setStage, Stage.inLoop]
    obtain (hz | hz) | ⟨hne, -⟩ := hr
    · exact ⟨.inl hloop, .inl (.inl hz)⟩
    · rw [hw] at hz
      cases hz
    · exact absurd rfl hne
  · have hsame : ((s.dropWithdrawn i withdrawn).setStage i .traverse).workers k = s.workers k := by
      simp [State.setStage, State.dropWithdrawn, update_of_ne hk]
    unfold Reaches Active Waiting Holds at *
    rw [hsame]
    exact ⟨ha, hr.imp id fun h => .inl h.2⟩

variable {status : Option Status} {hint : Bool}

/-- A worker's step strands no zombie. -/
theorem Reaches.workerStep (h : Reaches s z j)
    (hs : workerStep nPasses s i hint status = some t) (he : t.ended = false) (hok : WorkerReleases s i)
    (order : ∀ b j k, b ∈ s.executionOrder j → b ∈ s.executionOrder k → j = k) (hnodup : s.zombieBlocks.Nodup)
    (hzs : z ∈ s.zombieBlocks) (hzt : z ∈ t.zombieBlocks) : ∃ k, Reaches t z k := by
  cases hw : (s.workers i).stage <;> simp only [Adoption.workerStep, hw] at hs
  case queued =>
    cases hs
    have he' : s.ended = false := he
    rw [he', if_neg Bool.false_ne_true]
    exact ⟨j, h.enters hw⟩
  case copyJobs =>
    cases hs
    exact ⟨j, h.copyJobs hw⟩
  case top =>
    split at hs <;> cases hs
    · exact ⟨j, h.goesOn (by simp [hw, Stage.inLoop]) (by simp [hw, Stage.newBlocks]) rfl⟩
    · exact ⟨j, (h.setPasses i _).goesOn (by rw [setPasses_stage, hw]; rfl)
        (by rw [setPasses_stage, hw]; rfl) rfl⟩
  case checkGeneration =>
    cases hs
    have he' : s.ended = false := he
    rw [he', if_neg Bool.false_ne_true]
    exact ⟨j, h.goesOn (by simp [hw, Stage.inLoop]) (by simp [hw, Stage.newBlocks]) rfl⟩
  case cleanup done =>
    cases hs
    refine ⟨j, Reaches.goesOn (i := i) ?_ ?_ ?_ rfl⟩
    · split
      · exact h
      · next hne =>
        have hclean := cleansUp (i := i) order hnodup hnodup
        have hstays : ¬ (z ∈ s.zombieBlocks ∧ Deletes s i z) := by
          have hzt' : z ∈ (s.cleanupZombies i s.zombieBlocks).zombieBlocks := by simpa [State.setStage, hne] using hzt
          exact ((hclean.zombieBlocks z).mp hzt').2
        obtain ⟨hlocal, horder⟩ := hclean.keeps z hstays
        have hframe := Frame.cleanupZombies (i := i) s s.zombieBlocks
        refine h.moved (fun k => cleanupZombies_stage s i k _) (fun k => hframe.adoptionBlocks ▸ id) horder fun k hz => ?_
        by_cases hk : k = i
        · subst hk
          exact hlocal hz
        · rw [hframe.workers k hk]
          exact hz
    · split
      · simp [hw, Stage.inLoop]
      · simp [cleanupZombies_stage, hw, Stage.inLoop]
    · split
      · simp [hw, Stage.newBlocks]
      · simp [cleanupZombies_stage, hw, Stage.newBlocks]
  case adopt done =>
    cases hs
    refine ⟨j, h.adopt (by simp [hw, Stage.inLoop]) (by simp [hw, Stage.newBlocks]) ?_ fun hne => ?_⟩
    · split
      · rfl
      · split <;> rfl
    · rw [if_pos hne]
      rfl
  case record done newBlocks =>
    cases hs
    exact h.record (by simp [hw, Stage.inLoop]) (by simp [hw, Stage.newBlocks]) (by split <;> rfl)
  case checkState | condition =>
    cases hs
    have he' : s.ended = false := he
    rw [he', if_neg Bool.false_ne_true]
    exact ⟨j, (h.setPasses i _).goesOn (by rw [setPasses_stage, hw]; rfl)
      (by rw [setPasses_stage, hw]; rfl) rfl⟩
  case work =>
    cases status <;> cases hs
    · exact ⟨j, h.goesOn (by simp [hw, Stage.inLoop]) (by simp [hw, Stage.newBlocks]) rfl⟩
    · exact ⟨j, h.goesOn (by simp [hw, Stage.inLoop]) (by simp [hw, Stage.newBlocks]) (by split <;> rfl)⟩
  case copyWithdrawn =>
    cases hs
    exact ⟨j, h.goesOn (by simp [hw, Stage.inLoop]) (by simp [hw, Stage.newBlocks]) rfl⟩
  case drop withdrawn =>
    cases hs
    rw [WorkerReleases, hw] at hok
    by_cases hz : z ∈ withdrawn
    · obtain ⟨k, ha, hr⟩ := hok z hzs hz
      exact ⟨k, dropped_reaches hw ha hr⟩
    · refine ⟨j, Reaches.goesOn (i := i) ?_ (by simp [State.dropWithdrawn, hw, Stage.inLoop])
        (by simp [State.dropWithdrawn, hw, Stage.newBlocks]) rfl⟩
      refine h.moved (fun k => ?_) (fun _ => id) (fun k hm => ?_) fun k hm => ?_
      · by_cases hk : k = i
        · subst hk
          simp [State.dropWithdrawn]
        · simp [State.dropWithdrawn, update_of_ne hk]
      · simpa [State.dropWithdrawn, hz] using hm
      · by_cases hk : k = i
        · subst hk
          simpa [State.dropWithdrawn, hz] using hm
        · simpa [State.dropWithdrawn, update_of_ne hk] using hm
  case traverse =>
    split at hs <;> cases hs
    · exact ⟨j, h.goesOn (by simp [hw, Stage.inLoop]) (by simp [hw, Stage.newBlocks]) rfl⟩
    · exact ⟨j, h.goesOn (by simp [hw, Stage.inLoop]) (by simp [hw, Stage.newBlocks]) rfl⟩
    · exact ⟨j, h.goesOn (by simp [hw, Stage.inLoop]) (by simp [hw, Stage.newBlocks]) rfl⟩
    · cases he
  case closeIfEmpty =>
    split at hs <;> cases hs
    · exact ⟨j, h.goesOn (by simp [hw, Stage.inLoop]) (by simp [hw, Stage.newBlocks]) rfl⟩
    · next hempty =>
      rw [WorkerReleases, hw] at hok
      obtain ⟨k, hk, hr⟩ := hok (not_not.mp hempty) z hzs
      exact ⟨k, hr.other (by simp [State.setStage, update_of_ne hk]) id id⟩
  case closing =>
    cases hs
    exact ⟨j, h.closes hw⟩
  case left | retired =>
    cases hs

omit [DecidableEq β] in
theorem Nowhere.shrinks (h : Nowhere s b) (hs : Shrinks s t) : Nowhere t b := fun i =>
  ⟨fun hw => (h i).1 (hs.waiting b i hw), fun hm => (h i).2 (hs.order b i hm)⟩

theorem Nowhere.record {newBlocks : List β} (h : Nowhere s b) (hb : b ∉ newBlocks) : Nowhere (s.record i newBlocks) b := by
  induction newBlocks generalizing s with
  | nil => exact h
  | cons block rest ih =>
    rw [List.mem_cons, not_or] at hb
    refine ih (s := s.adoptBlock i block) (fun j => ⟨fun hw => (h j).1 (adoptBlock_waiting.mp hw), fun hm => ?_⟩) hb.2
    obtain ⟨hc, -⟩ | ⟨-, hm⟩ := mem_adoptBlock_order.mp hm
    · exact hb.1 hc
    · exact (h j).2 hm

omit [DecidableEq β] in
/-- A worker that leaves hands on what waits for it, and nothing else moves. -/
theorem closes_moves (s : State n β) (i : Fin n) :
    (∀ b j, Waiting ((s.closeAdoptionList i).setStage i .left) b j → Waiting s b j ∨ Waiting s b i) ∧
      (∀ b j, Holds ((s.closeAdoptionList i).setStage i .left) b j → Holds s b j) ∧
      ((s.closeAdoptionList i).setStage i .left).executionOrder = s.executionOrder := by
  have hsame {u : State n β} (hworkers : u.workers = s.workers) {j : Fin n} (hj : j ≠ i) :
      (u.setStage i .left).workers j = s.workers j := by
    simp [State.setStage, update_of_ne hj, hworkers]
  have hnew {u : State n β} (hworkers : u.workers = s.workers) {b : β} {j : Fin n}
      (hm : b ∈ ((u.setStage i .left).workers j).stage.newBlocks) : b ∈ (s.workers j).stage.newBlocks := by
    by_cases hj : j = i
    · subst hj
      simp [State.setStage, Stage.newBlocks] at hm
    · rwa [hsame hworkers hj] at hm
  have hholds {u : State n β} (hworkers : u.workers = s.workers) (horder : u.executionOrder = s.executionOrder) {b : β}
      {j : Fin n} (hh : Holds (u.setStage i .left) b j) : Holds s b j := by
    by_cases hj : j = i
    · subst hj
      simp [Holds, State.setStage, Stage.inLoop, Stage.before] at hh
    · unfold Holds at hh ⊢
      rw [hsame hworkers hj] at hh
      exact hh.imp id (And.imp_right fun hm => horder ▸ hm)
  simp only [State.closeAdoptionList]
  split
  · exact ⟨fun b j hq => .inl (hq.imp id (hnew rfl)), fun b j => hholds rfl rfl, rfl⟩
  · split
    · next l _ =>
      refine ⟨fun b j hq => ?_, fun b j => hholds rfl rfl, rfl⟩
      obtain hq | hq := hq
      · exact (mem_handed s.adoptionBlocks hq).imp .inl .inl
      · exact .inl (.inr (hnew rfl hq))
    · exact ⟨fun b j hq => .inl (hq.imp id (hnew rfl)), fun b j => hholds rfl rfl, rfl⟩

omit [DecidableEq β] in
theorem Nowhere.closes (h : Nowhere s b) : Nowhere ((s.closeAdoptionList i).setStage i .left) b := fun j =>
  have ⟨hwaits, _, horder⟩ := closes_moves s i
  ⟨fun hq => (hwaits b j hq).elim (h j).1 (h i).1, fun hm => (h j).2 (horder ▸ hm)⟩

theorem Nowhere.workerStep (h : Nowhere s b)
    (hs : workerStep nPasses s i hint status = some t) : Nowhere t b := by
  by_cases hc : (s.workers i).stage = .closing
  · simp only [Adoption.workerStep, hc, Option.some.injEq] at hs
    subst hs
    exact h.closes
  cases hw : (s.workers i).stage with
  | record done newBlocks =>
    simp only [Adoption.workerStep, hw] at hs
    cases hs
    have hb : b ∉ newBlocks := fun hm => (h i).1 (.inr (by rwa [hw]))
    refine (h.record hb).shrinks (.goesOn (by rw [record_stage, hw]; rfl) ?_ ?_) <;> split <;> rfl
  | _ => exact h.shrinks (workerStep_shrinks hs (by simp [hw, Stage.newBlocks]) hc)

/-- The zombies that a worker's step leaves. -/
theorem workerStep_zombies (hs : workerStep nPasses s i hint status = some t)
    (order : ∀ b j k, b ∈ s.executionOrder j → b ∈ s.executionOrder k → j = k) (hnodup : s.zombieBlocks.Nodup) :
    t.zombieBlocks = s.zombieBlocks ∨ ∃ done, (s.workers i).stage = .cleanup done ∧
      ∃ u, CleansUp i s.zombieBlocks s u ∧ t = u.setStage i (.adopt done) ∧ Shrinks s u := by
  cases hw : (s.workers i).stage <;> simp only [workerStep, hw] at hs
  case cleanup done =>
    cases hs
    split
    · exact .inl rfl
    · exact .inr ⟨done, rfl, _, cleansUp order hnodup hnodup, rfl, .cleanupZombies s i _⟩
  case record done newBlocks =>
    cases hs
    left
    change (s.record i newBlocks).zombieBlocks = s.zombieBlocks
    clear hw order hnodup
    induction newBlocks generalizing s with
    | nil => rfl
    | cons b rest ih => exact ih (s := s.adoptBlock i b)
  case closing =>
    cases hs
    left
    simp only [State.closeAdoptionList]
    split
    · rfl
    · split <;> rfl
  case work =>
    cases status <;> cases hs <;> exact .inl rfl
  case top | traverse | closeIfEmpty =>
    split at hs <;> cases hs <;> exact .inl rfl
  case left | retired =>
    cases hs
  case queued | copyJobs | checkGeneration | adopt | checkState | copyWithdrawn | drop | condition =>
    cases hs
    exact .inl rfl

/-! ### Runs -/

/-- What holds in every state of a run, and, while it goes on and no step has lost a removed block, of its zombies. -/
structure Tidy (s : State n β) : Prop where
  order : ∀ b j k, b ∈ s.executionOrder j → b ∈ s.executionOrder k → j = k
  nodup : s.zombieBlocks.Nodup
  zombie : ∀ z ∈ s.zombieBlocks, s.removed z = true ∧ s.edit.removes ≠ some z
  removing : ∀ b, s.edit.removes = some b → s.removed b = true
  inGraph : ∀ b, s.inGraph b = true → s.removed b = false
  joining : ∀ p, s.edit.joining = some p → s.inGraph p.1 = true
  found : ∀ b p, s.stoppedEndpoints b = some p → s.inGraph b = true
  released : s.ended = false → Released s

omit [DecidableEq β] in
theorem Tidy.of_start (h : Start s) (hz : s.zombieBlocks = []) : Tidy s where
  order := h.executionOrder
  nodup := hz ▸ List.nodup_nil
  zombie z hm := by
    rw [hz] at hm
    cases hm
  removing b hb := by
    rw [h.edit] at hb
    cases hb
  inGraph := h.removed
  joining p hp := by
    rw [h.edit] at hp
    cases hp
  found b p hp := by
    rw [h.stoppedEndpoints b] at hp
    cases hp
  released _ := by
    refine ⟨fun z hm => ?_, fun b hr _ _ i => ⟨fun hw => ?_, fun hm => ?_⟩⟩
    · rw [hz] at hm
      cases hm
    · obtain hw | hw := hw
      · rw [h.adoptionBlocks i] at hw
        cases hw
      · rw [h.workers i] at hw
        cases hw
    · rw [h.removed b (h.inGraph b i hm)] at hr
      cases hr

theorem workerStep_graph (hs : workerStep nPasses s i hint status = some t)
    (order : ∀ b j k, b ∈ s.executionOrder j → b ∈ s.executionOrder k → j = k) :
    t.inGraph = s.inGraph ∧ (∀ b p, t.stoppedEndpoints b = some p → s.stoppedEndpoints b = some p) ∧
      ∀ b j k, b ∈ t.executionOrder j → b ∈ t.executionOrder k → j = k := by
  by_cases hc : (s.workers i).stage = .closing
  · simp only [workerStep, hc, Option.some.injEq] at hs
    subst hs
    simp only [State.closeAdoptionList]
    split
    · exact ⟨rfl, fun _ _ => id, order⟩
    · split <;> exact ⟨rfl, fun _ _ => id, order⟩
  cases hw : (s.workers i).stage with
  | record done newBlocks =>
    simp only [workerStep, hw] at hs
    cases hs
    change (s.record i newBlocks).inGraph = s.inGraph ∧ _
    clear hw hc
    induction newBlocks generalizing s with
    | nil => exact ⟨rfl, fun _ _ => id, order⟩
    | cons block rest ih =>
      refine ih (s := s.adoptBlock i block) fun b j k hj hk => ?_
      obtain ⟨rfl, rfl⟩ | ⟨hne, hj⟩ := mem_adoptBlock_order.mp hj
      · exact ((mem_adoptBlock_order.mp hk).resolve_right fun h => h.1 rfl).2.symm
      · exact order b j k hj ((mem_adoptBlock_order.mp hk).resolve_left fun h => hne h.1).2
  | _ =>
    have hshrinks := workerStep_shrinks hs (by simp [hw, Stage.newBlocks]) hc
    exact ⟨hshrinks.inGraph, hshrinks.stoppedEndpoints,
      fun b j k hj hk => order b j k (hshrinks.order b j hj) (hshrinks.order b k hk)⟩

theorem Tidy.workerStep (h : Tidy s) (hok : WorkerReleases s i)
    (hs : workerStep nPasses s i hint status = some t) : Tidy t := by
  obtain ⟨hgraph, hfound, horder⟩ := workerStep_graph hs h.order
  have hframe := (workerStep_lists hs).frame
  have hsub : t.zombieBlocks.Nodup ∧ ∀ z ∈ t.zombieBlocks, z ∈ s.zombieBlocks := by
    obtain hz | ⟨done, -, u, hu, rfl, -⟩ := workerStep_zombies hs h.order h.nodup
    · rw [hz]
      exact ⟨h.nodup, fun _ => id⟩
    · exact ⟨hu.nodup, fun z hm => ((hu.zombieBlocks z).mp hm).1⟩
  refine ⟨horder, hsub.1, fun z hm => ?_, fun b hb => ?_, fun b hb => ?_, fun p hp => ?_, fun b p hp => ?_, fun he => ?_⟩
  · rw [hframe.removed, hframe.edit]
    exact h.zombie z (hsub.2 z hm)
  · rw [hframe.removed]
    exact h.removing b (hframe.edit ▸ hb)
  · rw [hframe.removed]
    exact h.inGraph b (hgraph ▸ hb)
  · rw [hgraph]
    exact h.joining p (hframe.edit ▸ hp)
  · rw [hgraph]
    exact h.found b p (hfound b p hp)
  · have hreleased := h.released (hframe.ended he)
    refine ⟨fun z hm => ?_, fun b hr hb hm => ?_⟩
    · obtain ⟨j, hj⟩ := hreleased.erasable z (hsub.2 z hm)
      exact hj.workerStep hs he hok h.order h.nodup (hsub.2 z hm) hm
    · rw [hframe.removed] at hr
      rw [hframe.edit] at hb
      by_cases hz : b ∈ s.zombieBlocks
      · -- the cleanup deleted it
        obtain hsame | ⟨done, hw, u, hu, rfl, hshrinks⟩ := workerStep_zombies hs h.order h.nodup
        · exact absurd (hsame ▸ hz) hm
        · have hdeleted : b ∈ s.zombieBlocks ∧ Deletes s i b := by
            by_contra hc
            exact hm ((hu.zombieBlocks b).mpr ⟨hz, hc⟩)
          rw [WorkerReleases, hw] at hok
          have hwait := hok b hz hdeleted.2.1 hdeleted.2.2
          have hgone : Nowhere u b := fun k => ⟨fun hk => hwait k (hshrinks.waiting b k hk), hu.erased b hdeleted k⟩
          intro k
          refine ⟨fun hk => (hgone k).1 (hk.imp id fun hk => ?_), (hgone k).2⟩
          by_cases hik : k = i
          · subst hik
            simp [State.setStage, Stage.newBlocks] at hk
          · simpa [State.setStage, update_of_ne hik] using hk
      · exact (hreleased.gone b hr hb hz).workerStep hs

omit [DecidableEq β] in
/-- The edit goes on with the same block, or ends without one. -/
theorem Tidy.edits {e : Edit n β} {blockState : β → LifeCycle.State} {withdrawnBlocks : List β} (h : Tidy s)
    (hj : ∀ p, e.joining = some p → s.edit.joining = some p) (hr : e.removes = s.edit.removes) :
    Tidy { s with withdrawnBlocks := withdrawnBlocks, edit := e, blockState := blockState } where
  order := h.order
  nodup := h.nodup
  zombie z hm := ⟨(h.zombie z hm).1, fun hz => (h.zombie z hm).2 (hr.symm.trans hz)⟩
  removing b hb := h.removing b (hr.symm.trans hb)
  inGraph := h.inGraph
  joining p hp := h.joining p (hj p hp)
  found := h.found
  released he := ⟨(h.released he).erasable, fun b hb hn hz => (h.released he).gone b hb (fun hs => hn (hr.trans hs)) hz⟩

omit [DecidableEq β] in
/-- An added or restarted block is queued. -/
theorem Tidy.queued {preferred : Option (Fin n)} {restart : Bool} (h : Tidy s)
    (he : s.edit = .queueForAdoption b preferred restart) (i : Fin n) :
    Tidy { s with
      adoptionBlocks := update s.adoptionBlocks i (s.adoptionBlocks i ++ [b])
      edit := .idle } where
  order := h.order
  nodup := h.nodup
  zombie z hm := ⟨(h.zombie z hm).1, nofun⟩
  removing b' hb := by cases hb
  inGraph := h.inGraph
  joining p hp := by cases hp
  found := h.found
  released hrun := by
    have hb : s.removed b = false := h.inGraph b (h.joining (b, preferred) (by rw [he]; rfl))
    have hsame {b' : β} {j : Fin n} (hne : b' ≠ b) :
        b' ∈ update s.adoptionBlocks i (s.adoptionBlocks i ++ [b]) j ↔ b' ∈ s.adoptionBlocks j := by
      by_cases hj : j = i
      · subst hj
        simp [hne]
      · rw [update_of_ne hj]
    refine ⟨fun z hm => ?_, fun b' hr _ hz j => ?_⟩
    · obtain ⟨j, hj⟩ := (h.released hrun).erasable z hm
      have hne : z ≠ b := fun hc => by
        rw [← hc, (h.zombie z hm).1] at hb
        cases hb
      exact ⟨j, hj.other rfl (hsame hne).mpr id⟩
    · have hne : b' ≠ b := fun hc => by
        rw [hc, hb] at hr
        cases hr
      obtain ⟨hw, hm⟩ := (h.released hrun).gone b' hr (by rw [he]; simp [Edit.removes]) hz j
      exact ⟨fun hq => hw (hq.imp_left (hsame hne).mp), hm⟩

/-- A removed block is taken out of a queue. -/
theorem Tidy.unqueued {active : Bool} (h : Tidy s) (he : s.edit = .unqueue b active) (i : Fin n) :
    Tidy { s with
      adoptionBlocks := update s.adoptionBlocks i ((s.adoptionBlocks i).erase b)
      edit := .jobListHolds b active } where
  order := h.order
  nodup := h.nodup
  zombie z hm := by
    have hz := h.zombie z hm
    rwa [he] at hz
  removing b' hb := h.removing b' (by rw [he]; exact hb)
  inGraph := h.inGraph
  joining p hp := by cases hp
  found := h.found
  released hrun := by
    refine ⟨fun z hm => ?_, fun b' hr hn hz j => ?_⟩
    · obtain ⟨j, hj⟩ := (h.released hrun).erasable z hm
      have hne : z ≠ b := fun hc => (h.zombie z hm).2 (by rw [he, hc]; rfl)
      refine ⟨j, hj.other rfl (fun hq => ?_) id⟩
      change z ∈ update s.adoptionBlocks i ((s.adoptionBlocks i).erase b) j
      by_cases hji : j = i
      · subst hji
        rw [update_self]
        exact (List.mem_erase_of_ne hne).mpr hq
      · rwa [update_of_ne hji]
    · obtain ⟨hw, hm⟩ := (h.released hrun).gone b' hr (by rw [he]; exact hn) hz j
      exact ⟨fun hq => hw (hq.imp_left fun hq => mem_of_mem_update hq List.mem_of_mem_erase), hm⟩

/-- A removed block is dropped: no job list holds it, and it no longer waits. -/
theorem Tidy.dropped {active : Bool} (h : Tidy s) (he : s.edit = .jobListHolds b active)
    (hwait : ∀ i, ¬ Waiting s b i) (hheld : s.jobListHolding b = none) : Tidy { s with edit := .idle } where
  order := h.order
  nodup := h.nodup
  zombie z hm := ⟨(h.zombie z hm).1, nofun⟩
  removing b' hb := by cases hb
  inGraph := h.inGraph
  joining p hp := by cases hp
  found := h.found
  released hrun := by
    refine ⟨(h.released hrun).erasable, fun b' hr _ hz => ?_⟩
    by_cases hb : b' = b
    · subst hb
      intro i
      refine ⟨hwait i, fun hm => ?_⟩
      have hnone := List.find?_eq_none.mp hheld i (List.mem_finRange i)
      simp [hm] at hnone
    · exact (h.released hrun).gone b' hr (by rw [he]; simpa [Edit.removes] using Ne.symm hb) hz

omit [DecidableEq β] in
theorem Tidy.pushed (h : Tidy s) (he : s.edit = .pushZombie b) (hreach : ∃ i, Reaches s b i) :
    Tidy { s with zombieBlocks := s.zombieBlocks ++ [b], edit := .idle } where
  order := h.order
  nodup := by
    have hb : b ∉ s.zombieBlocks := fun hm => (h.zombie b hm).2 (by rw [he]; rfl)
    exact List.nodup_append'.mpr ⟨h.nodup, List.nodup_singleton b, List.disjoint_singleton.mpr hb⟩
  zombie z hm := by
    refine ⟨?_, nofun⟩
    obtain hm | hm := List.mem_append.mp hm
    · exact (h.zombie z hm).1
    · exact h.removing z (by rw [he, List.mem_singleton.mp hm]; rfl)
  removing b' hb := by cases hb
  inGraph := h.inGraph
  joining p hp := by cases hp
  found := h.found
  released hrun := by
    refine ⟨fun z hm => ?_, fun b' hr _ hz => ?_⟩
    · obtain hm | hm := List.mem_append.mp hm
      · exact (h.released hrun).erasable z hm
      · rw [List.mem_singleton.mp hm]
        exact hreach
    · rw [List.mem_append, not_or, List.mem_singleton] at hz
      exact (h.released hrun).gone b' hr (by rw [he]; simpa [Edit.removes] using Ne.symm hz.2) hz.1

theorem Tidy.editStep {active fails : Bool} (h : Tidy s) (hok : EditReleases s)
    (hs : editStep hash scheduled s active fails = some t) : Tidy t := by
  cases he : s.edit <;> simp only [Adoption.editStep, he] at hs
  case idle =>
    cases hs
  case hasOpenAdoptionList b preferred restart =>
    split at hs
    · cases hs
      exact h.edits (by simp [Edit.joining]) (by simp [Edit.removes, he])
    · split at hs <;> cases hs
      · exact h.edits (by simp [Edit.joining]) (by simp [Edit.removes, he])
      · exact h.edits (by simp [Edit.joining, he]) (by simp [Edit.removes, he])
  case start b preferred restart =>
    split at hs
    · cases hs
      exact h.edits (by simp [Edit.joining]) (by simp [Edit.removes, he])
    · split at hs
      · cases hs
        exact h.edits (by simp [Edit.joining, he]) (by simp [Edit.removes, he])
      · split at hs <;> cases hs
        · exact h.edits (by simp [Edit.joining, he]) (by simp [Edit.removes, he])
        · exact h.edits (by simp [Edit.joining, he]) (by simp [Edit.removes, he])
        · exact h.edits (by simp [Edit.joining, he]) (by simp [Edit.removes, he])
        · exact h.edits (by simp [Edit.joining]) (by simp [Edit.removes, he])
  case queueForAdoption b preferred restart =>
    simp only [State.queueForAdoption] at hs
    cases hl : s.listFor hash b preferred with
    | none =>
      simp only [hl] at hs
      cases hs
      exact h.edits (by simp [Edit.joining]) (by simp [Edit.removes, he])
    | some i =>
      simp only [hl] at hs
      cases hs
      exact h.queued he i
  case noWorkerLeft b restart | refused b restart | stopChild b =>
    split at hs <;> cases hs
    · exact h.edits (by simp [Edit.joining]) (by simp [Edit.removes, he])
    · exact h.edits (by simp [Edit.joining]) (by simp [Edit.removes, he])
  case unqueue b active =>
    split at hs <;> cases hs
    · exact h.unqueued he _
    · exact h.edits (by simp [Edit.joining]) (by simp [Edit.removes, he])
  case jobListHolds b active =>
    simp only [Option.some.injEq] at hs
    rw [EditReleases, he] at hok
    subst hs
    split
    · next hdrop =>
      simp only [Bool.and_eq_true, Bool.not_eq_true', Option.isNone_iff_eq_none] at hdrop
      exact h.dropped he (hok hdrop.1 hdrop.2) hdrop.2
    · exact h.edits (by simp [Edit.joining]) (by simp [Edit.removes, he])
  case pushZombie b =>
    simp only [Option.some.injEq] at hs
    rw [EditReleases, he] at hok
    subst hs
    exact h.pushed he hok

omit [DecidableEq β] in
/-- An edit begins with a block of the graph that is to be queued. -/
theorem Tidy.begins {e : Edit n β} {inGraph : β → Bool} {stoppedEndpoints : β → Option (Option (Fin n))} (h : Tidy s)
    (he : s.edit = .idle) (hr : e.removes = none) (hgraph : ∀ b, s.inGraph b = true → inGraph b = true)
    (hremoved : ∀ b, inGraph b = true → s.removed b = false) (hj : ∀ p, e.joining = some p → inGraph p.1 = true)
    (hfound : ∀ b p, stoppedEndpoints b = some p → s.inGraph b = true) :
    Tidy { s with inGraph := inGraph, stoppedEndpoints := stoppedEndpoints, edit := e } where
  order := h.order
  nodup := h.nodup
  zombie z hm := by
    refine ⟨(h.zombie z hm).1, fun hz => ?_⟩
    have hz' : e.removes = some z := hz
    rw [hr] at hz'
    cases hz'
  removing b hb := by
    have hb' : e.removes = some b := hb
    rw [hr] at hb'
    cases hb'
  inGraph := hremoved
  joining := hj
  found b p hp := hgraph b (hfound b p hp)
  released hrun := by
    refine ⟨(h.released hrun).erasable, fun b hb _ hz => (h.released hrun).gone b hb ?_ hz⟩
    rw [he]
    simp [Edit.removes]

/-- A block leaves the graph. -/
theorem Tidy.removes (h : Tidy s) (he : s.edit = .idle) (hg : s.inGraph b = true) (hb : s.stoppedEndpoints b = none) :
    Tidy { s with
      inGraph := update s.inGraph b false
      removed := update s.removed b true
      edit := .stopChild b } where
  order := h.order
  nodup := h.nodup
  zombie z hm := by
    have hne : z ≠ b := fun hc => by
      have hr := h.inGraph b hg
      rw [← hc, (h.zombie z hm).1] at hr
      cases hr
    refine ⟨(update_of_ne hne ..).trans (h.zombie z hm).1, fun hz => ?_⟩
    cases hz
    exact hne rfl
  removing b' hb' := by
    cases hb'
    exact update_self ..
  inGraph b' hb' := by
    change update s.inGraph b false b' = true at hb'
    change update s.removed b true b' = false
    by_cases hbb : b' = b
    · rw [hbb, update_self] at hb'
      cases hb'
    · rw [update_of_ne hbb] at hb' ⊢
      exact h.inGraph b' hb'
  joining p hp := by cases hp
  found b' p hp := by
    have hbb : b' ≠ b := fun hc => by
      have hp' : s.stoppedEndpoints b' = some p := hp
      rw [hc, hb] at hp'
      cases hp'
    exact (update_of_ne hbb ..).trans (h.found b' p hp)
  released hrun := by
    refine ⟨(h.released hrun).erasable, fun b' hr hn hz => (h.released hrun).gone b' ?_ ?_ hz⟩
    · have hbb : b' ≠ b := fun hc => hn (by rw [hc]; rfl)
      exact (update_of_ne hbb ..).symm.trans hr
    · rw [he]
      simp [Edit.removes]

theorem Tidy.step {a : Act n β} (h : Tidy s) (hok : Releases s a) (hs : step hash scheduled nPasses s a = some t) :
    Tidy t := by
  cases a <;> simp only [Adoption.step] at hs
  case worker i hint status => exact h.workerStep hok hs
  case edit active fails => exact h.editStep hok hs
  case emplace b preferred =>
    split at hs <;> cases hs
    next hb =>
    obtain ⟨he, -, hr⟩ := hb
    refine h.begins he rfl (fun b' hb' => ?_) (fun b' hb' => ?_) (fun p hp => ?_) h.found
    · by_cases hbb : b' = b
      · rw [hbb, update_self]
      · rwa [update_of_ne hbb]
    · by_cases hbb : b' = b
      · rwa [hbb]
      · rw [update_of_ne hbb] at hb'
        exact h.inGraph b' hb'
    · cases hp
      exact update_self ..
  case stoppedEndpoint b =>
    split at hs <;> cases hs
    next hb =>
    refine h.begins hb.1 (by rw [hb.1]; rfl) (fun _ => id) h.inGraph h.joining fun b' p hp => ?_
    by_cases hbb : b' = b
    · rw [hbb]
      exact hb.2.1
    · rw [update_of_ne hbb] at hp
      exact h.found b' p hp
  case restart b =>
    split at hs
    · next preferred hfound =>
      split at hs <;> cases hs
      next hb =>
      refine h.begins hb.1 rfl (fun _ => id) h.inGraph (fun p hp => ?_) fun b' p hp => ?_
      · cases hp
        exact h.found b preferred hfound
      · by_cases hbb : b' = b
        · rw [hbb, update_self] at hp
          cases hp
        · rw [update_of_ne hbb] at hp
          exact h.found b' p hp
    · cases hs
  case endEdit =>
    split at hs <;> cases hs
    next he => exact h.begins he (by rw [he]; rfl) (fun _ => id) h.inGraph h.joining fun b p hp => by cases hp
  case remove b =>
    split at hs <;> cases hs
    next hb => exact h.removes hb.1 hb.2.1 hb.2.2
  case changeState b newState =>
    split at hs <;> cases hs
    exact h.edits (fun _ => id) rfl
  case endRun =>
    cases hs
    exact { h with released := fun hended => by cases hended }

instance (s : State n β) (i : Fin n) : Decidable (Active s i) := inferInstanceAs (Decidable (_ ∨ _))

instance (s : State n β) (b : β) (i : Fin n) : Decidable (Reaches s b i) :=
  inferInstanceAs (Decidable ((_ ∨ _) ∧ _))

instance (s : State n β) (i : Fin n) : Decidable (WorkerReleases s i) := by
  unfold WorkerReleases
  split <;> infer_instance

instance (s : State n β) : Decidable (EditReleases s) := by
  unfold EditReleases
  split <;> infer_instance

instance (s : State n β) : (a : Act n β) → Decidable (Releases s a)
  | .worker i _ _ => inferInstanceAs (Decidable (WorkerReleases s i))
  | .edit _ _ => inferInstanceAs (Decidable (EditReleases s))
  | .emplace .. | .stoppedEndpoint _ | .restart _ | .endEdit | .remove _ | .changeState .. | .endRun => .isTrue trivial

end GnuRadio.Adoption
