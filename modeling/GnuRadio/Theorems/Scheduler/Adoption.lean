import GnuRadio.Scheduler.Adoption
import Mathlib.Order.Filter.Finite

/-! A block of a run is with one worker only, as long as no edit restarts a block that still waits to be adopted. No
    closed adoption list keeps a block while another is open, and a queued block reaches a worker. -/

namespace GnuRadio.Adoption

open Function
open Transition (Execution Threads)
open Filter (atTop)

variable {n : Nat} {β : Type} {s t u : State n β} {b : β} {i j : Fin n} {hash : β → Nat}
  {scheduled : β → Bool} {nPasses : Nat}

/-! ### Where a block is -/

/-- The blocks taken from the queue and not yet recorded. -/
def Stage.newBlocks : Stage β → List β
  | .record _ newBlocks => newBlocks
  | _ => []

/-- The block waits for worker `i`. -/
abbrev Waiting (s : State n β) (b : β) (i : Fin n) : Prop :=
  b ∈ s.adoptionBlocks i ∨ b ∈ (s.workers i).stage.newBlocks

/-- The block is in the list of a worker in its loop. -/
abbrev RunBy (s : State n β) (b : β) (i : Fin n) : Prop :=
  (s.workers i).stage.inLoop = true ∧ b ∈ (s.workers i).localBlockList

/-- Worker `i` runs the block, or will. -/
abbrev Holds (s : State n β) (b : β) (i : Fin n) : Prop :=
  (s.workers i).stage.inLoop = true ∧ b ∈ (s.workers i).localBlockList ∨
    (s.workers i).stage.before = true ∧ b ∈ s.executionOrder i

/-- The worker is in its loop or will enter it. -/
def Active (s : State n β) (i : Fin n) : Prop :=
  (s.workers i).stage.inLoop = true ∨ (s.workers i).stage.before = true

theorem Holds.active (h : Holds s b i) : Active s i := h.imp (·.1) (·.1)

/-- The block with the job list that an edit prefers for it. -/
def Edit.joining : Edit n β → Option (β × Option (Fin n))
  | .hasOpenAdoptionList b preferred _ | .start b preferred _ | .queueForAdoption b preferred _ => some (b, preferred)
  | _ => none

/-- An edit may queue the block: it does not wait, and where a worker has it, that worker's list is preferred. -/
structure Placed (s : State n β) (b : β) (preferred : Option (Fin n)) : Prop where
  waiting : ∀ i, ¬ Waiting s b i
  holds : ∀ i, Holds s b i → preferred = some i
  inGraph : s.inGraph b = true

structure Inv (s : State n β) : Prop where
  single : ∀ b i j, Waiting s b i ∨ Holds s b i → Waiting s b j ∨ Holds s b j → i = j
  order : ∀ b i j, b ∈ s.executionOrder i → b ∈ s.executionOrder j → i = j
  recorded : ∀ b i j, Holds s b i → b ∈ s.executionOrder j → j = i
  opened : ∀ i, Active s i → s.adoptionListClosed i = false
  known : ∀ b i, b ∈ s.executionOrder i ∨ Waiting s b i ∨ Holds s b i → s.inGraph b = true ∨ s.removed b = true
  found : ∀ b preferred, s.stoppedEndpoints b = some preferred → Placed s b preferred
  joining : ∀ b preferred, s.edit.joining = some (b, preferred) →
    Placed s b preferred ∧ s.stoppedEndpoints b = none

theorem Inv.of_start (h : Start s) : Inv s := by
  have stage (i : Fin n) : (s.workers i).stage = .queued := by rw [h.workers i]
  have waiting (b : β) (i : Fin n) : ¬ Waiting s b i := by
    rintro (hb | hb)
    · rw [h.adoptionBlocks i] at hb
      cases hb
    · rw [stage i] at hb
      cases hb
  have holds {b : β} {i : Fin n} (hb : Holds s b i) : b ∈ s.executionOrder i := by
    obtain ⟨hs, -⟩ | ⟨-, hb⟩ := hb
    · rw [stage i] at hs
      cases hs
    · exact hb
  refine ⟨fun b i j hi hj => ?_, h.executionOrder, fun b i j hi hj => h.executionOrder b j i hj (holds hi),
    fun i _ => h.adoptionListClosed i, fun b i hb => .inl ?_, fun b _ hb => ?_, fun b _ hb => ?_⟩
  · exact h.executionOrder b i j (holds (hi.resolve_left (waiting b i))) (holds (hj.resolve_left (waiting b j)))
  · obtain hb | hb | hb := hb
    · exact h.inGraph b i hb
    · exact absurd hb (waiting b i)
    · exact h.inGraph b i (holds hb)
  · rw [h.stoppedEndpoints b] at hb
    cases hb
  · rw [h.edit] at hb
    cases hb

/-! ### Steps that bring a block nowhere new -/

/-- No block is anywhere new, and no worker comes back. -/
structure Shrinks (s t : State n β) : Prop where
  order : ∀ b i, b ∈ t.executionOrder i → b ∈ s.executionOrder i
  waiting : ∀ b i, Waiting t b i → Waiting s b i
  holds : ∀ b i, Holds t b i → Holds s b i
  active : ∀ i, Active t i → Active s i ∧ t.adoptionListClosed i = s.adoptionListClosed i
  joining : ∀ p, t.edit.joining = some p → s.edit.joining = some p
  stoppedEndpoints : ∀ b p, t.stoppedEndpoints b = some p → s.stoppedEndpoints b = some p
  inGraph : t.inGraph = s.inGraph
  removed : t.removed = s.removed

theorem Shrinks.refl (s : State n β) : Shrinks s s :=
  ⟨fun _ _ h => h, fun _ _ h => h, fun _ _ h => h, fun _ h => ⟨h, rfl⟩, fun _ h => h, fun _ _ h => h, rfl, rfl⟩

theorem Shrinks.trans (h : Shrinks s t) (h' : Shrinks t u) : Shrinks s u where
  order b i hb := h.order b i (h'.order b i hb)
  waiting b i hb := h.waiting b i (h'.waiting b i hb)
  holds b i hb := h.holds b i (h'.holds b i hb)
  active i ha := ⟨(h.active i (h'.active i ha).1).1, (h'.active i ha).2.trans (h.active i (h'.active i ha).1).2⟩
  joining p hp := h.joining p (h'.joining p hp)
  stoppedEndpoints b p hp := h.stoppedEndpoints b p (h'.stoppedEndpoints b p hp)
  inGraph := h'.inGraph.trans h.inGraph
  removed := h'.removed.trans h.removed

variable {preferred : Option (Fin n)}

theorem Placed.shrinks (h : Placed s b preferred) (hs : Shrinks s t) :
    Placed t b preferred :=
  ⟨fun i hw => h.waiting i (hs.waiting b i hw), fun i hi => h.holds i (hs.holds b i hi), hs.inGraph ▸ h.inGraph⟩

theorem Inv.shrinks (h : Inv s) (hs : Shrinks s t) : Inv t where
  single b i j hi hj :=
    h.single b i j (hi.imp (hs.waiting b i) (hs.holds b i)) (hj.imp (hs.waiting b j) (hs.holds b j))
  order b i j hi hj := h.order b i j (hs.order b i hi) (hs.order b j hj)
  recorded b i j hi hj := h.recorded b i j (hs.holds b i hi) (hs.order b j hj)
  opened i ha := (hs.active i ha).2.trans (h.opened i (hs.active i ha).1)
  known b i hb := by
    rw [hs.inGraph, hs.removed]
    exact h.known b i (hb.imp (hs.order b i) (Or.imp (hs.waiting b i) (hs.holds b i)))
  found b preferred hb := (h.found b preferred (hs.stoppedEndpoints b preferred hb)).shrinks hs
  joining b preferred hb := by
    obtain ⟨h₁, h₂⟩ := h.joining b preferred (hs.joining _ hb)
    refine ⟨h₁.shrinks hs, ?_⟩
    cases hp : t.stoppedEndpoints b with
    | none => rfl
    | some p =>
      rw [hs.stoppedEndpoints b p hp] at h₂
      cases h₂

theorem Shrinks.of_blockState (blockState : β → LifeCycle.State) : Shrinks s { s with blockState := blockState } :=
  { Shrinks.refl s with }

/-- The workers stay where they are, and those in their loops run no block that they did not. -/
theorem Shrinks.of_workers {workers : Fin n → Worker β} (stage : ∀ j, (workers j).stage = (s.workers j).stage)
    (hl : ∀ j, (s.workers j).stage.inLoop = true → ∀ b ∈ (workers j).localBlockList,
      b ∈ (s.workers j).localBlockList) : Shrinks s { s with workers := workers } where
  __ := Shrinks.refl s
  waiting b j hb := hb.imp_right fun hb => stage j ▸ hb
  holds b j hb := by
    rw [Holds, stage j] at hb
    exact hb.imp_left fun ⟨hj, hb⟩ => ⟨hj, hl j hj b hb⟩
  active j ha := by
    rw [Active, stage j] at ha
    exact ⟨ha, rfl⟩

/-- One worker stays where it is. -/
theorem Shrinks.of_worker {w : Worker β} (stage : w.stage = (s.workers i).stage)
    (hl : (s.workers i).stage.inLoop = true → ∀ b ∈ w.localBlockList, b ∈ (s.workers i).localBlockList) :
    Shrinks s { s with workers := update s.workers i w } := by
  refine .of_workers (fun j => ?_) fun j hj b hb => ?_
  · by_cases hij : j = i
    · subst hij
      rwa [update_self]
    · rw [update_of_ne hij]
  · by_cases hij : j = i
    · subst hij
      rw [update_self] at hb
      exact hl hj b hb
    · rwa [update_of_ne hij] at hb

theorem Shrinks.setPasses (s : State n β) (i : Fin n) (nPassesToMessages : Nat) :
    Shrinks s (s.setPasses i nPassesToMessages) :=
  .of_worker rfl fun _ _ hb => hb

variable {stage : Stage β}

/-- The worker comes from its loop, or enters it with its job list. -/
theorem Shrinks.setStage (hw : ∀ b ∈ stage.newBlocks, Waiting s b i)
    (hl : stage.inLoop = true → (s.workers i).stage.inLoop = true ∨ (s.workers i).stage.before = true ∧
      (s.workers i).localBlockList = s.executionOrder i)
    (hb : stage.before = true → (s.workers i).stage.before = true) : Shrinks s (s.setStage i stage) := by
  have self : (s.setStage i stage).workers i = { s.workers i with stage := stage } := by
    simp [State.setStage]
  have other {j : Fin n} (hj : j ≠ i) : (s.setStage i stage).workers j = s.workers j := by
    simp [State.setStage, update_of_ne hj]
  refine { Shrinks.refl s with waiting := fun b j h => ?_, holds := fun b j h => ?_, active := fun j h => ⟨?_, rfl⟩ }
  · by_cases hj : j = i
    · subst hj
      rw [Waiting, self] at h
      exact h.elim .inl (hw b)
    · rwa [Waiting, other hj] at h
  · by_cases hj : j = i
    · subst hj
      rw [Holds, self] at h
      obtain ⟨hs, h⟩ | ⟨hs, h⟩ := h
      · obtain hs | ⟨hs, he⟩ := hl hs
        · exact .inl ⟨hs, h⟩
        · exact .inr ⟨hs, he ▸ h⟩
      · exact .inr ⟨hb hs, h⟩
    · rwa [Holds, other hj] at h
  · by_cases hj : j = i
    · subst hj
      rw [Active, self] at h
      exact h.elim (fun h => (hl h).imp id And.left) fun h => .inr (hb h)
    · rwa [Active, other hj] at h

/-- A stage of the loop without new blocks. -/
theorem Shrinks.goesOn (hs : (s.workers i).stage.inLoop = true) (hw : stage.newBlocks = [])
    (hb : stage.before = false) : Shrinks s (s.setStage i stage) :=
  .setStage (by simp [hw]) (fun _ => .inl hs) (by simp [hb])

theorem Shrinks.of_adoptionBlocks {adoptionBlocks : Fin n → List β}
    (h : ∀ i, ∀ b ∈ adoptionBlocks i, b ∈ s.adoptionBlocks i) : Shrinks s { s with adoptionBlocks := adoptionBlocks } :=
  { Shrinks.refl s with waiting := fun _ i hb => hb.imp_left (h i _) }

theorem Shrinks.of_executionOrder {executionOrder : Fin n → List β}
    (h : ∀ i, ∀ b ∈ executionOrder i, b ∈ s.executionOrder i) : Shrinks s { s with executionOrder := executionOrder } :=
  { Shrinks.refl s with
    order := fun b i hb => h i b hb
    holds := fun _ i hb => hb.imp_right fun ⟨hs, hb⟩ => ⟨hs, h i _ hb⟩ }

/-! ### A worker leaves, a block is queued -/

/-- The queue of a worker that has left goes to another. Each of its blocks was nowhere else. -/
theorem Inv.handOver {k : Fin n} (h : Inv s) (hi : (s.workers i).stage = .left) (hk : k ≠ i) :
    Inv { s with adoptionBlocks := update (update s.adoptionBlocks k (s.adoptionBlocks k ++ s.adoptionBlocks i)) i [] } := by
  set t : State n β :=
    { s with adoptionBlocks := update (update s.adoptionBlocks k (s.adoptionBlocks k ++ s.adoptionBlocks i)) i [] }
  have gone {b} (hb : Waiting t b i ∨ Holds t b i) : False := by
    obtain (hb | hb) | hb := hb
    · simp only [t, update_self, List.not_mem_nil] at hb
    · simp only [t, hi, Stage.newBlocks, List.not_mem_nil] at hb
    · have := hb.active
      simp only [t, Active, hi, Stage.inLoop, Stage.before, Bool.false_eq_true, or_self] at this
  have waiting {b j} (hj : Waiting t b j) : Waiting s b j ∨ j = k ∧ Waiting s b i := by
    obtain hb | hb := hj
    · by_cases hji : j = i
      · subst hji
        simp only [t, update_self, List.not_mem_nil] at hb
      by_cases hjk : j = k
      · subst hjk
        simp only [t, update_of_ne hk, update_self, List.mem_append] at hb
        exact hb.imp .inl fun hb => ⟨rfl, .inl hb⟩
      · simp only [t, update_of_ne hji, update_of_ne hjk] at hb
        exact .inl (.inl hb)
    · exact .inl (.inr hb)
  have place {b j} (hj : Waiting t b j ∨ Holds t b j) :
      (Waiting s b j ∨ Holds s b j) ∨ j = k ∧ Waiting s b i :=
    hj.elim (fun hw => (waiting hw).imp_left .inl) fun hh => .inl (.inr hh)
  have placed {b p} (hp : Placed s b p) : Placed t b p :=
    ⟨fun j hw => (waiting hw).elim (hp.waiting j) fun hw => hp.waiting i hw.2, hp.holds, hp.inGraph⟩
  exact {
    single := fun b j l hj hl => by
      by_cases hb : Waiting s b i
      · have at_k {j} (hj : Waiting t b j ∨ Holds t b j) : j = k := by
          obtain hs | ⟨hjk, -⟩ := place hj
          · have := h.single b j i hs (.inl hb)
            subst this
            exact (gone hj).elim
          · exact hjk
        rw [at_k hj, at_k hl]
      · exact h.single b j l ((place hj).resolve_right fun h => hb h.2) ((place hl).resolve_right fun h => hb h.2)
    order := h.order
    recorded := h.recorded
    opened := h.opened
    known := fun b j hj => by
      obtain hj | hj := hj
      · exact h.known b j (.inl hj)
      · exact (place hj).elim (fun hj => h.known b j (.inr hj)) fun hj => h.known b i (.inr (.inl hj.2))
    found := fun b p hb => placed (h.found b p hb)
    joining := fun b p hb => (h.joining b p hb).imp_left placed }

theorem Shrinks.leaves : Shrinks s { s.setStage i .left with
    adoptionListClosed := update s.adoptionListClosed i true } := by
  have left : Shrinks s (s.setStage i .left) := .setStage (by simp [Stage.newBlocks]) (by simp [Stage.inLoop])
    (by simp [Stage.before])
  refine { left with active := fun j ha => ⟨(left.active j ha).1, ?_⟩ }
  refine update_of_ne ?_ _ _
  rintro rfl
  simp [Active, State.setStage, Stage.inLoop, Stage.before] at ha

theorem openLists_mem : i ∈ s.openLists ↔ s.adoptionListClosed i = false := by
  simp [State.openLists, List.mem_finRange]

/-- A worker that leaves hands its queue on to a worker that remains. -/
theorem Inv.closeAdoptionList (h : Inv s) : Inv ((s.closeAdoptionList i).setStage i .left) := by
  have left := h.shrinks (Shrinks.leaves (i := i))
  simp only [State.closeAdoptionList]
  split
  · exact left
  · split
    · rename_i k hk
      refine left.handOver (by simp [State.setStage]) (k := k) ?_
      have ho := openLists_mem.mp (List.mem_of_head? hk)
      rintro rfl
      simp at ho
    · exact left

/-- A list that takes a block is open, and it is the preferred one if that is open. -/
theorem listFor_open (h : s.listFor hash b preferred = some i) :
    s.adoptionListClosed i = false ∧
      ∀ j, preferred = some j → s.adoptionListClosed j = false → j = i := by
  have fallback (h : s.openLists[hash b % s.openLists.length]? = some i) : s.adoptionListClosed i = false :=
    openLists_mem.mp (List.mem_of_getElem? h)
  cases preferred with
  | none => exact ⟨fallback h, fun j hj => (by cases hj)⟩
  | some k =>
    simp only [State.listFor] at h
    split at h
    · rename_i hk
      refine ⟨fallback h, fun j hj ho => ?_⟩
      cases hj
      rw [hk] at ho
      cases ho
    · rename_i hk
      cases h
      exact ⟨Bool.eq_false_iff.mpr hk, fun j hj _ => (Option.some.inj hj).symm⟩

/-- A block that an edit may queue goes to the list of the worker that has it, if one has. -/
theorem Inv.queueForAdoption (h : Inv s) (hp : Placed s b preferred)
    (hf : s.stoppedEndpoints b = none) (hl : s.listFor hash b preferred = some i) {e : Edit n β}
    (he : e.joining = none) :
    Inv { s with
      adoptionBlocks := update s.adoptionBlocks i (s.adoptionBlocks i ++ [b]), edit := e } := by
  set t : State n β := { s with
    adoptionBlocks := update s.adoptionBlocks i (s.adoptionBlocks i ++ [b]), edit := e }
  have waiting {b'} {j} (hw : Waiting t b' j) : (b' = b ∧ j = i) ∨ Waiting s b' j := by
    obtain hw | hw := hw
    · by_cases hj : j = i
      · subst hj
        simp only [t, update_self, List.mem_append, List.mem_singleton] at hw
        exact hw.elim (fun hw => .inr (.inl hw)) fun hw => .inl ⟨hw, rfl⟩
      · simp only [t, update_of_ne hj] at hw
        exact .inr (.inl hw)
    · exact .inr (.inr hw)
  -- whoever has the block has it in the list that takes it
  have same {j} (hj : Waiting s b j ∨ Holds s b j) : j = i := by
    have hj := hj.resolve_left (hp.waiting j)
    exact (listFor_open hl).2 j (hp.holds j hj) (h.opened j hj.active)
  exact {
    single := fun b' j k hj hk => by
      have place {j} (hj : Waiting t b' j ∨ Holds t b' j) : (b' = b ∧ j = i) ∨ Waiting s b' j ∨ Holds s b' j :=
        hj.elim (fun hw => (waiting hw).imp_right .inl) fun hh => .inr (.inr hh)
      by_cases hb : b' = b
      · subst hb
        have at_list {j} (hj : Waiting t b' j ∨ Holds t b' j) : j = i := (place hj).elim And.right same
        rw [at_list hj, at_list hk]
      · exact h.single b' j k ((place hj).resolve_left fun h => hb h.1) ((place hk).resolve_left fun h => hb h.1)
    order := h.order
    recorded := h.recorded
    opened := h.opened
    known := fun b' j hj => by
      obtain hj | hj | hj := hj
      · exact h.known b' j (.inl hj)
      · obtain ⟨rfl, -⟩ | hj := waiting hj
        · exact .inl hp.inGraph
        · exact h.known b' j (.inr (.inl hj))
      · exact h.known b' j (.inr (.inr hj))
    found := fun b' p hb => by
      have hb' := h.found b' p hb
      refine ⟨fun j hw => ?_, hb'.holds, hb'.inGraph⟩
      obtain ⟨rfl, -⟩ | hw := waiting hw
      · rw [hf] at hb
        cases hb
      · exact hb'.waiting j hw
    joining := fun b' p hb => (by rw [he] at hb; cases hb) }

variable [DecidableEq β]

theorem Shrinks.eraseFromJobList (s : State n β) (block : β) : Shrinks s (s.eraseFromJobList block) := by
  unfold State.eraseFromJobList
  split
  · rename_i j _
    refine .of_executionOrder fun i b hb => ?_
    by_cases hi : i = j
    · subst hi
      rw [update_self] at hb
      exact List.mem_of_mem_filter hb
    · rwa [update_of_ne hi] at hb
  · exact .refl s

theorem Shrinks.cleanupZombies (s : State n β) (i : Fin n) (zombies : List β) :
    Shrinks s (s.cleanupZombies i zombies) := by
  induction zombies generalizing s with
  | nil => exact .refl s
  | cons zombie rest ih =>
    simp only [State.cleanupZombies]
    split
    · let w := { s.workers i with localBlockList := (s.workers i).localBlockList.erase zombie }
      have erased : Shrinks s { s with workers := update s.workers i w } :=
        .of_worker rfl fun _ b hb => List.mem_of_mem_erase hb
      have dropped : Shrinks s { s with
          workers := update s.workers i w
          zombieBlocks := s.zombieBlocks.erase zombie } := { erased with }
      exact dropped.trans ((eraseFromJobList _ zombie).trans (ih _))
    · exact ih s

theorem Shrinks.dropWithdrawn (s : State n β) (i : Fin n) (withdrawn : List β) :
    Shrinks s (s.dropWithdrawn i withdrawn) := by
  have erased : Shrinks s { s with executionOrder := fun j => (s.executionOrder j).filter (· ∉ withdrawn) } :=
    .of_executionOrder fun j b hb => List.mem_of_mem_filter hb
  exact erased.trans (.of_worker rfl fun _ b hb => List.mem_of_mem_filter hb)

theorem cleanupZombies_stage (s : State n β) (i j : Fin n) (zombies : List β) :
    ((s.cleanupZombies i zombies).workers j).stage = (s.workers j).stage := by
  induction zombies generalizing s with
  | nil => rfl
  | cons zombie rest ih =>
    simp only [State.cleanupZombies]
    split
    · rw [ih, State.eraseFromJobList]
      by_cases hj : j = i <;> split <;> simp [hj]
    · exact ih s

/-! ### Adoption -/

variable {b' : β}

@[simp] theorem adoptBlock_stage : ((s.adoptBlock i b).workers j).stage = (s.workers j).stage := by
  by_cases hj : j = i
  · subst hj
    simp [State.adoptBlock]
  · simp [State.adoptBlock, update_of_ne hj]

theorem adoptBlock_waiting : Waiting (s.adoptBlock i b) b' j ↔ Waiting s b' j := by
  rw [Waiting, adoptBlock_stage]
  exact Iff.rfl

theorem mem_adoptBlock_order :
    b' ∈ (s.adoptBlock i b).executionOrder j ↔ (b' = b ∧ j = i) ∨ b' ≠ b ∧ b' ∈ s.executionOrder j := by
  simp only [State.adoptBlock]
  by_cases hj : j = i
  · subst hj
    by_cases hb : b ∈ s.executionOrder j <;> simp only [hb, if_true, if_false, List.mem_append, List.mem_singleton] <;>
      grind
  · simp [hj, and_comm]

theorem mem_adoptBlock_local :
    b' ∈ ((s.adoptBlock i b).workers j).localBlockList ↔ (b' = b ∧ j = i) ∨ b' ∈ (s.workers j).localBlockList := by
  simp only [State.adoptBlock]
  by_cases hj : j = i
  · subst hj
    by_cases hb : b ∈ (s.workers j).localBlockList <;>
      simp only [hb, if_true, if_false, update_self, List.mem_append, List.mem_singleton] <;> grind
  · simp [hj]

/-- The worker holds a block that waited for it, and no other block moves. -/
theorem Holds.of_adoptBlock (h : Holds (s.adoptBlock i b) b' j) : (b' = b ∧ j = i) ∨ Holds s b' j := by
  rw [Holds, adoptBlock_stage, mem_adoptBlock_local, mem_adoptBlock_order] at h
  obtain ⟨hs, h | h⟩ | ⟨hs, h | ⟨-, h⟩⟩ := h
  · exact .inl h
  · exact .inr (.inl ⟨hs, h⟩)
  · exact .inl h
  · exact .inr (.inr ⟨hs, h⟩)

theorem Inv.adoptBlock (h : Inv s) (hb : Waiting s b i) : Inv (s.adoptBlock i b) := by
  have place {b'} {j} (hj : Waiting (s.adoptBlock i b) b' j ∨ Holds (s.adoptBlock i b) b' j) :
      Waiting s b' j ∨ Holds s b' j := by
    obtain hj | hj := hj
    · exact .inl (adoptBlock_waiting.mp hj)
    · obtain ⟨rfl, rfl⟩ | hj := hj.of_adoptBlock
      · exact .inl hb
      · exact .inr hj
  have placed {b'} {p} (hp : Placed s b' p) : Placed (s.adoptBlock i b) b' p := by
    refine ⟨fun j hj => hp.waiting j (adoptBlock_waiting.mp hj), fun j hj => ?_, hp.inGraph⟩
    obtain ⟨rfl, rfl⟩ | hj := hj.of_adoptBlock
    · exact absurd hb (hp.waiting j)
    · exact hp.holds j hj
  exact {
    single := fun b' j k hj hk => h.single b' j k (place hj) (place hk)
    order := fun b' j k hj hk => by
      obtain ⟨rfl, rfl⟩ | ⟨hne, hj⟩ := mem_adoptBlock_order.mp hj
      · exact ((mem_adoptBlock_order.mp hk).resolve_right fun h => h.1 rfl).2.symm
      · exact h.order b' j k hj ((mem_adoptBlock_order.mp hk).resolve_left fun h => hne h.1).2
    recorded := fun b' j k hj hk => by
      obtain ⟨rfl, rfl⟩ | ⟨hne, hk⟩ := mem_adoptBlock_order.mp hk
      · exact h.single b' k j (.inl hb) (place (.inr hj))
      · exact h.recorded b' j k (hj.of_adoptBlock.resolve_left fun h => hne h.1) hk
    opened := fun j hj => h.opened j (by rwa [Active, adoptBlock_stage] at hj)
    known := fun b' j hj => by
      obtain hj | hj := hj
      · obtain ⟨rfl, rfl⟩ | ⟨-, hj⟩ := mem_adoptBlock_order.mp hj
        · exact h.known b' j (.inr (.inl hb))
        · exact h.known b' j (.inl hj)
      · exact h.known b' j (.inr (place hj))
    found := fun b' p hp => placed (h.found b' p hp)
    joining := fun b' p hp => (h.joining b' p hp).imp_left placed }

theorem Inv.record {newBlocks : List β} (h : Inv s) (hb : ∀ b ∈ newBlocks, Waiting s b i) :
    Inv (s.record i newBlocks) ∧ ∀ j, ((s.record i newBlocks).workers j).stage = (s.workers j).stage := by
  induction newBlocks generalizing s with
  | nil => exact ⟨h, fun _ => rfl⟩
  | cons block rest ih =>
    obtain ⟨hI, hs⟩ := ih (h.adoptBlock (hb block (.head _))) fun b hr =>
      adoptBlock_waiting.mpr (hb b (List.mem_cons_of_mem block hr))
    exact ⟨hI, fun j => (hs j).trans adoptBlock_stage⟩

/-! ### Every step -/

variable {status : Option Status} {hint : Bool}

/-- A step of a worker that neither records blocks nor leaves brings no block anywhere new. -/
theorem workerStep_shrinks (hs : workerStep nPasses s i hint status = some t)
    (hr : (s.workers i).stage.newBlocks = []) (hc : (s.workers i).stage ≠ .closing) : Shrinks s t := by
  have loops {u : State n β} (hu : Shrinks s u) (hui : (u.workers i).stage = (s.workers i).stage) {stage : Stage β}
      (hl : (s.workers i).stage.inLoop = true) (hn : stage.newBlocks = []) (hb : stage.before = false) :
      Shrinks s (u.setStage i stage) :=
    hu.trans (.goesOn (hui ▸ hl) hn hb)
  cases hw : (s.workers i).stage <;> simp only [workerStep, hw] at hs
  case queued =>
    cases hs
    refine .setStage ?_ ?_ ?_ <;> split <;> simp [Stage.newBlocks, Stage.inLoop, Stage.before, hw]
  case copyJobs =>
    cases hs
    have copied : Shrinks s (s.setLocal i (s.executionOrder i)) := .of_worker rfl (by simp [hw, Stage.inLoop])
    refine copied.trans (.setStage (by simp [Stage.newBlocks]) (fun _ => .inr ?_) (by simp [Stage.before]))
    simp [State.setLocal, hw, Stage.before]
  case top =>
    split at hs <;> cases hs
    · exact .goesOn (by simp [hw, Stage.inLoop]) rfl rfl
    · exact loops (.setPasses s i _) (by simp [State.setPasses]) (by simp [hw, Stage.inLoop]) rfl rfl
  case checkGeneration =>
    cases hs
    refine .goesOn (by simp [hw, Stage.inLoop]) ?_ ?_ <;> split <;> rfl
  case cleanup done =>
    cases hs
    refine loops ?_ ?_ (by simp [hw, Stage.inLoop]) rfl rfl
    · split
      · exact .refl s
      · exact .cleanupZombies s i _
    · split
      · rfl
      · exact cleanupZombies_stage s i i _
  case adopt done =>
    cases hs
    have taken {stage : Stage β} (hn : ∀ b ∈ stage.newBlocks, b ∈ s.adoptionBlocks i) (hb : stage.before = false) :
        Shrinks s { s.setStage i stage with adoptionBlocks := update s.adoptionBlocks i [] } := by
      have moved : Shrinks s (s.setStage i stage) :=
        .setStage (fun b hb => .inl (hn b hb)) (fun _ => .inl (by simp [hw, Stage.inLoop])) (by simp [hb])
      refine moved.trans (.of_adoptionBlocks fun j b hj => ?_)
      by_cases hij : j = i
      · subst hij
        simp at hj
      · rwa [update_of_ne hij] at hj
    refine taken (fun b hb => ?_) ?_
    · revert hb
      split
      · exact id
      · split <;> simp [Stage.newBlocks]
    · split
      · rfl
      · split <;> rfl
  case record done newBlocks =>
    rw [hw, Stage.newBlocks] at hr
    subst hr
    cases hs
    refine .goesOn (by simp [hw, Stage.inLoop]) ?_ ?_ <;> split <;> rfl
  case checkState | condition =>
    cases hs
    refine loops (.setPasses s i _) (by simp [State.setPasses]) (by simp [hw, Stage.inLoop]) ?_ ?_ <;> split <;> rfl
  case work =>
    cases status <;> cases hs
    · exact .goesOn (by simp [hw, Stage.inLoop]) rfl rfl
    · refine .goesOn (by simp [hw, Stage.inLoop]) ?_ ?_ <;> split <;> rfl
  case copyWithdrawn =>
    cases hs
    exact .goesOn (by simp [hw, Stage.inLoop]) rfl rfl
  case drop withdrawn =>
    cases hs
    exact loops (.dropWithdrawn s i withdrawn) (by simp [State.dropWithdrawn]) (by simp [hw, Stage.inLoop]) rfl rfl
  case traverse =>
    have run_ended : Shrinks s { s with ended := true } := { Shrinks.refl s with }
    split at hs <;> cases hs
    · exact .goesOn (by simp [hw, Stage.inLoop]) rfl rfl
    · exact .goesOn (by simp [hw, Stage.inLoop]) rfl rfl
    · exact .goesOn (by simp [hw, Stage.inLoop]) rfl rfl
    · exact loops run_ended rfl (by simp [hw, Stage.inLoop]) rfl rfl
  case closeIfEmpty =>
    split at hs <;> cases hs
    · exact .goesOn (by simp [hw, Stage.inLoop]) rfl rfl
    · have moved : Shrinks s (s.setStage i .closing) := .goesOn (by simp [hw, Stage.inLoop]) rfl rfl
      refine { moved with active := fun j ha => ⟨(moved.active j ha).1, ?_⟩ }
      refine update_of_ne ?_ _ _
      rintro rfl
      simp [Active, State.setStage, Stage.inLoop, Stage.before] at ha
  case closing => exact absurd hw hc
  case left | retired =>
    cases hs

theorem Inv.workerStep (h : Inv s)
    (hs : workerStep nPasses s i hint status = some t) : Inv t := by
  by_cases hc : (s.workers i).stage = .closing
  · simp only [Adoption.workerStep, hc, Option.some.injEq] at hs
    subst hs
    exact h.closeAdoptionList
  cases hw : (s.workers i).stage with
  | record done newBlocks =>
    simp only [Adoption.workerStep, hw] at hs
    cases hs
    obtain ⟨hI, stage⟩ : Inv (s.record i newBlocks) ∧ _ := h.record fun b hb => .inr (by rwa [hw])
    refine hI.shrinks (.goesOn (by simp [stage i, hw, Stage.inLoop]) ?_ ?_) <;> split <;> rfl
  | _ => exact h.shrinks (workerStep_shrinks hs (by simp [hw, Stage.newBlocks]) hc)

/-- The removed block may still be queued. -/
def Edit.Removing (e : Edit n β) (b : β) : Prop := e = .stopChild b ∨ ∃ active, e = .unqueue b active

/-- How a step of the edit changes the adoption lists: it leaves them alone, takes a block out of one, or queues one. -/
inductive EditStep (hash : β → Nat) (s : State n β) : State n β → Prop
  | moved {e : Edit n β} {blockState : β → LifeCycle.State} {withdrawnBlocks zombieBlocks : List β}
      (hj : ∀ p, e.joining = some p → s.edit.joining = some p)
      (hr : ∀ b, e.Removing b → s.edit.Removing b) :
      EditStep hash s { s with
        withdrawnBlocks := withdrawnBlocks
        zombieBlocks := zombieBlocks
        edit := e
        blockState := blockState }
  | unqueued {b : β} {active : Bool} {i : Fin n} (he : s.edit = .unqueue b active) :
      EditStep hash s { s with
        adoptionBlocks := update s.adoptionBlocks i ((s.adoptionBlocks i).erase b)
        edit := .jobListHolds b active }
  | queued {b : β} {preferred : Option (Fin n)} {restart : Bool} {i : Fin n}
      (he : s.edit = .queueForAdoption b preferred restart) (hl : s.listFor hash b preferred = some i) :
      EditStep hash s { s with
        adoptionBlocks := update s.adoptionBlocks i (s.adoptionBlocks i ++ [b])
        edit := .idle }

theorem editStep_cases {active fails : Bool} (hs : editStep hash scheduled s active fails = some t) :
    EditStep hash s t := by
  cases he : s.edit <;> simp only [editStep, he] at hs
  case idle =>
    cases hs
  case hasOpenAdoptionList b preferred restart =>
    split at hs
    · cases hs
      exact .moved (by simp [Edit.joining]) (by simp [Edit.Removing])
    · split at hs <;> cases hs
      · exact .moved (by simp [Edit.joining]) (by simp [Edit.Removing])
      · exact .moved (by simp [Edit.joining, he]) (by simp [Edit.Removing])
  case start b preferred restart =>
    split at hs
    · cases hs
      exact .moved (by simp [Edit.joining]) (by simp [Edit.Removing])
    · split at hs
      · cases hs
        exact .moved (by simp [Edit.joining, he]) (by simp [Edit.Removing])
      · split at hs <;> cases hs
        · exact .moved (by simp [Edit.joining, he]) (by simp [Edit.Removing])
        · exact .moved (by simp [Edit.joining, he]) (by simp [Edit.Removing])
        · exact .moved (by simp [Edit.joining, he]) (by simp [Edit.Removing])
        · exact .moved (by simp [Edit.joining]) (by simp [Edit.Removing])
  case queueForAdoption b preferred restart =>
    simp only [State.queueForAdoption] at hs
    cases hl : s.listFor hash b preferred with
    | none =>
      simp only [hl] at hs
      cases hs
      exact .moved (by simp [Edit.joining]) (by simp [Edit.Removing])
    | some i =>
      simp only [hl] at hs
      cases hs
      exact .queued he hl
  case noWorkerLeft b restart | refused b restart =>
    split at hs <;> cases hs
    · exact .moved (by simp [Edit.joining]) (by simp [Edit.Removing])
    · exact .moved (by simp [Edit.joining]) (by simp [Edit.Removing])
  case stopChild b =>
    split at hs <;> cases hs
    · exact .moved (by simp [Edit.joining]) (by simp [Edit.Removing, he])
    · exact .moved (by simp [Edit.joining]) (by simp [Edit.Removing, he])
  case unqueue b active =>
    split at hs <;> cases hs
    · exact .unqueued he
    · exact .moved (by simp [Edit.joining]) (by simp [Edit.Removing])
  case jobListHolds b active =>
    cases hs
    split
    · exact .moved (by simp [Edit.joining]) (by simp [Edit.Removing])
    · exact .moved (by simp [Edit.joining]) (by simp [Edit.Removing])
  case pushZombie b =>
    cases hs
    exact .moved (by simp [Edit.joining]) (by simp [Edit.Removing])

theorem Inv.editStep (h : Inv s) (hs : EditStep hash s t) : Inv t := by
  cases hs with
  | moved hj _ => exact h.shrinks { Shrinks.refl s with joining := hj }
  | @unqueued b active i he =>
    have erased : Shrinks s { s with
        adoptionBlocks := update s.adoptionBlocks i ((s.adoptionBlocks i).erase b) } := by
      refine .of_adoptionBlocks fun j b' hb => ?_
      by_cases hj : j = i
      · subst hj
        rw [update_self] at hb
        exact List.mem_of_mem_erase hb
      · rwa [update_of_ne hj] at hb
    exact h.shrinks { erased with joining := by simp [Edit.joining] }
  | queued he hl =>
    obtain ⟨hp, hf⟩ := h.joining _ _ (by rw [he, Edit.joining])
    exact h.queueForAdoption hp hf hl rfl

theorem jobListHolding_eq (hi : b ∈ s.executionOrder i) (ho : ∀ j, b ∈ s.executionOrder j → j = i) :
    s.jobListHolding b = some i := by
  cases hf : s.jobListHolding b with
  | none =>
    have := List.find?_eq_none.mp hf i (List.mem_finRange i)
    simp [hi] at this
  | some k =>
    have := List.find?_some hf
    rw [ho k (by simpa using this)]

/-- No edit finds a block stopped that still waits to be adopted, and a worker that has the block has it in its job
    list. -/
def Found (s : State n β) : Act n β → Prop
  | .stoppedEndpoint b => (∀ i, ¬ Waiting s b i) ∧ ∀ i, Holds s b i → b ∈ s.executionOrder i
  | _ => True

instance (s : State n β) (a : Act n β) : Decidable (Found s a) := by
  cases a with
  | stoppedEndpoint b =>
    exact inferInstanceAs (Decidable ((∀ i, ¬ Waiting s b i) ∧ ∀ i, Holds s b i → b ∈ s.executionOrder i))
  | _ => exact .isTrue trivial

variable {a : Act n β}

theorem Inv.step (h : Inv s) (hok : Found s a) (hs : step hash scheduled nPasses s a = some t) :
    Inv t := by
  cases a <;> simp only [Adoption.step] at hs
  case worker i hint status => exact h.workerStep hs
  case emplace b preferred =>
    split at hs
    · rename_i hb
      obtain ⟨he, hg, hr⟩ := hb
      cases hs
      have unknown (j : Fin n) : ¬ (b ∈ s.executionOrder j ∨ Waiting s b j ∨ Holds s b j) := fun hj => by
        obtain hj | hj := h.known b j hj
        · rw [hg] at hj
          cases hj
        · rw [hr] at hj
          cases hj
      have inGraph {b'} (hb' : s.inGraph b' = true) : update s.inGraph b true b' = true := by
        by_cases hbb : b' = b
        · rw [hbb, update_self]
        · rwa [update_of_ne hbb]
      refine { h with
        known := fun b' j hj => (h.known b' j hj).imp_left inGraph
        found := fun b' p hb' => ?_
        joining := fun b' p hb' => ?_ }
      · obtain ⟨h₁, h₂, h₃⟩ := h.found b' p hb'
        exact ⟨h₁, h₂, inGraph h₃⟩
      · cases hb'
        refine ⟨⟨fun j hj => unknown j (.inr (.inl hj)), fun j hj => absurd (.inr (.inr hj)) (unknown j), ?_⟩, ?_⟩
        · exact update_self ..
        · cases hf : s.stoppedEndpoints b with
          | none => rfl
          | some p =>
            have := (h.found b p hf).inGraph
            rw [hg] at this
            cases this
    · cases hs
  case stoppedEndpoint b =>
    split at hs
    · rename_i hb
      obtain ⟨he, hg, -⟩ := hb
      cases hs
      refine { h with found := fun b' p hb' => ?_, joining := fun b' p hb' => ?_ }
      · by_cases hbb : b' = b
        · subst hbb
          simp only [update_self, Option.some.injEq] at hb'
          subst hb'
          refine ⟨hok.1, fun j hj => ?_, hg⟩
          exact jobListHolding_eq (hok.2 j hj) fun k hk => h.recorded b' j k hj hk
        · simp only [update_of_ne hbb] at hb'
          obtain ⟨h₁, h₂, h₃⟩ := h.found b' p hb'
          exact ⟨h₁, h₂, h₃⟩
      · simp only [he, Edit.joining] at hb'
        cases hb'
    · cases hs
  case restart b =>
    cases hf : s.stoppedEndpoints b with
    | none =>
      simp only [hf] at hs
      cases hs
    | some preferred =>
      simp only [hf] at hs
      split at hs
      · cases hs
        refine { h with found := fun b' p hb' => ?_, joining := fun b' p hb' => ?_ }
        · by_cases hbb : b' = b
          · subst hbb
            simp at hb'
          · simp only [update_of_ne hbb] at hb'
            obtain ⟨h₁, h₂, h₃⟩ := h.found b' p hb'
            exact ⟨h₁, h₂, h₃⟩
        · cases hb'
          obtain ⟨h₁, h₂, h₃⟩ := h.found b _ hf
          exact ⟨⟨h₁, h₂, h₃⟩, update_self ..⟩
      · cases hs
  case endEdit =>
    split at hs
    · cases hs
      exact h.shrinks { Shrinks.refl s with stoppedEndpoints := by simp }
    · cases hs
  case remove b =>
    split at hs
    · rename_i hb
      obtain ⟨he, hg, hf⟩ := hb
      cases hs
      refine { h with
        known := fun b' j hj => ?_
        found := fun b' p hb' => ?_
        joining := fun b' p hb' => ?_ }
      · by_cases hbb : b' = b
        · subst hbb
          exact .inr (update_self ..)
        · simpa only [update_of_ne hbb] using h.known b' j hj
      · have hbb : b' ≠ b := by
          rintro rfl
          rw [hf] at hb'
          cases hb'
        obtain ⟨h₁, h₂, h₃⟩ := h.found b' p hb'
        exact ⟨h₁, h₂, (update_of_ne hbb ..).trans h₃⟩
      · cases hb'
    · cases hs
  case edit active fails =>
    exact h.editStep (editStep_cases hs)
  case changeState b newState =>
    split at hs
    · cases hs
      exact h.shrinks (.of_blockState _)
    · cases hs
  case endRun =>
    cases hs
    exact h.shrinks { Shrinks.refl s with }

theorem inv_of_reach (h : (system n hash scheduled nPasses).Reach Found s) : Inv s :=
  h.invariant (fun _ => Inv.of_start) fun _ _ _ hI hok hs => hI.step hok hs

/-! ### What a step leaves alone -/

/-- A step of worker `i`, apart from its own queue and the adoption lists it closes. -/
structure Frame (i : Fin n) (s t : State n β) : Prop where
  adoptionBlocks : t.adoptionBlocks = s.adoptionBlocks
  adoptionListClosed : t.adoptionListClosed = s.adoptionListClosed
  edit : t.edit = s.edit
  removed : t.removed = s.removed
  ended : t.ended = s.ended
  workers : ∀ j, j ≠ i → t.workers j = s.workers j

omit [DecidableEq β] in
theorem Frame.refl (s : State n β) : Frame i s s := ⟨rfl, rfl, rfl, rfl, rfl, fun _ _ => rfl⟩

omit [DecidableEq β] in
theorem Frame.trans (h : Frame i s t) (h' : Frame i t u) : Frame i s u where
  adoptionBlocks := h'.adoptionBlocks.trans h.adoptionBlocks
  adoptionListClosed := h'.adoptionListClosed.trans h.adoptionListClosed
  edit := h'.edit.trans h.edit
  removed := h'.removed.trans h.removed
  ended := h'.ended.trans h.ended
  workers j hj := (h'.workers j hj).trans (h.workers j hj)

omit [DecidableEq β] in
/-- Only the worker's own record, the job lists and the zombies change. -/
theorem Frame.of_worker {w : Worker β} {executionOrder : Fin n → List β} {zombieBlocks : List β} :
    Frame i s { s with
      executionOrder := executionOrder
      zombieBlocks := zombieBlocks
      workers := update s.workers i w } :=
  ⟨rfl, rfl, rfl, rfl, rfl, fun _ hj => update_of_ne hj ..⟩

omit [DecidableEq β] in
theorem Frame.setStage : Frame i s (s.setStage i stage) := .of_worker

theorem Frame.eraseFromJobList : Frame i s (s.eraseFromJobList b) := by
  unfold State.eraseFromJobList
  split
  · exact ⟨rfl, rfl, rfl, rfl, rfl, fun _ _ => rfl⟩
  · exact .refl s

theorem Frame.cleanupZombies (s : State n β) (zombies : List β) : Frame i s (s.cleanupZombies i zombies) := by
  induction zombies generalizing s with
  | nil => exact .refl s
  | cons zombie rest ih =>
    simp only [State.cleanupZombies]
    split
    · exact Frame.of_worker.trans (eraseFromJobList.trans (ih _))
    · exact ih s

theorem Frame.record (s : State n β) (newBlocks : List β) : Frame i s (s.record i newBlocks) := by
  induction newBlocks generalizing s with
  | nil => exact .refl s
  | cons block rest ih => exact Frame.of_worker.trans (ih (s.adoptBlock i block))

/-- How a step of worker `i` changes the adoption lists. A worker that leaves hands its queue on, unless no list is
    open. -/
inductive ListsStep (i : Fin n) (s : State n β) : State n β → Prop
  | same {t : State n β} (h : Frame i s t) : ListsStep i s t
  | ends {t : State n β} (h : Frame i s t) : ListsStep i s { t with ended := true }
  | takes {t : State n β} (h : Frame i s t) (hl : (t.workers i).stage.inLoop = true)
      (hn : (t.workers i).stage.newBlocks = s.adoptionBlocks i) :
      ListsStep i s { t with adoptionBlocks := update s.adoptionBlocks i [] }
  | closes {t : State n β} (h : Frame i s t) (he : s.adoptionBlocks i = [] ∨
      (s.workers i).stage = .closing ∧ ∀ k, update s.adoptionListClosed i true k = true) :
      ListsStep i s { t with adoptionListClosed := update s.adoptionListClosed i true }
  | hands {t : State n β} {k : Fin n} (h : Frame i s t) (hw : (s.workers i).stage = .closing) (hk : k ≠ i)
      (ho : s.adoptionListClosed k = false) : ListsStep i s { t with
        adoptionListClosed := update s.adoptionListClosed i true
        adoptionBlocks :=
          update (update s.adoptionBlocks k (s.adoptionBlocks k ++ s.adoptionBlocks i)) i [] }

omit [DecidableEq β] in
theorem closeAdoptionList_lists (hw : (s.workers i).stage = .closing) :
    ListsStep i s ((s.closeAdoptionList i).setStage i .left) := by
  simp only [State.closeAdoptionList]
  split
  · rename_i hb
    exact .closes .setStage (.inl hb)
  · split
    · rename_i k hk
      have hk := openLists_mem.mp (List.mem_of_head? hk)
      have hki : k ≠ i := by
        rintro rfl
        simp at hk
      exact .hands .setStage hw hki ((update_of_ne hki ..).symm.trans hk)
    · rename_i hn
      refine .closes .setStage (.inr ⟨hw, fun k => ?_⟩)
      have := List.head?_eq_none_iff.mp hn ▸ openLists_mem (s := { s with
        adoptionListClosed := update s.adoptionListClosed i true }) (i := k)
      simpa using this

theorem workerStep_lists (hs : workerStep nPasses s i hint status = some t) :
    ListsStep i s t := by
  cases hw : (s.workers i).stage <;> simp only [workerStep, hw] at hs
  case cleanup done =>
    cases hs
    refine .same (Frame.trans ?_ .setStage)
    split
    · exact .refl s
    · exact .cleanupZombies s _
  case adopt done =>
    cases hs
    refine .takes .setStage ?_ ?_
    · simp only [State.setStage, update_self]
      split
      · rfl
      · split <;> rfl
    · simp only [State.setStage, update_self]
      by_cases hn : s.adoptionBlocks i = []
      · simp only [hn, ne_eq, not_true_eq_false, if_false]
        split <;> rfl
      · simp [hn, Stage.newBlocks]
  case record done newBlocks =>
    cases hs
    exact .same ((Frame.record s newBlocks).trans .setStage)
  case work =>
    split at hs <;> cases hs <;> exact .same .setStage
  case traverse =>
    split at hs <;> cases hs
    · exact .same .setStage
    · exact .same .setStage
    · exact .same .setStage
    · exact .ends .setStage
  case closeIfEmpty =>
    split at hs <;> cases hs
    · exact .same .setStage
    · rename_i he
      exact .closes .setStage (.inl (not_not.mp he))
  case closing =>
    cases hs
    exact closeAdoptionList_lists hw
  case left | retired =>
    cases hs
  case top =>
    split at hs <;> cases hs
    · exact .same .setStage
    · exact .same (Frame.of_worker.trans .setStage)
  case copyJobs | checkState | drop | condition =>
    cases hs
    exact .same (Frame.of_worker.trans .setStage)
  case queued | checkGeneration | copyWithdrawn =>
    cases hs
    exact .same .setStage

/-- A step that no worker makes, on the workers and their adoption lists. -/
structure EditFrame (s t : State n β) : Prop where
  workers : t.workers = s.workers
  adoptionListClosed : t.adoptionListClosed = s.adoptionListClosed
  ended : s.ended = true → t.ended = true
  removed : ∀ b, s.removed b = true → t.removed b = true
  queued : ∀ i, t.adoptionBlocks i ≠ [] → s.adoptionBlocks i ≠ [] ∨ s.adoptionListClosed i = false
  unqueued : ∀ b i, b ∈ s.adoptionBlocks i → b ∈ t.adoptionBlocks i ∨ ∃ active, s.edit = .unqueue b active
  removing : ∀ b, t.edit.Removing b → s.edit.Removing b ∨ t.removed b = true

theorem EditStep.frame (hs : EditStep hash s t) : EditFrame s t := by
  cases hs with
  | moved _ hr => exact ⟨rfl, rfl, id, fun _ => id, fun _ => .inl, fun _ _ => .inl, fun b hb => .inl (hr b hb)⟩
  | @unqueued b active i he =>
    refine ⟨rfl, rfl, id, fun _ => id, fun j hj => .inl ?_, fun b' j hb => ?_, fun b' hb => ?_⟩
    · by_cases hi : j = i
      · subst hi
        rintro hn
        simp [hn] at hj
      · simpa only [update_of_ne hi] using hj
    · by_cases hi : j = i
      · subst hi
        by_cases hbb : b' = b
        · subst hbb
          exact .inr ⟨active, he⟩
        · exact .inl (by simpa only [update_self] using (List.mem_erase_of_ne hbb).mpr hb)
      · exact .inl (by simpa only [update_of_ne hi] using hb)
    · simp [Edit.Removing] at hb
  | @queued b preferred restart i he hl =>
    refine ⟨rfl, rfl, id, fun _ => id, fun j hj => ?_, fun b' j hb => .inl ?_, fun b' hb => ?_⟩
    · by_cases hi : j = i
      · subst hi
        exact .inr (listFor_open hl).1
      · exact .inl (by simpa only [update_of_ne hi] using hj)
    · by_cases hi : j = i
      · subst hi
        simp [hb]
      · simpa only [update_of_ne hi] using hb
    · simp [Edit.Removing] at hb

theorem step_frame (hs : step hash scheduled nPasses s a = some t) :
    (∃ i hint status, a = .worker i hint status ∧ workerStep nPasses s i hint status = some t) ∨
      (∀ i hint status, a ≠ .worker i hint status) ∧ EditFrame s t := by
  have same {u : State n β} (hw : u.workers = s.workers) (hc : u.adoptionListClosed = s.adoptionListClosed)
      (hb : u.adoptionBlocks = s.adoptionBlocks) (he : s.ended = true → u.ended = true)
      (hr : ∀ b, s.removed b = true → u.removed b = true)
      (hE : ∀ b, u.edit.Removing b → s.edit.Removing b ∨ u.removed b = true) : EditFrame s u :=
    ⟨hw, hc, he, hr, fun i hi => .inl (hb ▸ hi), fun b i hi => .inl (hb ▸ hi), hE⟩
  cases a <;> simp only [step] at hs
  case worker i hint status => exact .inl ⟨i, hint, status, rfl, hs⟩
  case edit active fails => exact .inr ⟨by simp, (editStep_cases hs).frame⟩
  case emplace b preferred =>
    split at hs <;> cases hs
    exact .inr ⟨by simp, same rfl rfl rfl id (fun _ => id) (by simp [Edit.Removing])⟩
  case stoppedEndpoint b | endEdit | changeState b newState =>
    split at hs <;> cases hs
    exact .inr ⟨by simp, same rfl rfl rfl id (fun _ => id) fun _ => .inl⟩
  case restart b =>
    split at hs
    · split at hs <;> cases hs
      exact .inr ⟨by simp, same rfl rfl rfl id (fun _ => id) (by simp [Edit.Removing])⟩
    · cases hs
  case remove b =>
    split at hs <;> cases hs
    refine .inr ⟨by simp, same rfl rfl rfl id (fun b' hb => ?_) fun b' hb => .inr ?_⟩
    · show update s.removed b true b' = true
      by_cases hbb : b' = b
      · rw [hbb, update_self]
      · rwa [update_of_ne hbb]
    · simp only [Edit.Removing, Edit.stopChild.injEq, reduceCtorEq, exists_false, or_false] at hb
      subst hb
      exact update_self ..
  case endRun =>
    cases hs
    exact .inr ⟨by simp, same rfl rfl rfl (fun _ => rfl) (fun _ => id) fun _ => .inl⟩

/-! ### No block waits in a closed list -/

/-- Where a closed list keeps a block every other list is closed. While the run goes on, each worker whose list is open
    is in its loop or will be, and an edit that takes a block out of a queue has removed it. -/
structure Lists (s : State n β) : Prop where
  handed : ∀ i, s.adoptionListClosed i = true → s.adoptionBlocks i ≠ [] → ∀ k, s.adoptionListClosed k = true
  active : s.ended = false → ∀ i, s.adoptionListClosed i = false → Active s i
  removing : ∀ b, s.edit.Removing b → s.removed b = true

omit [DecidableEq β] in
theorem Lists.of_start (h : Start s) : Lists s where
  handed i hc := by
    rw [h.adoptionListClosed i] at hc
    cases hc
  active _ i _ := by
    right
    rw [h.workers i]
    rfl
  removing b he := by
    rw [h.edit] at he
    simp [Edit.Removing] at he

/-- A worker goes on as long as the run does and its list is open. -/
theorem workerStep_active (hs : workerStep nPasses s i hint status = some t)
    (he : t.ended = false) (hc : t.adoptionListClosed i = false) (ha : Active s i) : Active t i := by
  have goes {u : State n β} {stage : Stage β} (hl : stage.inLoop = true ∨ stage.before = true) :
      Active (u.setStage i stage) i := by
    simpa only [Active, State.setStage, update_self] using hl
  cases hw : (s.workers i).stage <;> simp only [workerStep, hw] at hs
  case queued =>
    cases hs
    exact goes (.inr (by rw [show s.ended = false from he]; rfl))
  case checkGeneration | checkState | condition =>
    cases hs
    exact goes (.inl (by rw [show s.ended = false from he]; rfl))
  case copyJobs | cleanup | copyWithdrawn | drop =>
    cases hs
    exact goes (.inl rfl)
  case top =>
    split at hs <;> cases hs <;> exact goes (.inl rfl)
  case adopt done =>
    cases hs
    refine goes (.inl ?_)
    split
    · rfl
    · split <;> rfl
  case record done newBlocks =>
    cases hs
    refine goes (.inl ?_)
    split <;> rfl
  case work =>
    split at hs <;> cases hs
    · exact goes (.inl rfl)
    · refine goes (.inl ?_)
      split <;> rfl
  case traverse =>
    split at hs <;> cases hs
    · exact goes (.inl rfl)
    · exact goes (.inl rfl)
    · exact goes (.inl rfl)
    · cases he
  case closeIfEmpty =>
    split at hs <;> cases hs
    · exact goes (.inl rfl)
    · exact absurd hc (by simp [State.setStage])
  case closing | left | retired =>
    rw [Active, hw] at ha
    simp [Stage.inLoop, Stage.before] at ha

/-- What a step of worker `i` keeps of the lists and of the others. -/
structure WorkerFrame (i : Fin n) (s t : State n β) : Prop where
  edit : t.edit = s.edit
  removed : t.removed = s.removed
  ended : t.ended = false → s.ended = false
  workers : ∀ j, j ≠ i → t.workers j = s.workers j
  adoptionListClosed : ∀ j, t.adoptionListClosed j = false → s.adoptionListClosed j = false

omit [DecidableEq β] in
theorem ListsStep.frame (h : ListsStep i s t) : WorkerFrame i s t := by
  have closed {j : Fin n} (hj : update s.adoptionListClosed i true j = false) :
      s.adoptionListClosed j = false := by
    by_cases hi : j = i
    · subst hi
      simp at hj
    · rwa [update_of_ne hi] at hj
  cases h with
  | same h | takes h _ _ => exact ⟨h.edit, h.removed, fun he => h.ended ▸ he, h.workers, fun j hj => h.adoptionListClosed ▸ hj⟩
  | ends h => exact ⟨h.edit, h.removed, fun he => (by cases he), h.workers, fun j hj => h.adoptionListClosed ▸ hj⟩
  | closes h _ | hands h _ _ _ => exact ⟨h.edit, h.removed, fun he => h.ended ▸ he, h.workers, fun _ => closed⟩

omit [DecidableEq β] in
theorem ListsStep.handed (h : ListsStep i s t) (hs : ∀ i, s.adoptionListClosed i = true → s.adoptionBlocks i ≠ [] →
    ∀ k, s.adoptionListClosed k = true) {j k : Fin n} (hc : t.adoptionListClosed j = true)
    (hb : t.adoptionBlocks j ≠ []) : t.adoptionListClosed k = true := by
  cases h with
  | same h | ends h =>
    simp only [h.adoptionListClosed, h.adoptionBlocks] at hc hb ⊢
    exact hs j hc hb k
  | takes h _ _ =>
    simp only [h.adoptionListClosed] at hc ⊢
    by_cases hj : j = i
    · subst hj
      simp at hb
    · simp only [update_of_ne hj] at hb
      exact hs j hc hb k
  | closes h he =>
    simp only [h.adoptionBlocks] at hb
    obtain he | ⟨-, he⟩ := he
    · have hj : j ≠ i := by
        rintro rfl
        exact hb he
      simp only [update_of_ne hj] at hc
      by_cases hk : k = i
      · subst hk
        exact update_self ..
      · exact (update_of_ne hk ..).trans (hs j hc hb k)
    · exact he k
  | @hands _ l h _ hl ho =>
    have hj : j ≠ i := by
      rintro rfl
      simp at hb
    simp only [update_of_ne hj] at hc hb
    have hjl : j ≠ l := by
      rintro rfl
      rw [ho] at hc
      cases hc
    rw [update_of_ne hjl] at hb
    rw [hs j hc hb l] at ho
    cases ho

theorem Lists.step (h : Lists s) (hs : step hash scheduled nPasses s a = some t) : Lists t := by
  obtain ⟨i, hint, status, rfl, hw⟩ | ⟨-, hf⟩ := step_frame hs
  · have hl := workerStep_lists hw
    have hf := hl.frame
    refine ⟨fun j hc hb k => hl.handed h.handed hc hb, fun hn j hc => ?_, fun b hb => ?_⟩
    · have ha := h.active (hf.ended hn) j (hf.adoptionListClosed j hc)
      by_cases hj : j = i
      · subst hj
        exact workerStep_active hw hn hc ha
      · rwa [Active, hf.workers j hj]
    · rw [hf.removed]
      exact h.removing b (hf.edit ▸ hb)
  · refine ⟨fun j hc hb k => ?_, fun hn j hc => ?_, fun b hb => ?_⟩
    · rw [hf.adoptionListClosed] at hc ⊢
      obtain hb | ho := hf.queued j hb
      · exact h.handed j hc hb k
      · rw [ho] at hc
        cases hc
    · rw [Active, hf.workers]
      refine h.active ?_ j (hf.adoptionListClosed ▸ hc)
      cases he : s.ended with
      | false => rfl
      | true => exact (hf.ended he).symm.trans hn
    · exact (hf.removing b hb).elim (fun hb => hf.removed b (h.removing b hb)) id

theorem lists_of_reachable (h : (system n hash scheduled nPasses).Reachable s) : Lists s :=
  h.invariant (fun _ => Lists.of_start) fun _ _ _ hI _ hs => hI.step hs

/-! ### A queued block reaches a worker -/

abbrev Stage.busy (stage : Stage β) : Prop := stage ≠ .left ∧ stage ≠ .retired

/-- The workers are the threads. What is not a worker's step is nobody's. -/
def threads (n : Nat) (hash : β → Nat) (scheduled : β → Bool) (nPasses : Nat) :
    Threads (system n hash scheduled nPasses) (Option (Fin n)) (Worker β) where
  owner
    | .worker i _ _ => some i
    | _ => none
  loc s i := match i with
    | some i => s.workers i
    | none => ⟨.left, [], 0, 0⟩
  frame := by
    rintro s a t hs j hj
    cases j with
    | none => rfl
    | some j =>
      obtain ⟨i, hint, status, rfl, hw⟩ | ⟨-, hf⟩ := step_frame hs
      · exact (workerStep_lists hw).frame.workers j fun h => hj (congrArg some h)
      · exact congrFun hf.workers j

/-- A worker that has not left goes on. -/
abbrev Fair (e : Execution (system n hash scheduled nPasses)) : Prop :=
  e.Fair (threads n hash scheduled nPasses) fun w => w.stage.busy

/-- How far a worker is from the next look at its queue. -/
def Worker.toAdopt (nPasses : Nat) (w : Worker β) : Nat :=
  match w.stage with
  | .left | .retired => 0
  | .adopt _ | .closing => 1
  | .cleanup _ => 2
  | .checkGeneration => 3
  | .top => 4 + 10 * w.nPassesToMessages
  | .copyJobs | .condition => 5 + 10 * w.nPassesToMessages
  | .queued | .traverse | .closeIfEmpty => 6 + 10 * w.nPassesToMessages
  | .drop _ => 7 + 10 * w.nPassesToMessages
  | .copyWithdrawn => 8 + 10 * w.nPassesToMessages
  | .work => 9 + 10 * w.nPassesToMessages
  | .checkState => 10 + 10 * nPasses
  | .record _ _ => 11 + 10 * nPasses + 10 * w.nPassesToMessages

/-- How far a worker of a run that has ended is from leaving. -/
def Stage.toLeave : Stage β → Nat
  | .left | .retired => 0
  | .closing => 1
  | .condition | .checkState | .checkGeneration => 2
  | .closeIfEmpty | .record _ _ => 3
  | .adopt _ => 4
  | .cleanup _ => 5
  | .traverse => 6
  | .drop _ => 7
  | .copyWithdrawn => 8
  | .work => 9
  | .top => 10
  | .copyJobs => 11
  | .queued => 12

theorem record_passes (s : State n β) (newBlocks : List β) :
    ((s.record i newBlocks).workers i).nPassesToMessages = (s.workers i).nPassesToMessages := by
  induction newBlocks generalizing s with
  | nil => rfl
  | cons block rest ih => exact (ih _).trans (by simp [State.adoptBlock])

omit [DecidableEq β] in
@[simp] theorem setStage_self {stage : Stage β} :
    (s.setStage i stage).workers i = { s.workers i with stage := stage } := by
  simp [State.setStage]

omit [DecidableEq β] in
@[simp] theorem setPasses_self {nPassesToMessages : Nat} : (s.setPasses i nPassesToMessages).workers i =
    { s.workers i with nPassesToMessages := nPassesToMessages } := by
  simp [State.setPasses]

theorem toLeave_step (he : s.ended = true)
    (hs : workerStep nPasses s i hint status = some t) :
    (t.workers i).stage.toLeave ≤ (s.workers i).stage.toLeave - 1 := by
  cases hw : (s.workers i).stage <;> simp only [workerStep, hw] at hs
  case queued | checkGeneration | checkState | condition =>
    simp only [he, if_true] at hs
    cases hs
    simp [Stage.toLeave]
  case copyJobs | cleanup | copyWithdrawn | drop | closing =>
    cases hs
    simp [Stage.toLeave]
  case record =>
    cases hs
    rw [setStage_self]
    split <;> simp [Stage.toLeave]
  case adopt =>
    cases hs
    rw [setStage_self]
    split
    · simp [Stage.toLeave]
    · split <;> simp [Stage.toLeave]
  case top | closeIfEmpty | traverse =>
    split at hs <;> cases hs <;> simp [Stage.toLeave]
  case work =>
    split at hs <;> cases hs
    · simp [Stage.toLeave]
    · rw [setStage_self]
      split <;> simp [Stage.toLeave]
  case left | retired =>
    cases hs

/-- As long as the run goes on and a block stays queued for the worker, it comes closer to taking it. -/
theorem toAdopt_step (hs : workerStep nPasses s i hint status = some t)
    (he : t.ended = false) (hb : b ∈ s.adoptionBlocks i) (hb' : b ∈ t.adoptionBlocks i) :
    (t.workers i).toAdopt nPasses ≤ (s.workers i).toAdopt nPasses - 1 := by
  cases hw : (s.workers i).stage <;> simp only [workerStep, hw] at hs
  case queued | checkGeneration | checkState =>
    cases hs
    have he : s.ended = false := he
    simp only [he, Bool.false_eq_true, if_false, setStage_self, setPasses_self, Worker.toAdopt, hw]
    omega
  case condition =>
    cases hs
    have he : s.ended = false := he
    simp only [he, Bool.false_eq_true, if_false, setStage_self, setPasses_self, Worker.toAdopt, hw]
    split <;> omega
  case closing =>
    cases hs
    simp [Worker.toAdopt]
  case copyJobs | copyWithdrawn | drop =>
    cases hs
    simp only [State.setLocal, State.dropWithdrawn, setStage_self, update_self, Worker.toAdopt, hw]
    omega
  case cleanup =>
    cases hs
    simp [Worker.toAdopt, hw]
  case record done newBlocks =>
    cases hs
    cases done <;> simp only [setStage_self, Bool.false_eq_true, if_false, if_true, Worker.toAdopt, hw, record_passes]
    · omega
    · omega
  case adopt =>
    cases hs
    simp [State.setStage] at hb'
  case top =>
    split at hs <;> cases hs
    · simp only [setStage_self, Worker.toAdopt, hw]
      omega
    · rename_i hp
      simp only [setStage_self, setPasses_self, Worker.toAdopt, hw]
      omega
  case closeIfEmpty =>
    split at hs
    · cases hs
      simp only [setStage_self, Worker.toAdopt, hw]
      omega
    · rename_i hn
      rw [not_not.mp hn] at hb
      cases hb
  case work =>
    split at hs <;> cases hs
    · simp only [setStage_self, Worker.toAdopt, hw]
      omega
    · rw [setStage_self]
      split <;> simp only [Worker.toAdopt, hw] <;> omega
  case traverse =>
    split at hs <;> cases hs
    · simp only [setStage_self, Worker.toAdopt, hw]
      omega
    · simp only [setStage_self, Worker.toAdopt, hw]
      omega
    · simp only [setStage_self, Worker.toAdopt, hw]
      omega
    · cases he
  case left | retired =>
    cases hs

variable {e : Execution (system n hash scheduled nPasses)} {m : Nat}

theorem ended_always (h : (e.state m).ended = true) : ∀ k ≥ m, (e.state k).ended = true := by
  refine e.always_of_step (P := fun s => s.ended = true) h fun k _ a he hs => ?_
  obtain ⟨i, hint, status, rfl, hw⟩ | ⟨-, hf⟩ := step_frame hs
  · cases ht : (e.state (k + 1)).ended with
    | true => rfl
    | false => rw [(workerStep_lists hw).frame.ended ht] at he; cases he
  · exact hf.ended he

/-- A step of the thread of worker `i` is a step of the worker. -/
theorem step_of_owner (ha : (threads n hash scheduled nPasses).owner a = some i)
    (hs : step hash scheduled nPasses s a = some t) : ∃ hint status, workerStep nPasses s i hint status = some t := by
  cases a with
  | worker j hint status =>
    cases ha
    exact ⟨hint, status, hs⟩
  | _ => cases ha

/-- Every worker of a run that has ended leaves. -/
theorem all_leave (fair : Fair e) (h : (e.state m).ended = true) : ∃ k ≥ m, ∀ i, ¬ Active (e.state k) i := by
  have leaves (i : Fin n) : ∀ᶠ k in atTop, ((e.state k).workers i).stage.toLeave = 0 := by
    refine fair.eventually_rank_zero (n := m) (i := some i) (fun w => w.stage.toLeave) (fun w hw => ?_)
      fun k hk a ha hs => ?_
    · constructor <;> rintro h <;> simp [h, Stage.toLeave] at hw
    · obtain ⟨hint, status, hw⟩ := step_of_owner ha hs
      exact toLeave_step (ended_always h k hk) hw
  obtain ⟨N, hN⟩ := Filter.eventually_atTop.mp (Filter.eventually_all.mpr leaves)
  refine ⟨max m N, le_max_left .., fun i ha => ?_⟩
  have hz := hN (max m N) (le_max_right ..) i
  rw [Active] at ha
  cases hw : ((e.state (max m N)).workers i).stage <;> simp [hw, Stage.toLeave, Stage.inLoop, Stage.before] at ha hz

/-- In a run that goes on, a block queued in an open list stays there until the worker takes it. -/
theorem queued_step (hl : Lists s) (hs : step hash scheduled nPasses s a = some t)
    (he : s.ended = false) (hb : b ∈ s.adoptionBlocks i) (ho : s.adoptionListClosed i = false) :
    (b ∈ t.adoptionBlocks i ∧ t.adoptionListClosed i = false) ∨
      ((t.workers i).stage.inLoop = true ∧ b ∈ (t.workers i).stage.newBlocks) ∨ t.removed b = true := by
  obtain ⟨j, hint, status, rfl, hw⟩ | ⟨-, hf⟩ := step_frame hs
  · have out (hj : (s.workers j).stage = .closing) : j ≠ i := by
      rintro rfl
      have := hl.active he j ho
      rw [Active, hj] at this
      simp [Stage.inLoop, Stage.before] at this
    cases workerStep_lists hw with
    | same h | ends h =>
      left
      simp only [h.adoptionBlocks, h.adoptionListClosed]
      exact ⟨hb, ho⟩
    | takes h hL hn =>
      by_cases hj : i = j
      · subst hj
        exact .inr (.inl ⟨hL, hn ▸ hb⟩)
      · left
        simp only [update_of_ne hj, h.adoptionListClosed]
        exact ⟨hb, ho⟩
    | closes h hc =>
      have hj : i ≠ j := by
        rintro rfl
        obtain hc | ⟨hc, -⟩ := hc
        · rw [hc] at hb
          cases hb
        · exact out hc rfl
      left
      simp only [update_of_ne hj, h.adoptionBlocks]
      exact ⟨hb, ho⟩
    | @hands _ k h hc hk _ =>
      have hj : i ≠ j := (out hc).symm
      left
      simp only [update_of_ne hj]
      refine ⟨?_, ho⟩
      by_cases hik : i = k
      · subst hik
        simp [hb]
      · rwa [update_of_ne hik]
  · obtain hb | ⟨active, hE⟩ := hf.unqueued b i hb
    · exact .inl ⟨hb, hf.adoptionListClosed ▸ ho⟩
    · exact .inr (.inr (hf.removed b (hl.removing b (.inr ⟨active, hE⟩))))

theorem mem_record_local {newBlocks : List β} (h : b ∈ newBlocks ∨ b ∈ (s.workers i).localBlockList) :
    b ∈ ((s.record i newBlocks).workers i).localBlockList := by
  induction newBlocks generalizing s with
  | nil => exact h.resolve_left (List.not_mem_nil)
  | cons block rest ih =>
    refine ih (s := s.adoptBlock i block) ?_
    rw [mem_adoptBlock_local]
    obtain h | h := h
    · exact (List.mem_cons.mp h).elim (fun h => .inr (.inl ⟨h, rfl⟩)) .inl
    · exact .inr (.inr h)

/-- What a worker has taken from its queue gets into its list. -/
theorem running_of_newBlocks (fair : Fair e) (hb : b ∈ ((e.state m).workers i).stage.newBlocks) :
    ∃ k ≥ m, (∃ i, RunBy (e.state k) b i) := by
  have busy : ((e.state m).workers i).stage.busy := by
    constructor <;> rintro h <;> simp [h, Stage.newBlocks] at hb
  obtain ⟨k, hk, a, ha, hs, hloc⟩ := fair.next_step (i := some i) busy
  obtain ⟨hint, status, hw⟩ := step_of_owner ha hs
  have hloc : (e.state k).workers i = (e.state m).workers i := hloc
  rw [← hloc] at hb
  refine ⟨k + 1, by omega, i, ?_⟩
  cases hst : ((e.state k).workers i).stage with
  | record done newBlocks =>
    rw [hst] at hb
    simp only [workerStep, hst, Option.some.injEq] at hw
    rw [← hw, RunBy, setStage_self]
    refine ⟨?_, mem_record_local (.inl hb)⟩
    simp only
    split <;> rfl
  | _ => simp [hst, Stage.newBlocks] at hb

/-- A block queued in an open list gets to a worker, unless it is removed or the run ends. -/
theorem taken_of_queued (fair : Fair e) (going : ∀ k, (e.state k).ended = false)
    (hb : b ∈ (e.state m).adoptionBlocks i) (ho : (e.state m).adoptionListClosed i = false) :
    ∃ k ≥ m, b ∈ ((e.state k).workers i).stage.newBlocks ∨ (e.state k).removed b = true := by
  by_contra never
  have lists (k : Nat) := lists_of_reachable (e.reachable k)
  have stays : ∀ k ≥ m, b ∈ (e.state k).adoptionBlocks i ∧ (e.state k).adoptionListClosed i = false := by
    refine e.always_of_step (P := fun s => b ∈ s.adoptionBlocks i ∧ s.adoptionListClosed i = false) ⟨hb, ho⟩
      fun k hk a hq hs => ?_
    obtain hq | ⟨-, hq⟩ | hq := queued_step (lists k) hs (going k) hq.1 hq.2
    · exact hq
    · exact absurd ⟨k + 1, by omega, .inl hq⟩ never
    · exact absurd ⟨k + 1, by omega, .inr hq⟩ never
  have closer := fair.eventually_rank_zero (n := m) (i := some i) (Worker.toAdopt nPasses) (fun w hw => ?_)
    fun k hk a ha hs => ?_
  · obtain ⟨N, hN⟩ := Filter.eventually_atTop.mp closer
    have hz := hN (max m N) (le_max_right ..)
    have ha := (lists (max m N)).active (going _) i (stays _ (le_max_left ..)).2
    rw [Active] at ha
    simp only [threads, Worker.toAdopt] at hz
    cases hw : ((e.state (max m N)).workers i).stage <;> simp [hw, Stage.inLoop, Stage.before] at ha hz
  · constructor <;> rintro h <;> simp [h, Worker.toAdopt] at hw
  · obtain ⟨hint, status, hw⟩ := step_of_owner ha hs
    exact toAdopt_step hw (going (k + 1)) (stays k hk).1 (stays (k + 1) (by omega)).1

theorem running_of_queued (fair : Fair e) {active fails : Bool} {restart : Bool}
    (ha : e.label m = some (.edit active fails)) (he : (e.state m).edit = .queueForAdoption b preferred restart)
    (hl : (e.state m).listFor hash b preferred = some i) :
    ∃ k ≥ m, (∃ i, RunBy (e.state k) b i) ∨ (e.state k).removed b = true ∨ ∀ i, ¬ Active (e.state k) i := by
  by_cases hend : ∃ k, (e.state k).ended = true
  · obtain ⟨k, hk⟩ := hend
    obtain ⟨l, hl, hleft⟩ := all_leave fair (ended_always hk (max m k) (le_max_right ..))
    exact ⟨l, le_of_max_le_left hl, .inr (.inr hleft)⟩
  have going (k : Nat) : (e.state k).ended = false := Bool.eq_false_iff.mpr fun hk => hend ⟨k, hk⟩
  have hs := e.step_of_label ha
  simp only [system, step, editStep, he, State.queueForAdoption, hl, Option.some.injEq] at hs
  have hb : b ∈ (e.state (m + 1)).adoptionBlocks i := by
    rw [← hs]
    simp
  have ho : (e.state (m + 1)).adoptionListClosed i = false := by
    rw [← hs]
    exact (listFor_open hl).1
  obtain ⟨k, hk, hb | hr⟩ := taken_of_queued fair going hb ho
  · obtain ⟨l, hl, hr⟩ := running_of_newBlocks fair hb
    exact ⟨l, by omega, .inl hr⟩
  · exact ⟨k, by omega, .inr (.inl hr)⟩

/-! ### One worker for each block -/

/-- Where no edit finds a block stopped that still waits to be adopted, no block is in the lists of two workers in their
    loops. In every run no closed list keeps a block while one is open, and if the workers go on, a block that an edit
    has queued ends in the list of a worker in its loop, or is removed, or every worker leaves. -/
theorem one_worker (n : Nat) (hash : β → Nat) (scheduled : β → Bool) (nPasses : Nat) :
    (∀ s, (system n hash scheduled nPasses).Reach Found s → ∀ b i j, RunBy s b i → RunBy s b j → i = j) ∧
    (∀ s, (system n hash scheduled nPasses).Reachable s → ∀ i, s.adoptionListClosed i = true →
      s.adoptionBlocks i ≠ [] → ∀ k, s.adoptionListClosed k = true) ∧
    ∀ e : Execution (system n hash scheduled nPasses), Fair e → ∀ m b i active fails preferred restart,
      e.label m = some (.edit active fails) → (e.state m).edit = .queueForAdoption b preferred restart →
      (e.state m).listFor hash b preferred = some i →
      ∃ k ≥ m, (∃ i, RunBy (e.state k) b i) ∨ (e.state k).removed b = true ∨ ∀ i, ¬ Active (e.state k) i :=
  ⟨fun _ h b i j hi hj => (inv_of_reach h).single b i j (.inr (.inl hi)) (.inr (.inl hj)),
    fun _ h => (lists_of_reachable h).handed, fun _ fair _ _ _ _ _ _ _ => running_of_queued fair⟩

theorem neZero_workers : NeZero 3 := ⟨by decide⟩

theorem neZero_blocks : NeZero 4 := ⟨by decide⟩

-- numerals for the workers and the blocks
scoped instance someWorkers : NeZero 3 := neZero_workers
scoped instance someBlocks : NeZero 4 := neZero_blocks

/-- Three workers, each with a block of its own. -/
def threeWorkers : State 3 (Fin 4) where
  adoptionBlocks _ := []
  adoptionListClosed _ := false
  executionOrder i := [i.castSucc]
  withdrawnBlocks := []
  zombieBlocks := []
  workers _ := ⟨.queued, [], 0, 0⟩
  edit := .idle
  stoppedEndpoints _ := none
  blockState b := if b = 3 then .idle else .running
  inGraph b := decide (b ≠ 3)
  removed _ := false
  ended := false

theorem threeWorkers_start : Start threeWorkers where
  adoptionBlocks _ := rfl
  adoptionListClosed _ := rfl
  executionOrder := by decide
  inGraph := by decide
  workers _ := rfl
  edit := rfl
  stoppedEndpoints _ := rfl
  removed _ _ := rfl

/-- Worker `i` enters its loop. -/
def enters (i : Fin 3) : List (Act 3 (Fin 4)) := List.replicate 7 (.worker i true (some .ok))

/-- From its blocks' `work()` to the next one, over a message pass in which it takes a block. -/
def pass (i : Fin 3) : List (Act 3 (Fin 4)) := List.replicate 9 (.worker i true (some .ok))

/-- From its blocks' `work()` out of the loop, when its blocks are done. -/
def leaves (i : Fin 3) : List (Act 3 (Fin 4)) := List.replicate 6 (.worker i true (some .done))

/-- Out of the loop of a run that has ended. -/
def retires (i : Fin 3) : List (Act 3 (Fin 4)) := List.replicate 3 (.worker i true none)

def edits : List (Act 3 (Fin 4)) := List.replicate 3 (.edit true false)

/-- A block is queued for worker 2, worker 1 leaves, and an edit restarts the block, which has stopped meanwhile. Now it
    is queued for worker 0 as well. -/
def queuedTwice : List (Act 3 (Fin 4)) :=
  enters 0 ++ enters 1 ++ enters 2 ++ [.emplace 3 none] ++ edits ++ leaves 1 ++
    [.changeState 3 .requestedStop, .changeState 3 .stopped, .stoppedEndpoint 3, .restart 3] ++ edits ++
    pass 0 ++ pass 2

theorem queuedTwice_run :
    ((system 3 (fun _ : Fin 4 => 2) (fun _ => false) 3).run threeWorkers queuedTwice).isSome := by decide

theorem queuedTwice_two_workers : ∃ s, (system 3 (fun _ : Fin 4 => 2) (fun _ => false) 3).Reachable s ∧
    RunBy s 3 0 ∧ RunBy s 3 2 :=
  ⟨_, (system 3 _ _ 3).reachable_get queuedTwice threeWorkers_start queuedTwice_run, by decide, by decide⟩

/-- A block is queued for worker 2 and taken. -/
def adopted : List (Act 3 (Fin 4)) := enters 2 ++ [.emplace 3 none] ++ edits ++ pass 2

theorem adopted_run : ((system 3 (fun _ : Fin 4 => 2) (fun _ => false) 3).run threeWorkers adopted).isSome := by decide

/-- The run ends before the other workers enter their loops. -/
def adoptedAndEnded : List (Act 3 (Fin 4)) :=
  adopted ++ [.endRun, .worker 0 true none, .worker 1 true none] ++ retires 2

theorem adoptedAndEnded_run :
    ((system 3 (fun _ : Fin 4 => 2) (fun _ => false) 3).run threeWorkers adoptedAndEnded).isSome := by decide

/-- The run ends while a block is queued for the worker that leaves last. -/
def queuedAtEnd : List (Act 3 (Fin 4)) :=
  enters 0 ++ enters 1 ++ enters 2 ++ [.emplace 3 none] ++ edits ++ [.endRun] ++ retires 0 ++ retires 1 ++ retires 2

theorem queuedAtEnd_run :
    ((system 3 (fun _ : Fin 4 => 2) (fun _ => false) 3).run threeWorkers queuedAtEnd).isSome := by decide

theorem one_worker_adopted :
    (∃ s, (system 3 (fun _ : Fin 4 => 2) (fun _ => false) 3).Reach Found s ∧ RunBy s 3 2 ∧
      ∀ j, RunBy s 3 j → 2 = j) ∧
    (∃ s, (system 3 (fun _ : Fin 4 => 2) (fun _ => false) 3).Reachable s ∧ s.adoptionBlocks 2 = [3] ∧
      ∀ k, s.adoptionListClosed k = true) ∧
    ∃ e : Execution (system 3 (fun _ : Fin 4 => 2) (fun _ => false) 3), Fair e ∧
      (e.state 10).edit = .queueForAdoption 3 none false ∧
      ∃ k ≥ 10, (∃ i, RunBy (e.state k) 3 i) ∨ (e.state k).removed 3 = true ∨ ∀ i, ¬ Active (e.state k) i := by
  obtain ⟨single, handed, runs⟩ := one_worker 3 (fun _ : Fin 4 => 2) (fun _ => false) 3
  refine ⟨?_, ?_, ?_⟩
  · have h : (system 3 (fun _ : Fin 4 => 2) (fun _ => false) 3).Reach Found _ :=
      (system 3 _ _ 3).reach_get adopted threeWorkers_start (by decide) adopted_run
    exact ⟨_, h, by decide, fun j hj => single _ h 3 2 j (by decide) hj⟩
  · have h := (system 3 (fun _ : Fin 4 => 2) (fun _ => false) 3).reachable_get queuedAtEnd threeWorkers_start
      queuedAtEnd_run
    exact ⟨_, h, by decide, handed _ h 2 (by decide) (by decide)⟩
  · let e := (system 3 (fun _ : Fin 4 => 2) (fun _ => false) 3).execution adoptedAndEnded threeWorkers_start
      adoptedAndEnded_run
    have fair : Fair e := Transition.System.fair_execution threeWorkers_start adoptedAndEnded_run
      (threads 3 (fun _ : Fin 4 => 2) (fun _ => false) 3) (by decide)
    exact ⟨e, fair, by decide, runs e fair 10 3 2 true false none false rfl (by decide) (by decide)⟩

end GnuRadio.Adoption
