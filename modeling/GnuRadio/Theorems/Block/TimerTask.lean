import GnuRadio.Block.TimerTask

/-! One timer for each running block: which runs of `blockingSyncStart()`, `blockingSyncStop()` and `stopTimerAndJoin()`
    keep at most one timer task, and keep it while the block needs it. -/

namespace GnuRadio.BlockingSync

open Function

open LifeCycle (isActive)
open Transition (forall_update exists_update_of_ne)

variable {ι : Type} [DecidableEq ι] {s t : Timer ι} {a : Act ι}

/-! ### What a step does -/

/-- What each label does in a state. -/
inductive Timer.Steps (s : Timer ι) : Act ι → Timer ι → Prop
  /-- A start goes past the guard. -/
  | passes {i : ι} (idle : s.calls i = .idle) (free : s.block.isFreeRunning = true)
      (internal : s.block.useInternalThread = true) (off : s.running = false) :
      Steps s (.blockingSyncStart i) { s.goes i .clearsDone with running := true, latest := .starting }
  /-- A start that needs no timer, or finds `running` set, returns. -/
  | returns {i : ι} : Steps s (.blockingSyncStart i) s
  | clears {i : ι} (call : s.calls i = .clearsDone) : Steps s (.clearDone i) { s.goes i .executes with done := false }
  | accepts {i : ι} (call : s.calls i = .executes) :
      Steps s (.execute i true)
        { s.goes i .idle with
          tasks := s.tasks ++ [.queued], left := false,
          latest := if s.latest = .starting then .started else s.latest }
  | refuses {i : ι} (call : s.calls i = .executes) :
      Steps s (.execute i false) { s.goes i .idle with running := false, done := true, latest := .stopped }
  | stops {i : ι} (call : s.calls i = .idle) :
      Steps s (.blockingSyncStop i) { s.goes i (.waits false) with running := false, latest := .stopped }
  | joins {i : ι} (call : s.calls i = .idle) :
      Steps s (.stopTimerAndJoin i) { s.goes i .stops with blockAlive := false, latest := .stopped }
  | joinStops {i : ι} (call : s.calls i = .stops) :
      Steps s (.stopTimer i) { s.goes i (.waits true) with running := false, latest := .stopped }
  | stopped {i : ι} {join : Bool} (call : s.calls i = .waits join) (done : s.done = true) :
      Steps s (.stopReturns i) { s.goes i .idle with joined := s.joined || join }
  | runs {k : Nat} {t t' : Task} (here : s.tasks[k]? = some t) (next : s.taskStep t = some t') :
      Steps s (.task k)
        { s with tasks := s.tasks.set k t', done := s.done || t = .storesDone, left := s.left || s.leavesLoop t }
  | changes {c : Change} {b : Block} (applies : c.apply s.block = some b) : Steps s (.change c) { s with block := b }

theorem Timer.steps_of_step (h : s.step a = some t) : s.Steps a t := by
  cases a with
  | blockingSyncStart i =>
    simp only [Timer.step] at h
    split at h
    · rename_i hi
      split at h
      · rename_i hb
        simp only [Bool.and_eq_true, Bool.not_eq_true'] at hb
        obtain ⟨⟨hf, hu⟩, hr⟩ := hb
        cases h
        exact .passes hi hf hu hr
      · cases h
        exact .returns
    · cases h
  | clearDone i =>
    obtain ⟨hi, rfl⟩ := Option.ite_none_right_eq_some.mp h |>.imp id Option.some.inj
    exact .clears hi
  | execute i accepted =>
    obtain ⟨hi, h⟩ := Option.ite_none_right_eq_some.mp h
    cases accepted with
    | true =>
      cases h
      exact .accepts hi
    | false =>
      cases h
      exact .refuses hi
  | blockingSyncStop i =>
    obtain ⟨hi, rfl⟩ := Option.ite_none_right_eq_some.mp h |>.imp id Option.some.inj
    exact .stops hi
  | stopTimerAndJoin i =>
    obtain ⟨hi, rfl⟩ := Option.ite_none_right_eq_some.mp h |>.imp id Option.some.inj
    exact .joins hi
  | stopTimer i =>
    obtain ⟨hi, rfl⟩ := Option.ite_none_right_eq_some.mp h |>.imp id Option.some.inj
    exact .joinStops hi
  | stopReturns i =>
    simp only [Timer.step] at h
    split at h
    · rename_i join hi
      obtain ⟨hd, rfl⟩ := Option.ite_none_right_eq_some.mp h |>.imp id Option.some.inj
      exact .stopped hi hd
    · cases h
  | task k =>
    simp only [Timer.step] at h
    split at h
    · cases h
    · rename_i u hu
      obtain ⟨u', hu', rfl⟩ := Option.map_eq_some_iff.mp h
      exact .runs hu hu'
  | change c =>
    obtain ⟨b, hb, rfl⟩ := Option.map_eq_some_iff.mp h
    exact .changes hb

section

variable (s : Timer ι) {u u' : Task}

omit [DecidableEq ι]

theorem Timer.ended_iff_of_taskStep (next : s.taskStep u = some u') : u' = .ended ↔ u = .storesDone := by
  cases u <;> simp only [Timer.taskStep, Option.some.injEq, reduceCtorEq] at next <;> subst next <;> grind

theorem Timer.ne_ended_of_taskStep (next : s.taskStep u = some u') : u ≠ .ended := by
  rintro rfl
  cases next

end

/-! ### No stop waits in vain -/

/-- While `done` is cleared, a task has not ended, or a start is about to hand one to the pool. -/
def Timer.Served (s : Timer ι) : Prop :=
  s.done = false → (∃ t ∈ s.tasks, t ≠ .ended) ∨ ∃ j, s.calls j = .executes

variable {i : ι} {c : Call}

theorem Timer.served_of_calls (h : s.Served) (hi : s.calls i ≠ .executes)
    (tasks : t.tasks = s.tasks) (done : t.done = s.done) (calls : t.calls = update s.calls i c) : t.Served := by
  intro hd
  rw [tasks, calls]
  obtain hl | ⟨j, hj⟩ := h (done ▸ hd)
  · exact .inl hl
  · refine .inr (exists_update_of_ne (P := fun _ call => call = Call.executes) ?_ hj)
    rintro rfl
    exact hi hj

theorem Timer.Steps.served (h : s.Steps a t) (hs : s.Served) : t.Served := by
  cases h with
  | passes idle => exact Timer.served_of_calls hs (by simp [idle]) rfl rfl rfl
  | returns | changes => exact hs
  | @clears i call => exact fun _ => .inr ⟨i, update_self ..⟩
  | accepts => exact fun _ => .inl ⟨.queued, List.mem_append_right _ (List.mem_singleton_self _), by decide⟩
  | refuses => exact nofun
  | stops call | joins call | joinStops call | stopped call => exact Timer.served_of_calls hs (by simp [call]) rfl rfl rfl
  | @runs k u u' here next =>
    intro hd
    obtain ⟨-, hu⟩ := Bool.or_eq_false_iff.mp hd
    have hlt : k < s.tasks.length := (List.getElem?_eq_some_iff.mp here).1
    refine .inl ⟨u', List.mem_iff_getElem?.mpr ⟨k, List.getElem?_set_self hlt⟩, fun he => ?_⟩
    exact of_decide_eq_false hu ((s.ended_iff_of_taskStep next).mp he)

/-! ### One task at a time -/

/-- A task that has not ended is the last one that the pool accepted, and comes with no start on its way to the pool; such
    a start is alone. While `done` is set, no task is left. -/
structure Timer.Alone (s : Timer ι) : Prop where
  last : ∀ k u, s.tasks[k]? = some u → u ≠ .ended → k + 1 = s.tasks.length
  done : s.done = true → s.AllEnded
  start : ∀ i, (s.calls i).isStart = true → s.AllEnded ∧ s.latest ≠ .started
  starts : ∀ i j, (s.calls i).isStart = true → (s.calls j).isStart = true → i = j
  executes : ∀ i, s.calls i = .executes → s.done = false

/-- A thread whose call does not become a start leaves the starts as they are. -/
theorem Call.isStart_of_update {calls : ι → Call} {i j : ι} (hc : c.isStart = false)
    (h : (update calls i c j).isStart = true) : j ≠ i ∧ (calls j).isStart = true := by
  by_cases hj : j = i
  · subst hj
    rw [update_self, hc] at h
    cases h
  · rw [update_of_ne hj] at h
    exact ⟨hj, h⟩

theorem Timer.Alone.of_calls (h : s.Alone) (hc : c.isStart = false) (tasks : t.tasks = s.tasks)
    (done : t.done = s.done) (latest : t.latest = .started → s.latest = .started)
    (calls : t.calls = update s.calls i c) : t.Alone where
  last := by
    rw [tasks]
    exact h.last
  done hd := by
    rw [Timer.AllEnded, tasks]
    exact h.done (done ▸ hd)
  start j hj := by
    rw [calls] at hj
    obtain ⟨hall, hl⟩ := h.start j (Call.isStart_of_update hc hj).2
    rw [Timer.AllEnded, tasks]
    exact ⟨hall, fun hl' => hl (latest hl')⟩
  starts j l hj hl := by
    rw [calls] at hj hl
    exact h.starts j l (Call.isStart_of_update hc hj).2 (Call.isStart_of_update hc hl).2
  executes j hj := by
    rw [calls] at hj
    have hs : (update s.calls i c j).isStart = true := by rw [hj]; rfl
    rw [update_of_ne (Call.isStart_of_update hc hs).1] at hj
    rw [done]
    exact h.executes j hj

/-- A thread that goes on with a start, while all tasks have ended and no other thread starts. -/
theorem Timer.Alone.of_start (hall : s.AllEnded) (others : ∀ j, j ≠ i → (s.calls j).isStart = false)
    (tasks : t.tasks = s.tasks) (latest : t.latest ≠ .started) (done : c = .executes → t.done = false)
    (calls : t.calls = update s.calls i c) : t.Alone := by
  have hall' : t.AllEnded := by rwa [Timer.AllEnded, tasks]
  have only : ∀ j, (t.calls j).isStart = true → j = i := by
    intro j hj
    by_contra hne
    rw [calls, update_of_ne hne, others j hne] at hj
    cases hj
  refine ⟨?_, fun _ => hall', fun j _ => ⟨hall', latest⟩, ?_, ?_⟩
  · intro k u hk hu
    exact (hu (hall' u (List.mem_iff_getElem?.mpr ⟨k, hk⟩))).elim
  · intro j l hj hl
    exact (only j hj).trans (only l hl).symm
  · intro j hj
    have hji := only j (by rw [hj]; rfl)
    subst hji
    rw [calls, update_self] at hj
    exact done hj

omit [DecidableEq ι] in
theorem Timer.Alone.others (h : s.Alone) (hi : (s.calls i).isStart = true) :
    ∀ j, j ≠ i → (s.calls j).isStart = false := by
  intro j hne
  rw [← Bool.not_eq_true]
  intro hj
  exact hne (h.starts j i hj hi)

/-- A start that is over leaves none. -/
theorem Timer.Alone.of_end (others : ∀ j, j ≠ i → (s.calls j).isStart = false)
    (last : ∀ k u, t.tasks[k]? = some u → u ≠ .ended → k + 1 = t.tasks.length) (done : t.done = true → t.AllEnded)
    (calls : t.calls = update s.calls i .idle) : t.Alone := by
  have none : ∀ j, (t.calls j).isStart = false := by
    intro j
    rw [calls]
    exact forall_update (P := fun _ call => Call.isStart call = false) rfl others j
  refine ⟨last, done, fun j hj => ?_, fun j _ hj => ?_, fun j hj => ?_⟩
  · exact (Bool.eq_false_iff.mp (none j) hj).elim
  · exact (Bool.eq_false_iff.mp (none j) hj).elim
  · exact (Bool.eq_false_iff.mp (none j) (by rw [hj]; rfl)).elim

omit [DecidableEq ι] in
/-- The task of a step is the only one that has not ended. -/
theorem Timer.Alone.ended_of_ne {k l : Nat} {u v : Task} (h : s.Alone) (here : s.tasks[k]? = some u) (hu : u ≠ .ended)
    (hl : s.tasks[l]? = some v) (hlk : k ≠ l) : v = .ended := by
  by_contra hv
  have h₁ := h.last l v hl hv
  have h₂ := h.last k u here hu
  omega

theorem Timer.Steps.alone (h : s.Steps a t) (hok : a.Ordered s) (hs : s.Alone) : t.Alone := by
  cases h with
  | @passes i idle free internal off =>
    obtain ⟨-, hall, hstart⟩ := hok free internal off
    exact .of_start (c := .clearsDone) hall (fun j _ => hstart j) rfl (by simp) (nofun) rfl
  | returns => exact hs
  | @clears i call =>
    have hi : (s.calls i).isStart = true := by rw [call]; rfl
    obtain ⟨hall, hlatest⟩ := hs.start i hi
    exact .of_start (c := .executes) hall (hs.others hi) rfl hlatest (fun _ => rfl) rfl
  | @accepts i call =>
    have hi : (s.calls i).isStart = true := by rw [call]; rfl
    obtain ⟨hall, -⟩ := hs.start i hi
    refine .of_end (hs.others hi) ?_ ?_ rfl
    · intro k u hk hu
      rcases Nat.lt_or_ge k s.tasks.length with hlt | hge
      · rw [List.getElem?_append_left hlt] at hk
        exact (hu (hall u (List.mem_iff_getElem?.mpr ⟨k, hk⟩))).elim
      · have := (List.getElem?_eq_some_iff.mp hk).1
        simp only [List.length_append, List.length_singleton] at this ⊢
        omega
    · intro hd
      exact (Bool.eq_false_iff.mp (hs.executes i call) hd).elim
  | @refuses i call =>
    have hi : (s.calls i).isStart = true := by rw [call]; rfl
    exact .of_end (hs.others hi) hs.last (fun _ => (hs.start i hi).1) rfl
  | stops call | joins call | joinStops call => exact hs.of_calls rfl rfl rfl (nofun) rfl
  | stopped call => exact hs.of_calls rfl rfl rfl id rfl
  | @runs k u u' here next =>
    have hu := s.ne_ended_of_taskStep next
    have hk : k < s.tasks.length := (List.getElem?_eq_some_iff.mp here).1
    have still : ∀ j, (s.calls j).isStart = true → False := fun j hj =>
      hu ((hs.start j hj).1 u (List.mem_iff_getElem?.mpr ⟨k, here⟩))
    refine ⟨?_, ?_, fun j hj => (still j hj).elim, fun j _ hj => (still j hj).elim, fun j hj => ?_⟩
    · intro l v hl hv
      rw [List.length_set]
      by_cases hlk : k = l
      · subst hlk
        exact hs.last k u here hu
      · rw [List.getElem?_set_ne hlk] at hl
        exact hs.last l v hl hv
    · intro hd v hv
      obtain hd | hd := Bool.or_eq_true_iff.mp hd
      · exact (hu (hs.done hd u (List.mem_iff_getElem?.mpr ⟨k, here⟩))).elim
      · obtain ⟨l, hl⟩ := List.mem_iff_getElem?.mp hv
        by_cases hlk : k = l
        · subst hlk
          rw [List.getElem?_set_self hk] at hl
          rw [← Option.some.inj hl, s.ended_iff_of_taskStep next]
          exact of_decide_eq_true hd
        · rw [List.getElem?_set_ne hlk] at hl
          exact hs.ended_of_ne here hu hl hlk
    · exact (still j (by rw [show s.calls j = _ from hj]; rfl)).elim
  | changes => exact ⟨hs.last, hs.done, hs.start, hs.starts, hs.executes⟩

/-! ### A joined block is left alone -/

/-- A stop that joins has cleared `blockAlive`, and once it has returned, every task ends without the block. -/
structure Timer.Detached (s : Timer ι) : Prop where
  joining : ∀ i, s.calls i = .stops ∨ s.calls i = .waits true → s.blockAlive = false
  joined : s.joined = true → s.blockAlive = false ∧ ∀ u ∈ s.tasks, u = .queued ∨ u = .storesDone ∨ u = .ended

theorem Timer.Detached.of_calls (h : s.Detached) (hc : c = .stops ∨ c = .waits true → t.blockAlive = false)
    (alive : s.blockAlive = false → t.blockAlive = false) (tasks : t.tasks = s.tasks) (joined : t.joined = s.joined)
    (calls : t.calls = update s.calls i c) : t.Detached where
  joining j hj := by
    rw [calls] at hj
    by_cases hji : j = i
    · subst hji
      rw [update_self] at hj
      exact hc hj
    · rw [update_of_ne hji] at hj
      exact alive (h.joining j hj)
  joined hj := by
    rw [joined] at hj
    rw [tasks]
    exact (h.joined hj).imp alive id

theorem Timer.Steps.detached (h : s.Steps a t) (ha : s.Alone) (hs : s.Detached) : t.Detached := by
  cases h with
  | passes => exact hs.of_calls (c := .clearsDone) (by simp) id rfl rfl rfl
  | returns => exact hs
  | clears => exact hs.of_calls (c := .executes) (by simp) id rfl rfl rfl
  | @accepts i call =>
    refine ⟨(hs.of_calls (t := s.goes i .idle) (c := .idle) (by simp) id rfl rfl rfl).joining, fun hj => ?_⟩
    obtain ⟨halive, hall⟩ := hs.joined hj
    refine ⟨halive, fun u hu => ?_⟩
    obtain hu | hu := List.mem_append.mp hu
    · exact hall u hu
    · exact .inl (List.mem_singleton.mp hu)
  | refuses => exact hs.of_calls (c := .idle) (by simp) id rfl rfl rfl
  | stops => exact hs.of_calls (c := .waits false) (by simp) id rfl rfl rfl
  | joins => exact hs.of_calls (c := .stops) (fun _ => rfl) (fun _ => rfl) rfl rfl rfl
  | @joinStops i call =>
    have := hs.joining i (.inl call)
    exact hs.of_calls (c := .waits true) (fun _ => this) id rfl rfl rfl
  | @stopped i join call done =>
    refine ⟨(hs.of_calls (t := s.goes i .idle) (c := .idle) (by simp) id rfl rfl rfl).joining, fun hj => ?_⟩
    obtain hj | hj := Bool.or_eq_true_iff.mp hj
    · exact hs.joined hj
    · subst hj
      exact ⟨hs.joining i (.inr call), fun u hu => .inr (.inr (ha.done done u hu))⟩
  | @runs k u u' here next =>
    refine ⟨hs.joining, fun hj => ?_⟩
    obtain ⟨halive, hall⟩ := hs.joined hj
    refine ⟨halive, fun v hv => ?_⟩
    obtain hv | rfl := List.mem_or_eq_of_mem_set hv
    · exact hall v hv
    · obtain rfl | rfl | rfl := hall u (List.mem_iff_getElem?.mpr ⟨k, here⟩)
      · simp only [Timer.taskStep, halive, Option.some.injEq] at next
        exact .inr (.inl next.symm)
      · exact .inr (.inr (Option.some.inj next).symm)
      · cases next
  | changes => exact ⟨hs.joining, hs.joined⟩

/-! ### A started timer follows the block -/

/-- A start in effect keeps `running` and the block alive; its task stays in the loop until it reads a sample rate or a
    state that ends it, and the block needs no timer after that. -/
structure Timer.Following (s : Timer ι) : Prop where
  running : s.latest ≠ .stopped → s.running = true
  alive : s.latest ≠ .stopped → s.blockAlive = true
  present : s.latest = .started → s.left = false → ∃ u ∈ s.tasks, u ≠ .storesDone ∧ u ≠ .ended
  left : s.latest = .started → s.left = true → ¬ s.block.NeedsTimer

omit [DecidableEq ι] in
theorem Timer.Following.of_stopped (latest : t.latest = .stopped) : t.Following where
  running hl := (hl latest).elim
  alive hl := (hl latest).elim
  present hl := by
    rw [latest] at hl
    cases hl
  left hl := by
    rw [latest] at hl
    cases hl

omit [DecidableEq ι] in
/-- A task leaves its loop only by what it reads of the block, as long as `running` and the block last. -/
theorem Timer.stays_of_taskStep {u u' : Task} (next : s.taskStep u = some u') (running : s.running = true)
    (alive : s.blockAlive = true) (stays : s.leavesLoop u = false) (hu : u ≠ .storesDone) :
    u' ≠ .storesDone ∧ u' ≠ .ended := by
  cases u <;> simp_all [Timer.taskStep, Timer.leavesLoop] <;> grind

omit [DecidableEq ι] in
theorem Timer.not_needsTimer_of_leavesLoop {u : Task} (h : s.leavesLoop u = true) : ¬ s.block.NeedsTimer := by
  rintro ⟨active, -, -, rate⟩
  simp [Timer.leavesLoop, active, rate] at h

theorem Timer.Steps.following (h : s.Steps a t) (hok : a.Ordered s) (ha : s.Alone) (hs : s.Following) : t.Following := by
  cases h with
  | @passes i idle free internal off =>
    obtain ⟨alive, -, -⟩ := hok free internal off
    exact ⟨fun _ => rfl, fun _ => alive, nofun, nofun⟩
  | returns => exact hs
  | clears | stopped => exact ⟨hs.running, hs.alive, hs.present, hs.left⟩
  | @accepts i call =>
    have latest : (if s.latest = .starting then Latest.started else s.latest) ≠ .stopped → s.latest ≠ .stopped := by
      rintro hl hst
      simp [hst] at hl
    refine ⟨fun hl => hs.running (latest hl), fun hl => hs.alive (latest hl), fun _ _ => ?_, nofun⟩
    exact ⟨.queued, List.mem_append_right _ (List.mem_singleton_self _), by decide, by decide⟩
  | refuses | stops | joins | joinStops => exact .of_stopped rfl
  | @runs k u u' here next =>
    refine ⟨hs.running, hs.alive, fun hl hleft => ?_, fun hl hleft => ?_⟩
    · obtain ⟨hleft, stays⟩ := Bool.or_eq_false_iff.mp hleft
      obtain ⟨v, hv, hv₁, hv₂⟩ := hs.present hl hleft
      obtain ⟨l, hvl⟩ := List.mem_iff_getElem?.mp hv
      have hu := s.ne_ended_of_taskStep next
      have hlk : k = l := by
        by_contra hlk
        exact hv₂ (ha.ended_of_ne here hu hvl hlk)
      subst hlk
      obtain rfl : u = v := Option.some.inj (here.symm.trans hvl)
      have started : s.latest ≠ .stopped := by rw [show s.latest = _ from hl]; decide
      have hlt := (List.getElem?_eq_some_iff.mp here).1
      exact ⟨u', List.mem_iff_getElem?.mpr ⟨k, List.getElem?_set_self hlt⟩,
        Timer.stays_of_taskStep next (hs.running started) (hs.alive started) stays hv₁⟩
    · obtain hleft | hleaves := Bool.or_eq_true_iff.mp hleft
      · exact hs.left hl hleft
      · exact Timer.not_needsTimer_of_leavesLoop hleaves
  | @changes c b applies => exact ⟨hs.running, hs.alive, hs.present, fun hl hleft => hok hl hleft b applies⟩

/-! ### Runs -/

structure Timer.Kept (s : Timer ι) : Prop where
  served : s.Served
  alone : s.Alone
  detached : s.Detached
  following : s.Following

theorem Timer.Kept.start (h : (system ι).start s) : s.Kept := by
  obtain ⟨b, -, rfl⟩ := h
  refine ⟨nofun, ⟨by simp, fun _ => by simp [Timer.AllEnded], ?_, ?_, by simp⟩, ⟨by simp, by simp⟩, .of_stopped rfl⟩
  · intro i hi
    cases hi
  · intro i j hi
    cases hi

theorem Timer.Kept.step (h : s.Kept) (hok : a.Ordered s) (hs : (system ι).step s a = some t) : t.Kept := by
  have step := Timer.steps_of_step hs
  exact ⟨step.served h.served, step.alone hok h.alone, step.detached h.alone h.detached,
    step.following hok h.alone h.following⟩

instance (s : Timer ι) : Decidable s.AllEnded := inferInstanceAs (Decidable (∀ t ∈ s.tasks, t = .ended))

instance [Fintype ι] (s : Timer ι) : ∀ a : Act ι, Decidable (a.Ordered s)
  | .blockingSyncStart _ =>
    inferInstanceAs (Decidable (_ = true → _ = true → _ = false → _ = true ∧ s.AllEnded ∧ ∀ j, (s.calls j).isStart = false))
  | .change c =>
    inferInstanceAs (Decidable (s.latest = .started → s.left = true → ∀ b ∈ c.apply s.block, ¬ b.NeedsTimer))
  | .clearDone _ | .execute _ _ | .blockingSyncStop _ | .stopTimerAndJoin _ | .stopTimer _ | .stopReturns _ | .task _ =>
    .isTrue trivial

/-- A block before its first start, at a sample rate of 1 kHz. -/
def constructed (ι : Type) : Timer ι :=
  ⟨false, true, true, ⟨.idle, 1000, true, false⟩, [], fun _ => .idle, .stopped, false, false⟩

/-- The thread starts the block. -/
def starts : List (Act Unit) :=
  [.change (.state .initialised), .change (.state .running), .blockingSyncStart (), .clearDone (), .execute () true]

end GnuRadio.BlockingSync
