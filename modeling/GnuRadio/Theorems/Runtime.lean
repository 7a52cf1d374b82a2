import Mathlib.Tactic.Spread
import GnuRadio.Runtime

/-! The runs of a runtime and their stop requests. One run is in progress at most, and a request belongs to it until
    `endRun()` lets it end, so no request meets the scheduler call of another run, and a thread that a section joins
    has left `runMutex` for good. -/

namespace GnuRadio.Runtime

open Function

open LifeCycle (isActive)

variable {τ ε : Type} {s s' : State τ ε} {t : τ} {run : Nat}

/-! ### Threads -/

/-- A thread that executes a run. -/
def Thread.isRun : Thread ε → Bool
  | .inRun _ _ => true
  | .leaving _ _ _ => true
  | .ending _ _ _ => true
  | _ => false

/-- A thread that makes a stop request. -/
def Thread.isRequest : Thread ε → Bool
  | .requesting _ _ _ => true
  | _ => false

/-- A thread of a run, from `start()` to its end. -/
def Thread.isRunThread : Thread ε → Bool
  | .inRun _ false => true
  | .leaving _ false _ => true
  | .ending _ false _ => true
  | .exited => true
  | _ => false

/-- A thread of a stop request, to its end. -/
def Thread.isStopThread : Thread ε → Bool
  | .requesting _ _ none => true
  | .exited => true
  | _ => false

/-- What a request has seen of the scheduler's activity. -/
def Stage.Sees : Stage → Activity → Prop
  | .poll, _ => True
  | .transition _, activity => activity ≠ .starting
  | .hook, activity => activity = .left
  | .moved, activity => activity = .left

/-- What a thread's place says of the counters. -/
def Thread.Ok (s : State τ ε) : Thread ε → Prop
  | .inRun run _ => run = s.nRunsStarted ∧ s.nRunsReturned < run ∧ s.inCall = some run
  | .leaving run _ _ => run = s.nRunsStarted ∧ s.nRunsReturned < run ∧ s.inCall = none
  | .ending run _ _ => run = s.nRunsStarted ∧ s.nRunsReturned = run ∧ s.nRunsEnded < run ∧ s.inCall = none
  | .requesting run stage _ =>
    s.requestingStop = true ∧ run = s.nRunsStarted ∧ s.nRunsEnded < run ∧ s.stoppedRun = run ∧
      (s.inCall = some run → stage.Sees s.activity)
  | .awaiting run _ => run ≤ s.nRunsStarted
  | _ => True

structure Inv (s : State τ ε) : Prop where
  ended_le : s.nRunsEnded ≤ s.nRunsReturned
  returned_le : s.nRunsReturned ≤ s.nRunsStarted
  started_le : s.nRunsStarted ≤ s.nRunsEnded + 1
  threads : ∀ t, (s.threads t).Ok s
  one_run : ∀ t u, (s.threads t).isRun = true → (s.threads u).isRun = true → t = u
  one_request : ∀ t u, (s.threads t).isRequest = true → (s.threads u).isRequest = true → t = u
  runThread : ∀ t, s.runThread = some t → (s.threads t).isRunThread = true
  stopThread : ∀ t, s.stopThread = some t → (s.threads t).isStopThread = true
  inCall : ∀ run, s.inCall = some run → run = s.nRunsStarted ∧ s.nRunsReturned < run
  stopped_le : s.stoppedRun ≤ s.nRunsStarted
  requestingStop : s.requestingStop = true → s.stoppedRun = s.nRunsStarted ∧ s.nRunsEnded < s.nRunsStarted
  requests_le : ∀ run ∈ s.requests, run ≤ s.stoppedRun
  requests_nodup : s.requests.Nodup
  active : s.inCall.isSome → (isActive s.state = true ↔ s.activity = .active)
  moved_le : ∀ run ∈ s.moved, run ≤ s.nRunsStarted
  moved : ∀ run ∈ s.moved, s.inCall = some run → s.activity = .left
  results_length : s.results.length = s.nRunsEnded
  lastResult : s.lastResult = s.results.getLastD none

namespace Inv

/-- While a run is in progress, it is the last one started. -/
theorem isRun_progress (h : Inv s) (ht : (s.threads t).isRun = true) : s.nRunsEnded < s.nRunsStarted := by
  have hok := h.threads t
  have := h.ended_le
  cases hth : s.threads t <;> rw [hth] at ht hok <;> simp only [Thread.isRun, Bool.false_eq_true] at ht
  all_goals
    simp only [Thread.Ok] at hok
    omega

theorem isRequest_progress (h : Inv s) (ht : (s.threads t).isRequest = true) :
    s.nRunsEnded < s.nRunsStarted ∧ s.requestingStop = true := by
  have hok := h.threads t
  cases hth : s.threads t <;> rw [hth] at ht hok <;> simp only [Thread.isRequest, Bool.false_eq_true] at ht
  simp only [Thread.Ok] at hok
  exact ⟨by omega, hok.1⟩

theorem ended_of_not_inProgress (h : ¬ s.runInProgress = true) : s.nRunsEnded = s.nRunsStarted := by
  simpa only [State.runInProgress, bne_iff_ne, ne_eq, not_not] using h

theorem progress_of_inProgress (h : Inv s) (hp : s.runInProgress = true) : s.nRunsEnded < s.nRunsStarted := by
  have hne : s.nRunsEnded ≠ s.nRunsStarted := by simpa only [State.runInProgress, bne_iff_ne, ne_eq] using hp
  exact Nat.lt_of_le_of_ne (Nat.le_trans h.ended_le h.returned_le) hne

/-- The thread of an ended run does not take `runMutex` again. -/
theorem runThread_exited (h : Inv s) (hp : ¬ s.runInProgress = true) (ht : s.runThread = some t) :
    s.threads t = .exited := by
  have hended := ended_of_not_inProgress hp
  have hthread := h.runThread t ht
  have hnot : ¬ (s.threads t).isRun = true := fun hrun => absurd (h.isRun_progress hrun) (by omega)
  cases hth : s.threads t <;> rw [hth] at hthread hnot <;> simp_all [Thread.isRunThread, Thread.isRun]

/-- The thread of an earlier run's stop request does not take `runMutex` again. -/
theorem stopThread_exited (h : Inv s) (hnew : s.stoppedRun ≠ s.nRunsStarted) (ht : s.stopThread = some t) :
    s.threads t = .exited := by
  have hthread := h.stopThread t ht
  have hnot : ¬ (s.threads t).isRequest = true := fun hreq =>
    hnew (h.requestingStop (h.isRequest_progress hreq).2).1
  cases hth : s.threads t <;> rw [hth] at hthread hnot <;> simp_all [Thread.isStopThread, Thread.isRequest]

end Inv

/-! ### Steps -/

namespace Inv

/-- A thread that executes no run keeps its place, and a request where the counters that it reads stay. -/
theorem ok_of_not_isRun {thread : Thread ε} (h : thread.Ok s) (hrun : ¬ thread.isRun = true)
    (hle : s.nRunsStarted ≤ s'.nRunsStarted)
    (hrequest : thread.isRequest = true → s'.requestingStop = s.requestingStop ∧ s'.nRunsStarted = s.nRunsStarted ∧
      s'.nRunsEnded = s.nRunsEnded ∧ s'.stoppedRun = s.stoppedRun ∧
      ((s'.inCall = s.inCall ∧ s'.activity = s.activity) ∨ s'.inCall = none)) : thread.Ok s' := by
  cases thread with
  | inRun run onCaller | leaving run onCaller result | ending run onCaller result => exact absurd rfl hrun
  | requesting run stage caller =>
    obtain ⟨h1, h2, h3, h4, h5⟩ := hrequest rfl
    obtain ⟨hr, hs, he, hstop, hsees⟩ := h
    refine ⟨h1.trans hr, hs.trans h2.symm, h3.symm ▸ he, h4.trans hstop, fun hcall => ?_⟩
    rcases h5 with ⟨hin, hact⟩ | hnone
    · exact hact.symm ▸ hsees (hin ▸ hcall)
    · rw [hnone] at hcall
      cases hcall
  | awaiting run wait => exact Nat.le_trans h hle
  | unborn | idle | starting run | joining | exited => trivial

/-- A call begins or returns, and the runtime is destroyed. -/
theorem setCalls (h : Inv s) (nCalls : Nat) (destroyed : Bool) :
    Inv { s with nCalls := nCalls, destroyed := destroyed } where
  __ := h

/-- What a request has seen of the activity stays, while a state that has left the active ones does not come back. -/
theorem sees_setState {g : Stage} (h : g.Sees s.activity) {state : LifeCycle.State}
    (hback : s.activity = .left → isActive state = false) : g.Sees (s.setState state).activity := by
  simp only [State.setState]
  cases g with
  | poll => trivial
  | transition observed =>
    simp only [Stage.Sees] at h ⊢
    split
    · exact nofun
    · split
      · exact nofun
      · exact h
  | hook | moved =>
    simp only [Stage.Sees] at h ⊢
    rw [hback h, h]
    rfl

theorem setState (h : Inv s) {q : LifeCycle.State}
    (hback : s.inCall.isSome → s.activity = .left → isActive q = false) : Inv (s.setState q) where
  __ := h
  threads u := by
    have hok := h.threads u
    cases hu : s.threads u with
    | requesting run stage caller =>
      rw [hu] at hok
      obtain ⟨hr, hs, he, hstop, hsees⟩ := hok
      have hthis : (s.setState q).threads u = .requesting run stage caller := hu
      rw [hthis]
      exact ⟨hr, hs, he, hstop, fun hcall => sees_setState (hsees hcall) (hback (Option.isSome_of_eq_some hcall))⟩
    | _ =>
      rw [hu] at hok
      have hthis := hu
      change (s.setState q).threads u = _ at hthis
      rw [hthis]
      exact hok
  active hcall := by
    have hiff := h.active hcall
    simp only [State.setState]
    split
    · next hactive => simp [hactive]
    · next hnot =>
      split
      · simp [hnot]
      · next hne => simp [hnot, hne]
  moved run hrun hcall := by
    have hleft := h.moved run hrun hcall
    exact sees_setState (g := .moved) hleft (hback (Option.isSome_of_eq_some hcall))

theorem not_isRun_of_ended (h : Inv s) (hended : s.nRunsEnded = s.nRunsStarted) (u : τ) :
    ¬ (s.threads u).isRun = true := fun hrun => absurd (h.isRun_progress hrun) (by omega)

theorem not_isRequest_of_ended (h : Inv s) (hended : s.nRunsEnded = s.nRunsStarted) (u : τ) :
    ¬ (s.threads u).isRequest = true := fun hreq => absurd (h.isRequest_progress hreq).1 (by omega)

/-- A run whose thread does not start has returned and ended at once. -/
theorem failRun (h : Inv s) (hended : s.nRunsEnded = s.nRunsStarted) (error : ε) :
    Inv
      { s with
        runThread := none
        nRunsStarted := s.nRunsStarted + 1
        lastResult := some error
        nRunsReturned := s.nRunsReturned + 1
        nRunsEnded := s.nRunsEnded + 1
        results := s.results ++ [some error] } where
  __ := h
  ended_le := Nat.succ_le_succ h.ended_le
  returned_le := Nat.succ_le_succ h.returned_le
  started_le := Nat.succ_le_succ h.started_le
  threads u := ok_of_not_isRun (h.threads u) (h.not_isRun_of_ended hended u) (Nat.le_succ _) fun hreq =>
    absurd hreq (h.not_isRequest_of_ended hended u)
  runThread := nofun
  inCall run hcall := by
    have := h.inCall run hcall
    have := h.ended_le
    omega
  stopped_le := Nat.le_succ_of_le h.stopped_le
  requestingStop hreq := by
    have := h.requestingStop hreq
    omega
  moved_le run hrun := Nat.le_succ_of_le (h.moved_le run hrun)
  results_length := by
    show (s.results ++ [some error]).length = s.nRunsEnded + 1
    rw [List.length_append, h.results_length, List.length_singleton]
  lastResult := by
    show some error = (s.results ++ [some error]).getLastD none
    simp only [List.getLastD_eq_getLast?, List.getLast?_append, List.getLast?_singleton, Option.some_or, Option.getD_some]

/-- The request of a run that had none begins. -/
theorem beginRequest (h : Inv s) (hprogress : s.nRunsEnded < s.nRunsStarted) (hnew : s.stoppedRun ≠ s.nRunsStarted) :
    Inv
      { s with
        stoppedRun := s.nRunsStarted
        requestingStop := true
        requests := s.requests ++ [s.nRunsStarted] } ∧
      ∀ u, ¬ (s.threads u).isRequest = true := by
  have hnot (u : τ) : ¬ (s.threads u).isRequest = true := fun hreq =>
    hnew (h.requestingStop (h.isRequest_progress hreq).2).1
  have hlt : s.stoppedRun < s.nRunsStarted := Nat.lt_of_le_of_ne h.stopped_le hnew
  refine ⟨?_, hnot⟩
  exact {
    ended_le := h.ended_le
    returned_le := h.returned_le
    started_le := h.started_le
    threads := fun u => by
      have hok := h.threads u
      have hu := hnot u
      simp only
      cases hth : s.threads u with
      | requesting run stage caller =>
        rw [hth] at hu
        exact absurd rfl hu
      | _ =>
        rw [hth] at hok
        exact hok
    one_run := h.one_run
    one_request := h.one_request
    runThread := h.runThread
    stopThread := h.stopThread
    inCall := h.inCall
    stopped_le := Nat.le_refl _
    requestingStop := fun _ => ⟨rfl, hprogress⟩
    requests_le := fun run hrun => by
      rcases List.mem_append.mp hrun with hrun | hrun
      · exact Nat.le_trans (h.requests_le run hrun) (Nat.le_of_lt hlt)
      · exact Nat.le_of_eq (List.mem_singleton.mp hrun)
    requests_nodup := by
      refine List.nodup_append.mpr ⟨h.requests_nodup, List.pairwise_singleton _ _, fun a ha b hb => ?_⟩
      have := h.requests_le a ha
      rw [List.mem_singleton.mp hb]
      omega
    active := h.active
    moved_le := h.moved_le
    moved := h.moved
    results_length := h.results_length
    lastResult := h.lastResult }

/-- The thread objects name threads of their kind. -/
theorem setJoinable (h : Inv s) {r w : Option τ} (hrun : ∀ u, r = some u → (s.threads u).isRunThread = true)
    (hstop : ∀ u, w = some u → (s.threads u).isStopThread = true) :
    Inv { s with runThread := r, stopThread := w } where
  __ := h
  runThread := hrun
  stopThread := hstop

variable [DecidableEq τ]

theorem update_at (threads : τ → Thread ε) (t : τ) (thread : Thread ε) {P : τ → Thread ε → Prop} (ht : P t thread)
    (hothers : ∀ u, u ≠ t → P u (threads u)) (u : τ) : P u (update threads t thread u) :=
  Transition.forall_update (P := P) ht hothers u

/-- At most one thread has a property that a thread got only where it had it before. -/
theorem one_update {threads : τ → Thread ε} {p : Thread ε → Bool}
    (h : ∀ t u, p (threads t) = true → p (threads u) = true → t = u) {thread : Thread ε}
    (ht : p thread = true → p (threads t) = true ∨ ∀ u, ¬ p (threads u) = true) :
    ∀ u v, p (update threads t thread u) = true → p (update threads t thread v) = true → u = v := by
  intro u v hu hv
  by_cases hut : u = t
  · by_cases hvt : v = t
    · exact hut.trans hvt.symm
    · rw [hut, update_self] at hu
      rw [update_of_ne hvt] at hv
      rcases ht hu with ht | hnone
      · exact hut.trans (h t v ht hv)
      · exact absurd hv (hnone v)
  · rw [update_of_ne hut] at hu
    by_cases hvt : v = t
    · rw [hvt, update_self] at hv
      rcases ht hv with ht | hnone
      · exact (h u t hu ht).trans hvt.symm
      · exact absurd hu (hnone u)
    · rw [update_of_ne hvt] at hv
      exact h u v hu hv

theorem update_named {threads : τ → Thread ε} {p : Thread ε → Bool} {named : Option τ}
    (h : ∀ u, named = some u → p (threads u) = true) {thread : Thread ε} (ht : p (threads t) = true → p thread = true) :
    ∀ u, named = some u → p (update threads t thread u) = true := by
  intro u hu
  by_cases hut : u = t
  · subst hut
    rw [update_self]
    exact ht (h u hu)
  · rw [update_of_ne hut]
    exact h u hu

/-- A thread goes on without a change of a counter. -/
theorem setThread (h : Inv s) {x : Thread ε} (hok : x.Ok s)
    (hrun : x.isRun = true → (s.threads t).isRun = true)
    (hrequest : x.isRequest = true → (s.threads t).isRequest = true ∨ ∀ u, ¬ (s.threads u).isRequest = true)
    (hrunThread : (s.threads t).isRunThread = true → x.isRunThread = true)
    (hstopThread : (s.threads t).isStopThread = true → x.isStopThread = true) : Inv (s.setThread t x) where
  __ := h
  threads := update_at s.threads t x (P := fun _ => Thread.Ok _) hok fun u _ => h.threads u
  one_run := one_update h.one_run fun hp => Or.inl (hrun hp)
  one_request := one_update h.one_request hrequest
  runThread := update_named h.runThread hrunThread
  stopThread := update_named h.stopThread hstopThread

variable {onCaller : Bool}

/-- A run begins where none is in progress. -/
theorem beginRun (h : Inv s) (hended : s.nRunsEnded = s.nRunsStarted)
    (hidle : s.threads t = .idle ∨ s.threads t = .unborn) :
    Inv (s.beginRun.setThread t (.inRun (s.nRunsStarted + 1) onCaller)) where
  __ := h
  returned_le := Nat.le_succ_of_le h.returned_le
  started_le := by
    show s.nRunsStarted + 1 ≤ s.nRunsEnded + 1
    omega
  threads := by
    refine update_at s.threads t _ (P := fun _ => Thread.Ok _) ⟨rfl, Nat.lt_succ_of_le h.returned_le, rfl⟩ fun u _ => ?_
    exact ok_of_not_isRun (h.threads u) (h.not_isRun_of_ended hended u) (Nat.le_succ _) fun hreq =>
      absurd hreq (h.not_isRequest_of_ended hended u)
  one_run := one_update h.one_run fun _ => Or.inr (h.not_isRun_of_ended hended)
  one_request := one_update h.one_request nofun
  runThread := update_named h.runThread fun hp => by rcases hidle with hi | hi <;> rw [hi] at hp <;> cases hp
  stopThread := update_named h.stopThread fun hp => by rcases hidle with hi | hi <;> rw [hi] at hp <;> cases hp
  inCall run hrun := by
    cases hrun
    exact ⟨rfl, Nat.lt_succ_of_le h.returned_le⟩
  stopped_le := Nat.le_succ_of_le h.stopped_le
  requestingStop hreq := by
    have := h.requestingStop hreq
    omega
  active _ := by
    show isActive s.state = true ↔ (if isActive s.state then Activity.active else .starting) = .active
    split <;> simp [*]
  moved_le run hrun := Nat.le_succ_of_le (h.moved_le run hrun)
  moved run hrun hcall := by
    cases hcall
    exact absurd (h.moved_le _ hrun) (Nat.not_succ_le_self _)

/-- The scheduler's call returns. -/
theorem leaveCall (h : Inv s) (ht : s.threads t = .inRun run onCaller) (result : Option ε) :
    Inv { s.setThread t (.leaving run onCaller result) with inCall := none } where
  __ := h
  threads := by
    have hok := h.threads t
    rw [ht] at hok
    refine update_at s.threads t _ (P := fun _ => Thread.Ok _) ⟨hok.1, hok.2.1, rfl⟩ fun u hu => ?_
    exact ok_of_not_isRun (h.threads u) (fun hrun => hu (h.one_run u t hrun (ht ▸ rfl))) (Nat.le_refl _) fun _ =>
      ⟨rfl, rfl, rfl, rfl, Or.inr rfl⟩
  one_run := one_update h.one_run fun _ => Or.inl (ht ▸ rfl)
  one_request := one_update h.one_request nofun
  runThread := update_named h.runThread fun hp => by
    rw [ht] at hp
    cases onCaller with
    | true => cases hp
    | false => rfl
  stopThread := update_named h.stopThread fun hp => by
    rw [ht] at hp
    cases hp
  inCall := nofun
  active := nofun
  moved _ _ := nofun

/-- `endRun()` counts the run as returned. -/
theorem returned (h : Inv s) {result : Option ε} (ht : s.threads t = .leaving run onCaller result) :
    Inv ({ s with nRunsReturned := s.nRunsReturned + 1 }.setThread t (.ending run onCaller result)) := by
  have hok := h.threads t
  rw [ht] at hok
  obtain ⟨hrun, hlt, hnone⟩ := hok
  have hended := h.ended_le
  have hstarted := h.started_le
  have heq : s.nRunsReturned + 1 = run := by omega
  exact {
    ended_le := Nat.le_succ_of_le hended
    returned_le := Nat.le_of_eq (heq.trans hrun)
    started_le := hstarted
    threads := by
      refine update_at s.threads t _ (P := fun _ => Thread.Ok _) ⟨hrun, heq, by show s.nRunsEnded < run; omega, hnone⟩
        fun u hu => ?_
      exact ok_of_not_isRun (h.threads u) (fun hisRun => hu (h.one_run u t hisRun (ht ▸ rfl))) (Nat.le_refl _) fun _ =>
        ⟨rfl, rfl, rfl, rfl, Or.inl ⟨rfl, rfl⟩⟩
    one_run := one_update h.one_run fun _ => Or.inl (ht ▸ rfl)
    one_request := one_update h.one_request nofun
    runThread := update_named h.runThread fun hp => by
      rw [ht] at hp
      cases onCaller with
      | true => cases hp
      | false => rfl
    stopThread := update_named h.stopThread fun hp => by
      rw [ht] at hp
      cases hp
    inCall := fun run hcall => by
      have hcall' : s.inCall = some run := hcall
      rw [hnone] at hcall'
      cases hcall'
    stopped_le := h.stopped_le
    requestingStop := h.requestingStop
    requests_le := h.requests_le
    requests_nodup := h.requests_nodup
    active := h.active
    moved_le := h.moved_le
    moved := h.moved
    results_length := h.results_length
    lastResult := h.lastResult }

/-- A run ends while no stop request is out. -/
theorem finishRun (h : Inv s) {result : Option ε} (ht : s.threads t = .ending run onCaller result)
    (hrequest : s.requestingStop = false) : Inv (s.finishRun t onCaller result) := by
  have hok := h.threads t
  rw [ht] at hok
  obtain ⟨hrun, hreturned, hlt, hnone⟩ := hok
  have hnot (u : τ) : ¬ (s.threads u).isRequest = true := fun hreq => by
    have := (h.isRequest_progress hreq).2
    rw [hrequest] at this
    cases this
  exact {
    ended_le := by
      show s.nRunsEnded + 1 ≤ s.nRunsReturned
      omega
    returned_le := h.returned_le
    started_le := by
      have := h.started_le
      show s.nRunsStarted ≤ s.nRunsEnded + 1 + 1
      omega
    threads := by
      refine update_at s.threads t _ (P := fun _ => Thread.Ok _) (by cases onCaller <;> trivial) fun u hu => ?_
      exact ok_of_not_isRun (h.threads u) (fun hisRun => hu (h.one_run u t hisRun (ht ▸ rfl))) (Nat.le_refl _)
        fun hreq => absurd hreq (hnot u)
    one_run := one_update h.one_run fun hp => by cases onCaller <;> cases hp
    one_request := one_update h.one_request fun hp => by cases onCaller <;> cases hp
    runThread := update_named h.runThread fun hp => by
      rw [ht] at hp
      cases onCaller with
      | true => cases hp
      | false => rfl
    stopThread := update_named h.stopThread fun hp => by
      rw [ht] at hp
      cases hp
    inCall := h.inCall
    stopped_le := h.stopped_le
    requestingStop := fun hreq => by
      have hreq' : s.requestingStop = true := hreq
      rw [hrequest] at hreq'
      cases hreq'
    requests_le := h.requests_le
    requests_nodup := h.requests_nodup
    active := h.active
    moved_le := h.moved_le
    moved := h.moved
    results_length := by
      show (s.results ++ [result]).length = s.nRunsEnded + 1
      rw [List.length_append, h.results_length, List.length_singleton]
    lastResult := by
      show result = (s.results ++ [result]).getLastD none
      simp only [List.getLastD_eq_getLast?, List.getLast?_append, List.getLast?_singleton, Option.some_or, Option.getD_some] }

/-- A stop request ends: no other thread makes one. -/
theorem finishRequest (h : Inv s) {stage : Stage} {caller : Option Wait} (ht : s.threads t = .requesting run stage caller)
    (hleft : s.inCall = some run → s.activity = .left) : Inv (s.finishRequest t run caller) := by
  have hok := h.threads t
  rw [ht] at hok
  obtain ⟨-, hrun, -, -, -⟩ := hok
  exact {
    ended_le := h.ended_le
    returned_le := h.returned_le
    started_le := h.started_le
    threads := by
      refine update_at s.threads t _ (P := fun _ => Thread.Ok _) ?_ fun u hu => ?_
      · cases caller with
        | none => trivial
        | some wait => exact Nat.le_of_eq hrun
      · have hnot : ¬ (s.threads u).isRequest = true := fun hreq => hu (h.one_request u t hreq (ht ▸ rfl))
        have huok := h.threads u
        cases hth : s.threads u with
        | requesting run stage caller =>
          rw [hth] at hnot
          exact absurd rfl hnot
        | _ =>
          rw [hth] at huok
          exact huok
    one_run := one_update h.one_run fun hp => by cases caller <;> cases hp
    one_request := one_update h.one_request fun hp => by cases caller <;> cases hp
    runThread := update_named h.runThread fun hp => by
      rw [ht] at hp
      cases hp
    stopThread := update_named h.stopThread fun hp => by
      rw [ht] at hp
      cases caller with
      | none => rfl
      | some wait => cases hp
    inCall := h.inCall
    stopped_le := h.stopped_le
    requestingStop := nofun
    requests_le := h.requests_le
    requests_nodup := h.requests_nodup
    active := h.active
    moved_le := fun r hr => by
      rcases List.mem_cons.mp hr with rfl | hr
      · exact Nat.le_of_eq hrun
      · exact h.moved_le r hr
    moved := fun r hr hcall => by
      rcases List.mem_cons.mp hr with rfl | hr
      · exact hleft hcall
      · exact h.moved r hr hcall
    results_length := h.results_length
    lastResult := h.lastResult }

end Inv

variable [DecidableEq τ] [DecidableEq ε]

theorem Inv.of_start (h : (system τ ε).start s) : Inv s := by
  obtain ⟨threads, hthreads, hs⟩ := h
  rw [hs]
  have hok (t : τ) (P : Thread ε → Prop) (hu : P .unborn) (hi : P .idle) : P (threads t) := by
    rcases hthreads t with h | h <;> rw [h]
    · exact hu
    · exact hi
  exact {
    ended_le := Nat.le_refl 0
    returned_le := Nat.le_refl 0
    started_le := Nat.zero_le 1
    threads := fun t => hok t (Thread.Ok _) trivial trivial
    one_run := fun t u ht => absurd ht (hok t (fun thread => ¬ thread.isRun = true) nofun nofun)
    one_request := fun t u ht => absurd ht (hok t (fun thread => ¬ thread.isRequest = true) nofun nofun)
    runThread := nofun
    stopThread := nofun
    inCall := nofun
    stopped_le := Nat.le_refl 0
    requestingStop := nofun
    requests_le := nofun
    requests_nodup := List.nodup_nil
    active := nofun
    moved_le := nofun
    moved := nofun
    results_length := rfl
    lastResult := rfl }

/-! ### Every step keeps the invariant -/

namespace Inv

omit [DecidableEq ε] in
theorem request (h : Inv s) (hprogress : s.nRunsEnded < s.nRunsStarted) (hnew : s.stoppedRun ≠ s.nRunsStarted)
    (ht : s.threads t = .idle) (wait : Wait) {thread : Option τ}
    (hthread : ∀ u, thread = some u → s.threads u = .unborn ∧ u ≠ t) : Inv (s.request t wait thread) := by
  obtain ⟨hbegun, hnot⟩ := h.beginRequest hprogress hnew
  cases thread with
  | none =>
    have hset := hbegun.setThread (t := t) (x := .requesting s.nRunsStarted .poll (some wait))
      ⟨rfl, rfl, hprogress, rfl, fun _ => trivial⟩ nofun (fun _ => Or.inr hnot)
      (fun hp => by simp only [ht, Thread.isRunThread, Bool.false_eq_true] at hp)
      (fun hp => by simp only [ht, Thread.isStopThread, Bool.false_eq_true] at hp)
    exact hset.setJoinable hset.runThread nofun
  | some u =>
    obtain ⟨hu, hne⟩ := hthread u rfl
    have hwaits := hbegun.setThread (t := t) (x := .awaiting s.nRunsStarted wait) (Nat.le_refl _) nofun nofun
      (fun hp => by simp only [ht, Thread.isRunThread, Bool.false_eq_true] at hp)
      (fun hp => by simp only [ht, Thread.isStopThread, Bool.false_eq_true] at hp)
    have hnot' (v : τ) : ¬ (update s.threads t (.awaiting s.nRunsStarted wait) v).isRequest = true := by
      by_cases hv : v = t
      · rw [hv, update_self]
        exact nofun
      · rw [update_of_ne hv]
        exact hnot v
    have hthreadU : update s.threads t (.awaiting s.nRunsStarted wait) u = .unborn := by
      rw [update_of_ne hne, hu]
    have hset := hwaits.setThread (t := u) (x := .requesting s.nRunsStarted .poll none)
      ⟨rfl, rfl, hprogress, rfl, fun _ => trivial⟩ nofun (fun _ => Or.inr hnot')
      (fun hp => by simp only [State.setThread, hthreadU, Thread.isRunThread, Bool.false_eq_true] at hp) (fun _ => rfl)
    refine hset.setJoinable hset.runThread fun v hv => ?_
    cases hv
    simp only [State.setThread, update_self, Thread.isStopThread]

theorem startStep (h : Inv s) (ht : s.threads t = .idle) {thread : Except ε τ} (hs : startStep s t thread = some s') :
    Inv s' := by
  unfold Runtime.startStep at hs
  split at hs
  · cases hs
    exact h
  · next hp =>
    have hended := ended_of_not_inProgress hp
    obtain ⟨-, hs⟩ := Option.ite_none_right_eq_some.mp hs
    cases thread with
    | error error =>
      cases hs
      exact h.failRun hended error
    | ok u =>
      obtain ⟨hspawn, hs⟩ := Option.ite_none_right_eq_some.mp hs
      cases hs
      simp only [State.canSpawn, Bool.and_eq_true, beq_iff_eq, decide_eq_true_eq] at hspawn
      have hstarting := h.setThread (t := t) (x := .starting (s.nRunsStarted + 1)) trivial nofun nofun
        (fun hp => by simp only [ht, Thread.isRunThread, Bool.false_eq_true] at hp)
        (fun hp => by simp only [ht, Thread.isStopThread, Bool.false_eq_true] at hp)
      have hu : (s.setThread t (.starting (s.nRunsStarted + 1))).threads u = .unborn := by
        simp only [State.setThread, update_of_ne hspawn.2, hspawn.1]
      have hbegun : Inv ((s.setThread t (.starting (s.nRunsStarted + 1))).beginRun.setThread u (.inRun _ false)) :=
        hstarting.beginRun hended (Or.inr hu)
      refine (hbegun.setJoinable (r := some u) (fun v hv => ?_) hbegun.stopThread).setCalls (s.nCalls + 1) s.destroyed
      cases hv
      simp only [State.setThread, update_self, Thread.isRunThread]

theorem stopStep (h : Inv s) (ht : s.threads t = .idle) {wait : Wait} {thread : Option τ}
    (hs : stopStep s t wait thread = some s') : Inv s' := by
  unfold Runtime.stopStep at hs
  have hcalled := h.setCalls (s.nCalls + 1) (wait == Wait.destructor)
  split at hs
  · next hp =>
    simp only [Bool.and_eq_true, bne_iff_ne] at hp
    obtain ⟨hjoin, hs⟩ := Option.ite_none_right_eq_some.mp hs
    cases hs
    refine hcalled.request (h.progress_of_inProgress hp.1) hp.2 ht wait fun u hu => ?_
    simp only [hu, Option.all_some, State.canSpawn, Bool.and_eq_true, beq_iff_eq, decide_eq_true_eq] at hjoin
    exact hjoin.2
  · cases hs
    exact hcalled.setThread (Nat.le_refl _) nofun nofun
      (fun hp => by simp only [ht, Thread.isRunThread, Bool.false_eq_true] at hp)
      (fun hp => by simp only [ht, Thread.isStopThread, Bool.false_eq_true] at hp)

omit [DecidableEq ε] in
/-- A request goes to its next place. -/
theorem setStage (h : Inv s) {stage stage' : Stage} {caller : Option Wait} (ht : s.threads t = .requesting run stage caller)
    (hsees : s.inCall = some run → stage'.Sees s.activity) : Inv (s.setThread t (.requesting run stage' caller)) := by
  have hok := h.threads t
  rw [ht] at hok
  exact h.setThread ⟨hok.1, hok.2.1, hok.2.2.1, hok.2.2.2.1, hsees⟩ nofun (fun _ => Or.inl (ht ▸ rfl))
    (fun hp => by rw [ht] at hp; cases hp)
    (fun hp => by
      rw [ht] at hp
      cases caller with
      | none => rfl
      | some wait => cases hp)

omit [DecidableEq ε] in
theorem pollStep (h : Inv s) {caller : Option Wait} (ht : s.threads t = .requesting run .poll caller) :
    Inv (pollStep s t run caller) := by
  unfold Runtime.pollStep
  split
  · next hreturned =>
    refine h.finishRequest ht fun hcall => ?_
    have := h.inCall run hcall
    omega
  · split
    · next hactive =>
      refine h.setStage ht fun hcall => ?_
      rw [(h.active (Option.isSome_of_eq_some hcall)).mp hactive]
      exact nofun
    · exact h

omit [DecidableEq τ] [DecidableEq ε] in
/-- A state that is not active, after an active one was seen, has left the active ones. -/
theorem left_of_not_active (h : Inv s) (hcall : s.inCall = some run) (hnot : isActive s.state = false)
    (hseen : s.activity ≠ .starting) : s.activity = .left := by
  have hiff := h.active (Option.isSome_of_eq_some hcall)
  cases hactivity : s.activity with
  | starting => exact absurd hactivity hseen
  | active =>
    rw [hiff.mpr hactivity] at hnot
    cases hnot
  | left => rfl

omit [DecidableEq τ] [DecidableEq ε] in
/-- A request that has nothing to exchange has found a state that is not active. -/
theorem not_active_of_observe {state : LifeCycle.State}
    (h : ∀ observed, LifeCycle.observe .requestedStop state ≠ .exchange observed) : isActive state = false := by
  cases state with
  | running => exact absurd rfl (h .running)
  | requestedPause => exact absurd rfl (h .requestedPause)
  | paused => exact absurd rfl (h .paused)
  | _ => rfl

omit [DecidableEq ε] in
/-- An access that observes the state. -/
theorem observeStep (h : Inv s) {observed : Option LifeCycle.State} {caller : Option Wait}
    (ht : s.threads t = .requesting run (.transition observed) caller) :
    Inv
      (match LifeCycle.observe .requestedStop s.state with
        | .exchange observed => s.setThread t (.requesting run (.transition (some observed)) caller)
        | _ => s.setThread t (.requesting run .moved caller)) := by
  have hok := h.threads t
  rw [ht] at hok
  have hseen : s.inCall = some run → s.activity ≠ .starting := hok.2.2.2.2
  have hmoved (hnot : ∀ observed, LifeCycle.observe .requestedStop s.state ≠ .exchange observed) :
      Inv (s.setThread t (.requesting run .moved caller)) :=
    h.setStage ht fun hcall => h.left_of_not_active hcall (not_active_of_observe hnot) (hseen hcall)
  cases hobserve : LifeCycle.observe .requestedStop s.state with
  | exchange observed => exact h.setStage ht hseen
  | satisfied oldState | invalid | changed oldState => exact hmoved (by rw [hobserve]; exact nofun)

omit [DecidableEq ε] in
theorem accessStep (h : Inv s) {observed : Option LifeCycle.State} {caller : Option Wait}
    (ht : s.threads t = .requesting run (.transition observed) caller) :
    Inv (accessStep s t run observed caller) := by
  have hok := h.threads t
  rw [ht] at hok
  have hobserves := h.observeStep ht
  have hsame : LifeCycle.changeStateTo .requestedStop s.state observed =
      (s.state, LifeCycle.observe .requestedStop s.state) → Inv (Runtime.accessStep s t run observed caller) := by
    intro heq
    unfold Runtime.accessStep
    rw [heq]
    cases hobserve : LifeCycle.observe .requestedStop s.state with
    | changed oldState =>
      exfalso
      revert hobserve
      cases s.state <;> exact nofun
    | _ =>
      rw [hobserve] at hobserves
      exact hobserves
  cases observed with
  | none => exact hsame rfl
  | some observed =>
    by_cases hstate : s.state = observed
    · have heq : LifeCycle.changeStateTo .requestedStop s.state (some observed) = (.requestedStop, .changed observed) :=
        if_pos hstate
      unfold Runtime.accessStep
      rw [heq]
      have hset := h.setState (q := .requestedStop) fun _ _ => rfl
      refine hset.setStage ht fun hcall => ?_
      refine hset.left_of_not_active hcall rfl ?_
      exact sees_setState (g := .transition none) (hok.2.2.2.2 hcall) fun _ => rfl
    · exact hsame (if_neg hstate)

omit [DecidableEq ε] in
/-- A thread that makes no request and executes no run goes on. -/
theorem setOther (h : Inv s) {thread : Thread ε} (thread' : Thread ε) (ht : s.threads t = thread)
    (hold : thread.isRunThread = false ∧ thread.isStopThread = false)
    (hnew : thread'.isRun = false ∧ thread'.isRequest = false) (hok : thread'.Ok s) : Inv (s.setThread t thread') := by
  subst ht
  refine h.setThread hok (fun hp => ?_) (fun hp => ?_) (fun hp => ?_) fun hp => ?_
  · rw [hnew.1] at hp
    cases hp
  · rw [hnew.2] at hp
    cases hp
  · rw [hold.1] at hp
    cases hp
  · rw [hold.2] at hp
    cases hp

theorem step (h : Inv s) {a : Act τ ε} (hs : step s a = some s') : Inv s' := by
  have idle_of_callable {t : τ} (hc : callable s t = true) : s.threads t = .idle := by
    simp only [callable, Bool.and_eq_true, beq_iff_eq] at hc
    exact hc.1
  cases a <;> simp only [Runtime.step] at hs
  case runAndWait t =>
    obtain ⟨hc, hs⟩ := Option.ite_none_right_eq_some.mp hs
    split at hs
    · cases hs
      exact h
    · next hp =>
      cases hs
      exact (h.beginRun (ended_of_not_inProgress hp) (Or.inl (idle_of_callable hc))).setCalls _ _
  case start t thread =>
    obtain ⟨hc, hs⟩ := Option.ite_none_right_eq_some.mp hs
    exact h.startStep (idle_of_callable hc) hs
  case started t =>
    split at hs
    · next run ht =>
      obtain ⟨-, hs⟩ := Option.ite_none_right_eq_some.mp hs
      cases hs
      exact (h.setOther .idle ht ⟨rfl, rfl⟩ ⟨rfl, rfl⟩ trivial).setCalls _ _
    · cases hs
  case runReturns t result =>
    split at hs
    · next run onCaller ht =>
      cases hs
      exact h.leaveCall ht result
    · cases hs
  case endRun t =>
    split at hs
    · next run onCaller result ht =>
      have hreturned := h.returned ht
      cases hs
      split
      · exact hreturned
      · next hnot =>
        have hfinish := hreturned.finishRun (t := t) (update_self ..) (Bool.eq_false_iff.mpr hnot)
        simpa only [State.finishRun, State.setThread, Function.update_idem] using hfinish
    · cases hs
  case requestReturned t =>
    split at hs
    · next run onCaller result ht =>
      obtain ⟨hnot, hs⟩ := Option.ite_none_left_eq_some.mp hs
      cases hs
      exact h.finishRun ht (Bool.eq_false_iff.mpr hnot)
    · cases hs
  case stop t wait thread =>
    obtain ⟨hc, hs⟩ := Option.ite_none_right_eq_some.mp hs
    rw [Bool.and_eq_true] at hc
    exact h.stopStep (idle_of_callable hc.1) hs
  case poll t =>
    split at hs
    · next run caller ht =>
      cases hs
      exact h.pollStep ht
    · cases hs
  case access t =>
    split at hs
    · next run observed caller ht =>
      cases hs
      exact h.accessStep ht
    · cases hs
  case hook t throws =>
    split at hs
    · next run caller ht =>
      have hok := h.threads t
      rw [ht] at hok
      cases hs
      cases throws with
      | false => exact h.setStage ht hok.2.2.2.2
      | true =>
        have hset := h.setState (q := .error) fun _ _ => rfl
        exact hset.setStage ht fun hcall => sees_setState (g := .moved) (hok.2.2.2.2 hcall) fun _ => rfl
    · cases hs
  case relock t =>
    split at hs
    · next run caller ht =>
      have hok := h.threads t
      rw [ht] at hok
      cases hs
      exact h.finishRequest ht hok.2.2.2.2
    · cases hs
  case stopped t answer =>
    split at hs
    · next run wait ht =>
      obtain ⟨-, hs⟩ := Option.ite_none_right_eq_some.mp hs
      split at hs
      · cases hs
        exact h.setOther .joining ht ⟨rfl, rfl⟩ ⟨rfl, rfl⟩ trivial
      · cases hs
        exact (h.setOther .idle ht ⟨rfl, rfl⟩ ⟨rfl, rfl⟩ trivial).setCalls _ _
    · cases hs
  case join t =>
    obtain ⟨hc, hs⟩ := Option.ite_none_right_eq_some.mp hs
    cases hs
    exact (h.setOther .idle hc.1 ⟨rfl, rfl⟩ ⟨rfl, rfl⟩ trivial).setJoinable nofun nofun
  case waitFor t answer | result t =>
    obtain ⟨-, hs⟩ := Option.ite_none_right_eq_some.mp hs
    cases hs
    exact h
  case scheduler state =>
    obtain ⟨hc, hs⟩ := Option.ite_none_left_eq_some.mp hs
    cases hs
    refine h.setState fun hcall hleft => ?_
    simp only [hcall, hleft, Bool.and_eq_true, beq_self_eq_true, and_self, true_and, Bool.not_eq_true] at hc
    exact hc

end Inv

theorem inv_of_reachable (h : (system τ ε).Reachable s) : Inv s :=
  Transition.System.Reach.invariant h (fun _ hs => .of_start hs) fun _ _ _ hinv _ hs => hinv.step hs

/-! ### Runs and stops pair up -/

/-- The run that a thread executes. -/
def Thread.running : Thread ε → Option Nat
  | .inRun run _ => some run
  | .leaving run _ _ => some run
  | .ending run _ _ => some run
  | _ => none

omit [DecidableEq τ] [DecidableEq ε] in
theorem Inv.running (h : Inv s) {run : Nat} (ht : (s.threads t).running = some run) :
    (s.threads t).isRun = true ∧ run = s.nRunsEnded + 1 := by
  have hok := h.threads t
  have hended := h.ended_le
  have hreturned := h.returned_le
  have hstarted := h.started_le
  cases hth : s.threads t <;> rw [hth] at ht hok <;> cases ht
  all_goals
    simp only [Thread.Ok] at hok
    exact ⟨rfl, by omega⟩

/-- In every state that a runtime reaches: one run is in progress at most, and it is the next one to end; each run's stop
    is requested once, and while a request is out no other run is in its scheduler call; `stopRun()` returns after the
    run that it found has ended, with no request of that run still out; `result()` is that of the last run that ended; a
    thread that `start()` or `stopRun()` joins does not take `runMutex` again; and a request that has been made leaves the
    scheduler in no active state until the run returns. -/
theorem runs_pair_up (h : (system τ ε).Reachable s) :
    (∀ t u run run', (s.threads t).running = some run → (s.threads u).running = some run' →
      t = u ∧ run = s.nRunsEnded + 1) ∧
    (s.nRunsEnded ≤ s.nRunsReturned ∧ s.nRunsReturned ≤ s.nRunsStarted) ∧
    (s.requests.Nodup ∧ ∀ t run stage caller, s.threads t = .requesting run stage caller →
      run = s.nRunsStarted ∧ ∀ other, s.inCall = some other → other = run) ∧
    (∀ t wait thread s', step s (.stop t wait thread) = some s' →
      s'.threads t = .awaiting s.nRunsStarted wait ∨ s'.threads t = .requesting s.nRunsStarted .poll (some wait)) ∧
    (∀ t run wait answer, s.threads t = .awaiting run wait → (step s (.stopped t answer)).isSome →
      (answer = true ∨ wait ≠ .timeout) →
      run ≤ s.nRunsEnded ∧ ∀ u stage caller, s.threads u ≠ .requesting run stage caller) ∧
    (s.results.length = s.nRunsEnded ∧ ∀ result, s.result = some result → result = s.results.getLastD none) ∧
    ((¬ s.runInProgress = true → ∀ t, s.runThread = some t → s.threads t = .exited) ∧
      (s.stoppedRun ≠ s.nRunsStarted → ∀ t, s.stopThread = some t → s.threads t = .exited)) ∧
    ∀ run ∈ s.moved, s.inCall = some run → isActive s.state = false := by
  have hinv := inv_of_reachable h
  refine ⟨fun t u run run' ht hu => ?_, ⟨hinv.ended_le, hinv.returned_le⟩, ⟨hinv.requests_nodup, ?_⟩, ?_, ?_,
    ⟨hinv.results_length, ?_⟩, ⟨fun hp t ht => hinv.runThread_exited hp ht, fun hnew t ht => hinv.stopThread_exited hnew ht⟩,
    ?_⟩
  · obtain ⟨hrun, heq⟩ := hinv.running ht
    exact ⟨hinv.one_run t u hrun (hinv.running hu).1, heq⟩
  · intro t run stage caller ht
    have hok := hinv.threads t
    rw [ht] at hok
    exact ⟨hok.2.1, fun other hcall => (hinv.inCall other hcall).1.trans hok.2.1.symm⟩
  · intro t wait thread s' hs
    obtain ⟨-, hs⟩ := Option.ite_none_right_eq_some.mp hs
    unfold stopStep at hs
    split at hs
    · obtain ⟨hjoin, hs⟩ := Option.ite_none_right_eq_some.mp hs
      cases hs
      cases thread with
      | none => exact Or.inr (update_self ..)
      | some u =>
        simp only [Option.all_some, State.canSpawn, Bool.and_eq_true, decide_eq_true_eq] at hjoin
        refine Or.inl ?_
        simp only [State.request, State.setThread, update_of_ne (Ne.symm hjoin.2.2), update_self]
    · cases hs
      exact Or.inl (update_self ..)
  · intro t run wait answer ht hs hanswer
    simp only [step, ht] at hs
    obtain ⟨s', hs⟩ := Option.isSome_iff_exists.mp hs
    obtain ⟨⟨heq, htrue⟩, -⟩ := Option.ite_none_right_eq_some.mp hs
    have htrue : answer = true := by
      rcases hanswer with h | h
      · exact h
      · exact htrue.resolve_right h
    have hended : run ≤ s.nRunsEnded := of_decide_eq_true (heq ▸ htrue)
    refine ⟨hended, fun u stage caller hu => ?_⟩
    have hok := hinv.threads u
    rw [hu] at hok
    exact absurd hok.2.2.1 (Nat.not_lt.mpr hended)
  · intro result hresult
    obtain ⟨-, hresult⟩ := Option.ite_none_left_eq_some.mp hresult
    cases hresult
    exact hinv.lastResult
  · intro run hrun hcall
    have hleft := hinv.moved run hrun hcall
    have hiff := hinv.active (Option.isSome_of_eq_some hcall)
    rw [hleft] at hiff
    exact Bool.eq_false_iff.mpr fun hactive => absurd (hiff.mp hactive) nofun

section Examples

/-- Threads 0 and 1 call the runtime. -/
def twoCallers : State Nat String where
  threads t := if t < 2 then .idle else .unborn

/-- A run on its own thread is stopped through another one. -/
def startAndStop : List (Act Nat String) :=
  [.start 0 (.ok 2), .scheduler .running, .started 0, .stop 1 .forever (some 3), .poll 3, .access 3, .access 3,
    .hook 3 false, .scheduler .stopped, .runReturns 2 none, .endRun 2, .relock 3]

theorem runs_pair_up_startAndStop :
    ((system Nat String).run twoCallers startAndStop).map (fun s => (s.nRunsReturned, s.nRunsEnded, s.state)) =
      some (1, 0, .stopped) ∧
    ∀ s, (system Nat String).run twoCallers startAndStop = some s → s.nRunsEnded ≤ s.nRunsReturned ∧ s.requests.Nodup := by
  refine ⟨by decide, fun s hs => ?_⟩
  have hstart : (system Nat String).start twoCallers := by
    refine ⟨twoCallers.threads, fun t => ?_, rfl⟩
    unfold twoCallers
    simp only
    split
    · exact Or.inr rfl
    · exact Or.inl rfl
  have hreach := (system Nat String).reachable_get startAndStop hstart (by rw [hs]; rfl)
  simp only [hs, Option.get_some] at hreach
  have hpair := runs_pair_up hreach
  exact ⟨hpair.2.1.1, hpair.2.2.1.1⟩

end Examples

end GnuRadio.Runtime
