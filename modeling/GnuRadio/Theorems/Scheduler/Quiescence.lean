import GnuRadio.Scheduler.Quiescence
import Mathlib.Algebra.GroupWithZero.Nat
import Mathlib.Order.Filter.Finite

/-! While a request made outside work is held no thread is inside the wrapped call, and a request made inside a call
    returns once the other calls have ended or wait in such a request too. -/

namespace GnuRadio.Quiescence

open Function

open Transition (Execution Threads)
open Filter (atTop)

variable {τ : Type} [DecidableEq τ] {c c' : Counters} {t t' : Thread} {s s' : State τ} {i : τ}
  {k : Nat}

/-! ### What the counters count -/

/-- The requests of a thread that `_nWorkQuiescenceRequests` counts. -/
def Stage.requests : Stage → Nat
  | .await _ .countRequest => 0
  | .await _ _ | .uncountInWork => 1
  | _ => 0

def Thread.requests (t : Thread) : Nat := t.stage.requests + t.heldOutside + t.heldInWork

/-- The thread is counted in `_nWorkersInWork`. -/
def Stage.workers : Stage → Nat
  | .loadAgain | .leaveWork => 1
  | s => if s.working then 1 else 0

/-- The thread is counted in `_nInWorkRequests`. -/
def Stage.inWorkRequests : Stage → Nat
  | .await true _ | .uncountInWork => 1
  | _ => 0

/-- A request outside work that has seen `_nWorkersInWork` at zero. -/
def Thread.Drains (t : Thread) : Prop := 0 < t.heldOutside ∨ t.stage = .await false (.workersRead 0)

def Thread.AllowsNone (t : Thread) : Prop := ∀ n, t.stage = .await false (.callsAllowed n) → n = 0

/-- What a step of a thread does to what the counters count, to who is inside a call, and to who has seen none. -/
structure Moves (c : Counters) (t : Thread) (c' : Counters) (t' : Thread) : Prop where
  requests : t.requests ≤ c.nWorkQuiescenceRequests →
    c'.nWorkQuiescenceRequests + t.requests = c.nWorkQuiescenceRequests + t'.requests
  workers : t.stage.workers ≤ c.nWorkersInWork →
    c'.nWorkersInWork + t.stage.workers = c.nWorkersInWork + t'.stage.workers
  inWorkRequests : t.stage.inWorkRequests ≤ c.nInWorkRequests →
    c'.nInWorkRequests + t.stage.inWorkRequests = c.nInWorkRequests + t'.stage.inWorkRequests
  enters : t'.stage.working = true → t.stage.working = true ∨ c.nWorkQuiescenceRequests = 0
  drains : t.AllowsNone → t'.Drains → t.Drains ∨ c.nWorkersInWork = 0 ∧ t'.stage.working = false
  allowsNone : t'.AllowsNone

/-- A thread that only moves on, with what the counters count of it. -/
theorem setStage_moves {a b : Stage} (ht : t.stage = a)
    (hQ : c'.nWorkQuiescenceRequests + a.requests = c.nWorkQuiescenceRequests + b.requests)
    (hW : a.workers ≤ c.nWorkersInWork → c'.nWorkersInWork + a.workers = c.nWorkersInWork + b.workers)
    (hI : c'.nInWorkRequests + a.inWorkRequests = c.nInWorkRequests + b.inWorkRequests)
    (enters : b.working = true → a.working = true ∨ c.nWorkQuiescenceRequests = 0)
    (drains : b = .await false (.workersRead 0) → c.nWorkersInWork = 0)
    (allowsNone : ∀ n, b = .await false (.callsAllowed n) → n = 0) : Moves c t c' (t.setStage b) := by
  subst ht
  refine ⟨fun _ => ?_, hW, fun _ => hI, enters, fun _ => ?_, allowsNone⟩
  · simp only [Thread.requests, Thread.setStage]
    omega
  · rintro (h | rfl)
    · exact .inl (.inl h)
    · exact .inr ⟨drains rfl, rfl⟩

theorem compare_moves {own : Bool} {a : Await} {w n : Nat} (ht : t.stage = .await own a) (ha : a ≠ .countRequest)
    (hw : own = false → w ≤ n → t.Drains ∨ c.nWorkersInWork = 0) : Moves c t c (t.compare own w n) := by
  have hr : (Stage.await own a).requests = 1 := by cases a <;> first | rfl | exact absurd rfl ha
  simp only [Thread.compare, gt_iff_lt]
  split
  · refine setStage_moves ht (by rw [hr]; rfl) (fun _ => ?_) ?_ (fun h => .inl ?_) (nofun)
      fun n h => by cases h
    · cases own <;> rfl
    · cases own <;> rfl
    · cases own <;> exact h
  · next hle =>
    cases own with
    | true =>
      exact setStage_moves ht (by rw [hr]; rfl) (fun _ => rfl) rfl (fun _ => .inl rfl) (nofun)
        fun n h => by cases h
    | false =>
      refine ⟨fun _ => ?_, fun _ => by rw [ht]; rfl, fun _ => by rw [ht]; rfl, fun h => (by cases h), fun _ _ => ?_,
        fun n h => by cases h⟩
      · rw [← ht] at hr
        simp only [Thread.requests, hr]
        simp only [Thread.afterWait, Stage.requests, Bool.false_eq_true, if_false]
        omega
      · exact (hw rfl (by omega)).imp_right fun h => ⟨h, rfl⟩

theorem access_moves {b : Bool} (hn : t.AllowsNone) (h : access c t b = some (c', t')) : Moves c t c' t' := by
  simp only [access] at h
  cases ht : t.stage with
  | outside | inCall =>
    rw [ht] at h
    cases h
  | load =>
    rw [ht] at h
    cases h
    split <;>
      exact setStage_moves ht rfl (fun _ => rfl) rfl (nofun) (nofun) fun n h => by cases h
  | countWorker =>
    rw [ht] at h
    cases h
    exact setStage_moves ht rfl (fun _ => rfl) rfl (nofun) (nofun) fun n h => by cases h
  | loadAgain =>
    rw [ht] at h
    cases h
    split
    · exact setStage_moves ht rfl (fun _ => rfl) rfl (nofun) (nofun) fun n h => by cases h
    · next hq =>
      exact setStage_moves ht rfl (fun _ => rfl) rfl (fun _ => .inr (by omega)) (nofun)
        fun n h => by cases h
  | leaveWork =>
    rw [ht] at h
    cases h
    exact setStage_moves ht rfl Nat.sub_add_cancel rfl (nofun) (nofun) fun n h => by cases h
  | countInWork =>
    rw [ht] at h
    cases h
    exact setStage_moves ht rfl (fun _ => rfl) rfl (fun _ => .inl rfl) (nofun) fun n h => by cases h
  | uncountInWork =>
    rw [ht] at h
    cases h
    refine ⟨fun _ => ?_, fun _ => ?_, fun hi => ?_, fun _ => .inl ?_, fun _ hd => .inl ?_, fun n h => by cases h⟩
    · simp only [Thread.requests, ht, Stage.requests]
      omega
    · rw [ht]
      rfl
    · rw [ht] at hi ⊢
      exact Nat.sub_add_cancel hi
    · rw [ht]
      rfl
    · exact hd.imp_right nofun
  | await own a =>
    rw [ht] at h
    cases a with
    | countRequest =>
      cases h
      refine setStage_moves ht rfl (fun _ => ?_) ?_ (fun h => .inl ?_) (nofun) fun n h => by cases h
      all_goals cases own
      all_goals first | rfl | exact h
    | condition =>
      cases h
      cases b with
      | true =>
        refine setStage_moves ht rfl (fun _ => ?_) ?_ (fun h => .inl ?_) (fun h => ?_) fun n h => by cases h
        · cases own <;> rfl
        · cases own <;> rfl
        · cases own <;> exact h
        · exact Await.workersRead.inj (Stage.await.inj h).2
      | false =>
        refine setStage_moves ht rfl (fun _ => ?_) ?_ (fun h => .inl ?_) (nofun) fun n h => ?_
        · cases own <;> rfl
        · cases own <;> rfl
        · cases own <;> exact h
        · obtain ⟨rfl, h⟩ := Stage.await.inj h
          exact (Await.callsAllowed.inj h).symm
    | workersRead n =>
      cases h
      refine compare_moves ht (by simp) fun hown hle => .inl (.inr ?_)
      subst hown
      rw [ht, Nat.le_zero.mp hle]
    | callsAllowed n =>
      cases h
      refine compare_moves ht (by simp) fun hown hle => .inr ?_
      subst hown
      rw [hn n ht] at hle
      exact Nat.le_zero.mp hle

theorem release_moves (hs : t.stage = .outside ∨ t.stage = .inCall) (hold : t.heldOutside + t.heldInWork = k + 1)
    (ht : t'.stage = t.stage) (hle : t'.heldOutside ≤ t.heldOutside) (hold' : t'.heldOutside + t'.heldInWork = k) :
    Moves c t { c with nWorkQuiescenceRequests := c.nWorkQuiescenceRequests - 1 } t' := by
  refine ⟨fun hr => ?_, fun _ => by rw [ht], fun _ => by rw [ht], fun h => .inl (ht ▸ h), fun _ h => .inl ?_, ?_⟩
  · simp only [Thread.requests, ht] at hr ⊢
    omega
  · exact h.imp (fun h => by omega) fun h => ht ▸ h
  · intro n h
    rw [ht] at h
    rcases hs with hs | hs <;> rw [hs] at h <;> cases h

theorem begin_moves {what : Begin} (h : begin c t what = some (c', t')) : Moves c t c' t' := by
  cases what with
  | callAsWork | endCall | requestWorkQuiescence =>
    obtain ⟨ht, h⟩ := Option.ite_none_right_eq_some.mp h
    cases h
    exact setStage_moves ht rfl (fun _ => rfl) rfl (nofun) (nofun) fun n h => by cases h
  | requestQuiescenceOfOtherWork =>
    obtain ⟨ht | ht, h⟩ := Option.ite_none_right_eq_some.mp h
    all_goals
      rw [ht] at h
      cases h
    · exact setStage_moves ht rfl (fun _ => rfl) rfl (nofun) (nofun) fun n h => by cases h
    · exact setStage_moves ht rfl (fun _ => rfl) rfl (fun _ => .inl rfl) (nofun) fun n h => by cases h
  | releaseWorkQuiescence own =>
    obtain ⟨hs, h⟩ := Option.ite_none_right_eq_some.mp h
    cases own with
    | true =>
      obtain ⟨hpos, h⟩ := Option.ite_none_right_eq_some.mp h
      cases h
      exact release_moves (k := t.heldOutside + t.heldInWork - 1) hs (by omega) rfl le_rfl (by simp only; omega)
    | false =>
      obtain ⟨hpos, h⟩ := Option.ite_none_right_eq_some.mp h
      cases h
      exact release_moves (k := t.heldOutside + t.heldInWork - 1) hs (by omega) rfl (Nat.sub_le _ _)
        (by simp only; omega)

theorem step_cases {a : Act τ} (h : step s a = some s') : ∃ c' t',
    s' = ⟨c', update s.threads a.thread t'⟩ ∧
      ((∃ what, begin s.counters (s.threads a.thread) what = some (c', t')) ∨
        ∃ b, access s.counters (s.threads a.thread) b = some (c', t')) := by
  cases a with
  | begin i what =>
    obtain ⟨⟨c', t'⟩, hb, rfl⟩ := Option.map_eq_some_iff.mp h
    exact ⟨c', t', rfl, .inl ⟨what, hb⟩⟩
  | access i b =>
    obtain ⟨⟨c', t'⟩, hb, rfl⟩ := Option.map_eq_some_iff.mp h
    exact ⟨c', t', rfl, .inr ⟨b, hb⟩⟩

/-! ### The invariant -/

section Invariant

variable [Fintype τ]

structure Inv (s : State τ) : Prop where
  requests : s.counters.nWorkQuiescenceRequests = ∑ i, (s.threads i).requests
  workers : s.counters.nWorkersInWork = ∑ i, (s.threads i).stage.workers
  inWorkRequests : s.counters.nInWorkRequests = ∑ i, (s.threads i).stage.inWorkRequests
  allowsNone : ∀ i, (s.threads i).AllowsNone
  drained : ∀ i, (s.threads i).Drains → ∀ j, (s.threads j).stage.working = false

omit [DecidableEq τ] in
/-- A counter is at least what it counts of one thread. -/
theorem le_count {n : Nat} {f : Thread → Nat} (h : n = ∑ i, f (s.threads i)) (i : τ) : f (s.threads i) ≤ n := by
  rw [h]
  exact Transition.le_sum f s.threads i

theorem count_update {n n' : Nat} {f : Thread → Nat} (h : n = ∑ i, f (s.threads i))
    (hc : f (s.threads i) ≤ n → n' + f (s.threads i) = n + f t') :
    n' = ∑ j, f (update s.threads i t' j) := by
  have hsum := Transition.sum_update f s.threads i t'
  have := hc (le_count h i)
  omega

theorem Thread.Drains.requests_pos (h : t.Drains) : 0 < t.requests := by
  rcases h with h | h
  · simp only [Thread.requests]
    omega
  · simp only [Thread.requests, h, Stage.requests]
    omega

theorem Stage.workers_of_working {s : Stage} (h : s.working = true) : s.workers = 1 := by
  cases s <;> first | rfl | cases h | skip
  next own a => cases own <;> first | rfl | cases h

theorem Inv.of_start (τ : Type) [DecidableEq τ] [Fintype τ] : Inv (start τ) where
  requests := Finset.sum_const_zero.symm
  workers := Finset.sum_const_zero.symm
  inWorkRequests := Finset.sum_const_zero.symm
  allowsNone _ n h := by cases h
  drained _ _ _ := rfl

theorem step_moves {a : Act τ} (inv : Inv s) (h : step s a = some s') : ∃ c' t',
    s' = ⟨c', update s.threads a.thread t'⟩ ∧ Moves s.counters (s.threads a.thread) c' t' := by
  obtain ⟨c', t', rfl, ⟨what, hb⟩ | ⟨b, ha⟩⟩ := step_cases h
  · exact ⟨c', t', rfl, begin_moves hb⟩
  · exact ⟨c', t', rfl, access_moves (inv.allowsNone _) ha⟩

theorem Inv.step {a : Act τ} (inv : Inv s) (h : step s a = some s') : Inv s' := by
  obtain ⟨c', t', rfl, moves⟩ := step_moves inv h
  refine ⟨count_update inv.requests moves.requests,
    count_update (f := fun t => t.stage.workers) inv.workers moves.workers,
    count_update (f := fun t => t.stage.inWorkRequests) inv.inWorkRequests moves.inWorkRequests,
    Transition.forall_update moves.allowsNone fun j _ => inv.allowsNone j, ?_⟩
  -- a thread that drains holds a request, so that nobody enters
  have closed : ∀ i, (s.threads i).Drains → t'.stage.working = false := by
    intro i hd
    by_contra hw
    obtain hw | hq := moves.enters (Bool.of_not_eq_false hw)
    · rw [inv.drained i hd] at hw
      cases hw
    · have := le_count inv.requests i
      have := hd.requests_pos
      omega
  have nobody (hout : t'.stage.working = false) (h : ∀ j ≠ a.thread, (s.threads j).stage.working = false) :
      ∀ j, (update s.threads a.thread t' j).stage.working = false :=
    Transition.forall_update (P := fun _ (t : Thread) => t.stage.working = false) hout h
  intro i hd
  by_cases hi : i = a.thread
  · subst hi
    simp only [update_self] at hd
    obtain hd | ⟨hw, hout⟩ := moves.drains (inv.allowsNone _) hd
    · exact nobody (closed _ hd) fun j _ => inv.drained _ hd j
    · refine nobody hout fun j _ => ?_
      by_contra hj
      have := le_count (f := fun t => t.stage.workers) inv.workers j
      rw [Stage.workers_of_working (Bool.of_not_eq_false hj)] at this
      omega
  · simp only [update_of_ne hi] at hd
    exact nobody (closed i hd) fun j _ => inv.drained i hd j

theorem inv_of_reachable (h : (system τ).Reachable s) : Inv s :=
  h.invariant (fun _ hs => hs ▸ Inv.of_start τ) fun _ _ _ inv _ hs => inv.step hs

end Invariant

/-! ### Progress -/

variable {e : Execution (system τ)} {n : Nat}

/-- The accesses and the calls of a thread change that thread only. -/
def threads (τ : Type) [DecidableEq τ] : Threads (system τ) τ Thread where
  owner := Act.thread
  loc := State.threads
  frame h j hj := by
    obtain ⟨c', t', rfl, -⟩ := step_cases h
    exact update_of_ne hj _ _

/-- Inside `callAsWork()` or `awaitWorkQuiescence()`, and not in the wrapped call. -/
def Thread.Busy (t : Thread) : Prop := t.stage ≠ .outside ∧ t.stage ≠ .inCall

instance (t : Thread) : Decidable t.Busy := inferInstanceAs (Decidable (_ ∧ _))

/-- A thread inside one of the two functions goes on. How long a wrapped call runs is left open. -/
abbrev Fair (e : Execution (system τ)) : Prop := e.Fair (threads τ) Thread.Busy

/-- A request made inside a call has not returned. -/
def Stage.waits : Stage → Bool
  | .countInWork | .await true _ | .uncountInWork => true
  | _ => false

theorem begin_busy {what : Begin} (hb : t.Busy) : begin c t what = none := by
  obtain ⟨h₁, h₂⟩ := hb
  cases what <;> simp only [begin, h₁, h₂, or_self, if_false]

/-- The step of a busy thread is its next access. -/
theorem access_of_busy {a : Act τ} (h : step s a = some s') (hb : (s.threads a.thread).Busy) :
    ∃ b, access s.counters (s.threads a.thread) b = some (s'.counters, s'.threads a.thread) := by
  obtain ⟨c', t', rfl, ⟨what, h⟩ | h⟩ := step_cases h
  · rw [begin_busy hb] at h
    cases h
  · simpa only [update_self] using h

theorem next_access (fair : Fair e) (hb : ((e.state n).threads i).Busy) : ∃ m ≥ n,
    ((e.state m).threads i) = (e.state n).threads i ∧ ∃ b,
      access (e.state m).counters ((e.state n).threads i) b =
        some ((e.state (m + 1)).counters, (e.state (m + 1)).threads i) := by
  obtain ⟨m, hm, a, rfl, hs, hloc⟩ := fair.next_step hb
  replace hloc : (e.state m).threads a.thread = (e.state n).threads a.thread := hloc
  obtain ⟨b, ha⟩ := access_of_busy hs (by rwa [hloc])
  rw [hloc] at ha
  exact ⟨m, hm, hloc, b, ha⟩

theorem Stage.busy_of_waits (h : t.stage.waits = true) : t.Busy := by
  refine ⟨fun ht => ?_, fun ht => ?_⟩ <;> rw [ht] at h <;> cases h

/-- A request made inside a call goes on to wait, or returns into the call. -/
theorem waits_access {b : Bool} (hw : t.stage.waits = true) (h : access c t b = some (c', t')) :
    t'.stage.waits = true ∧ t.stage.requests ≤ t'.stage.requests ∨ t'.stage = .inCall := by
  simp only [access] at h
  cases ht : t.stage with
  | countInWork =>
    rw [ht] at h
    cases h
    exact .inl ⟨rfl, le_rfl⟩
  | uncountInWork =>
    rw [ht] at h
    cases h
    exact .inr rfl
  | await own a =>
    rw [ht] at h hw
    cases own with
    | false => cases hw
    | true =>
      refine .inl ?_
      cases a with
      | countRequest =>
        cases h
        exact ⟨rfl, Nat.zero_le _⟩
      | condition =>
        cases h
        cases b <;> exact ⟨rfl, le_rfl⟩
      | workersRead _ | callsAllowed _ =>
        cases h
        simp only [Thread.compare]
        split <;> exact ⟨rfl, le_rfl⟩
  | _ =>
    rw [ht] at hw
    cases hw

theorem waits_from {N : Nat} (never : ∀ m ≥ N, ((e.state m).threads i).stage ≠ .inCall) (hN : N ≤ n)
    (hw : ((e.state n).threads i).stage.waits = true) (hk : k ≤ ((e.state n).threads i).stage.requests) :
    ∀ m ≥ n, ((e.state m).threads i).stage.waits = true ∧ k ≤ ((e.state m).threads i).stage.requests := by
  refine e.always_of_step (P := fun s => (s.threads i).stage.waits = true ∧ k ≤ (s.threads i).stage.requests)
    ⟨hw, hk⟩ fun m hm a ⟨hw, hk⟩ hs => ?_
  by_cases hi : a.thread = i
  · subst hi
    obtain ⟨b, ha⟩ := access_of_busy hs (Stage.busy_of_waits hw)
    obtain ⟨hw', hle⟩ | hin := waits_access hw ha
    · exact ⟨hw', hk.trans hle⟩
    · exact absurd hin (never (m + 1) (by omega))
  · have hi' : (e.state (m + 1)).threads i = (e.state m).threads i := (threads τ).frame hs i (Ne.symm hi)
    rw [hi']
    exact ⟨hw, hk⟩

/-- A request that never returns is counted in the end. -/
theorem requests_of_waits (fair : Fair e) (never : ∀ m ≥ n, ((e.state m).threads i).stage ≠ .inCall)
    (hw : ((e.state n).threads i).stage.waits = true) :
    ∃ N ≥ n, ∀ m ≥ N, ((e.state m).threads i).stage.waits = true ∧ 1 ≤ ((e.state m).threads i).stage.requests := by
  have counted : ∀ m ≥ n, ((e.state m).threads i).stage = .await true .countRequest →
      ∃ N ≥ n, 1 ≤ ((e.state N).threads i).stage.requests := by
    intro m hm ht
    obtain ⟨m', hm', _, b, ha⟩ := next_access fair (Stage.busy_of_waits (by rw [ht]; rfl))
    simp only [access, ht] at ha
    refine ⟨m' + 1, by omega, ?_⟩
    rw [← (Prod.mk.inj (Option.some.inj ha)).2]
    exact le_rfl
  suffices hN : ∃ N ≥ n, 1 ≤ ((e.state N).threads i).stage.requests by
    obtain ⟨N, hN, h1⟩ := hN
    exact ⟨N, hN, waits_from never hN (waits_from never le_rfl hw (Nat.zero_le _) N hN).1 h1⟩
  cases ht : ((e.state n).threads i).stage with
  | countInWork =>
    obtain ⟨m, hm, _, b, ha⟩ := next_access fair (Stage.busy_of_waits hw)
    simp only [access, ht] at ha
    refine counted (m + 1) (by omega) ?_
    rw [← (Prod.mk.inj (Option.some.inj ha)).2]
    rfl
  | await own a =>
    cases own with
    | false =>
      rw [ht] at hw
      cases hw
    | true =>
      by_cases hc : a = .countRequest
      · exact counted n le_rfl (hc ▸ ht)
      · refine ⟨n, le_rfl, ?_⟩
        rw [ht]
        cases a <;> first | exact le_rfl | exact absurd rfl hc
  | uncountInWork =>
    refine ⟨n, le_rfl, ?_⟩
    rw [ht]
    exact le_rfl
  | _ =>
    rw [ht] at hw
    cases hw

/-! Once a request is counted for good and no call runs, the threads on their way into a call turn back. -/

/-- The accesses of a thread until it is out of `callAsWork()`, or counted as a request. -/
def Stage.rank : Stage → Nat
  | .countWorker => 3
  | .loadAgain => 2
  | .leaveWork | .countInWork => 1
  | _ => 0

/-- From `n` on a request is counted, and no wrapped call runs other than those that wait in a request. -/
structure Calm (e : Execution (system τ)) (n : Nat) : Prop where
  requested : ∀ m ≥ n, 0 < (e.state m).counters.nWorkQuiescenceRequests
  ended : ∀ m ≥ n, ∀ j, ((e.state m).threads j).stage ≠ .inCall

theorem Calm.not_uncountInWork (calm : Calm e n) (fair : Fair e) {m : Nat} (hm : n ≤ m) :
    ((e.state m).threads i).stage ≠ .uncountInWork := by
  intro ht
  obtain ⟨k, hk, _, b, ha⟩ := next_access fair (Stage.busy_of_waits (by rw [ht]; rfl))
  simp only [access, ht] at ha
  refine calm.ended (k + 1) (by omega) i ?_
  rw [← (Prod.mk.inj (Option.some.inj ha)).2]

theorem begin_rank {what : Begin} (hc : t.stage ≠ .inCall) (h : begin c t what = some (c', t')) :
    t'.stage.rank = 0 ∧ t.stage.workers = 0 ∧ t'.stage.workers = 0 := by
  have hs : t.stage = .outside := by
    by_contra hs
    rw [begin_busy ⟨hs, hc⟩] at h
    cases h
  suffices ht : t'.stage = .load ∨ t'.stage = .await false .countRequest ∨ t'.stage = .outside by
    rw [hs]
    obtain ht | ht | ht := ht <;> rw [ht] <;> exact ⟨rfl, rfl, rfl⟩
  cases what with
  | callAsWork =>
    obtain ⟨_, h⟩ := Option.ite_none_right_eq_some.mp h
    rw [← (Prod.mk.inj (Option.some.inj h)).2]
    exact .inl rfl
  | endCall => exact absurd (Option.ite_none_right_eq_some.mp h).1 hc
  | requestWorkQuiescence | requestQuiescenceOfOtherWork =>
    obtain ⟨_, h⟩ := Option.ite_none_right_eq_some.mp h
    rw [← (Prod.mk.inj (Option.some.inj h)).2]
    refine .inr (.inl ?_)
    first | rfl | rw [hs]; rfl
  | releaseWorkQuiescence own =>
    obtain ⟨_, h⟩ := Option.ite_none_right_eq_some.mp h
    refine .inr (.inr (hs ▸ ?_))
    cases own <;> obtain ⟨_, h⟩ := Option.ite_none_right_eq_some.mp h <;>
      rw [← (Prod.mk.inj (Option.some.inj h)).2]

theorem access_rank {b : Bool} (hq : 0 < c.nWorkQuiescenceRequests) (h : access c t b = some (c', t')) :
    t'.stage.rank ≤ t.stage.rank - 1 ∧ (t.stage.rank = 0 → t'.stage.workers = t.stage.workers) := by
  simp only [access, gt_iff_lt, hq, if_true] at h
  cases ht : t.stage with
  | outside | inCall =>
    rw [ht] at h
    cases h
  | await own a =>
    rw [ht] at h
    cases a with
    | countRequest | condition =>
      rw [← (Prod.mk.inj (Option.some.inj h)).2]
      cases own <;> exact ⟨le_rfl, fun _ => rfl⟩
    | workersRead _ | callsAllowed _ =>
      rw [← (Prod.mk.inj (Option.some.inj h)).2]
      simp only [Thread.compare]
      split <;> cases own <;> exact ⟨le_rfl, fun _ => rfl⟩
  | countWorker | loadAgain | leaveWork | countInWork =>
    rw [ht] at h
    rw [← (Prod.mk.inj (Option.some.inj h)).2]
    exact ⟨le_rfl, nofun⟩
  | load | uncountInWork =>
    rw [ht] at h
    rw [← (Prod.mk.inj (Option.some.inj h)).2]
    exact ⟨le_rfl, fun _ => rfl⟩

/-- The threads are where only requests are counted in `_nWorkersInWork`. -/
def Settled (s : State τ) : Prop := ∀ j, (s.threads j).stage.rank = 0

theorem Calm.step_rank (calm : Calm e n) {m : Nat} {a : Act τ} (hm : n ≤ m)
    (hs : step (e.state m) a = some (e.state (m + 1))) :
    ((e.state (m + 1)).threads a.thread).stage.rank ≤ ((e.state m).threads a.thread).stage.rank - 1 ∧
      (((e.state m).threads a.thread).stage.rank = 0 →
        ((e.state (m + 1)).threads a.thread).stage.workers = ((e.state m).threads a.thread).stage.workers) := by
  obtain ⟨c', t', heq, ⟨what, h⟩ | ⟨b, h⟩⟩ := step_cases hs
  · obtain ⟨h₁, h₂, h₃⟩ := begin_rank (calm.ended m hm _) h
    simp only [heq, update_self, h₁, h₂, h₃, Nat.zero_le, implies_true, and_self]
  · simp only [heq, update_self]
    exact access_rank (calm.requested m hm) h

section Fintype

variable [Fintype τ]

theorem Calm.eventually_settled (calm : Calm e n) (fair : Fair e) : ∀ᶠ m in atTop, Settled (e.state m) := by
  refine Filter.eventually_all.mpr fun j => ?_
  refine fair.eventually_rank_zero (fun t => t.stage.rank) (fun t ht => ?_) (n := n) fun m hm a ha hs => ?_
  · refine ⟨fun h => ?_, fun h => ?_⟩ <;> rw [h] at ht <;> cases ht
  · subst ha
    exact (calm.step_rank hm hs).1

omit [DecidableEq τ] in
theorem settled_counters (inv : Inv s) (settled : Settled s) (ended : ∀ j, (s.threads j).stage ≠ .inCall) :
    s.counters.nWorkersInWork = s.counters.nInWorkRequests := by
  rw [inv.workers, inv.inWorkRequests]
  refine Finset.sum_congr rfl fun j _ => ?_
  have h₁ := settled j
  have h₂ := ended j
  cases hj : (s.threads j).stage with
  | await own _ => cases own <;> rfl
  | inCall => exact absurd hj h₂
  | loadAgain | leaveWork | countInWork =>
    rw [hj] at h₁
    cases h₁
  | _ => rfl

/-- Once settled, the two counters that a request inside a call compares are equal and stay as they are. -/
theorem Calm.counters_eq (calm : Calm e n) {N : Nat} (hN : n ≤ N) (settled : ∀ m ≥ N, Settled (e.state m)) :
    ∀ m ≥ N, (e.state m).counters.nWorkersInWork = (e.state N).counters.nWorkersInWork ∧
      (e.state m).counters.nInWorkRequests = (e.state N).counters.nWorkersInWork := by
  have inv (m : Nat) : Inv (e.state m) := inv_of_reachable (e.reachable m)
  suffices hW : ∀ m ≥ N, (e.state m).counters.nWorkersInWork = (e.state N).counters.nWorkersInWork from
    fun m hm => ⟨hW m hm, by
      rw [← settled_counters (inv m) (settled m hm) (calm.ended m (hN.trans hm))]
      exact hW m hm⟩
  intro m hm
  induction m, hm using Nat.le_induction with
  | base => rfl
  | succ m hm ih =>
    rw [← ih, (inv m).workers, (inv (m + 1)).workers]
    refine Finset.sum_congr rfl fun j _ => ?_
    obtain heq | ⟨a, -, hs⟩ := e.next_cases m
    · rw [heq]
    · by_cases hj : a.thread = j
      · subst hj
        exact (calm.step_rank (hN.trans hm) hs).2 (settled m hm _)
      · have hj' : (e.state (m + 1)).threads j = (e.state m).threads j := (threads τ).frame hs j (Ne.symm hj)
        rw [hj']

/-- A request inside a call does not wait for ever then: its next two reads find equal counters. -/
theorem Calm.not_waits (calm : Calm e n) (fair : Fair e) :
    ¬ ∀ m ≥ n, ((e.state m).threads i).stage.waits = true ∧ 1 ≤ ((e.state m).threads i).stage.requests := by
  intro waits
  obtain ⟨N, hN⟩ := (Filter.eventually_atTop.mp (calm.eventually_settled fair))
  have counters := calm.counters_eq (le_max_left n N) fun m hm => hN m (le_of_max_le_right hm)
  generalize (e.state (max n N)).counters.nWorkersInWork = w at counters
  -- at each time the request is in its loop
  have loop : ∀ m ≥ max n N, ∃ a, a ≠ .countRequest ∧ ((e.state m).threads i).stage = .await true a := by
    intro m hm
    obtain ⟨h₁, h₂⟩ := waits m (le_of_max_le_left hm)
    have h₃ := hN m (le_of_max_le_right hm) i
    cases ht : ((e.state m).threads i).stage with
    | await own a =>
      rw [ht] at h₁ h₂
      cases own with
      | false => cases h₁
      | true =>
        refine ⟨a, fun ha => ?_, rfl⟩
        subst ha
        cases h₂
    | uncountInWork => exact absurd ht (calm.not_uncountInWork fair (le_of_max_le_left hm))
    | countInWork =>
      rw [ht] at h₃
      cases h₃
    | _ =>
      rw [ht] at h₁
      cases h₁
  have wait_busy {m : Nat} {a : Await} (ht : ((e.state m).threads i).stage = .await true a) :
      ((e.state m).threads i).Busy := Stage.busy_of_waits (by rw [ht]; rfl)
  -- so a comparison that it makes leads back to the loop's condition
  have compared {m : Nat} (hm : max n N ≤ m) {t : Thread} {x y : Nat}
      (ht : (e.state m).threads i = t.compare true x y) : y < x ∧ ((e.state m).threads i).stage = .await true .condition := by
    obtain ⟨a, -, ha⟩ := loop m hm
    rw [ht] at ha ⊢
    simp only [Thread.compare] at ha ⊢
    split at ha
    · next hlt => exact ⟨hlt, by rw [if_pos hlt]; rfl⟩
    · cases ha
  have condition : ∃ m ≥ max n N, ((e.state m).threads i).stage = .await true .condition := by
    obtain ⟨a, hc, ht⟩ := loop (max n N) le_rfl
    obtain ⟨m, hm, -, b, ha⟩ := next_access fair (wait_busy ht)
    simp only [access, ht] at ha
    cases a with
    | countRequest => exact absurd rfl hc
    | condition => exact ⟨max n N, le_rfl, ht⟩
    | workersRead _ | callsAllowed _ =>
      exact ⟨m + 1, by omega, (compared (by omega) (Prod.mk.inj (Option.some.inj ha)).2.symm).2⟩
  obtain ⟨m, hm, ht⟩ := condition
  obtain ⟨m₁, hm₁, -, b, ha⟩ := next_access fair (wait_busy ht)
  simp only [access, ht] at ha
  have ht₁ := congrArg Thread.stage (Prod.mk.inj (Option.some.inj ha)).2.symm
  have hb : ((e.state (m₁ + 1)).threads i).Busy := by
    obtain ⟨a, -, ha⟩ := loop (m₁ + 1) (by omega)
    exact wait_busy ha
  obtain ⟨m₂, hm₂, -, b', ha₂⟩ := next_access fair hb
  obtain ⟨hW, hI⟩ := counters m₂ (by omega)
  simp only [access] at ha₂
  cases b with
  | true =>
    simp only [ht₁, Thread.setStage, if_true, (counters m₁ (by omega)).1, Counters.nCallsAllowed, hI] at ha₂
    exact absurd (compared (m := m₂ + 1) (by omega) (Prod.mk.inj (Option.some.inj ha₂)).2.symm).1 (lt_irrefl w)
  | false =>
    simp only [ht₁, Thread.setStage, Bool.false_eq_true, if_false, Counters.nCallsAllowed, if_true,
      (counters m₁ (by omega)).2, hW] at ha₂
    exact absurd (compared (m := m₂ + 1) (by omega) (Prod.mk.inj (Option.some.inj ha₂)).2.symm).1 (lt_irrefl w)

/-- A request that waits at `n` returns into its call. -/
def Returns (e : Execution (system τ)) (i : τ) (n : Nat) : Prop := ∃ m ≥ n, ((e.state m).threads i).stage = .inCall

/-- While a request never returns it keeps the threads out of the call. -/
theorem requested_of_never (fair : Fair e) (hw : ((e.state n).threads i).stage.waits = true)
    (never : ¬ Returns e i n) : ∃ N ≥ n, ∀ m ≥ N, (((e.state m).threads i).stage.waits = true ∧
      1 ≤ ((e.state m).threads i).stage.requests) ∧ 0 < (e.state m).counters.nWorkQuiescenceRequests := by
  obtain ⟨N, hN, h⟩ := requests_of_waits fair (fun m hm ht => never ⟨m, hm, ht⟩) hw
  refine ⟨N, hN, fun m hm => ⟨h m hm, ?_⟩⟩
  have h₁ := (h m hm).2
  have h₂ := le_count (inv_of_reachable (e.reachable m)).requests i
  simp only [Thread.requests] at h₂
  omega

theorem returns_of_ended (fair : Fair e) (hw : ((e.state n).threads i).stage.waits = true)
    (ended : ∃ N, ∀ m ≥ N, (∀ k, n ≤ k → k ≤ m → ((e.state k).threads i).stage.waits = true) →
      ∀ j, j ≠ i → ((e.state m).threads j).stage ≠ .inCall) : Returns e i n := by
  by_contra never
  have waits := waits_from (fun m hm ht => never ⟨m, hm, ht⟩) le_rfl hw (Nat.zero_le _)
  obtain ⟨N, hN, h⟩ := requested_of_never fair hw never
  obtain ⟨N', ended⟩ := ended
  have calm : Calm e (max N N') := by
    refine ⟨fun m hm => (h m (le_of_max_le_left hm)).2, fun m hm j ht => ?_⟩
    by_cases hj : j = i
    · subst hj
      exact never ⟨m, hN.trans (le_of_max_le_left hm), ht⟩
    · exact ended m (le_of_max_le_right hm) (fun k hk _ => (waits k hk).1) j hj ht
  exact calm.not_waits fair fun m hm => (h m (le_of_max_le_left hm)).1

theorem returns_of_ends (fair : Fair e) (hw : ((e.state n).threads i).stage.waits = true)
    (ends : ∀ j, j ≠ i → ∀ m ≥ n, ((e.state m).threads j).stage.working = true →
      (∃ k ≥ m, ((e.state k).threads j).stage.working = false) ∨
        ∃ k ≥ m, ∀ l ≥ k, ((e.state l).threads j).stage.waits = true) : Returns e i n := by
  by_contra never
  obtain ⟨N, hN, h⟩ := requested_of_never fair hw never
  have out : ∀ j k, N ≤ k → ((e.state k).threads j).stage.working = false →
      ∀ᶠ m in atTop, ((e.state m).threads j).stage ≠ .inCall := by
    intro j k hk hout
    refine Filter.eventually_atTop.mpr ⟨k, fun m hm => ?_⟩
    suffices hm : ((e.state m).threads j).stage.working = false by
      rintro ht
      rw [ht] at hm
      cases hm
    refine e.always_of_step (P := fun s => (s.threads j).stage.working = false) hout (fun m hm a hout hs => ?_) m hm
    have hQ := (h m (hk.trans hm)).2
    by_cases hj : a.thread = j
    · subst hj
      obtain ⟨c', t', heq, moves⟩ := step_moves (inv_of_reachable (e.reachable m)) hs
      by_contra hin
      rw [heq] at hin
      simp only [update_self] at hin
      obtain hin | hq := moves.enters (Bool.of_not_eq_false hin)
      · rw [hin] at hout
        cases hout
      · omega
    · have hj' : (e.state (m + 1)).threads j = (e.state m).threads j := (threads τ).frame hs j (Ne.symm hj)
      rwa [hj']
  have ended : ∀ᶠ m in atTop, ∀ j, j ≠ i → ((e.state m).threads j).stage ≠ .inCall := by
    refine Filter.eventually_all.mpr fun j => ?_
    by_cases hj : j = i
    · exact .of_forall fun _ h => absurd hj h
    refine .mono (p := fun m => ((e.state m).threads j).stage ≠ .inCall) ?_ fun m hm _ => hm
    cases hN' : ((e.state N).threads j).stage.working with
    | false => exact out j N le_rfl hN'
    | true =>
      obtain ⟨k, hk, hout⟩ | ⟨k, _, hwait⟩ := ends j hj N hN hN'
      · exact out j k hk hout
      · refine Filter.eventually_atTop.mpr ⟨k, fun m hm ht => ?_⟩
        have := hwait m hm
        rw [ht] at this
        cases this
  obtain ⟨N', hN'⟩ := Filter.eventually_atTop.mp ended
  exact never (returns_of_ended fair hw ⟨N', fun m hm _ => hN' m hm⟩)

end Fintype

/-! ### Work quiescence -/

/-- From the return of a request made outside work to its release no thread is inside the wrapped call. In every run in
    which the threads go on, a request made inside a call returns if, as long as it waits, the other calls have from
    some time on all ended or wait in such a request; and so it does where each of them ends or waits for good. -/
theorem work_quiescence (τ : Type) [DecidableEq τ] [Fintype τ] :
    (∀ s, (system τ).Reachable s → ∀ i, 0 < (s.threads i).heldOutside → ∀ j, (s.threads j).stage.working = false) ∧
    (∀ e : Execution (system τ), Fair e → ∀ i n, ((e.state n).threads i).stage.waits = true →
      (∃ N, ∀ m ≥ N, (∀ k, n ≤ k → k ≤ m → ((e.state k).threads i).stage.waits = true) →
        ∀ j, j ≠ i → ((e.state m).threads j).stage ≠ .inCall) → Returns e i n) ∧
    ∀ e : Execution (system τ), Fair e → ∀ i n, ((e.state n).threads i).stage.waits = true →
      (∀ j, j ≠ i → ∀ m ≥ n, ((e.state m).threads j).stage.working = true →
        (∃ k ≥ m, ((e.state k).threads j).stage.working = false) ∨
          ∃ k ≥ m, ∀ l ≥ k, ((e.state l).threads j).stage.waits = true) → Returns e i n :=
  ⟨fun _ h i hi => (inv_of_reachable h).drained i (.inl hi), fun _ fair _ _ hw => returns_of_ended fair hw,
    fun _ fair _ _ hw => returns_of_ends fair hw⟩

theorem neZero_threads : NeZero 2 := ⟨by decide⟩

-- numerals for the threads
scoped instance someThreads : NeZero 2 := neZero_threads

/-- Two calls make a request each. The first to return ends its call, and the other returns after it. -/
def twoRequests : List (Act (Fin 2)) :=
  [.begin 0 .callAsWork, .access 0 true, .access 0 true, .access 0 true,
    .begin 1 .callAsWork, .access 1 true, .access 1 true, .access 1 true,
    .begin 0 .requestQuiescenceOfOtherWork, .begin 1 .requestQuiescenceOfOtherWork,
    .access 0 true, .access 1 true, .access 0 true, .access 1 true,
    .access 0 true, .access 0 true, .access 0 true, .access 1 false, .access 1 false,
    .begin 0 .endCall, .access 0 true, .access 1 true, .access 1 true, .access 1 true]

theorem twoRequests_run : ((system (Fin 2)).run (start (Fin 2)) twoRequests).isSome := by decide

theorem work_quiescence_twoRequests :
    ∃ e : Execution (system (Fin 2)), Fair e ∧ ((e.state 18).threads 1).stage.waits = true ∧ Returns e 1 18 := by
  let e := (system (Fin 2)).execution twoRequests rfl twoRequests_run
  have fair : Fair e := Transition.System.fair_execution rfl twoRequests_run (threads (Fin 2)) (by decide)
  have hw : ((e.state 18).threads 1).stage.waits = true := by decide
  refine ⟨e, fair, hw, (work_quiescence (Fin 2)).2.1 e fair 1 18 hw ⟨20, ?_⟩⟩
  have ended := Transition.System.always_execution rfl twoRequests_run (n := 20) (by decide)
    (P := fun s => ∀ j, j ≠ 1 → (s.threads j).stage ≠ .inCall) (by decide)
  exact fun m hm _ => ended m hm

end GnuRadio.Quiescence
