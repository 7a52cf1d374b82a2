import GnuRadio.Library.Transition
import Mathlib.Algebra.BigOperators.Group.Finset.Piecewise
import Mathlib.Algebra.Order.BigOperators.Group.Finset
import Mathlib.Order.Filter.AtTopBot.Basic

/-! Infinite runs of a system of threads, and what happens in them when every busy thread goes on. -/

namespace Transition

open Function

open Filter (atTop)

universe u v w x

variable {σ : Type u} {α : Type v} {ι : Type w} {β : Type x}

/-- An infinite run. Where no label is given the state stays as it is. -/
structure Execution (M : System σ α) where
  state : Nat → σ
  label : Nat → Option α
  start : M.start (state 0)
  next : ∀ n, match label n with
    | some a => M.step (state n) a = some (state (n + 1))
    | none => state (n + 1) = state n

/-- Every label is a step of one thread and changes the local state of that thread only. -/
structure Threads (M : System σ α) (ι : Type w) (β : Type x) where
  owner : α → ι
  loc : σ → ι → β
  frame : ∀ {s a t}, M.step s a = some t → ∀ j, j ≠ owner a → loc t j = loc s j

namespace Execution

variable {M : System σ α} (e : Execution M)

theorem next_cases (n : Nat) : e.state (n + 1) = e.state n ∨
    ∃ a, e.label n = some a ∧ M.step (e.state n) a = some (e.state (n + 1)) := by
  have h := e.next n
  cases hl : e.label n with
  | none =>
    rw [hl] at h
    exact .inl h
  | some a =>
    rw [hl] at h
    exact .inr ⟨a, rfl, h⟩

theorem step_of_label {n : Nat} {a : α} (h : e.label n = some a) :
    M.step (e.state n) a = some (e.state (n + 1)) := by
  have hn := e.next n
  rwa [h] at hn

theorem reachable (n : Nat) : M.Reachable (e.state n) := by
  induction n with
  | zero => exact .start e.start
  | succ n ih =>
    obtain h | ⟨a, -, h⟩ := e.next_cases n
    · rwa [h]
    · exact .step ih trivial h

/-- What every step from `n` on keeps holds from `n` on. -/
theorem always_of_step {P : σ → Prop} {n : Nat} (h : P (e.state n))
    (step : ∀ m ≥ n, ∀ a, P (e.state m) → M.step (e.state m) a = some (e.state (m + 1)) → P (e.state (m + 1))) :
    ∀ m ≥ n, P (e.state m) := by
  intro m hm
  induction m, hm using Nat.le_induction with
  | base => exact h
  | succ m hm ih =>
    obtain heq | ⟨a, -, hs⟩ := e.next_cases m
    · rwa [heq]
    · exact step m hm a ih hs

variable (T : Threads M ι β) {busy : β → Prop} {i : ι} {n : Nat}

/-- A thread that is busy goes on. -/
def Fair (busy : β → Prop) : Prop :=
  ∀ i n, busy (T.loc (e.state n) i) → ∃ m ≥ n, ∃ a, e.label m = some a ∧ T.owner a = i

variable {e T}

/-- The next step of a busy thread finds the local state as it is. -/
theorem Fair.next_step (h : e.Fair T busy) (hb : busy (T.loc (e.state n) i)) :
    ∃ m ≥ n, ∃ a, T.owner a = i ∧ M.step (e.state m) a = some (e.state (m + 1)) ∧
      T.loc (e.state m) i = T.loc (e.state n) i := by
  classical
  have hex : ∃ m, n ≤ m ∧ ∃ a, e.label m = some a ∧ T.owner a = i := h i n hb
  obtain ⟨hm, a, hl, ha⟩ := Nat.find_spec hex
  refine ⟨Nat.find hex, hm, a, ha, e.step_of_label hl, ?_⟩
  -- before its next step the thread does not move
  have stays : ∀ m ≥ n, m ≤ Nat.find hex → T.loc (e.state m) i = T.loc (e.state n) i := by
    intro m hnm
    induction m, hnm using Nat.le_induction with
    | base => exact fun _ => rfl
    | succ m hnm ih =>
      intro hlt
      rw [← ih (by omega)]
      obtain heq | ⟨b, hb, hs⟩ := e.next_cases m
      · rw [heq]
      · exact T.frame hs i fun hi => Nat.find_min hex hlt ⟨hnm, b, hb, hi.symm⟩
  exact stays _ hm le_rfl

/-- A rank of a thread's local state that no step raises from `n` on, and that each step of the thread lowers while it
    is positive, ends at zero. -/
theorem Fair.eventually_rank_zero (h : e.Fair T busy) (rank : β → Nat) (hbusy : ∀ b, 0 < rank b → busy b)
    (step : ∀ m ≥ n, ∀ a, T.owner a = i → M.step (e.state m) a = some (e.state (m + 1)) →
      rank (T.loc (e.state (m + 1)) i) ≤ rank (T.loc (e.state m) i) - 1) :
    ∀ᶠ m in atTop, rank (T.loc (e.state m) i) = 0 := by
  have bounded : ∀ k n', n ≤ n' → rank (T.loc (e.state n') i) ≤ k → ∀ m ≥ n', rank (T.loc (e.state m) i) ≤ k := by
    intro k n' hn' h0 m hm
    refine e.always_of_step (P := fun s => rank (T.loc s i) ≤ k) h0 (fun m hm a hk hs => ?_) m hm
    by_cases ha : T.owner a = i
    · have := step m (by omega) a ha hs
      omega
    · rwa [T.frame hs i fun hi => ha hi.symm]
  suffices lower : ∀ k n', n ≤ n' → rank (T.loc (e.state n') i) ≤ k → ∃ m ≥ n', rank (T.loc (e.state m) i) = 0 by
    obtain ⟨m, hm, hz⟩ := lower _ n le_rfl le_rfl
    exact Filter.eventually_atTop.mpr ⟨m, fun m' hm' => Nat.le_zero.mp (bounded 0 m hm hz.le m' hm')⟩
  intro k
  induction k with
  | zero => exact fun n' _ hk => ⟨n', le_rfl, Nat.le_zero.mp hk⟩
  | succ k ih =>
    intro n' hn' hk
    rcases Nat.eq_zero_or_pos (rank (T.loc (e.state n') i)) with hz | hpos
    · exact ⟨n', le_rfl, hz⟩
    obtain ⟨m, hm, a, ha, hs, hloc⟩ := h.next_step (hbusy _ hpos)
    have hlt := step m (by omega) a ha hs
    rw [hloc] at hlt
    obtain ⟨m', hm', hz⟩ := ih (m + 1) (by omega) (by omega)
    exact ⟨m', by omega, hz⟩

end Execution

/-! ### A finite run, continued for ever without a step -/

namespace System

/-- The state after the first `n` labels. -/
def stateAt (M : System σ α) (s : σ) : List α → Nat → σ
  | [], _ | _ :: _, 0 => s
  | a :: as, n + 1 =>
    match M.step s a with
    | some t => M.stateAt t as n
    | none => s

variable (M : System σ α)

theorem stateAt_zero (s : σ) (as : List α) : M.stateAt s as 0 = s := by
  cases as <;> rfl

theorem stateAt_next {s : σ} {as : List α} (hr : (M.run s as).isSome) (n : Nat) :
    match as[n]? with
    | some a => M.step (M.stateAt s as n) a = some (M.stateAt s as (n + 1))
    | none => M.stateAt s as (n + 1) = M.stateAt s as n := by
  induction as generalizing s n with
  | nil => rfl
  | cons a as ih =>
    cases hs : M.step s a with
    | none =>
      rw [run, hs] at hr
      cases hr
    | some t =>
      rw [run, hs] at hr
      cases n with
      | zero =>
        rw [List.getElem?_cons_zero]
        simp only [stateAt, hs, stateAt_zero]
      | succ n =>
        rw [List.getElem?_cons_succ]
        simpa only [stateAt, hs] using ih hr n

/-- The run on the labels of a list, which stays in its last state. -/
def execution (as : List α) {s : σ} (h : M.start s) (hr : (M.run s as).isSome) : Execution M where
  state := M.stateAt s as
  label n := as[n]?
  start := (M.stateAt_zero s as).symm ▸ h
  next := M.stateAt_next hr

theorem stateAt_of_length_le {s : σ} {as : List α} {n : Nat} (hn : as.length ≤ n) :
    M.stateAt s as n = M.stateAt s as as.length := by
  induction as generalizing s n with
  | nil => rfl
  | cons a as ih =>
    obtain ⟨n, rfl⟩ : ∃ k, n = k + 1 := ⟨n - 1, by rw [List.length_cons] at hn; omega⟩
    rw [List.length_cons] at hn ⊢
    simp only [stateAt]
    cases M.step s a with
    | none => rfl
    | some t => exact ih (Nat.le_of_succ_le_succ hn)

variable {M}

/-- What holds in the states of the list from `n` on holds from `n` on. -/
theorem always_execution {as : List α} {s : σ} (h : M.start s) (hr : (M.run s as).isSome) {P : σ → Prop} {n : Nat}
    (hn : n ≤ as.length) (all : ∀ m ≤ as.length, n ≤ m → P (M.stateAt s as m)) :
    ∀ m ≥ n, P ((M.execution as h hr).state m) := by
  intro m hm
  rcases Nat.le_total m as.length with hle | hle
  · exact all m hle hm
  · simp only [execution, M.stateAt_of_length_le hle]
    exact all _ le_rfl hn

/-- The continued run is fair if each thread that is busy in it has a label to come, in the list. -/
theorem fair_execution {as : List α} {s : σ} (h : M.start s) (hr : (M.run s as).isSome) (T : Threads M ι β)
    {busy : β → Prop} (all : ∀ n ≤ as.length, ∀ i, busy (T.loc (M.stateAt s as n) i) →
      ∃ m < as.length, n ≤ m ∧ (as[m]?).map T.owner = some i) : (M.execution as h hr).Fair T busy := by
  intro i n hb
  rcases Nat.le_total n as.length with hle | hle
  · obtain ⟨m, -, hm, hi⟩ := all n hle i hb
    obtain ⟨a, ha, rfl⟩ := Option.map_eq_some_iff.mp hi
    exact ⟨m, hm, a, ha, rfl⟩
  · simp only [execution, M.stateAt_of_length_le hle] at hb
    obtain ⟨m, hlt, hm, -⟩ := all _ le_rfl i hb
    omega

end System

/-! ### A number for each thread -/

section Sum

variable [Fintype ι]

theorem le_sum (f : β → Nat) (g : ι → β) (i : ι) : f (g i) ≤ ∑ j, f (g j) :=
  Finset.single_le_sum (f := fun j => f (g j)) (fun _ _ => Nat.zero_le _) (Finset.mem_univ i)

/-- The sum over the threads after a change of one of them. -/
theorem sum_update [DecidableEq ι] (f : β → Nat) (g : ι → β) (i : ι) (b : β) :
    ∑ j, f (update g i b j) + f (g i) = ∑ j, f (g j) + f b := by
  have rest : ∑ j ∈ Finset.univ.erase i, f (update g i b j) = ∑ j ∈ Finset.univ.erase i, f (g j) :=
    Finset.sum_congr rfl fun j hj => by rw [update_of_ne (Finset.ne_of_mem_erase hj)]
  rw [← Finset.add_sum_erase _ _ (Finset.mem_univ i), rest, update_self,
    ← Finset.add_sum_erase Finset.univ (fun j => f (g j)) (Finset.mem_univ i)]
  omega

end Sum

end Transition
