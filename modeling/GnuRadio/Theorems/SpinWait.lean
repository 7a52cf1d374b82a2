import GnuRadio.Buffer.SpinWait
import Mathlib.Algebra.Order.Ring.Int

/-! When `spinUntil()` keeps its timeout. The loop stops at the first test at which it has an answer, so a call is told by
    the answers that the single tests have. -/

namespace GnuRadio.SpinWait

variable {p : Params} {w : Surroundings} {t : Int}

/-! ### The answer of one test -/

/-- What the loop answers at test `k`, if anything. -/
def answerAt (p : Params) (w : Surroundings) (t : Int) (k : Nat) : Option Bool :=
  if w.condition k then some true
  else if t = 0 then some false
  else if t ≠ 1 ∧ nextSpinWillYield p (countAfter p (k + 1)) ∧ t ≤ w.tickCount k - startTime w t then some false
  else none

theorem countAfter_succ (k : Nat) : countAfter p (k + 1) = spinOnce p (countAfter p k) :=
  Function.iterate_succ_apply' _ _ _

theorem loop_succ (fuel k : Nat) :
    loop p w t (fuel + 1) k (countAfter p k) =
      match answerAt p w t k with
      | some b => some ⟨b, k⟩
      | none => loop p w t fuel (k + 1) (countAfter p (k + 1)) := by
  simp only [loop, answerAt, ← countAfter_succ]
  by_cases hc : w.condition k = true
  · simp only [hc, if_true]
  · by_cases ht : t = 0
    · simp only [hc, ht, if_true, if_false, Bool.false_eq_true]
    · simp only [hc, ht, if_false, Bool.false_eq_true]
      split <;> rfl

theorem answerAt_eq_true {k : Nat} : answerAt p w t k = some true ↔ w.condition k = true := by
  unfold answerAt
  by_cases hc : w.condition k = true
  · simp [hc]
  · simp only [hc, Bool.false_eq_true, if_false, iff_false]
    split
    · simp
    · split <;> simp

theorem answerAt_eq_false {k : Nat} :
    answerAt p w t k = some false ↔ w.condition k = false ∧
      (t = 0 ∨ t ≠ 1 ∧ nextSpinWillYield p (countAfter p (k + 1)) = true ∧ t ≤ w.tickCount k - startTime w t) := by
  unfold answerAt
  cases hc : w.condition k with
  | true => simp
  | false =>
    by_cases ht : t = 0
    · simp [ht]
    · simp [ht]

/-! ### The first answer -/

/-- From test `k` on the loop returns the first answer, where it may make enough tests. -/
theorem loop_eq_some {b : Bool} {n : Nat} (fuel k : Nat) :
    loop p w t fuel k (countAfter p k) = some ⟨b, n⟩ ↔
      k ≤ n ∧ n < k + fuel ∧ answerAt p w t n = some b ∧ ∀ j, k ≤ j → j < n → answerAt p w t j = none := by
  induction fuel generalizing k with
  | zero =>
    simp only [loop, reduceCtorEq, false_iff]
    rintro ⟨hkn, hnk, -, -⟩
    omega
  | succ fuel ih =>
    rw [loop_succ]
    cases hk : answerAt p w t k with
    | some c =>
      simp only [Option.some.injEq, Answer.mk.injEq]
      constructor
      · rintro ⟨rfl, rfl⟩
        exact ⟨le_refl _, by omega, hk, fun j hj hlt => by omega⟩
      · rintro ⟨hkn, -, hn, hbefore⟩
        rcases Nat.eq_or_lt_of_le hkn with rfl | hlt
        · rw [hk, Option.some.injEq] at hn
          exact ⟨hn, rfl⟩
        · have := hbefore k (le_refl _) hlt
          rw [hk] at this
          cases this
    | none =>
      simp only [ih (k + 1)]
      constructor
      · rintro ⟨hkn, hnk, hn, hbefore⟩
        refine ⟨by omega, by omega, hn, fun j hj hlt => ?_⟩
        rcases Nat.eq_or_lt_of_le hj with rfl | hkj
        · exact hk
        · exact hbefore j hkj hlt
      · rintro ⟨hkn, hnk, hn, hbefore⟩
        have hne : k ≠ n := by
          rintro rfl
          rw [hk] at hn
          cases hn
        exact ⟨by omega, by omega, hn, fun j hj hlt => hbefore j (by omega) hlt⟩

/-- A call that does not throw returns the first answer that a test has. -/
theorem returns_iff (ht : -1 ≤ t) {b : Bool} {n : Nat} :
    Returns p w t ⟨b, n⟩ ↔ answerAt p w t n = some b ∧ ∀ j < n, answerAt p w t j = none := by
  have hloop : ∀ fuel, spinUntil p w t fuel = .ok (loop p w t fuel 0 (countAfter p 0)) := by
    intro fuel
    simp only [spinUntil, if_neg (not_lt.mpr ht), pure, Except.pure]
    rfl
  unfold Returns
  simp only [hloop, Except.ok.injEq, loop_eq_some]
  constructor
  · rintro ⟨fuel, -, -, hn, hbefore⟩
    exact ⟨hn, fun j hj => hbefore j (Nat.zero_le _) hj⟩
  · rintro ⟨hn, hbefore⟩
    exact ⟨n + 1, Nat.zero_le _, by omega, hn, fun j _ hj => hbefore j hj⟩

theorem not_returns (ht : t < -1) (a : Answer) : ¬Returns p w t a := by
  rintro ⟨fuel, h⟩
  rw [spinUntil, if_pos ht] at h
  cases h

/-- A test that has an answer leaves a first one. -/
theorem exists_returns (ht : -1 ≤ t) {k : Nat} (hk : answerAt p w t k ≠ none) :
    ∃ j ≤ k, ∃ b, Returns p w t ⟨b, j⟩ := by
  induction k using Nat.strong_induction_on with
  | _ k ih =>
    by_cases hbefore : ∃ j < k, answerAt p w t j ≠ none
    · obtain ⟨j, hj, hne⟩ := hbefore
      obtain ⟨i, hi, b, hb⟩ := ih j hj hne
      exact ⟨i, by omega, b, hb⟩
    · push Not at hbefore
      obtain ⟨b, hb⟩ := Option.ne_none_iff_exists'.mp hk
      exact ⟨k, le_refl _, b, (returns_iff ht).mpr ⟨hb, hbefore⟩⟩

theorem start_le_tickCount (w : Surroundings) (k : Nat) : w.start ≤ w.tickCount k := by
  induction k with
  | zero => exact w.started
  | succ k ih => exact ih.trans (w.forward k)

/-! ### The timeout -/

/-- Where the time of a call is over before it returns, a limit of a millisecond is not kept, and without a limit the call
    returns. -/
theorem timeIsOver_breaks {k : Nat} (ht : t = -1 ∨ t = 1) (hover : TimeIsOver p w t k) : ¬KeepsTimeout p w t := by
  obtain ⟨hfalse, hyield, htime⟩ := hover
  rintro ⟨htrue, hret, hgives⟩
  rcases ht with rfl | rfl
  · have hk : answerAt p w (-1) k = some false := by
      rw [answerAt_eq_false]
      exact ⟨hfalse k (le_refl _), .inr ⟨by decide, hyield, htime⟩⟩
    obtain ⟨j, hj, b, hb⟩ := exists_returns (le_refl _) (by rw [hk]; simp)
    cases b with
    | true =>
      have := htrue j hb
      rw [hfalse j hj] at this
      cases this
    | false =>
      have := (hret j hb).1
      omega
  · have hstart : startTime w 1 = w.start := by simp [startTime]
    rw [hstart] at htime
    obtain ⟨j, -, hj⟩ := hgives (by decide) k hfalse hyield htime
    rw [returns_iff (by decide), answerAt_eq_false] at hj
    obtain ⟨⟨-, h | ⟨h, -⟩⟩, -⟩ := hj
    · omega
    · exact h rfl

theorem keeps_of_not_timeIsOver (hok : (t = -1 ∨ t = 1) → ¬∃ k, TimeIsOver p w t k) : KeepsTimeout p w t := by
  rcases lt_or_ge t (-1) with hlt | hge
  · exact ⟨fun k h => absurd h (not_returns hlt _), fun k h => absurd h (not_returns hlt _), fun h => by omega⟩
  refine ⟨?_, ?_, ?_⟩
  · intro k hk
    exact answerAt_eq_true.mp ((returns_iff hge).mp hk).1
  · intro k hk
    obtain ⟨hans, hbefore⟩ := (returns_iff hge).mp hk
    obtain ⟨hc, h0 | ⟨h1, hyield, htime⟩⟩ := answerAt_eq_false.mp hans
    · have := start_le_tickCount w k
      exact ⟨by omega, hc, by omega⟩
    · by_cases hneg : t = -1
      · -- the earlier tests gave no answer, so the condition was false there
        refine absurd ⟨k, fun j hj => ?_, hyield, htime⟩ (hok (.inl hneg))
        rcases Nat.eq_or_lt_of_le hj with rfl | hjk
        · exact hc
        · have hnone := hbefore j hjk
          by_contra htrue
          rw [answerAt_eq_true.mpr (by simpa using htrue)] at hnone
          cases hnone
      · by_cases h0 : t = 0
        · have := start_le_tickCount w k
          exact ⟨by omega, hc, by omega⟩
        · have hstart : startTime w t = w.start := by simp [startTime, h0, hneg]
          exact ⟨by omega, hc, hstart ▸ htime⟩
  · intro hpos k hfalse hyield htime
    have hk : answerAt p w t k = some false := by
      rw [answerAt_eq_false]
      refine ⟨hfalse k (le_refl _), ?_⟩
      by_cases h0 : t = 0
      · exact .inl h0
      · have hstart : startTime w t = w.start := by
          simp only [startTime, h0, ne_eq, not_false_eq_true, true_and, if_pos (show t ≠ -1 by omega)]
        refine .inr ⟨?_, hyield, hstart.symm ▸ htime⟩
        intro h1
        exact hok (.inr h1) ⟨k, hfalse, hyield, hstart.symm ▸ htime⟩
    obtain ⟨j, hj, b, hb⟩ := exists_returns hge (by rw [hk]; simp)
    cases b with
    | false => exact ⟨j, hj, hb⟩
    | true =>
      have := answerAt_eq_true.mp ((returns_iff hge).mp hb).1
      rw [hfalse j hj] at this
      cases this

/-- A call keeps its timeout except where the timeout is 1 or −1 and its time is over before the condition is true: with 1
    the loop does not stop then, with −1 it does. -/
theorem spinUntil_keepsTimeout_iff (p : Params) (w : Surroundings) (millisecondsTimeout : Int) :
    KeepsTimeout p w millisecondsTimeout ↔
      (millisecondsTimeout = -1 ∨ millisecondsTimeout = 1 → ¬∃ k, TimeIsOver p w millisecondsTimeout k) := by
  constructor
  · rintro hkeeps ht ⟨k, hover⟩
    exact timeIsOver_breaks ht hover hkeeps
  · exact keeps_of_not_timeIsOver

/-- The default parameters, a condition that is never true, and a clock that begins at 0 and counts the spins. -/
def neverTrue : Surroundings := ⟨fun _ => false, 0, fun k => k, by decide, by intro k; omega⟩

/-- Without a timeout the call returns `false` after the eleventh spin. -/
theorem unlimited_returns_false : ¬KeepsTimeout ⟨10⟩ neverTrue (-1) := by
  intro h
  have := (h.returns_false 10 ⟨11, by decide⟩).1
  omega

end GnuRadio.SpinWait
