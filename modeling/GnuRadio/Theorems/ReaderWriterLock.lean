import GnuRadio.ReaderWriterLock

/-! A read lock and a write lock are never held at the same time, and a call that nobody disturbs takes its lock where
    none of the other type is held. -/

namespace GnuRadio.ReaderWriterLock

open Function

variable {τ : Type} [DecidableEq τ] [Fintype τ] {s t : State τ} {i : τ}

def State.locks (s : State τ) (lockType : LockType) : Nat := ∑ i, (s.threads i).held lockType

/-- A compare-exchange expects no lock of the other type. -/
def Thread.Expects (t : Thread) : Prop :=
  ∀ lockType mayWait expected, t.stage = .compareExchange lockType mayWait expected → 0 ≤ lockType.increment * expected

/-- The counter counts the locks of the type that is held. -/
structure Inv (s : State τ) : Prop where
  count : s.activeReaderCount = s.locks .read - s.locks .write
  one : s.locks .read = 0 ∨ s.locks .write = 0
  expects : ∀ i, (s.threads i).Expects

theorem locks_update (value : Int) (thread : Thread) (lockType : LockType) :
    (⟨value, update s.threads i thread⟩ : State τ).locks lockType + (s.threads i).held lockType =
      s.locks lockType + thread.held lockType :=
  Transition.sum_update (fun thread => thread.held lockType) s.threads i thread

theorem expected_sound (value : Int) (lockType : LockType) : 0 ≤ lockType.increment * lockType.expected value := by
  cases lockType <;> simp only [LockType.increment, LockType.expected] <;> split <;> omega

/-- A thread that keeps its locks, and expects only what it may. -/
theorem Inv.goesOn (h : Inv s) {thread : Thread} (hheld : thread.held = (s.threads i).held) (hexpects : thread.Expects) :
    Inv ⟨s.activeReaderCount, update s.threads i thread⟩ := by
  have hlocks lockType : (⟨s.activeReaderCount, update s.threads i thread⟩ : State τ).locks lockType = s.locks lockType := by
    have := locks_update (s := s) (i := i) s.activeReaderCount thread lockType
    rw [hheld] at this
    omega
  refine ⟨?_, ?_, (forall_update_iff _ fun _ => Thread.Expects).mpr ⟨hexpects, fun j _ => h.expects j⟩⟩
  · rw [hlocks, hlocks]
    exact h.count
  · rw [hlocks, hlocks]
    exact h.one

/-- A thread that is outside with one lock more or less. -/
theorem Inv.changes (h : Inv s) (lockType : LockType) {n : Nat} {value d : Int}
    (hvalue : value = s.activeReaderCount + lockType.increment * d) (hn : n = (s.threads i).held lockType + d)
    (hone : s.locks lockType.other = 0) :
    Inv ⟨value, update s.threads i ⟨.outside, update (s.threads i).held lockType n⟩⟩ := by
  have hcount := h.count
  have hread := locks_update (s := s) (i := i) value ⟨.outside, update (s.threads i).held lockType n⟩ .read
  have hwrite := locks_update (s := s) (i := i) value ⟨.outside, update (s.threads i).held lockType n⟩ .write
  refine ⟨?_, ?_, (forall_update_iff _ fun _ => Thread.Expects).mpr ⟨nofun, fun j _ => h.expects j⟩⟩
  · cases lockType <;> simp [LockType.increment] at hread hwrite hvalue ⊢ <;> omega
  · cases lockType <;> simp [LockType.other] at hread hwrite hone ⊢ <;> omega

omit [DecidableEq τ] in
theorem Inv.other (h : Inv s) {lockType : LockType} (hpos : 0 ≤ lockType.increment * s.activeReaderCount ∨
    0 < (s.threads i).held lockType) : s.locks lockType.other = 0 := by
  have hcount := h.count
  have hone := h.one
  have hheld : (s.threads i).held lockType ≤ s.locks lockType :=
    Transition.le_sum (fun thread => thread.held lockType) s.threads i
  cases lockType <;> simp only [LockType.increment, LockType.other] at * <;> omega

theorem Inv.step {a : Act τ} (h : Inv s) (hs : step s a = some t) : Inv t := by
  cases a with
  | call i lockType mayWait =>
    dsimp only [ReaderWriterLock.step] at hs
    split_ifs at hs
    cases hs
    exact h.goesOn rfl nofun
  | access i =>
    obtain ⟨⟨value, thread⟩, haccess, rfl⟩ := Option.map_eq_some_iff.mp hs
    unfold Thread.access at haccess
    cases hstage : (s.threads i).stage with
    | outside =>
      rw [hstage] at haccess
      cases haccess
    | load lockType mayWait =>
      rw [hstage] at haccess
      cases haccess
      refine h.goesOn rfl ?_
      rintro _ _ _ ⟨⟩
      exact expected_sound ..
    | compareExchange lockType mayWait expected =>
      rw [hstage] at haccess
      dsimp only at haccess
      split_ifs at haccess with hvalue hwait
      · cases haccess
        have hexpected := h.expects i _ _ _ hstage
        rw [← hvalue] at hexpected ⊢
        exact h.changes (i := i) (d := 1) lockType (by omega) (by omega) (h.other (i := i) (.inl hexpected))
      · cases haccess
        refine h.goesOn rfl ?_
        rintro _ _ _ ⟨⟩
        exact expected_sound ..
      · cases haccess
        exact h.goesOn rfl nofun
  | unlock i lockType =>
    dsimp only [ReaderWriterLock.step] at hs
    split_ifs at hs with hheld
    cases hs
    rw [hheld.1]
    exact h.changes (i := i) (d := -1) lockType (by omega) (by omega) (h.other (.inr hheld.2))

theorem inv_of_reachable (h : (system τ).Reachable s) : Inv s := by
  refine h.invariant ?_ fun _ _ _ hs _ hstep => hs.step hstep
  rintro _ rfl
  exact ⟨by simp [State.locks], .inl (by simp [State.locks]), nofun⟩

/-- No interleaving of calls holds a read lock and a write lock at once. -/
theorem exclusive (h : (system τ).Reachable s) :
    s.activeReaderCount = (∑ i, (s.threads i).held .read : Nat) - (∑ i, (s.threads i).held .write : Nat) ∧
      ∀ i j, 0 < (s.threads i).held .read → (s.threads j).held .write = 0 := by
  have hinv := inv_of_reachable h
  refine ⟨hinv.count, fun i j hi => ?_⟩
  have hnone := hinv.other (.inr hi)
  have hle := Transition.le_sum (fun thread => thread.held .write) s.threads j
  exact Nat.le_zero.mp (hle.trans_eq hnone)

theorem exclusive_both : ∃ s : State Bool, 0 < (s.threads true).held .read ∧ (s.threads false).held .write = 0 :=
  have hreach := (system Bool).reachable_get [.call true .read true, .access true, .access true] rfl (by decide)
  ⟨_, by decide, (exclusive hreach).2 true false (by decide)⟩

/-- A call that nobody disturbs takes its lock exactly where no thread holds one of the other type. -/
theorem taken_iff (h : (system τ).Reachable s) (hi : (s.threads i).stage = .outside) (lockType : LockType) (mayWait : Bool) :
    ∃ t, (system τ).run s [.call i lockType mayWait, .access i, .access i] = some t ∧
      ((t.threads i).held lockType = (s.threads i).held lockType + 1 ↔ ∀ j, (s.threads j).held lockType.other = 0) := by
  have hinv := inv_of_reachable h
  have hnone : s.activeReaderCount = lockType.expected s.activeReaderCount ↔ s.locks lockType.other = 0 := by
    have hcount := hinv.count
    have hone := hinv.one
    cases lockType <;> simp only [LockType.expected, LockType.other] <;> split <;> omega
  rw [State.locks, Finset.sum_eq_zero_iff] at hnone
  simp only [Finset.mem_univ, true_imp_iff] at hnone
  simp only [system, Transition.System.run, step, hi, if_true, Option.bind_some, Thread.access, update_self, Option.map_some,
    ← hnone]
  split_ifs with hvalue hwait
  · exact ⟨_, rfl, iff_of_true (by simp) hvalue⟩
  · exact ⟨_, rfl, iff_of_false (by simp) hvalue⟩
  · exact ⟨_, rfl, iff_of_false (by simp) hvalue⟩

theorem taken_iff_both : ∃ s t : State Bool, (system Bool).run s [.call false .write false, .access false, .access false] =
    some t ∧ (t.threads false).held .write ≠ (s.threads false).held .write + 1 :=
  have hreach := (system Bool).reachable_get [.call true .read true, .access true, .access true] rfl (by decide)
  have ⟨t, ht, hiff⟩ := taken_iff hreach (by decide) (i := false) .write false
  ⟨_, t, ht, hiff.not.mpr fun hnone => absurd (hnone true) (by decide)⟩

end GnuRadio.ReaderWriterLock
