import GnuRadio.LifeCycle

/-! Each `start()` that returns is followed by exactly one `stop()` as long as no `pause()` and no `resume()` throws. A
    request that is refused or satisfied calls no lifecycle method. -/

namespace GnuRadio.LifeCycle

variable {implements : Hook → Bool} {s t : State} {r : Request} {rs : List Request} {h h' : Hook}

/-! ### The law -/

/-- After a `start()` that returned and `n` calls of `stop()`: one `stop()` before the next `start()` or `reset()`, and
    before the machine rests in `STOPPED` or `ERROR`, and no second one before the next `start()` or `reset()`. -/
def StopsOnce : Nat → List Event → Prop
  | n, [] => n ≤ 1
  | n, .hook .start _ :: _ | n, .hook .reset _ :: _ => n = 1
  | n, .hook .stop _ :: es => StopsOnce (n + 1) es
  | n, .rests .stopped :: es | n, .rests .error :: es => n = 1 ∧ StopsOnce n es
  | n, _ :: es => StopsOnce n es

/-- Each `start()` that returned is followed by exactly one `stop()`. -/
def Bracketed : List Event → Prop
  | [] => True
  | .hook .start false :: es => StopsOnce 0 es ∧ Bracketed es
  | _ :: es => Bracketed es

/-- The changes of the state for which the class comment names a method. -/
def Hook.Of (oldState newState : State) : Hook → Prop
  | .init => oldState = .idle ∧ newState = .initialised
  | .start => oldState = .initialised ∧ newState = .running
  | .stop => newState = .requestedStop ∨ isActive oldState = true ∧ newState = .error
  | .pause => oldState = .running ∧ newState = .requestedPause
  | .resume => (oldState = .paused ∨ oldState = .requestedPause) ∧ newState = .running
  | .reset => oldState ≠ .idle ∧ newState = .initialised

/-- No `pause()` and no `resume()` throws. -/
def PausesReturn (implements : Hook → Bool) (s : State) (r : Request) : Prop :=
  r.throws = true → ¬ (implements .pause = true ∧ s = .running ∧ r.newState = .requestedPause) ∧
    ¬ (implements .resume = true ∧ (s = .requestedPause ∨ s = .paused) ∧ r.newState = .running)

instance : Decidable (PausesReturn implements s r) := inferInstanceAs (Decidable (_ → _ ∧ _))

/-! ### What one request does -/

/-- A request from a state in which the class has started and not stopped. -/
inductive FromActive (s : State) (throws : Bool) : State → Option Hook → Prop
  | goesOn {t : State} (ht : isActive t = true) : FromActive s throws t none
  | calls {t : State} {h : Hook} (ht : isActive t = true) (hh : h = .pause ∨ h = .resume) (hn : throws = false) :
      FromActive s throws t (some h)
  | fails {h : Hook} (hh : h = .pause ∨ h = .resume) (hn : throws = true) : FromActive s throws .error (some h)
  | stops {t : State} (ht : t = .requestedStop ∨ t = .error) : FromActive s throws t (some .stop)

/-- The class has stopped, or it never started, and it is not set up again. -/
def Down (s : State) : Prop := s = .requestedStop ∨ s = .stopped ∨ s = .error

/-- A request from a state in which the class has stopped. -/
inductive FromDown : State → Option Hook → Prop
  | stays {t : State} (ht : Down t) : FromDown t none
  | resets {t : State} (ht : isActive t = false) : FromDown t (some .reset)

/-- A request from a state in which the class has not started since it was set up. -/
inductive FromFresh (throws : Bool) : State → Option Hook → Prop
  | stays {t : State} {h : Option Hook} (ht : isActive t = false) (hh : h ≠ some .start ∨ throws = true) :
      FromFresh throws t h
  | starts (hn : throws = false) : FromFresh throws .running (some .start)

theorem lifecycleMethod_of (hs : isSatisfiedTransition s t = false) (hv : isValidTransition s t = true)
    (h : lifecycleMethod implements s t = some h') : implements h' = true ∧ h'.Of s t := by
  simp only [lifecycleMethod] at h
  split at h
  · rename_i hc
    cases h
    exact hc
  split at h
  · rename_i hc
    cases h
    exact hc
  split at h
  · rename_i hc
    cases h
    exact ⟨hc.1, hc.2.imp_right And.symm⟩
  split at h
  · rename_i hc
    cases h
    obtain ⟨hi, rfl⟩ := hc
    refine ⟨hi, ?_, rfl⟩
    cases s <;> simp_all [isSatisfiedTransition, isValidTransition]
  split at h
  · rename_i hc
    cases h
    exact ⟨hc.1, hc.2.1.symm, hc.2.2⟩
  split at h
  · rename_i hc
    cases h
    exact hc
  · cases h

theorem lifecycleMethod_stop (hi : implements .stop = true)
    (h : t = .requestedStop ∨ t = .error ∧ isActive s = true) : lifecycleMethod implements s t = some .stop := by
  obtain rfl | ⟨rfl, ha⟩ := h
  · simp [lifecycleMethod, hi]
  · simp [lifecycleMethod, hi, ha]

theorem lifecycleMethod_reset (hi : implements .reset = true) (h : s ≠ .idle) :
    lifecycleMethod implements s .initialised = some .reset := by
  simp [lifecycleMethod, hi, h]

/-- A request changes nothing, or it is a valid change with the method that the class has for it. -/
theorem change_cases (implements : Hook → Bool) (s : State) (r : Request) :
    changeStateToAlone implements s r = (s, none) ∨
    isSatisfiedTransition s r.newState = false ∧ isValidTransition s r.newState = true ∧
      ((lifecycleMethod implements s r.newState = none ∧ changeStateToAlone implements s r = (r.newState, none)) ∨
        ∃ h, lifecycleMethod implements s r.newState = some h ∧
          changeStateToAlone implements s r = (invokeLifecycleMethod r.throws r.newState, some h)) := by
  simp only [changeStateToAlone]
  split
  · exact .inl rfl
  · rename_i hs
    split
    · rename_i hv
      refine .inr ⟨Bool.eq_false_iff.mpr hs, hv, ?_⟩
      split
      · rename_i h hm
        exact .inr ⟨h, hm, rfl⟩
      · rename_i hm
        exact .inl ⟨hm, rfl⟩
    · exact .inl rfl

theorem valid_of_active (ha : isActive s = true) (hv : isValidTransition s t = true) :
    isActive t = true ∨ t = .requestedStop ∨ t = .error := by
  cases s <;> cases ha <;> cases t <;> simp_all [isValidTransition, isActive]

theorem valid_of_down (hd : Down s) (hv : isValidTransition s t = true) : Down t ∨ t = .initialised := by
  obtain rfl | rfl | rfl := hd <;> cases t <;> simp_all [isValidTransition, Down]

theorem change_active (hi : implements .stop = true) (ha : isActive s = true) :
    FromActive s r.throws (changeStateToAlone implements s r).1 (changeStateToAlone implements s r).2 := by
  obtain h | ⟨hs, hv, ⟨hm, h⟩ | ⟨h', hm, h⟩⟩ := change_cases implements s r
  · rw [h]
    exact .goesOn ha
  · rw [h]
    refine .goesOn ((valid_of_active ha hv).resolve_right fun ht => ?_)
    rw [lifecycleMethod_stop hi (ht.imp_right fun ht => ⟨ht, ha⟩)] at hm
    cases hm
  · rw [h]
    obtain ⟨-, hof⟩ := lifecycleMethod_of hs hv hm
    have pauses (ht : isActive r.newState = true) (hh : h' = .pause ∨ h' = .resume) :
        FromActive s r.throws (invokeLifecycleMethod r.throws r.newState) (some h') := by
      cases hn : r.throws with
      | false => exact .calls ht hh rfl
      | true => exact .fails hh rfl
    cases h' with
    | init | start =>
      rw [hof.1] at ha
      cases ha
    | stop =>
      refine .stops ?_
      cases r.throws with
      | false => exact hof.imp_right And.right
      | true => exact .inr rfl
    | pause => exact pauses (by rw [hof.2]; rfl) (.inl rfl)
    | resume => exact pauses (by rw [hof.2]; rfl) (.inr rfl)
    | reset =>
      rw [hof.2] at hv
      obtain ht | ht | ht := valid_of_active ha hv <;> cases ht

theorem change_down (hi : implements .reset = true) (hd : Down s) :
    FromDown (changeStateToAlone implements s r).1 (changeStateToAlone implements s r).2 := by
  have hidle : s ≠ .idle := by
    rintro rfl
    obtain h | h | h := hd <;> cases h
  obtain h | ⟨hs, hv, ⟨hm, h⟩ | ⟨h', hm, h⟩⟩ := change_cases implements s r
  · rw [h]
    exact .stays hd
  · rw [h]
    refine .stays ((valid_of_down hd hv).resolve_right fun ht => ?_)
    rw [ht, lifecycleMethod_reset hi hidle] at hm
    cases hm
  · rw [h]
    obtain ⟨-, hof⟩ := lifecycleMethod_of hs hv hm
    cases h' with
    | reset =>
      refine .resets ?_
      rw [hof.2]
      cases r.throws <;> rfl
    | init => exact absurd hof.1 hidle
    | stop =>
      -- a stop is satisfied in all these states, or refused
      obtain rfl | rfl | rfl := hd <;> obtain ht | ⟨ht, -⟩ := hof <;>
        simp_all [isSatisfiedTransition, isValidTransition, isActive]
    | start | pause =>
      obtain rfl | rfl | rfl := hd <;> cases hof.1
    | resume =>
      obtain rfl | rfl | rfl := hd <;> obtain ht | ht := hof.1 <;> cases ht

theorem change_fresh (hi : implements .start = true) (hf : s = .idle ∨ s = .initialised) :
    FromFresh r.throws (changeStateToAlone implements s r).1 (changeStateToAlone implements s r).2 := by
  have hact : isActive s = false := by obtain rfl | rfl := hf <;> rfl
  obtain h | ⟨hs, hv, ⟨hm, h⟩ | ⟨h', hm, h⟩⟩ := change_cases implements s r
  · rw [h]
    exact .stays hact (.inl (by simp))
  · rw [h]
    refine .stays ?_ (.inl (by simp))
    obtain rfl | rfl := hf <;> cases ht : r.newState <;> simp_all [isValidTransition, isActive, lifecycleMethod]
  · rw [h]
    obtain ⟨-, hof⟩ := lifecycleMethod_of hs hv hm
    cases hn : r.throws with
    | true => exact .stays rfl (.inr rfl)
    | false =>
      show FromFresh false r.newState (some h')
      cases h' with
      | start =>
        rw [hof.2]
        exact .starts rfl
      | init | reset => exact .stays (by rw [hof.2]; rfl) (.inl (by simp))
      | stop =>
        refine .stays ?_ (.inl (by simp))
        obtain ht | ⟨ha, -⟩ := hof
        · rw [ht]
          rfl
        · rw [hact] at ha
          cases ha
      | pause =>
        rw [hof.1] at hact
        cases hact
      | resume =>
        obtain ht | ht := hof.1 <;> rw [ht] at hact <;> cases hact

/-! ### Whole runs -/

theorem stopsOnce_rests {n : Nat} {es : List Event} (ht : t ≠ .stopped ∧ t ≠ .error) :
    StopsOnce n (.rests t :: es) = StopsOnce n es := by
  cases t <;> simp_all [StopsOnce]

theorem stopsOnce_down {es : List Event} (ht : Down t) (h : StopsOnce 1 es) : StopsOnce 1 (.rests t :: es) := by
  obtain rfl | rfl | rfl := ht
  · exact h
  · exact ⟨rfl, h⟩
  · exact ⟨rfl, h⟩

theorem events_eq (implements : Hook → Bool) (s : State) (r : Request) :
    events implements s r = match (changeStateToAlone implements s r).2 with
      | some h => [.hook h r.throws, .rests (changeStateToAlone implements s r).1]
      | none => [.rests (changeStateToAlone implements s r).1] := by
  rw [events]
  split <;> rename_i h <;> rw [h]

variable (implements) in
/-- What a run from the state shows. -/
abbrev shown (s : State) (rs : List Request) : List Event := (machine implements).eventsOf (events implements) s rs

theorem shown_cons (s : State) (r : Request) (rs : List Request) : shown implements s (r :: rs) =
    events implements s r ++ shown implements (changeStateToAlone implements s r).1 rs := rfl

/-- Once the class has stopped, it does not stop again before it is set up again. -/
theorem stopsOnce_shown (hi : implements .reset = true) (hd : Down s) : StopsOnce 1 (shown implements s rs) := by
  induction rs generalizing s with
  | nil => exact Nat.le_refl 1
  | cons r rs ih =>
    rw [shown_cons, events_eq]
    have hc := change_down (r := r) hi hd
    generalize (changeStateToAlone implements s r).1 = t, (changeStateToAlone implements s r).2 = h at hc
    cases hc with
    | stays ht => exact stopsOnce_down ht (ih ht)
    | resets _ => rfl

theorem pausesReturn_of_inactive (ha : isActive s = false) : PausesReturn implements s r := by
  refine fun _ => ⟨?_, ?_⟩
  · rintro ⟨-, rfl, -⟩
    cases ha
  · rintro ⟨-, rfl | rfl, -⟩ <;> cases ha

theorem bracketed_hook {throws : Bool} {es : List Event} (hh : h ≠ .start ∨ throws = true) :
    Bracketed (.hook h throws :: es) = Bracketed es := by
  cases h <;> cases throws <;> simp_all [Bracketed]

/-- A method that throws is a `pause()` or a `resume()` where the state reads so before the request. -/
theorem pausesReturn_iff : PausesReturn implements s r ↔
    ∀ h, (changeStateToAlone implements s r).2 = some h → h = .pause ∨ h = .resume → r.throws = false := by
  constructor
  · intro hp h hh hpr
    obtain hc | ⟨hs, hv, ⟨hm, hc⟩ | ⟨h', hm, hc⟩⟩ := change_cases implements s r
    · rw [hc] at hh
      cases hh
    · rw [hc] at hh
      cases hh
    · rw [hc] at hh
      cases hh
      obtain ⟨hi, hof⟩ := lifecycleMethod_of hs hv hm
      refine Bool.eq_false_iff.mpr fun hn => ?_
      obtain rfl | rfl := hpr
      · exact (hp hn).1 ⟨hi, hof⟩
      · exact (hp hn).2 ⟨hi, hof.1.symm, hof.2⟩
  · rintro hp hn
    refine ⟨?_, ?_⟩
    · rintro ⟨hi, rfl, ht⟩
      have := hp .pause (by simp [changeStateToAlone, ht, isSatisfiedTransition, isValidTransition, lifecycleMethod,
        isActive, hi]) (.inl rfl)
      rw [hn] at this
      cases this
    · rintro ⟨hi, hs, ht⟩
      have := hp .resume (by obtain rfl | rfl := hs <;> simp [changeStateToAlone, ht, isSatisfiedTransition,
        isValidTransition, lifecycleMethod, isActive, hi]) (.inr rfl)
      rw [hn] at this
      cases this

theorem bracketed_iff (h₁ : implements .start = true) (h₂ : implements .stop = true) (h₃ : implements .reset = true)
    (s : State) (rs : List Request) :
    ((isActive s = true → StopsOnce 0 (shown implements s rs)) ∧ Bracketed (shown implements s rs)) ↔
      (machine implements).Meets (PausesReturn implements) s rs := by
  induction rs generalizing s with
  | nil => exact ⟨fun _ => trivial, fun _ => ⟨fun _ => Nat.zero_le 1, trivial⟩⟩
  | cons r rs ih =>
    have hmeets : (machine implements).Meets (PausesReturn implements) s (r :: rs) ↔ PausesReturn implements s r ∧
        (machine implements).Meets (PausesReturn implements) (changeStateToAlone implements s r).1 rs := Iff.rfl
    have ih := ih (changeStateToAlone implements s r).1
    have down : Down (changeStateToAlone implements s r).1 →
        StopsOnce 1 (shown implements (changeStateToAlone implements s r).1 rs) := stopsOnce_shown h₃
    rw [hmeets, pausesReturn_iff, ← ih, shown_cons, events_eq]
    cases ha : isActive s with
    | true =>
      have hc := change_active (r := r) h₂ ha
      generalize (changeStateToAlone implements s r).1 = t, (changeStateToAlone implements s r).2 = h at hc down
      cases hc with
      | goesOn ht =>
        have hne : t ≠ .stopped ∧ t ≠ .error := by constructor <;> rintro rfl <;> cases ht
        simp [ht, stopsOnce_rests hne, Bracketed]
      | @calls _ h ht hh hn =>
        have hne : t ≠ .stopped ∧ t ≠ .error := by constructor <;> rintro rfl <;> cases ht
        obtain rfl | rfl := hh <;> simp [hn, ht, StopsOnce, stopsOnce_rests hne, Bracketed]
      | fails hh hn => obtain rfl | rfl := hh <;> simp [hn, StopsOnce]
      | stops ht =>
        have hd : Down t := ht.imp_right .inr
        have hn : isActive t = false := by obtain rfl | rfl := ht <;> rfl
        simp [StopsOnce, stopsOnce_down hd (down hd), Bracketed, hn]
    | false =>
      have hok : ∀ h, (changeStateToAlone implements s r).2 = some h → h = .pause ∨ h = .resume → r.throws = false :=
        pausesReturn_iff.mp (pausesReturn_of_inactive ha)
      simp only [eq_true hok, true_and, Bool.false_eq_true, false_implies]
      by_cases hd : Down s
      · have hc := change_down (r := r) h₃ hd
        generalize (changeStateToAlone implements s r).1 = t, (changeStateToAlone implements s r).2 = h at hc
        cases hc with
        | stays ht =>
          have hn : isActive t = false := by obtain rfl | rfl | rfl := ht <;> rfl
          simp [hn, Bracketed]
        | resets hn => simp [hn, Bracketed]
      · have hf : s = .idle ∨ s = .initialised := by cases s <;> simp_all [Down, isActive]
        have hc := change_fresh (r := r) h₁ hf
        generalize (changeStateToAlone implements s r).1 = t, (changeStateToAlone implements s r).2 = h at hc
        cases hc with
        | @stays _ h hn hh =>
          cases h with
          | none => simp [hn, Bracketed]
          | some h =>
            simp [hn, bracketed_hook (hh.imp_left fun hne he => hne (congrArg some he)), Bracketed]
        | starts hn => simp [hn, Bracketed, StopsOnce, isActive]

/-! ### Brackets -/

/-- From `IDLE` on, each `start()` that returned is followed by exactly one `stop()` before the next `start()` or
    `reset()` and before the machine rests in `STOPPED` or `ERROR`, if and only if no `pause()` and no `resume()` throws.
    A request calls no method but the one of its change, and a request that is satisfied or refused calls none and
    changes nothing. -/
theorem hooks_bracketed (implements : Hook → Bool) (h₁ : implements .start = true) (h₂ : implements .stop = true)
    (h₃ : implements .reset = true) :
    (∀ rs, Bracketed ((machine implements).eventsOf (events implements) .idle rs) ↔
      (machine implements).Meets (PausesReturn implements) .idle rs) ∧
    (∀ s r h, (changeStateToAlone implements s r).2 = some h → h.Of s r.newState) ∧
    ∀ s r, isSatisfiedTransition s r.newState = true ∨ isValidTransition s r.newState = false →
      changeStateToAlone implements s r = (s, none) := by
  refine ⟨fun rs => ?_, fun s r h hh => ?_, fun s r h => ?_⟩
  · rw [← bracketed_iff h₁ h₂ h₃]
    exact ⟨fun h => ⟨fun ha => (by cases ha), h⟩, And.right⟩
  · obtain hc | ⟨hs, hv, ⟨hm, hc⟩ | ⟨h', hm, hc⟩⟩ := change_cases implements s r
    · rw [hc] at hh
      cases hh
    · rw [hc] at hh
      cases hh
    · rw [hc] at hh
      cases hh
      exact (lifecycleMethod_of hs hv hm).2
  · rw [changeStateToAlone]
    obtain h | h := h
    · rw [if_pos h]
    · cases hs : isSatisfiedTransition s r.newState with
      | true => rfl
      | false => simp [h]

/-- A run in which every method returns or the stop throws. -/
def stopThrows : List Request :=
  [⟨.initialised, false⟩, ⟨.running, false⟩, ⟨.requestedPause, false⟩, ⟨.requestedStop, true⟩, ⟨.stopped, false⟩]

theorem hooks_bracketed_stopThrows :
    Bracketed ((machine fun _ => true).eventsOf (events fun _ => true) .idle stopThrows) ∧
      Hook.stop.Of .requestedPause .requestedStop ∧
      changeStateToAlone (fun _ => true) .error ⟨.stopped, false⟩ = (.error, none) := by
  obtain ⟨brackets, methods, keeps⟩ := hooks_bracketed (fun _ => true) rfl rfl rfl
  exact ⟨(brackets stopThrows).mpr (by decide), methods .requestedPause ⟨.requestedStop, true⟩ .stop rfl,
    keeps .error ⟨.stopped, false⟩ (.inr rfl)⟩

/-- A `pause()` that throws leaves the machine in `ERROR` without a `stop()`. -/
theorem pauseThrows_not_bracketed : ¬ Bracketed ((machine fun _ => true).eventsOf (events fun _ => true) .idle
    [⟨.initialised, false⟩, ⟨.running, false⟩, ⟨.requestedPause, true⟩]) := by
  rintro ⟨h, -⟩
  exact absurd h.1 (by decide)

end GnuRadio.LifeCycle
