import Mathlib.Logic.Function.Basic

/-! Transition systems whose step is a computable function of the state and a label. A label that is
    not enabled in a state has no next state. A run is restricted by a condition on each of its steps,
    read in the state that the step leaves. -/

namespace Transition

open Function

universe u v w

/-- A transition system: where a run may start, and what each label does. -/
structure System (σ : Type u) (α : Type v) where
  start : σ → Prop
  step : σ → α → Option σ

namespace System

variable {σ : Type u} {α : Type v}

/-- The states of runs whose every step meets `ok`. -/
inductive Reach (M : System σ α) (ok : σ → α → Prop) : σ → Prop
  | start {s : σ} (h : M.start s) : Reach M ok s
  | step {s t : σ} {a : α} (h : Reach M ok s) (hok : ok s a) (hs : M.step s a = some t) : Reach M ok t

/-- The states of all runs. -/
abbrev Reachable (M : System σ α) (s : σ) : Prop := M.Reach (fun _ _ => True) s

/-- The state after the labels of a list, none if one of them is not enabled. -/
def run (M : System σ α) (s : σ) : List α → Option σ
  | [] => some s
  | a :: as => (M.step s a).bind fun t => M.run t as

/-- Every step of the run on a list of labels meets `ok`. -/
def Meets (M : System σ α) (ok : σ → α → Prop) (s : σ) : List α → Prop
  | [] => True
  | a :: as => ok s a ∧ match M.step s a with
    | some t => M.Meets ok t as
    | none => True

instance decidableMeets (M : System σ α) (ok : σ → α → Prop) [∀ s a, Decidable (ok s a)] :
    ∀ s as, Decidable (M.Meets ok s as)
  | _, [] => .isTrue trivial
  | s, a :: as =>
    match hs : M.step s a with
    | some t =>
      have := decidableMeets M ok t as
      decidable_of_iff (ok s a ∧ M.Meets ok t as) (by simp only [Meets, hs])
    | none => decidable_of_iff (ok s a) (by simp only [Meets, hs, and_true])

variable {M : System σ α} {ok ok' : σ → α → Prop} {I J : σ → Prop} {s t : σ}

namespace Reach

/-- A property that holds at every start and that each step keeps holds in every state reached. -/
theorem invariant (h : M.Reach ok s) (start : ∀ s, M.start s → I s)
    (step : ∀ s a t, I s → ok s a → M.step s a = some t → I t) : I s := by
  induction h with
  | start hs => exact start _ hs
  | step _ hok hs ih => exact step _ _ _ ih hok hs

theorem mono (h : M.Reach ok s) (hok : ∀ s a, ok s a → ok' s a) : M.Reach ok' s := by
  induction h with
  | start hs => exact .start hs
  | step _ h1 h2 ih => exact .step ih (hok _ _ h1) h2

theorem append {as : List α} (h : M.Reach ok s) (hok : M.Meets ok s as) (hr : M.run s as = some t) :
    M.Reach ok t := by
  induction as generalizing s with
  | nil =>
    cases hr
    exact h
  | cons a as ih =>
    obtain ⟨u, hu, hr⟩ := Option.bind_eq_some_iff.mp hr
    obtain ⟨ha, hok⟩ := hok
    rw [hu] at hok
    exact ih (.step h ha hu) hok hr

end Reach

/-- A run given by its labels reaches its last state. -/
theorem reach_get (M : System σ α) (as : List α) {ok : σ → α → Prop} {s : σ} (h : M.start s)
    (hok : M.Meets ok s as) (hr : (M.run s as).isSome) : M.Reach ok ((M.run s as).get hr) :=
  (Reach.start h).append hok (Option.some_get hr).symm

theorem meets_true (s : σ) (as : List α) : M.Meets (fun _ _ => True) s as := by
  induction as generalizing s with
  | nil => trivial
  | cons a as ih =>
    refine ⟨trivial, ?_⟩
    split
    · exact ih _
    · trivial

/-- Conditions that agree in the states of all runs agree on the steps of every run. -/
theorem meets_congr (h : M.Reachable s) (hiff : ∀ s a, M.Reachable s → (ok s a ↔ ok' s a)) (as : List α) :
    M.Meets ok s as ↔ M.Meets ok' s as := by
  induction as generalizing s with
  | nil => exact Iff.rfl
  | cons a as ih =>
    refine and_congr (hiff s a h) ?_
    cases hs : M.step s a with
    | none => exact Iff.rfl
    | some t => exact ih (.step h trivial hs)

theorem reachable_get (M : System σ α) (as : List α) {s : σ} (h : M.start s) (hr : (M.run s as).isSome) :
    M.Reachable ((M.run s as).get hr) :=
  M.reach_get as h (meets_true s as) hr

/-! ### Events

What the steps of a run show, and runs of a specification that show the same. -/

section Events

variable {τ : Type u} {ε : Type w}

/-- The runs of a system whose every step meets `ok`, with the events of their steps. -/
inductive Trace (M : System σ α) (ok : σ → α → Prop) (events : σ → α → List ε) : List ε → σ → Prop
  | start {s : σ} (h : M.start s) : Trace M ok events [] s
  | step {es : List ε} {s t : σ} {a : α} (h : Trace M ok events es s) (hok : ok s a) (hs : M.step s a = some t) :
      Trace M ok events (es ++ events s a) t

/-- A specification may go from one state to another by a list of events. -/
def Accepts (next : τ → ε → τ → Prop) (s : τ) : List ε → τ → Prop
  | [], t => s = t
  | e :: es, t => ∃ u, next s e u ∧ Accepts next u es t

variable {events : σ → α → List ε} {next : τ → ε → τ → Prop} {R : σ → τ → Prop} {es es' : List ε} {f g h : τ}

theorem Accepts.append (h₁ : Accepts next f es g) (h₂ : Accepts next g es' h) : Accepts next f (es ++ es') h := by
  induction es generalizing f with
  | nil =>
    cases h₁
    exact h₂
  | cons e es ih =>
    obtain ⟨u, hs, h₁⟩ := h₁
    exact ⟨u, hs, ih h₁⟩

theorem Accepts.single {e : ε} (hs : next f e g) : Accepts next f [e] g := ⟨g, hs, rfl⟩

/-- A relation that every step keeps, with a run of the specification on the step's events, makes the specification
    accept the events of every run. -/
theorem Trace.simulates (h : M.Trace ok events es s) (start : ∀ s, M.start s → R s f)
    (step : ∀ s a t g, R s g → ok s a → M.step s a = some t → ∃ g', Accepts next g (events s a) g' ∧ R t g') :
    ∃ g, Accepts next f es g ∧ R s g := by
  induction h with
  | start hs => exact ⟨f, rfl, start _ hs⟩
  | step _ hok hs ih =>
    obtain ⟨g, hg, hr⟩ := ih
    obtain ⟨g', hg', hr'⟩ := step _ _ _ g hr hok hs
    exact ⟨g', hg.append hg', hr'⟩

/-- The events of a run that is given by its labels. -/
def eventsOf (M : System σ α) (events : σ → α → List ε) (s : σ) : List α → List ε
  | [] => []
  | a :: as => events s a ++ match M.step s a with
    | some t => M.eventsOf events t as
    | none => []

theorem Trace.append {as : List α} (h : M.Trace ok events es s) (hok : M.Meets ok s as) (hr : M.run s as = some t) :
    M.Trace ok events (es ++ M.eventsOf events s as) t := by
  induction as generalizing s es with
  | nil =>
    cases hr
    rwa [eventsOf, List.append_nil]
  | cons a as ih =>
    obtain ⟨u, hu, hr⟩ := Option.bind_eq_some_iff.mp hr
    obtain ⟨ha, hok⟩ := hok
    rw [hu] at hok
    have := ih (.step h ha hu) hok hr
    rw [List.append_assoc] at this
    rw [eventsOf, hu]
    exact this

theorem trace_get (M : System σ α) (as : List α) (h : M.start s) (hok : M.Meets ok s as) (hr : (M.run s as).isSome) :
    M.Trace ok events (M.eventsOf events s as) ((M.run s as).get hr) :=
  (Trace.start h).append hok (Option.some_get hr).symm

end Events

end System

/-! ### Threads

A family of local states, one for each thread, of which a step updates one. -/

section Threads

variable {ι : Type u} {β : Type v} [DecidableEq ι] {f : ι → β} {P : ι → β → Prop}

theorem forall_update {i : ι} {b : β} (hi : P i b) (h : ∀ j, j ≠ i → P j (f j)) :
    ∀ j, P j (update f i b j) := fun j => by
  by_cases hj : j = i
  · subst hj
    rwa [update_self]
  · rw [update_of_ne hj]
    exact h j hj

theorem exists_update_of_ne {i k : ι} {b : β} (hk : k ≠ i) (h : P k (f k)) :
    ∃ j, P j (update f i b j) :=
  ⟨k, by rwa [update_of_ne hk]⟩

end Threads

end Transition
