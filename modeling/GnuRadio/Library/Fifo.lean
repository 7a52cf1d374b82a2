import Mathlib.Data.List.Basic

/-! A bounded FIFO with one writer and any number of readers: the writer reserves slots at the end of a stream, fills
    them in any order and publishes a first part of them; each reader goes through the stream from where it attached.
    A slot that is published without having been written has no value of its own. -/

namespace Fifo

open Function

universe u v

variable {α : Type u} {ρ : Type v}

/-- What happens at the FIFO, with what each operation returned. -/
inductive Event (α : Type u) (ρ : Type v)
  | reserve (n : Nat)
  | full (n : Nat)
  | write (i : Nat) (value : α)
  | publish (n : Nat)
  | attach (r : ρ)
  | detach (r : ρ)
  | available (r : ρ) (n : Nat)
  | get (r : ρ) (n : Nat)
  | read (r : ρ) (position : Nat) (value : α)
  | consume (r : ρ) (n : Nat)

/-- The published stream from its start, the reserved slots after it, and where each reader stands. -/
structure State (α : Type u) (ρ : Type v) where
  published : List (Option α)
  claim : List (Option α)
  position : ρ → Option Nat

/-- Nobody has used the FIFO yet. -/
def init : State α ρ where
  published := []
  claim := []
  position _ := none

/-- The behaviour of a FIFO of `size` slots. -/
inductive Step [DecidableEq ρ] (size : Nat) (s : State α ρ) : Event α ρ → State α ρ → Prop
  | reserve {n : Nat} (hn : n ≤ size) (hc : s.claim = [])
      (hr : ∀ r q, s.position r = some q → s.published.length + n ≤ q + size) :
      Step size s (.reserve n) { s with claim := List.replicate n none }
  | full {n : Nat}
      (hf : size < n ∨ ∃ r q, s.position r = some q ∧ q + size < s.published.length + n) :
      Step size s (.full n) s
  | write {i : Nat} {value : α} (hi : i < s.claim.length) :
      Step size s (.write i value) { s with claim := s.claim.set i (some value) }
  | publish {n : Nat} (hn : n ≤ s.claim.length) :
      Step size s (.publish n) { s with published := s.published ++ s.claim.take n, claim := [] }
  | attach {r : ρ} (hr : s.position r = none) :
      Step size s (.attach r) { s with position := update s.position r (some s.published.length) }
  | detach {r : ρ} {q : Nat} (hr : s.position r = some q) :
      Step size s (.detach r) { s with position := update s.position r none }
  | available {r : ρ} {q : Nat} (hr : s.position r = some q) :
      Step size s (.available r (s.published.length - q)) s
  | get {r : ρ} {q n : Nat} (hr : s.position r = some q) (hn : q + n ≤ s.published.length) :
      Step size s (.get r n) s
  | read {r : ρ} {q p : Nat} {value : α} {slot : Option α} (hr : s.position r = some q) (hq : q ≤ p)
      (hp : s.published[p]? = some slot) (hv : ∀ x, slot = some x → value = x) :
      Step size s (.read r p value) s
  | consume {r : ρ} {q n : Nat} (hr : s.position r = some q) (hn : q + n ≤ s.published.length) :
      Step size s (.consume r n) { s with position := update s.position r (some (q + n)) }

/-- No reader is ahead of the stream, and none has more than `size` published or reserved slots before it. -/
def State.Bounded (size : Nat) (s : State α ρ) : Prop :=
  ∀ r q, s.position r = some q → q ≤ s.published.length ∧ s.published.length + s.claim.length ≤ q + size

variable [DecidableEq ρ] {size : Nat} {s t : State α ρ} {e : Event α ρ}

theorem position_update {r r' : ρ} {x : Option Nat} {q : Nat} (h : update s.position r x r' = some q) :
    (r' = r ∧ x = some q) ∨ (r' ≠ r ∧ s.position r' = some q) := by
  rcases eq_or_ne r' r with rfl | hne
  · rw [update_self] at h
    exact .inl ⟨rfl, h⟩
  · rw [update_of_ne hne] at h
    exact .inr ⟨hne, h⟩

theorem State.Bounded.step (h : s.Bounded size) (hc : s.claim.length ≤ size) (hs : Step size s e t) : t.Bounded size := by
  cases hs with
  | reserve hn hc hr =>
    intro r q hq
    have := h r q hq
    have := hr r q hq
    simp only [List.length_replicate]
    omega
  | full | available | get | read => exact h
  | write hi =>
    intro r q hq
    simp only [List.length_set]
    exact h r q hq
  | publish hn =>
    intro r q hq
    have := h r q hq
    simp only [List.length_append, List.length_take, List.length_nil]
    omega
  | attach hr =>
    intro r q hq
    rcases position_update hq with ⟨-, hq⟩ | ⟨-, hq⟩
    · have := Option.some.inj hq
      dsimp only
      omega
    · exact h r q hq
  | detach hr =>
    intro r q hq
    rcases position_update hq with ⟨-, hq⟩ | ⟨-, hq⟩
    · cases hq
    · exact h r q hq
  | consume hr hn =>
    intro r q hq
    rcases position_update hq with ⟨-, hq⟩ | ⟨-, hq⟩
    · have := h _ _ hr
      have := Option.some.inj hq
      dsimp only
      omega
    · exact h r q hq

/-- What is published stays. -/
theorem published_prefix (hs : Step size s e t) : s.published <+: t.published := by
  cases hs with
  | publish hn => exact List.prefix_append ..
  | _ => exact List.prefix_refl _

end Fifo
