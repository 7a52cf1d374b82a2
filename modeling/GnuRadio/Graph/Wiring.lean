import Mathlib.Data.Fintype.Card
import GnuRadio.Graph.Ports

/-! The rings behind the ports (Port.hpp): an output owns the ring that it writes, an input holds a reader on the ring of
    the output that it was connected to last, and it counts as connected while an output still writes that ring. `ι` and
    `ω` are the inputs and the outputs, `α` the samples and `β` the tags. A stream ring and the tag ring beside it are one
    `Ring`. -/

namespace GnuRadio.Graph

open Function

variable {α β ι ω : Type}

/-- `samples` and `tags` hold everything published since the ring was built. -/
structure Ring (α β : Type) where
  size : Nat
  samples : List α
  tags : List β
  deriving DecidableEq, Repr

structure Reader where
  ring : Nat
  position : Nat
  tagPosition : Nat
  deriving DecidableEq, Repr

/-- Every ring built so far, by number, and which of them each input reads and each output writes. -/
structure Wiring (α β ι ω : Type) where
  rings : List (Ring α β)
  reader : ι → Option Reader
  current : ω → Option Nat
  reader_le : ∀ i r, reader i = some r →
    ∃ R, rings[r.ring]? = some R ∧ r.position ≤ R.samples.length ∧ r.tagPosition ≤ R.tags.length
  current_lt : ∀ o k, current o = some k → k < rings.length

namespace Wiring

/-- No port has a ring. -/
def empty : Wiring α β ι ω where
  rings := []
  reader _ := none
  current _ := none
  reader_le _ _ h := nomatch h
  current_lt _ _ h := nomatch h

/-- An input reads this ring. -/
def Reads (w : Wiring α β ι ω) (k : Nat) : Prop := ∃ i r, w.reader i = some r ∧ r.ring = k

/-- The samples and the tags that an input has not consumed. -/
def queued (w : Wiring α β ι ω) (i : ι) : Option (List α × List β) := do
  let r ← w.reader i
  let R ← w.rings[r.ring]?
  pure (R.samples.drop r.position, R.tags.drop r.tagPosition)

/-- The input has consumed everything. -/
def Drained (w : Wiring α β ι ω) (i : ι) : Prop := w.queued i = some ([], [])

section Counts
variable [Fintype ι] [Fintype ω] (w : Wiring α β ι ω)

/-- `n_readers()` of a ring. -/
def ringReaders (k : Nat) : Nat := (Finset.univ.filter fun i => (w.reader i).map Reader.ring = some k).card

def nReaders (o : ω) : Nat := ((w.current o).map w.ringReaders).getD 0

def nWriters (i : ι) : Nat :=
  ((w.reader i).map fun r => (Finset.univ.filter fun o => w.current o = some r.ring).card).getD 0

def outputConnected (o : ω) : Bool := decide (0 < w.nReaders o)

def inputConnected (i : ι) : Bool := decide (0 < w.nWriters i)

end Counts

/-- `bufferSize()` of an output, `kDefaultBufferSize` before it has a ring. -/
def bufferSize (w : Wiring α β ι ω) (o : ω) : Nat :=
  (((w.current o).bind fun k => w.rings[k]?).map Ring.size).getD 4096

/-- No more than `n` samples are missing to a reader of the ring, were `n` more published: `tryReserve(n)` succeeds. -/
def HasRoom [Fintype ι] (w : Wiring α β ι ω) (k n : Nat) : Prop :=
  ∃ R ∈ w.rings[k]?, n ≤ R.size ∧
    ∀ i, ∀ r ∈ w.reader i, r.ring = k → R.samples.length + n ≤ r.position + R.size

instance [Fintype ι] (w : Wiring α β ι ω) (k n : Nat) : Decidable (w.HasRoom k n) :=
  inferInstanceAs (Decidable (∃ R ∈ w.rings[k]?, n ≤ R.size ∧
    ∀ i, ∀ r ∈ w.reader i, r.ring = k → R.samples.length + n ≤ r.position + R.size))

/-! ### Connections -/

/-- `setBuffer()` of an output: it gets a new ring. -/
def setRing [DecidableEq ω] (w : Wiring α β ι ω) (o : ω) (size : Nat) : Wiring α β ι ω where
  rings := w.rings ++ [⟨size, [], []⟩]
  reader := w.reader
  current := update w.current o (some w.rings.length)
  reader_le i r hr := by
    obtain ⟨R, hR, hle⟩ := w.reader_le i r hr
    exact ⟨R, by rw [List.getElem?_append_left (List.getElem?_eq_some_iff.mp hR).1, hR], hle⟩
  current_lt o' k hk := by
    rw [List.length_append, List.length_singleton]
    by_cases ho : o' = o
    · rw [ho, update_self] at hk
      cases hk
      omega
    · rw [update_of_ne ho] at hk
      exact Nat.lt_succ_of_lt (w.current_lt o' k hk)

/-- `setBuffer()` of an input: it gets a new reader at the end of a ring. -/
def setReader [DecidableEq ι] (w : Wiring α β ι ω) (i : ι) (k : Nat) : Wiring α β ι ω where
  rings := w.rings
  reader := update w.reader i
    (w.rings[k]?.map fun R => ⟨k, R.samples.length, R.tags.length⟩)
  current := w.current
  reader_le i' r hr := by
    by_cases hi : i' = i
    · rw [hi, update_self] at hr
      obtain ⟨R, hR, rfl⟩ := Option.map_eq_some_iff.mp hr
      exact ⟨R, hR, le_refl _, le_refl _⟩
    · rw [update_of_ne hi] at hr
      exact w.reader_le i' r hr
  current_lt := w.current_lt

/-- `ioHandler()`: an output that hands out its writer builds its ring at `kDefaultBufferSize`, here `defaultSize`, unless
    it has one. -/
def withRing [DecidableEq ω] (w : Wiring α β ι ω) (o : ω) (defaultSize : Nat) : Wiring α β ι ω :=
  match w.current o with
  | some _ => w
  | none => w.setRing o defaultSize

/-- `connect()`: the input reads the ring of the output from its end on. -/
def connect [DecidableEq ι] [DecidableEq ω] (w : Wiring α β ι ω) (o : ω) (i : ι) (defaultSize : Nat) : Wiring α β ι ω :=
  let w := w.withRing o defaultSize
  match w.current o with
  | some k => w.setReader i k
  | none => w

/-- `disconnect()` of an input, which is refused unless it is connected. -/
def disconnectInput [Fintype ω] [DecidableEq ι] (w : Wiring α β ι ω) (i : ι) : Wiring α β ι ω :=
  if w.inputConnected i then
    { w with
      reader := update w.reader i none
      reader_le := fun i' r hr => by
        by_cases hi : i' = i
        · rw [hi, update_self] at hr
          cases hr
        · rw [update_of_ne hi] at hr
          exact w.reader_le i' r hr }
  else w

/-- `disconnect()` of an output, which is refused unless it is connected. -/
def disconnectOutput [Fintype ι] [DecidableEq ω] (w : Wiring α β ι ω) (o : ω) : Wiring α β ι ω :=
  if w.outputConnected o then
    { w with
      current := update w.current o none
      current_lt := fun o' k hk => by
        by_cases ho : o' = o
        · rw [ho, update_self] at hk
          cases hk
        · rw [update_of_ne ho] at hk
          exact w.current_lt o' k hk }
  else w

/-! ### Samples and tags -/

/-- A writer of the ring publishes. -/
def publish (w : Wiring α β ι ω) (k : Nat) (samples : List α) (tags : List β) : Wiring α β ι ω where
  rings := w.rings.modify k fun R =>
    { R with
      samples := R.samples ++ samples
      tags := R.tags ++ tags }
  reader := w.reader
  current := w.current
  reader_le i r hr := by
    obtain ⟨R, hR, hle⟩ := w.reader_le i r hr
    rw [List.getElem?_modify, hR]
    refine ⟨_, rfl, ?_⟩
    beta_reduce
    by_cases hk : k = r.ring
    · rw [if_pos hk, List.length_append, List.length_append]
      omega
    · rw [if_neg hk]
      exact hle
  current_lt o k hk := by
    rw [List.length_modify]
    exact w.current_lt o k hk

end Wiring

end GnuRadio.Graph
