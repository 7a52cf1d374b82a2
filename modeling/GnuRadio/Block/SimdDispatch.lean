import Mathlib.Algebra.Ring.Nat

/-! The two ways to call a `processOne()` that is const: `invokeProcessOneSimd()` and `invokeProcessOnePure()` in Block.hpp.
    The input and output ports are of any number and of any types. A span is the function from its indices to its
    samples. -/

namespace GnuRadio.SimdDispatch

variable {ι κ : Type} {α : ι → Type} {β : κ → Type}

/-- A number of lanes, which has a single bit. -/
structure Width where
  lanes : Nat
  hasSingleBit : ∃ k, lanes = 2 ^ k

theorem Width.pos (w : Width) : 0 < w.lanes := by
  obtain ⟨k, hk⟩ := w.hasSingleBit
  rw [hk]
  exact Nat.two_pow_pos k

/-- The function of a block: what it makes of one sample of each input, and its form for as many samples as there are
    lanes. -/
structure ProcessOne (α : ι → Type) (β : κ → Type) where
  scalar : (∀ p, α p) → ∀ q, β q
  simd (width : Nat) : (∀ p, Fin width → α p) → ∀ q, Fin width → β q

/-- The SIMD form acts lane by lane as the scalar form. -/
def ProcessOne.LaneByLane (f : ProcessOne α β) : Prop :=
  ∀ width xs q l, f.simd width xs q l = f.scalar (fun p => xs p l) q

/-- The next index, what the output spans hold, and the calls so far, each with its first index and the one past its
    last. -/
structure Work (β : κ → Type) where
  i : Nat
  outputs : ∀ q, Nat → β q
  calls : List (Nat × Nat)

/-- `simdize_tuple_load_and_apply()`: the function of `width` samples of each input from an offset on. -/
def simdizeTupleLoadAndApply (width : Nat) (inputs : ∀ p, Nat → α p) (offset : Nat)
    (fn : (∀ p, Fin width → α p) → ∀ q, Fin width → β q) : ∀ q, Fin width → β q :=
  fn fun p l => inputs p (offset + l)

/-- `copy_to()`: the lanes, at an output span's indices from `offset` on. -/
def copyTo {γ : Type} {width : Nat} (output : Nat → γ) (offset : Nat) (result : Fin width → γ) : Nat → γ := fun j =>
  if h : offset ≤ j ∧ j - offset < width then result ⟨j - offset, h.2⟩ else output j

variable (f : ProcessOne α β) (inputs : ∀ p, Nat → α p)

/-- One call of the SIMD form, and the step to the index behind it. -/
def callSimd (width : Nat) (w : Work β) : Work β :=
  let results := simdizeTupleLoadAndApply width inputs w.i (f.simd width)
  { i := w.i + width
    outputs := fun q => copyTo (w.outputs q) w.i (results q)
    calls := w.calls ++ [(w.i, w.i + width)] }

/-- The loop over whole widths. -/
def mainLoop (width : Width) (nSamplesToProcess : Nat) (w : Work β) : Work β :=
  if w.i + width.lanes ≤ nSamplesToProcess then mainLoop width nSamplesToProcess (callSimd f inputs width.lanes w)
  else w
termination_by nSamplesToProcess - w.i
decreasing_by
  have hpos := width.pos
  change nSamplesToProcess - (w.i + width.lanes) < nSamplesToProcess - w.i
  omega

/-- `simd_epilogue()`: one call of `fn` for each width that is left when a width is halved again and again. -/
def simdEpilogue {σ : Type} (fn : Nat → σ → σ) (width : Nat) (s : σ) : σ :=
  if 0 < width / 2 then simdEpilogue fn (width / 2) (fn (width / 2) s) else s
termination_by width

/-- What the epilogue does for one width. -/
def epilogueCall (nSamplesToProcess width : Nat) (w : Work β) : Work β :=
  if w.i + width ≤ nSamplesToProcess then callSimd f inputs width w else w

def invokeProcessOneSimd (width : Width) (nSamplesToProcess : Nat) (outputs : ∀ q, Nat → β q) : Work β :=
  simdEpilogue (epilogueCall f inputs nSamplesToProcess) width.lanes
    (mainLoop f inputs width nSamplesToProcess ⟨0, outputs, []⟩)

/-- The output spans after one index of the scalar loop. -/
def callPure (outputs : ∀ q, Nat → β q) (i : Nat) : ∀ q, Nat → β q := fun q j =>
  if j = i then f.scalar (fun p => inputs p i) q else outputs q j

def invokeProcessOnePure (nSamplesToProcess : Nat) (outputs : ∀ q, Nat → β q) : ∀ q, Nat → β q :=
  (List.range nSamplesToProcess).foldl (callPure f inputs) outputs

end GnuRadio.SimdDispatch
