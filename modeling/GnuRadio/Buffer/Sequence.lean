import Mathlib.Data.List.Basic

/-! The gating sequences of a ring buffer (Sequence.hpp): the list of the readers' sequences, which attaching and
    detaching readers replace as a whole, and the steps of `addSequences` and `removeSequence`. A cursor is an
    absolute position, so it only grows; the model counts it in `Nat`. -/

namespace GnuRadio

/-- `std::has_single_bit` -/
def hasSingleBit (x : Nat) : Bool := x != 0 && x &&& (x - 1) == 0

/-- The slot of a position: a mask where the size is a power of two, a division otherwise. -/
def calculateIndex (size seq : Nat) : Nat :=
  if hasSingleBit size then seq &&& (size - 1) else seq % size

theorem calculateIndex_eq_mod (size seq : Nat) : calculateIndex size seq = seq % size := by
  unfold calculateIndex
  split
  case isFalse => rfl
  case isTrue h =>
    simp only [hasSingleBit, Bool.and_eq_true, bne_iff_ne, ne_eq, beq_iff_eq] at h
    obtain ⟨k, rfl⟩ := Nat.ne_zero_and_sub_one_eq_zero_iff_isPowerOfTwo.mp h
    rw [Nat.and_two_pow_sub_one_eq_mod]

/-- What a `shared_ptr` to the list names. A list is never changed in place, and a thread that compares the pointer
    keeps the list it loaded, so equal versions are one list. -/
structure SequenceList (ρ : Type) where
  version : Nat
  sequences : List ρ
  deriving DecidableEq, Repr

/-- `_readSequences`, with the value of each reader's sequence. -/
structure ReadSequences (ρ : Type) where
  list : SequenceList ρ
  value : ρ → Nat

namespace ReadSequences

variable {ρ : Type} [DecidableEq ρ]

def setValue (s : ReadSequences ρ) (r : ρ) (v : Nat) : ReadSequences ρ :=
  { s with value := Function.update s.value r v }

/-- The list is replaced if it is still the one that was loaded. -/
def exchange (s : ReadSequences ρ) (current : SequenceList ρ) (updated : List ρ) : Option (ReadSequences ρ) :=
  if s.list.version = current.version then
    some { s with list := { version := s.list.version + 1, sequences := updated } }
  else none

section

variable {s t : ReadSequences ρ} {r q : ρ} {v : Nat}

@[simp] theorem setValue_list : (s.setValue r v).list = s.list := rfl

@[simp] theorem setValue_self : (s.setValue r v).value r = v := Function.update_self ..

theorem setValue_of_ne (h : q ≠ r) : (s.setValue r v).value q = s.value q := Function.update_of_ne h ..

end

omit [DecidableEq ρ] in
theorem exchange_eq_some {s t : ReadSequences ρ} {current : SequenceList ρ} {updated : List ρ}
    (h : s.exchange current updated = some t) :
    s.list.version = current.version ∧ t = { s with list := { version := s.list.version + 1, sequences := updated } } := by
  unfold exchange at h
  split at h
  · exact ⟨by assumption, (Option.some.inj h).symm⟩
  · cases h

end ReadSequences

/-- One comparison of `getMinimumSequence`, which starts at the largest `size_t` (none). -/
def lower (minimum : Option Nat) (v : Nat) : Nat :=
  match minimum with
  | none => v
  | some m => if v < m then v else m

/-- The remaining capacity of both claim strategies: a reader cursor ahead of the reserve cursor wraps around in
    unsigned arithmetic and leaves nothing, too. -/
def remainingCapacity (size reserveCursor minReader : Nat) : Nat :=
  if reserveCursor < minReader ∨ size ≤ reserveCursor - minReader then 0
  else size - (reserveCursor - minReader)

/-- Where a call of `addSequences` for one sequence stands. -/
inductive AddSequences (ρ : Type)
  | load
  | readCursor (current : SequenceList ρ)
  | setValue (current : SequenceList ρ) (cursorSequence : Nat)
  | compareExchange (current : SequenceList ρ)
  | rereadCursor
  | resetValue (cursorSequence : Nat)
  deriving DecidableEq, Repr

/-- One access of `addSequences`; none in the second component once the call is over. The exchange is a weak one,
    so it may fail although the list is the one that was loaded (`spurious`). -/
def AddSequences.step {ρ : Type} [DecidableEq ρ] (cursor : Nat) (r : ρ) (spurious : Bool) (s : ReadSequences ρ) :
    AddSequences ρ → ReadSequences ρ × Option (AddSequences ρ)
  | .load => (s, some (.readCursor s.list))
  | .readCursor current => (s, some (.setValue current cursor))
  | .setValue current c => (s.setValue r c, some (.compareExchange current))
  | .compareExchange current =>
    match if spurious then none else s.exchange current (current.sequences ++ [r]) with
    | some s' => (s', some .rereadCursor)
    | none => (s, some .load)
  | .rereadCursor => (s, some (.resetValue cursor))
  | .resetValue c => (s.setValue r c, none)

/-- Where a call of `removeSequence` stands. -/
inductive RemoveSequence (ρ : Type)
  | load
  | compareExchange (old : SequenceList ρ)
  deriving DecidableEq, Repr

/-- One access of `removeSequence`; a list without the sequence ends the call. -/
def RemoveSequence.step {ρ : Type} [DecidableEq ρ] (r : ρ) (spurious : Bool) (s : ReadSequences ρ) :
    RemoveSequence ρ → ReadSequences ρ × Option (RemoveSequence ρ)
  | .load => if r ∈ s.list.sequences then (s, some (.compareExchange s.list)) else (s, none)
  | .compareExchange old =>
    match if spurious then none else s.exchange old (old.sequences.filter (· ≠ r)) with
    | some s' => (s', none)
    | none => (s, some .load)

end GnuRadio
