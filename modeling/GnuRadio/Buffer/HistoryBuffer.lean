import GnuRadio.Buffer.Sequence
import GnuRadio.Library.BoundedDeque
import GnuRadio.Library.Arrays
import GnuRadio.Library.Transition
import Mathlib.Data.Nat.Log

/-! `HistoryBuffer` (HistoryBuffer.hpp): a ring whose second half mirrors the first, so that a range of elements is
    contiguous. `push_back` writes both halves, `push_front` the first half only, and the first elements that the
    mirror still lacks are counted. -/

namespace GnuRadio

/-- The template parameter `N`: a capacity set at run time, or a fixed one. -/
inductive Extent
  | dynamic
  | fixed (N : Nat)
  deriving DecidableEq, Repr

/-- `std::bit_ceil` -/
def bitCeil (n : Nat) : Nat := 2 ^ Nat.clog 2 n

structure HistoryBuffer (α : Type) where
  buffer : List α
  capacity : Nat
  writePosition : Nat
  size : Nat
  ringMask : Nat
  mirrorDirtyCount : Nat
  deriving DecidableEq, Repr

namespace HistoryBuffer

open Copies

variable {α : Type} (N : Extent)

def ringCapacity (b : HistoryBuffer α) : Nat :=
  match N with
  | .dynamic => b.ringMask + 1
  | .fixed n => n

/-- Maps the logical index to the physical index in the buffer. -/
def mapIndex (b : HistoryBuffer α) (index : Nat) : Nat :=
  match N with
  | .dynamic => (b.writePosition + index) &&& b.ringMask
  | .fixed n => if hasSingleBit n then (b.writePosition + index) &&& (n - 1) else (b.writePosition + index) % n

def syncMirror (b : HistoryBuffer α) : HistoryBuffer α :=
  if b.mirrorDirtyCount = 0 then b
  else
    let rc := b.ringCapacity N
    let contiguous := rc - b.writePosition
    let buffer :=
      if b.mirrorDirtyCount ≤ contiguous then
        copyWithin b.buffer b.writePosition b.mirrorDirtyCount (b.writePosition + rc)
      else
        copyWithin (copyWithin b.buffer b.writePosition contiguous (b.writePosition + rc)) 0
          (b.mirrorDirtyCount - contiguous) rc
    { b with buffer := buffer, mirrorDirtyCount := 0 }

/-- The constructors. Both throw, or are refused at compile time, where no element fits. -/
def make [Inhabited α] (capacity : Nat) : Option (HistoryBuffer α) :=
  match N with
  | .dynamic =>
    if capacity = 0 then none
    else some ⟨List.replicate (bitCeil capacity * 2) default, capacity, 0, 0, bitCeil capacity - 1, 0⟩
  | .fixed n => if n = 0 ∨ capacity ≠ n then none else some ⟨List.replicate (n * 2) default, n, 0, 0, n - 1, 0⟩

/-- `push_front(value)` writes only the primary half. -/
def pushFront (b : HistoryBuffer α) (value : α) : HistoryBuffer α :=
  let rc := b.ringCapacity N
  let writePosition := b.mapIndex N (rc - 1)
  { b with
    size := if b.size < b.capacity then b.size + 1 else b.size
    writePosition := writePosition
    buffer := b.buffer.set writePosition value
    mirrorDirtyCount := if b.mirrorDirtyCount < rc then b.mirrorDirtyCount + 1 else b.mirrorDirtyCount }

/-- `push_front(begin, end)` -/
def pushFrontRange (b : HistoryBuffer α) (values : List α) : HistoryBuffer α :=
  let optimized := if values.length > b.capacity then values.drop (values.length - b.capacity) else values
  optimized.foldl (pushFront N) b

/-- `push_back(value)` writes both halves. -/
def pushBack (b : HistoryBuffer α) (value : α) : HistoryBuffer α :=
  let rc := b.ringCapacity N
  let advanced : HistoryBuffer α :=
    if b.size = b.capacity then
      { b with
        writePosition := b.mapIndex N 1
        mirrorDirtyCount := b.mirrorDirtyCount - 1 } -- the discarded element is rewritten in both halves
    else { b with size := b.size + 1 }
  let insertPos := advanced.mapIndex N (advanced.size - 1)
  { advanced with buffer := (advanced.buffer.set insertPos value).set (insertPos + rc) value }

/-- `push_back(first, last)` -/
def pushBackRange (b : HistoryBuffer α) (values : List α) : HistoryBuffer α :=
  let rc := b.ringCapacity N
  if values.length = 0 then b
  else
    let kept := if values.length ≥ b.capacity then values.drop (values.length - b.capacity) else values
    let n := kept.length
    let needed := b.size + n
    let advanced : HistoryBuffer α :=
      if needed > b.capacity then
        let discardCount := needed - b.capacity
        { b with
          size := b.size - discardCount
          writePosition := b.mapIndex N discardCount
          mirrorDirtyCount := b.mirrorDirtyCount - min b.mirrorDirtyCount discardCount }
      else b
    let grown := { advanced with size := advanced.size + n }
    let startPos := grown.mapIndex N (grown.size - n)
    let chunk1 := min n (rc - startPos)
    let first := overwrite (overwrite grown.buffer startPos (kept.take chunk1)) (startPos + rc) (kept.take chunk1)
    let buffer :=
      if n - chunk1 > 0 then overwrite (overwrite first 0 (kept.drop chunk1)) rc (kept.drop chunk1) else first
    { grown with buffer := buffer }

def popFront (b : HistoryBuffer α) : Option (HistoryBuffer α) :=
  if b.size = 0 then none
  else some { b with
    writePosition := b.mapIndex N 1
    size := b.size - 1
    mirrorDirtyCount := b.mirrorDirtyCount - 1 }

def popBack (b : HistoryBuffer α) : Option (HistoryBuffer α) :=
  if b.size = 0 then none else some { b with size := b.size - 1 }

/-- `begin()`, with the elements up to `end()`. -/
def range (b : HistoryBuffer α) : List α :=
  let synced := b.syncMirror N
  (synced.buffer.drop synced.writePosition).take synced.size

/-- `resize(newCapacity)` throws for a capacity of zero, and a fixed capacity has no such call. -/
def resize [Inhabited α] (b : HistoryBuffer α) (newCapacity : Nat) : Option (HistoryBuffer α) :=
  match N with
  | .fixed _ => none
  | .dynamic =>
    if newCapacity = 0 then none
    else
      let newRingCap := bitCeil newCapacity
      let copyCount := min b.size newCapacity
      let firstHalf := overwrite (List.replicate (newRingCap * 2) default) 0 ((b.range .dynamic).take copyCount)
      some {
        buffer := copyWithin firstHalf 0 copyCount newRingCap
        capacity := newCapacity
        ringMask := newRingCap - 1
        size := copyCount
        writePosition := 0
        mirrorDirtyCount := 0 }

/-- `operator[](index)`, none for an access outside of the buffer. -/
def get (b : HistoryBuffer α) (index : Nat) : Option α := b.buffer[b.mapIndex N index]?

/-- A write through the reference that `operator[]`, `at`, `front` or `back` returns. -/
def write (b : HistoryBuffer α) (index : Nat) (value : α) : HistoryBuffer α :=
  { b with buffer := b.buffer.set (b.mapIndex N index) value }

/-- `get_span(index, length)` -/
def getSpan (b : HistoryBuffer α) (index length : Nat) : List α :=
  let synced := b.syncMirror N
  -- past the end the difference wraps around and bounds no length
  let length := if index ≤ synced.size then min (synced.size - index) length else length
  (synced.buffer.drop (synced.mapIndex N index)).take length

def reset (b : HistoryBuffer α) (defaultValue : α) : HistoryBuffer α :=
  { b with
    size := 0
    writePosition := 0
    mirrorDirtyCount := 0
    buffer := List.replicate b.buffer.length defaultValue }

/-- A call that can change the buffer. `view` is a call of `get_span` or of an iterator, which completes the mirror. -/
inductive Op (α : Type)
  | pushFront (value : α)
  | pushFrontRange (values : List α)
  | pushBack (value : α)
  | pushBackRange (values : List α)
  | popFront
  | popBack
  | resize (newCapacity : Nat)
  | reset (defaultValue : α)
  | view
  deriving DecidableEq, Repr

/-- The buffer after a call, none where the call throws. -/
def apply [Inhabited α] (b : HistoryBuffer α) : Op α → Option (HistoryBuffer α)
  | .pushFront value => some (b.pushFront N value)
  | .pushFrontRange values => some (b.pushFrontRange N values)
  | .pushBack value => some (b.pushBack N value)
  | .pushBackRange values => some (b.pushBackRange N values)
  | .popFront => b.popFront N
  | .popBack => b.popBack
  | .resize newCapacity => b.resize N newCapacity
  | .reset defaultValue => some (b.reset defaultValue)
  | .view => some (b.syncMirror N)

end HistoryBuffer

/-- What a history buffer stands for: a list of bounded length. -/
structure History (α : Type) where
  capacity : Nat
  elements : List α
  deriving DecidableEq, Repr

namespace History

variable {α : Type} (N : Extent)

/-- What a call does to the list. A smaller capacity keeps the first elements. -/
def apply (h : History α) : HistoryBuffer.Op α → Option (History α)
  | .pushFront value => some { h with elements := BoundedDeque.pushFront h.capacity h.elements value }
  | .pushFrontRange values =>
    some { h with elements := values.foldl (BoundedDeque.pushFront h.capacity) h.elements }
  | .pushBack value => some { h with elements := BoundedDeque.pushBack h.capacity h.elements value }
  | .pushBackRange values => some { h with elements := values.foldl (BoundedDeque.pushBack h.capacity) h.elements }
  | .popFront => if h.elements = [] then none else some { h with elements := h.elements.tail }
  | .popBack => if h.elements = [] then none else some { h with elements := h.elements.dropLast }
  | .resize newCapacity =>
    match N with
    | .fixed _ => none
    | .dynamic => if newCapacity = 0 then none else some ⟨newCapacity, h.elements.take newCapacity⟩
  | .reset _ => some { h with elements := [] }
  | .view => some h

end History

namespace HistoryBuffer

variable {α : Type} (N : Extent)

/-- A call, or a write through a mutable access to an element. -/
inductive Act (α : Type)
  | call (op : Op α)
  | write (index : Nat) (value : α)
  deriving DecidableEq, Repr

/-- The buffer and the list that it stands for. A call that throws leaves either as it was. -/
def system [Inhabited α] (capacity : Nat) : Transition.System (HistoryBuffer α × History α) (Act α) where
  start s := make N capacity = some s.1 ∧ s.2 = ⟨capacity, []⟩
  step s
    | .call op => some ((s.1.apply N op).getD s.1, (s.2.apply N op).getD s.2)
    | .write index value =>
      if index < s.1.size then some (s.1.write N index value, { s.2 with elements := s.2.elements.set index value })
      else none

end HistoryBuffer

end GnuRadio
