import Mathlib.Data.List.SplitBy

/-! Merging sorted ranges and removing repeated neighbours (`meta/include/gnuradio-4.0/meta/RangesHelper.hpp`). -/

universe u

namespace GnuRadio.RangesHelper

variable {α : Type u}

/-! ### Merging -/

structure MergeView (α : Type u) where
  out : List (List α)
  comp : α → α → Bool

/-- A position in each range, and the range that the next element comes from. There are as many positions as ranges. -/
structure Iterator where
  its : List Nat
  chosen : Nat
  deriving DecidableEq, Repr

namespace MergeView

variable (view : MergeView α)

/-- A place among the elements: a range and a position in it. -/
abbrev Place := Nat × Nat

def valueAt (place : Place) : Option α := (view.out[place.1]?).bind fun range => range[place.2]?

/-- The element that a position stands at, none at the end of the range. -/
def current (its : List Nat) (idx : Nat) : Option α := its[idx]?.bind fun position => view.valueAt (idx, position)

/-- The body of the loop in `next()`. -/
def choose (its : List Nat) (chosen idx : Nat) : Nat :=
  match view.current its idx with
  | none => chosen
  | some value =>
    match view.current its chosen with
    | none => idx
    | some best => if view.comp value best then idx else chosen

/-- `next()`: a range with a least element, the number of the ranges where all are at their ends. -/
def next (its : List Nat) : Iterator := ⟨its, (List.range its.length).foldl (view.choose its) its.length⟩

def begin_ : Iterator := view.next (List.replicate view.out.length 0)

def dereference (it : Iterator) : Option α := view.current it.its it.chosen

def increment (it : Iterator) : Iterator := view.next (it.its.modify it.chosen (· + 1))

/-- The comparison with the sentinel. -/
def atEnd (it : Iterator) : Bool := it.chosen = it.its.length

/-- The elements that a loop over the view sees from an iterator on. It is given the number of tests that it may make. -/
def elementsFrom : Nat → Iterator → Option (List α)
  | 0, _ => none
  | fuel + 1, it =>
    if atEnd it then some []
    else (view.dereference it).bind fun value => (elementsFrom fuel (view.increment it)).map (value :: ·)

/-- What is done with iterators: one is copied, or one goes on to the next element. -/
inductive Action
  | copy (i : Nat)
  | advance (i : Nat)
  deriving DecidableEq, Repr

/-- The iterators after an action, none if there is no such iterator or it is at the end. -/
def act (its : List Iterator) : Action → Option (List Iterator)
  | .copy i => its[i]?.map fun it => its ++ [it]
  | .advance i => its[i]?.bind fun it => if atEnd it then none else some (its.set i (view.increment it))

end MergeView

/-! ### Repeated elements -/

structure PairDeduplicateView (α : Type u) where
  eq1 : α → α → Bool
  eq2 : α → α → Bool

namespace PairDeduplicateView

variable (view : PairDeduplicateView α)

/-- The look back into the result, which is given backwards. -/
def isDuplicate (chunkStart current : α) : List α → Bool
  | [] => false
  | checkIt :: before =>
    if !view.eq1 chunkStart checkIt then false
    else if view.eq2 checkIt current then true
    else isDuplicate chunkStart current before

def pushUnlessDuplicate (chunkStart : α) (result : List α) (current : α) : List α :=
  if view.isDuplicate chunkStart current result.reverse then result else result ++ [current]

/-- The inner loop behind the first element of a chunk: the result, and where the next chunk starts. -/
def collectChunk (chunkStart : α) : List α → List α → List α × List α
  | result, [] => (result, [])
  | result, current :: rest =>
    if !view.eq1 chunkStart current then (result, current :: rest)
    else collectChunk chunkStart (view.pushUnlessDuplicate chunkStart result current) rest

/-- The outer loop. It is given the number of chunks that there may be. -/
def collect : Nat → List α → List α → Option (List α)
  | _, result, [] => some result
  | 0, _, _ :: _ => none
  | fuel + 1, result, chunkStart :: rest =>
    let (result, rest) := view.collectChunk chunkStart (view.pushUnlessDuplicate chunkStart result chunkStart) rest
    collect fuel result rest

end PairDeduplicateView

/-! ### What they are for -/

namespace MergeView

variable (view : MergeView α)

/-- The iterator that has gone on `k` times. -/
def iterate (k : Nat) : Iterator := view.increment^[k] view.begin_

/-- All places, range by range. -/
def places : List Place := view.out.zipIdx.flatMap fun (range, idx) => (List.range range.length).map (idx, ·)

/-- A stable merge of the ranges. -/
structure Merges (elements : List α) : Prop where
  perm : elements.Perm view.out.flatten
  ordered : elements.Pairwise fun a b => view.comp b a = false
  /-- The elements come from all the places, and equivalent ones from a place before that of the other. -/
  stable : ∃ places : List Place, places.Perm view.places ∧ places.map view.valueAt = elements.map some ∧
    places.Pairwise fun p q => ∀ a b, view.valueAt p = some a → view.valueAt q = some b → view.comp a b = false →
      p.1 < q.1 ∨ p.1 = q.1 ∧ p.2 < q.2
  sentinel : ∀ k ≤ elements.length, atEnd (view.iterate k) = decide (k = elements.length)
  values : ∀ k < elements.length, view.dereference (view.iterate k) = elements[k]?

/-- The places of iterators that know nothing of each other: how often each has gone on. -/
def count (length : Nat) (counts : List Nat) : Action → Option (List Nat)
  | .copy i => counts[i]?.map fun k => counts ++ [k]
  | .advance i => counts[i]?.bind fun k => if k = length then none else some (counts.set i (k + 1))

end MergeView

namespace PairDeduplicateView

/-- The elements that are not as an earlier one that is kept. -/
def keepFirst (eq2 : α → α → Bool) (run : List α) : List α :=
  run.foldl (fun kept current => if kept.any fun earlier => eq2 earlier current then kept else kept ++ [current]) []

end PairDeduplicateView

end GnuRadio.RangesHelper
