import GnuRadio.Library.Transition
import Mathlib.Algebra.Ring.Nat

/-! A bitset whose words are read and written atomically (`AtomicBitset.hpp`). An operation is the list of its accesses of
    single words, and threads that run at the same time take turns in the steps of these. -/

namespace GnuRadio.AtomicBitset

abbrev Word := BitVec 64

abbrev bitsPerWord : Nat := 64

/-- The words that a bitset of this size has. The size is rounded up in 64 bits. -/
def wordCount (size : Nat) : Nat := (size + bitsPerWord - 1) % 2 ^ 64 / bitsPerWord

/-- An access of one word: the loop around `compare_exchange()`, and the store of a whole word. -/
inductive Access
  | exchange (wordIndex : Nat) (mask : Word) (value : Bool)
  | store (wordIndex : Nat) (value : Bool)
  deriving DecidableEq, Repr

namespace Access

def wordIndex : Access → Nat
  | .exchange wordIndex _ _ | .store wordIndex _ => wordIndex

/-- What an access makes of a word that it finds. -/
def newBits : Access → Word → Word
  | .exchange _ mask value, oldBits => if value then oldBits ||| mask else oldBits &&& ~~~mask
  | .store _ value, _ => if value then BitVec.allOnes 64 else 0

end Access

def setBitsInWord (wordIndex begin_ end_ : Nat) (value : Bool) : Access :=
  let mask : Word :=
    if end_ = bitsPerWord then ~~~((1#64 <<< begin_) - 1) else ((1#64 <<< end_) - 1) &&& ~~~((1#64 <<< begin_) - 1)
  .exchange wordIndex mask value

def setFullWord (wordIndex : Nat) (value : Bool) : Access := .store wordIndex value

/-- `set()` of one bit -/
def setBit (bitPosition : Nat) (value : Bool) : List Access :=
  [.exchange (bitPosition / bitsPerWord) (1#64 <<< (bitPosition % bitsPerWord)) value]

/-- `set()` of the bits from `begin_` to before `end_` -/
def setRange (begin_ end_ : Nat) (value : Bool) : List Access :=
  let beginWord := begin_ / bitsPerWord
  let endWord := end_ / bitsPerWord
  let beginOffset := begin_ % bitsPerWord
  let endOffset := end_ % bitsPerWord
  if begin_ = end_ then []
  else if beginWord = endWord then [setBitsInWord beginWord beginOffset endOffset value]
  else
    let leading := if beginOffset ≠ 0 then [setBitsInWord beginWord beginOffset bitsPerWord value] else []
    let firstFull := if beginOffset ≠ 0 then beginWord + 1 else beginWord
    let trailing := if endOffset ≠ 0 then [setBitsInWord endWord 0 endOffset value] else []
    -- the whole words from `firstFull` to `endWord - 1`
    leading ++ trailing ++ (List.range' firstFull (endWord - firstFull)).map (setFullWord · value)

def test (words : List Word) (bitPosition : Nat) : Bool :=
  (words[bitPosition / bitsPerWord]?.getD 0).getLsbD (bitPosition % bitsPerWord)

/-- One access with nothing between its steps, none if the word is not in the array. -/
def perform (words : List Word) (access : Access) : Option (List Word) :=
  words[access.wordIndex]?.map fun oldBits => words.set access.wordIndex (access.newBits oldBits)

/-- An operation that runs alone. -/
def execute (words : List Word) (accesses : List Access) : Option (List Word) := accesses.foldlM perform words

/-! ### Threads -/

inductive Operation
  | bit (bitPosition : Nat) (value : Bool)
  | range (begin_ end_ : Nat) (value : Bool)
  deriving DecidableEq, Repr

namespace Operation

def value : Operation → Bool
  | .bit _ value | .range _ _ value => value

def accesses : Operation → List Access
  | .bit bitPosition value => setBit bitPosition value
  | .range begin_ end_ value => setRange begin_ end_ value

/-- The bits that an operation sets. -/
def Sets (operation : Operation) (i : Nat) : Prop :=
  match operation with
  | .bit bitPosition _ => i = bitPosition
  | .range begin_ end_ _ => begin_ ≤ i ∧ i < end_

/-- What the operation asserts. -/
def Valid (size : Nat) : Operation → Prop
  | .bit bitPosition _ => bitPosition < size
  | .range begin_ end_ _ => begin_ ≤ end_ ∧ end_ ≤ size

end Operation

/-- A thread in an operation: the accesses left, and the word that the loop of the first of them has read. -/
structure Thread where
  accesses : List Access
  oldBits : Option Word := none
  deriving DecidableEq, Repr

structure State where
  words : List Word
  threads : List Thread
  deriving DecidableEq, Repr

/-- The words and the thread after its next atomic step, none behind its last and outside of the array. -/
def Thread.step (words : List Word) (thread : Thread) : Option (List Word × Thread) :=
  match thread.accesses with
  | [] => none
  | access :: accesses =>
    words[access.wordIndex]?.map fun word =>
      match access, thread.oldBits with
      | .store .., _ => (words.set access.wordIndex (access.newBits word), ⟨accesses, none⟩)
      | .exchange .., none => (words, ⟨access :: accesses, some word⟩)
      | .exchange .., some oldBits =>
        if word = oldBits then (words.set access.wordIndex (access.newBits oldBits), ⟨accesses, none⟩)
        else (words, ⟨access :: accesses, none⟩)

/-- The operations run at the same time, each in a thread of its own. A label is the thread that makes a step. -/
def system (words : List Word) (operations : List Operation) : Transition.System State Nat where
  start s := s = ⟨words, operations.map fun operation => ⟨operation.accesses, none⟩⟩
  step s k := do
    let thread ← s.threads[k]?
    let (words, thread) ← thread.step s.words
    some ⟨words, s.threads.set k thread⟩

/-! ### What the operations are for -/

/-- The range operation changes its bits and nothing else. -/
def SetsRange (size : Nat) : Prop :=
  ∀ (begin_ end_ : Nat) (value : Bool), begin_ ≤ end_ → end_ ≤ size → ∀ words : List Word, words.length = wordCount size →
    ∃ words', execute words (setRange begin_ end_ value) = some words' ∧ words'.length = words.length ∧
      ∀ i, test words' i = if begin_ ≤ i ∧ i < end_ then value else test words i

/-- Operations on bits of their own, in any order of their steps: every run ends, no thread that has accesses left is
    without a step, the bits of an operation that has ended are as it set them, and the bits of none are as they were. -/
def KeepsApart (size : Nat) : Prop :=
  ∀ (words : List Word) (operations : List Operation), words.length = wordCount size →
    (∀ operation ∈ operations, operation.Valid size) → operations.Pairwise (fun a b => ∀ i, ¬ (a.Sets i ∧ b.Sets i)) →
    (∃ bound : Nat, ∀ s labels, (system words operations).start s → ((system words operations).run s labels).isSome = true →
      labels.length ≤ bound) ∧
    ∀ s, (system words operations).Reachable s → s.threads.length = operations.length ∧
      (∀ (k : Nat) (thread : Thread), s.threads[k]? = some thread → thread.accesses ≠ [] →
        ((system words operations).step s k).isSome = true) ∧
      (∀ (k : Nat) (operation : Operation) (thread : Thread), operations[k]? = some operation → s.threads[k]? = some thread →
        thread.accesses = [] → ∀ i, operation.Sets i → test s.words i = operation.value) ∧
      ∀ i, (∀ operation ∈ operations, ¬ operation.Sets i) → test s.words i = test words i

end GnuRadio.AtomicBitset
