import Mathlib.Algebra.Ring.Nat

/-! The ports of a block as an edge names them (BlockModel.hpp): single ports and port collections, the port that a
    `PortDefinition` names (`dynamicPortFromName()`, `dynamicPortByIndexImpl()`), and the place of a port among all of them
    (`absolutePortIndex()`). Error texts are left out: a port that is not found is `none`. -/

namespace GnuRadio.Graph

/-- `subIndex` is `none` for `meta::invalid_index`. -/
inductive PortDefinition
  | index (topLevel : Nat) (subIndex : Option Nat)
  | name (name : String)
  deriving DecidableEq, Repr

inductive PortOrCollection (π : Type)
  | port (name : String) (port : π)
  | collection (name : String) (ports : List π)
  deriving DecidableEq, Repr

abbrev DynamicPorts (π : Type) := List (PortOrCollection π)

variable {π : Type}

/-- `std::from_chars` into a `std::size_t`: the digits in front, and what follows them. -/
def fromChars (chars : List Char) : Option (Nat × List Char) :=
  let digits := chars.takeWhile Char.isDigit
  let value := digits.foldl (fun n c => 10 * n + (c.toNat - '0'.toNat)) 0
  if digits = [] ∨ 2 ^ 64 ≤ value then none else some (value, chars.dropWhile Char.isDigit)

/-- The text before the first `'#'`, and the text after it. -/
def splitAtHash (name : String) : String × Option (List Char) :=
  (String.ofList (name.toList.takeWhile (· ≠ '#')), (name.toList.dropWhile (· ≠ '#')).tail?)

namespace PortOrCollection

def portName : PortOrCollection π → String
  | port name _ => name
  | collection name _ => name

def ports : PortOrCollection π → List π
  | port _ p => [p]
  | collection _ ps => ps

/-- `dynamicInputPortsSize(i)`, which is `meta::invalid_index` for a single port. -/
def size : PortOrCollection π → Option Nat
  | port _ _ => none
  | collection _ ps => some ps.length

/-- Whether an offset lies in a collection. It is compared with `meta::invalid_index` for a single port. -/
def holds (entry : PortOrCollection π) (offset : Nat) : Bool :=
  entry.size.all fun n => decide (offset < n)

end PortOrCollection

namespace DynamicPorts

/-- Every port, those of the collections included. -/
def all (ports : DynamicPorts π) : List π := ports.flatMap PortOrCollection.ports

def fromName (ports : DynamicPorts π) (name : String) : Option π :=
  match splitAtHash name with
  | (_, none) => ports.findSome? fun
    | .port portName p => if portName = name then some p else none
    | .collection _ _ => none
  | (base, some indexString) => do
    let (index, _) ← fromChars indexString
    let members ← ports.findSome? fun
      | .port _ _ => none
      | .collection collectionName ps => if collectionName = base then some ps else none
    members[index]?

def byIndex (ports : DynamicPorts π) (topIndex : Nat) (subIndex : Option Nat) : Option π :=
  match ports[topIndex]?, subIndex with
  | some (.collection _ ps), some sub => ps[sub]?
  | some (.port _ p), none => some p
  | _, _ => none

/-- `dynamicInputPort()` and `dynamicOutputPort()` of a `PortDefinition`. -/
def resolve (ports : DynamicPorts π) : PortDefinition → Option π
  | .index topLevel subIndex => ports.byIndex topLevel subIndex
  | .name name => ports.fromName name

/-- `dynamicInputPortIndex()`: the first entry of that name. -/
def indexOf (ports : DynamicPorts π) (name : String) : Option Nat :=
  ports.findIdx? fun entry => decide (entry.portName = name)

/-- How many ports the entries before an entry have. -/
def countPortsPrior (ports : DynamicPorts π) (idx : Nat) : Option Nat :=
  if idx < ports.length then some (all (ports.take idx)).length else none

/-- `portBaseNameAndOffset()` for a port that an edge names: a text behind the `'#'` that is not a number gives an offset
    that no collection has, `none` here. -/
def baseNameAndOffset (name : String) : String × Option Nat :=
  match splitAtHash name with
  | (base, none) => (base, some 0)
  | (base, some tail) => (base, (fromChars tail).bind fun (n, rest) => if rest = [] then some n else none)

def absolutePortIndex (ports : DynamicPorts π) : PortDefinition → Option Nat
  | .index topLevel (some sub) => do
    let entry ← ports[topLevel]?
    if entry.holds sub then
      let prior ← ports.countPortsPrior topLevel
      pure (prior + sub)
    else none
  | .index topLevel none => if topLevel = 0 then some 0 else ports.countPortsPrior topLevel
  | .name name => do
    let _ ← ports.fromName name
    let (base, offset) := baseNameAndOffset name
    let baseIdx ← ports.indexOf base
    let entry ← ports[baseIdx]?
    let offset ← offset
    if entry.holds offset then
      let prior ← ports.countPortsPrior baseIdx
      pure (prior + offset)
    else none

theorem mem_all {ports : DynamicPorts π} {entry : PortOrCollection π} {p : π} (he : entry ∈ ports)
    (hp : p ∈ entry.ports) : p ∈ ports.all := List.mem_flatMap.mpr ⟨entry, he, hp⟩

theorem mem_all_of_byIndex {ports : DynamicPorts π} {topIndex : Nat} {subIndex : Option Nat} {p : π}
    (h : ports.byIndex topIndex subIndex = some p) : p ∈ ports.all := by
  unfold byIndex at h
  split at h
  · next he => exact mem_all (List.mem_of_getElem? he) (List.mem_of_getElem? h)
  · next he =>
    cases h
    exact mem_all (List.mem_of_getElem? he) (List.mem_singleton_self p)
  · cases h

theorem mem_all_of_fromName {ports : DynamicPorts π} {name : String} {p : π} (h : ports.fromName name = some p) :
    p ∈ ports.all := by
  unfold fromName at h
  split at h
  · obtain ⟨entry, he, hp⟩ := List.exists_of_findSome?_eq_some h
    cases entry with
    | port portName q =>
      obtain ⟨-, hq⟩ := Option.ite_none_right_eq_some.mp hp
      cases hq
      exact mem_all he (List.mem_singleton_self p)
    | collection _ _ => cases hp
  · simp only [Option.bind_eq_bind, Option.bind_eq_some_iff] at h
    obtain ⟨_, -, members, hfind, hget⟩ := h
    obtain ⟨entry, he, hps⟩ := List.exists_of_findSome?_eq_some hfind
    cases entry with
    | port _ _ => cases hps
    | collection _ ps =>
      obtain ⟨-, hps⟩ := Option.ite_none_right_eq_some.mp hps
      cases hps
      exact mem_all he (List.mem_of_getElem? hget)

/-- A port that an edge names is one of the ports. -/
theorem mem_all_of_resolve {ports : DynamicPorts π} {definition : PortDefinition} {p : π}
    (h : ports.resolve definition = some p) : p ∈ ports.all := by
  cases definition with
  | index topLevel subIndex => exact mem_all_of_byIndex h
  | name name => exact mem_all_of_fromName h

end DynamicPorts

end GnuRadio.Graph
