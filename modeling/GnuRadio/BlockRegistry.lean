import GnuRadio.PluginLoader

/-! The names of a block registry (BlockRegistry.hpp) and what a graph save writes of them: `typeName()` gives the alias
    that was registered with a type, and `create()` finds a factory under either name. Any number of registries are
    written, merged, and emptied for a while. -/

namespace GnuRadio.BlockRegistry

open Function

open PluginLoader (Entries Map RecordedAbiVersion Registry TypeHandler)
open Transition (System)

variable {F ι : Type}

/-- The factory that makes the block. -/
def create (r : Registry F) (blockName : String) : Option F := (r.entries.handlers.lookup blockName).map (·.createFunction)

/-- The name that is saved for a block with this `typeName()`. -/
def typeName (r : Registry F) (name : String) : String :=
  match r.entries.handlers.lookup name with
  | some handler => if handler.aliasName ≠ "" then handler.aliasName else name
  | none => name

/-- `merge()` of another registry: the entries of `r` stay. -/
def merge (r anotherRegistry : Registry F) : Registry F :=
  { r with
    entries :=
      { handlers := r.entries.handlers ∪ anotherRegistry.entries.handlers
        abiVersions := r.entries.abiVersions ∪ anotherRegistry.entries.abiVersions } }

/-- Entries with a history: what the insertion that wrote the handler of each key recorded of its version. -/
structure Logged (F : Type) where
  entries : Entries F
  recorded : Map (Option Nat)

/-- `registries` by name, with their histories, and the entries that were taken out of one and not put back yet. -/
structure State (F ι : Type) where
  registries : ι → Registry F × Map (Option Nat)
  taken : List (Logged F)

/-- An insertion by a library built against a registry without versions records none. -/
inductive Act (F ι : Type)
  | insert (i : ι) (name aliasName : String) (factory : F) (abiVersion : Option Nat)
  | takeEntries (i : ι)
  | restoreEntries (i : ι) (k : Nat) (keepRegistered : Bool)
  | merge (i j : ι)
  deriving DecidableEq, Repr

/-- The history of an insertion. -/
def logInsert (recorded : Map (Option Nat)) (name aliasName : String) (abiVersion : Option Nat) : Map (Option Nat) :=
  if aliasName = "" then recorded.insert name abiVersion
  else (recorded.insert name abiVersion).insert aliasName abiVersion

variable [DecidableEq ι]

def step (s : State F ι) : Act F ι → Option (State F ι)
  | .insert i name aliasName factory abiVersion =>
    let (r, recorded) := s.registries i
    some { s with
      registries := update s.registries i
        (r.insert name aliasName factory abiVersion, logInsert recorded name aliasName abiVersion) }
  | .takeEntries i =>
    let (r, recorded) := s.registries i
    some { registries := update s.registries i (r.takeEntries, ∅), taken := s.taken ++ [⟨r.entries, recorded⟩] }
  | .restoreEntries i k keepRegistered =>
    s.taken[k]?.map fun taken =>
      let (r, recorded) := s.registries i
      { registries := update s.registries i
          (r.restoreEntries taken.entries keepRegistered,
            if keepRegistered then recorded ∪ taken.recorded else taken.recorded)
        taken := s.taken.eraseIdx k }
  | .merge i j =>
    let (r, recorded) := s.registries i
    let (anotherRegistry, anotherRecorded) := s.registries j
    if i = j then some s
    else
      some { s with
        registries := update s.registries i (merge r anotherRegistry, recorded ∪ anotherRecorded) }

def system (F ι : Type) [DecidableEq ι] : System (State F ι) (Act F ι) where
  start s := s = ⟨fun _ => ({}, ∅), []⟩
  step := step

/-! ### What is promised of a registry -/

/-- The name saved for a block of a registered type makes a block by the factory registered for the type. -/
def RoundTrips (r : Registry F) : Prop :=
  ∀ name handler, r.entries.handlers.lookup name = some handler →
    create r (typeName r name) = some handler.createFunction

/-- The version of a key is what the insertion recorded whose factory is called for it. -/
def Versioned [DecidableEq F] (r : Registry F) (recorded : Map (Option Nat)) : Prop :=
  ∀ key, r.abiVersion key = (recorded.lookup key).join

/-! ### When it is kept -/

/-- The keys that an insertion writes. -/
def keysOf (name aliasName : String) : List String := if aliasName = "" then [name] else [name, aliasName]

/-- No entry that stays has a key of the insertion as its alias, unless its factory is the same one; and where the insertion
    records no version, none is recorded for its factory under its keys. -/
def InsertFits (e : Entries F) (name aliasName : String) (factory : F) (abiVersion : Option Nat) : Prop :=
  (∀ n handler, e.handlers.lookup n = some handler → n ∉ keysOf name aliasName → handler.aliasName ≠ "" →
    handler.aliasName ∈ keysOf name aliasName → handler.createFunction = factory) ∧
  (abiVersion = none → ∀ key ∈ keysOf name aliasName, ∀ version, e.abiVersions.lookup key = some version →
    version.createFunction ≠ factory)

/-- Where an entry is added whose alias is held already, the factory is the same one; and no version is added for an entry
    that has none and that has the same factory. -/
def UnionFits (e added : Entries F) : Prop :=
  (∀ n handler, e.handlers.lookup n = none → added.handlers.lookup n = some handler → handler.aliasName ≠ "" →
    ∀ held, e.handlers.lookup handler.aliasName = some held → held.createFunction = handler.createFunction) ∧
  ∀ key handler, e.handlers.lookup key = some handler → e.abiVersions.lookup key = none →
    ∀ version, added.abiVersions.lookup key = some version → version.createFunction ≠ handler.createFunction

/-- A step that takes no alias from another type's factory, and lets no version be read for an entry without one. -/
def Fits (s : State F ι) : Act F ι → Prop
  | .insert i name aliasName factory abiVersion => InsertFits (s.registries i).1.entries name aliasName factory abiVersion
  | .takeEntries _ => True
  | .restoreEntries i k keepRegistered =>
    keepRegistered = true → ∀ taken ∈ s.taken[k]?.toList, UnionFits (s.registries i).1.entries taken.entries
  | .merge i j => i ≠ j → UnionFits (s.registries i).1.entries (s.registries j).1.entries

end GnuRadio.BlockRegistry
