import GnuRadio.Library.KeyedMap
import GnuRadio.Library.Transition
import Mathlib.Algebra.Ring.Nat
import Mathlib.Data.List.Infix

/-! The scan of plugin directories by `PluginLoader` (`core/include/gnuradio-4.0/PluginLoader.hpp`), with
    the registries that a file's static initializers write (`BlockRegistry.hpp`, `DeviceListing.hpp`).

    What opening a file shows is given with the file: its handle, what its static initializers register,
    the symbols it exports and the instance that `gr_plugin_make` returns. A file that the process has
    mapped before runs no initializer, which is an empty list of them here. `F` stands for the function
    pointers that libraries register. -/

namespace GnuRadio.PluginLoader

abbrev Map (β : Type) := AList fun _ : String => β

def currentAbiVersion : Nat := 10

/-! ### Registries -/

structure TypeHandler (F : Type) where
  aliasName : String
  createFunction : F
deriving DecidableEq, Repr

structure RecordedAbiVersion (F : Type) where
  createFunction : F
  abiVersion : Nat
deriving DecidableEq, Repr

structure Entries (F : Type) where
  handlers : Map (TypeHandler F) := ∅
  abiVersions : Map (RecordedAbiVersion F) := ∅

/-- `GeneralRegistry`. -/
structure Registry (F : Type) where
  entries : Entries F := {}
  generation : Nat := 0

namespace Registry

variable {F : Type}

/-- One key. A library built against a registry without versions records none. -/
def assign (r : Registry F) (key aliasName : String) (factory : F) (abiVersion : Option Nat) : Registry F where
  entries :=
    { handlers := r.entries.handlers.insert key ⟨aliasName, factory⟩
      abiVersions :=
        match abiVersion with
        | some version => r.entries.abiVersions.insert key ⟨factory, version⟩
        | none => r.entries.abiVersions }
  generation := r.generation + 1

/-- `insert()`: the name, and the alias where there is one. -/
def insert (r : Registry F) (name aliasName : String) (factory : F) (abiVersion : Option Nat) : Registry F :=
  let r := r.assign name aliasName factory abiVersion
  if aliasName = "" then r else r.assign aliasName "" factory abiVersion

/-- `abiVersion()`: a version belongs to the factory it was recorded with. -/
def abiVersion [DecidableEq F] (r : Registry F) (key : String) : Option Nat :=
  match r.entries.handlers.lookup key, r.entries.abiVersions.lookup key with
  | some handler, some recorded =>
    if recorded.createFunction = handler.createFunction then some recorded.abiVersion else none
  | _, _ => none

def takeEntries (r : Registry F) : Registry F := { r with entries := {} }

def restoreEntries (r : Registry F) (taken : Entries F) (keepRegistered : Bool) : Registry F :=
  { r with
    entries :=
      if keepRegistered then
        { handlers := r.entries.handlers ∪ taken.handlers
          abiVersions := r.entries.abiVersions ∪ taken.abiVersions }
      else taken }

end Registry

/-- The registries a load can reach: the one the loader was handed, unless that is the process-wide one. -/
structure Registries (F : Type) where
  handed : Option (Registry F) := none
  global : Registry F := {}

inductive Target
  | handed
  | global
deriving DecidableEq, Repr

namespace Registries

variable {F : Type}

/-- The registry that a library reaches under a target. -/
def insert (r : Registries F) (target : Target) (name aliasName : String) (factory : F) (abiVersion : Option Nat) :
    Registries F :=
  match target, r.handed with
  | .handed, some handed => { r with handed := some (handed.insert name aliasName factory abiVersion) }
  | _, _ => { r with global := r.global.insert name aliasName factory abiVersion }

def reachable (r : Registries F) : List (Registry F) := r.handed.toList ++ [r.global]

def generation (r : Registries F) : Nat := (r.reachable.map Registry.generation).sum

def takeEntries (r : Registries F) : Registries F :=
  { handed := r.handed.map Registry.takeEntries, global := r.global.takeEntries }

/-- Each registry gets back what was taken from it. -/
def restoreEntries (r taken : Registries F) (keepRegistered : Bool) : Registries F where
  handed :=
    match r.handed, taken.handed with
    | some handed, some before => some (handed.restoreEntries before.entries keepRegistered)
    | handed, _ => handed
  global := r.global.restoreEntries taken.global.entries keepRegistered

end Registries

structure DeviceListing (F : Type) where
  family : String
  opens : Bool := false
  receive : Bool := false
  transmit : Bool := false
  listUnits : Option F
deriving DecidableEq, Repr

structure DeviceListingRegistry (F : Type) where
  listings : List (DeviceListing F) := []
  nOffered : Nat := 0
deriving DecidableEq, Repr

/-- `add()`: the first listing of a family word holds it. -/
def DeviceListingRegistry.add {F : Type} (r : DeviceListingRegistry F) (listing : DeviceListing F) :
    DeviceListingRegistry F where
  listings :=
    if listing.family = "" ∨ listing.listUnits.isNone ∨ listing.family ∈ r.listings.map DeviceListing.family then
      r.listings
    else r.listings ++ [listing]
  nOffered := r.nOffered + 1

/-- What the static initializers of a library register. -/
inductive Initializer (F : Type)
  | block (target : Target) (name aliasName : String) (factory : F) (abiVersion : Option Nat)
  | scheduler (target : Target) (name aliasName : String) (factory : F) (abiVersion : Option Nat)
  | deviceListing (listing : DeviceListing F)
deriving DecidableEq, Repr

/-- Everything that a load registers into. -/
structure Registered (F : Type) where
  blocks : Registries F := {}
  schedulers : Registries F := {}
  deviceListings : DeviceListingRegistry F := {}

namespace Registered

variable {F : Type}

def register (r : Registered F) : Initializer F → Registered F
  | .block target name aliasName factory abiVersion =>
    { r with blocks := r.blocks.insert target name aliasName factory abiVersion }
  | .scheduler target name aliasName factory abiVersion =>
    { r with schedulers := r.schedulers.insert target name aliasName factory abiVersion }
  | .deviceListing listing => { r with deviceListings := r.deviceListings.add listing }

def run (r : Registered F) (initializers : List (Initializer F)) : Registered F := initializers.foldl register r

/-- `SetAsideRegistrations`: the device listings stay in place. -/
def setAside (r : Registered F) : Registered F :=
  { r with blocks := r.blocks.takeEntries, schedulers := r.schedulers.takeEntries }

/-- `restore()`. The count of offered listings is left. -/
def restore (r before : Registered F) (keepRegistered : Bool) : Registered F where
  blocks := r.blocks.restoreEntries before.blocks keepRegistered
  schedulers := r.schedulers.restoreEntries before.schedulers keepRegistered
  deviceListings :=
    { r.deviceListings with
      listings :=
        if keepRegistered then r.deviceListings.listings
        else r.deviceListings.listings.take before.deviceListings.listings.length }

/-- The least of some keys, which a `std::map` lists first. -/
def least : List String → Option String
  | [] => none
  | key :: keys =>
    match least keys with
    | some other => if other < key then some other else some key
    | none => some key

/-- The first scheduler of a registry that is not at the host's version, and why it is refused. -/
def mismatchIn [DecidableEq F] (r : Registry F) : Option String :=
  (least (r.entries.handlers.keys.filter fun key => r.abiVersion key ≠ some currentAbiVersion)).map fun key =>
    match r.abiVersion key with
    | none =>
      s!"scheduler {key} carries no plugin ABI version; the host's plugin ABI version is {currentAbiVersion}"
    | some version =>
      s!"scheduler {key} has plugin ABI version {version}, which does not match the host's plugin ABI version " ++
        s!"{currentAbiVersion}"

/-- `schedulerAbiMismatch()`. -/
def schedulerAbiMismatch [DecidableEq F] (r : Registered F) : Option String :=
  r.schedulers.reachable.findSome? mismatchIn

end Registered

/-! ### Files -/

/-- `gr_plugin_base`. -/
structure Instance where
  abiVersion : Nat
  availableBlocks : List String := []
  availableSchedulers : List String := []
deriving DecidableEq, Repr

/-- What opening a file shows. -/
structure Library (F : Type) where
  /-- None where the linker refuses the file. -/
  handle : Option Nat
  /-- The linker's reason. -/
  error : String := ""
  initializers : List (Initializer F) := []
  exportsMake : Bool := false
  exportsFree : Bool := false
  /-- What `gr_plugin_make` returns. -/
  made : Option Instance := none
deriving DecidableEq, Repr

/-- `RefusedLibrary`, the process's record of a handle it refused. -/
structure RefusedLibrary where
  reason : String
  warning : String
deriving DecidableEq, Repr

abbrev Refusals := Nat → Option RefusedLibrary

structure PluginHandler where
  dlHandle : Option Nat := none
  createFn : Bool := false
  destroyFn : Bool := false
  made : Option Instance := none
  keepMapped : Bool := false
  status : String := ""
deriving DecidableEq, Repr

namespace PluginHandler

def isLoaded (h : PluginHandler) : Bool := h.dlHandle.isSome

def hasPluginEntryPoint (h : PluginHandler) : Bool := h.dlHandle.isSome && h.createFn

/-- `releaseInstance()`. -/
def releaseInstance (h : PluginHandler) : PluginHandler :=
  if h.destroyFn then { h with made := none } else h

/-- `refuse()`: the handle is given up without the unload, and recorded. -/
def refuse (h : PluginHandler) (refusals : Refusals) (reason warning : String) : PluginHandler × Refusals :=
  match h.dlHandle with
  | some handle =>
    ({ h.releaseInstance with dlHandle := none, status := reason },
      Function.update refusals handle (some ⟨reason, warning⟩))
  | none => ({ h.releaseInstance with status := reason }, refusals)

/-- The constructor, after the library is opened. -/
def ofLibrary {F : Type} (file : String) (library : Library F) (refusals : Refusals) : PluginHandler × Refusals :=
  match library.handle with
  | none =>
    ({ status :=
        if library.error = "" then "Failed to load the plugin file"
        else s!"Failed to load the plugin file: {library.error}" },
      refusals)
  | some handle =>
    match refusals handle with
    | some refusal => ({ status := refusal.reason }, refusals)
    | none =>
      if !library.exportsMake then
        ({ dlHandle := some handle, status := "Failed to load symbol gr_plugin_make" }, refusals)
      else if !library.exportsFree then
        ({ dlHandle := some handle, createFn := true, status := "Failed to load symbol gr_plugin_free" }, refusals)
      else
        let h : PluginHandler := { dlHandle := some handle, createFn := true, destroyFn := true, made := library.made }
        match library.made with
        | none => ({ h with status := "Failed to create an instance of the plugin" }, refusals)
        | some made =>
          if made.abiVersion ≠ currentAbiVersion then
            let reason :=
              s!"plugin ABI version {made.abiVersion} does not match the host's plugin ABI version {currentAbiVersion}"
            h.refuse refusals reason s!"warning: plugin {file} not loaded: {reason}"
          else (h, refusals)

end PluginHandler

structure BlockLibrary where
  file : String
  nBlockRegistrations : Nat
  nSchedulerRegistrations : Nat
deriving DecidableEq, Repr

/-- A directory entry, as `std::filesystem` reads it. -/
structure DirEntry where
  path : String
  filename : String
  extension : String
  isRegularFile : Bool
deriving DecidableEq, Repr

/-! ### The scan -/

def kLibraryExtensions : List String := [".so"]

/-- A plugin loader, each plugin beside the file it came from. -/
structure Loader where
  pluginHandlers : List (String × PluginHandler) := []
  blockLibraries : List BlockLibrary := []
  skippedFiles : List String := []
  ordinaryLibraries : List String := []
  failedPlugins : Map String := ∅
  loadedPluginFiles : List String := []
  pluginForBlockName : Map String := ∅
  pluginForSchedulerName : Map String := ∅

/-- A loader in a process. -/
structure State (F : Type) where
  registered : Registered F := {}
  refusals : Refusals := fun _ => none
  loader : Loader := {}

/-- `emplace` of every name: the first plugin of a name keeps it. -/
def emplaceAll (map : Map String) (names : List String) (file : String) : Map String :=
  names.foldl (fun map name => if name ∈ map then map else map.insert name file) map

namespace Loader

def fail (l : Loader) (file status : String) : Loader :=
  { l with failedPlugins := l.failedPlugins.insert file status }

def addPlugin (l : Loader) (file : String) (handler : PluginHandler) (made : Instance) : Loader :=
  { l with
    pluginForBlockName := emplaceAll l.pluginForBlockName made.availableBlocks file
    pluginForSchedulerName := emplaceAll l.pluginForSchedulerName made.availableSchedulers file
    pluginHandlers := l.pluginHandlers ++ [(file, { handler with keepMapped := true })] }

end Loader

section Scan

variable {F : Type} [DecidableEq F]

/-- A file is opened once in a loader, and only where it reads as a library. -/
def opens (l : Loader) (entry : DirEntry) : Bool :=
  entry.isRegularFile && decide (entry.extension ∈ kLibraryExtensions) && !decide (entry.path ∈ l.loadedPluginFiles)

/-- The body of the scan for a file that it opens. -/
def load (s : State F) (file : String) (library : Library F) : State F :=
  let before := s.registered
  let loader := { s.loader with loadedPluginFiles := file :: s.loader.loadedPluginFiles }
  let registered := before.setAside.run library.initializers
  let (handler, refusals) := PluginHandler.ofLibrary file library s.refusals
  match handler.made with
  | some made =>
    match registered.schedulerAbiMismatch with
    | some mismatch =>
      let (handler, refusals) := handler.refuse refusals mismatch s!"warning: plugin {file} not loaded: {mismatch}"
      { registered := registered.restore before false, refusals, loader := loader.fail file handler.status }
    | none =>
      { registered := registered.restore before true, refusals, loader := loader.addPlugin file handler made }
  | none =>
    let blockRegistrations := registered.blocks.generation - before.blocks.generation
    let schedulerRegistrations := registered.schedulers.generation - before.schedulers.generation
    let offeredDeviceListing := registered.deviceListings.nOffered ≠ before.deviceListings.nOffered
    if handler.isLoaded ∧ (blockRegistrations ≠ 0 ∨ schedulerRegistrations ≠ 0 ∨ offeredDeviceListing) then
      match registered.schedulerAbiMismatch with
      | some mismatch =>
        let (handler, refusals) :=
          handler.refuse refusals mismatch s!"warning: library {file} not loaded: {mismatch}"
        { registered := registered.restore before false, refusals, loader := loader.fail file handler.status }
      | none =>
        let blockLibrary := ⟨file, blockRegistrations, schedulerRegistrations⟩
        { registered := registered.restore before true
          refusals
          loader := { loader with blockLibraries := loader.blockLibraries ++ [blockLibrary] } }
    else if handler.isLoaded ∧ !handler.hasPluginEntryPoint then
      { registered := registered.restore before false
        refusals
        loader := { loader with ordinaryLibraries := loader.ordinaryLibraries ++ [file] } }
    else
      let (handler, refusals) := handler.refuse refusals handler.status ""
      { registered := registered.restore before false, refusals, loader := loader.fail file handler.status }

/-- One directory entry. A name that only contains an extension is reported. -/
def scan (s : State F) (entry : DirEntry) (library : Library F) : State F :=
  if opens s.loader entry then load s entry.path library
  else if entry.isRegularFile ∧ entry.extension ∈ kLibraryExtensions then s
  else if kLibraryExtensions.any fun extension => decide (extension.toList <:+: entry.filename.toList) then
    { s with loader := { s.loader with skippedFiles := s.loader.skippedFiles ++ [entry.path] } }
  else s

/-- A new loader in a process: the entries of the directories one after another, each with what opening it shows. -/
def system (registered : Registered F) (refusals : Refusals) : Transition.System (State F) (DirEntry × Library F) where
  start s := s = { registered, refusals }
  step s a := some (scan s a.1 a.2)

/-- A file that was opened, with what opening it showed. -/
structure Opened (F : Type) where
  file : String
  library : Library F
  /-- The process had refused the handle before. -/
  refused : Bool
  /-- The file registered a scheduler that is not at the host's version. -/
  foreignScheduler : Bool
deriving DecidableEq, Repr

def opened (s : State F) (a : DirEntry × Library F) : List (Opened F) :=
  if opens s.loader a.1 then
    [{ file := a.1.path
       library := a.2
       refused := (a.2.handle.bind s.refusals).isSome
       foreignScheduler := (s.registered.setAside.run a.2.initializers).schedulerAbiMismatch.isSome }]
  else []

end Scan

end GnuRadio.PluginLoader
