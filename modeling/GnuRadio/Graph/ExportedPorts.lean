import GnuRadio.Graph.Ports
import GnuRadio.Library.Transition

/-! The ports that a wrapped graph exports (Graph.hpp): `GraphWrapper::exportPort()` and its three containers, which are
    the multimap of a direction, `Graph::_exportedPorts`, and the wrapper's dynamic ports of a direction; and
    `removeBlockByName()` and `replaceBlock()`, which edit the graph. The wrapper's meta information, which is derived from
    the multimaps, and error texts are left out. -/

namespace GnuRadio.ExportedPorts

open Graph (DynamicPorts)

variable {π : Type}

inductive PortDirection
  | input
  | output
  deriving DecidableEq, Repr

structure Block (π : Type) where
  uniqueName : String
  dynamicInputPorts : DynamicPorts π
  dynamicOutputPorts : DynamicPorts π
  deriving DecidableEq, Repr

def Block.dynamicPort (block : Block π) : PortDirection → String → Option π
  | .input, portName => block.dynamicInputPorts.fromName portName
  | .output, portName => block.dynamicOutputPorts.fromName portName

/-- An entry of a multimap: the block's name with its `PortNameMapper`. -/
structure PortNameMapper where
  blockName : String
  internalName : String
  exportedName : String
  deriving DecidableEq, Repr

structure ExportedPort where
  blockName : String
  direction : PortDirection
  portName : String
  deriving DecidableEq, Repr

/-- A port of the wrapper: its name, and the port that it wraps. -/
structure DynamicPort (π : Type) where
  name : String
  port : π
  deriving DecidableEq, Repr

/-- `exportedPortsForBlock` holds `_exportedInputPortsForBlock` and `_exportedOutputPortsForBlock`, and `dynamicPorts` the
    wrapper's `_dynamicInputPorts` and `_dynamicOutputPorts`. -/
structure GraphWrapper (π : Type) where
  blocks : List (Block π)
  exportedPortsForBlock : PortDirection → List PortNameMapper
  exportedPorts : List ExportedPort
  dynamicPorts : PortDirection → List (DynamicPort π)

inductive Error
  | exportStatusAsDesired
  | blockNotFound
  | portNotFound
  | portNotExported
  | exportsPort
  | cannotReplace
  deriving DecidableEq, Repr

namespace GraphWrapper

variable (w : GraphWrapper π)

/-- `graph::findBlock()` by name. -/
def findBlock (uniqueName : String) : Option (Block π) := w.blocks.find? (·.uniqueName == uniqueName)

def findPortInBlock (uniqueName : String) (direction : PortDirection) (portName : String) : Except Error π :=
  match w.findBlock uniqueName with
  | none => .error .blockNotFound
  | some block =>
    match block.dynamicPort direction portName with
    | none => .error .portNotFound
    | some port => .ok port

/-- The entry of a port in the multimap of its direction. -/
def isFor (blockName portName : String) (entry : PortNameMapper) : Bool :=
  entry.blockName == blockName && entry.internalName == portName

def findExportedPortInfo (blockName : String) (direction : PortDirection) (portName : String) : Option PortNameMapper :=
  (w.exportedPortsForBlock direction).find? (isFor blockName portName)

def setDynamicPorts (direction : PortDirection) (ports : List (DynamicPort π)) : GraphWrapper π :=
  { w with dynamicPorts := Function.update w.dynamicPorts direction ports }

def setExportedPortsForBlock (direction : PortDirection) (entries : List PortNameMapper) : GraphWrapper π :=
  { w with exportedPortsForBlock := Function.update w.exportedPortsForBlock direction entries }

def emplace (blockName : String) (direction : PortDirection) (portName exportedName : String) (port : π) : GraphWrapper π :=
  let entries := w.exportedPortsForBlock direction ++ [⟨blockName, portName, exportedName⟩]
  let ports := w.dynamicPorts direction ++ [⟨exportedName, port⟩]
  let w := (w.setExportedPortsForBlock direction entries).setDynamicPorts direction ports
  { w with exportedPorts := w.exportedPorts ++ [⟨blockName, direction, portName⟩] }

/-- The entries of a port leave the multimap and `_exportedPorts`. -/
def eraseEntries (blockName : String) (direction : PortDirection) (portName : String) : GraphWrapper π :=
  let w := w.setExportedPortsForBlock direction ((w.exportedPortsForBlock direction).eraseP (isFor blockName portName))
  { w with exportedPorts := w.exportedPorts.filter (· ≠ ⟨blockName, direction, portName⟩) }

/-- The port of the wrapper leaves that is the first of that name. -/
def erasePort (direction : PortDirection) (exportedName : String) : GraphWrapper π :=
  w.setDynamicPorts direction ((w.dynamicPorts direction).eraseP (·.name == exportedName))

def exportPort (exportFlag : Bool) (blockName : String) (direction : PortDirection) (portName exportedName : String) :
    Except Error Unit × GraphWrapper π :=
  let info := w.findExportedPortInfo blockName direction portName
  if info.isSome = exportFlag then (.error .exportStatusAsDesired, w)
  else
    match w.findPortInBlock blockName direction portName with
    | .error error => (.error error, w)
    | .ok port =>
      match info with
      | none => (.ok (), w.emplace blockName direction portName exportedName port)
      | some entry =>
        let w := w.eraseEntries blockName direction portName
        if (w.dynamicPorts direction).any (·.name == entry.exportedName) then
          (.ok (), w.erasePort direction entry.exportedName)
        else
          (.error .portNotExported, w)

def removeBlockByName (uniqueName : String) : Except Error Unit × GraphWrapper π :=
  if (w.findBlock uniqueName).isSome then
    (.ok (), { w with blocks := w.blocks.eraseP (·.uniqueName == uniqueName) })
  else
    (.error .blockNotFound, w)

/-- `newBlock` is none where the block cannot be created or its ports do not fit. -/
def replaceBlock (uniqueName : String) (newBlock : Option (Block π)) : Except Error Unit × GraphWrapper π :=
  if (w.findBlock uniqueName).isNone then (.error .blockNotFound, w)
  else if w.exportedPorts.any (·.blockName == uniqueName) then (.error .exportsPort, w)
  else
    match newBlock with
    | none => (.error .cannotReplace, w)
    | some newBlock =>
      (.ok (), { w with blocks := w.blocks.set (w.blocks.findIdx (·.uniqueName == uniqueName)) newBlock })

/-- A port of a subgraph's file: the block, the direction, and the port's names. -/
structure FileEntry where
  blockName : String
  direction : PortDirection
  portName : String
  exportedName : String
  deriving DecidableEq, Repr

/-- `loadGraphFromMap()` exports the ports of a subgraph one after the other, up to the first error. -/
def load (w : GraphWrapper π) : List FileEntry → Except Error Unit × GraphWrapper π
  | [] => (.ok (), w)
  | entry :: entries =>
    match w.exportPort true entry.blockName entry.direction entry.portName entry.exportedName with
    | (.ok (), w) => load w entries
    | (.error error, w) => (.error error, w)

end GraphWrapper

/-- A call on the wrapper or its graph. The unique name of a new block is that of no other block. -/
inductive Call (π : Type)
  | exportPort (exportFlag : Bool) (blockName : String) (direction : PortDirection) (portName exportedName : String)
  | removeBlockByName (uniqueName : String)
  | replaceBlock (uniqueName : String) (newBlock : Option (Block π))
  | addBlock (block : Block π)
  | load (entries : List GraphWrapper.FileEntry)

def Call.newBlock : Call π → Option (Block π)
  | .replaceBlock _ newBlock => newBlock
  | .addBlock block => some block
  | _ => none

def GraphWrapper.call (w : GraphWrapper π) : Call π → Except Error Unit × GraphWrapper π
  | .exportPort exportFlag blockName direction portName exportedName =>
    w.exportPort exportFlag blockName direction portName exportedName
  | .removeBlockByName uniqueName => w.removeBlockByName uniqueName
  | .replaceBlock uniqueName newBlock => w.replaceBlock uniqueName newBlock
  | .addBlock block => (.ok (), { w with blocks := w.blocks ++ [block] })
  | .load entries => w.load entries

/-- A wrapper of a graph that exports nothing, and the calls on it. -/
def system (π : Type) : Transition.System (GraphWrapper π) (Call π) where
  start w := (w.blocks.map Block.uniqueName).Nodup ∧ w.exportedPortsForBlock = (fun _ => []) ∧ w.exportedPorts = [] ∧
    w.dynamicPorts = fun _ => []
  step w call :=
    if ∀ block, call.newBlock = some block → block.uniqueName ∉ w.blocks.map Block.uniqueName then some (w.call call).2
    else none

end GnuRadio.ExportedPorts
