import GnuRadio.Graph.Edges
import GnuRadio.Library.KeyedMap

/-! `Graph::replaceBlock()` (Graph.cpp) with the exchange of the handlers of two ports (Port.hpp): a new block takes the
    place of a block of the graph, its edges and the rings behind its ports. A wrapper lists a port of its graph as an
    object of its own, so that ports are told apart by their address there. Error texts are left out. -/

namespace GnuRadio.Replacement

open Graph (Block Config DynamicPorts EdgeState PortDefinition State Wiring)

variable {α β ι ω π : Type}

structure DynamicPort (π : Type) where
  address : Nat
  port : π
  deriving DecidableEq, Repr

abbrev BlockModel (ι ω : Type) := Block (DynamicPort ι) (DynamicPort ω)

/-- No port is listed under two addresses, as `exportPort()` can do it. -/
def OwnPorts (b : BlockModel ι ω) : Prop :=
  (b.inputs.all.map DynamicPort.port).Nodup ∧ (b.outputs.all.map DynamicPort.port).Nodup

instance (b : BlockModel ι ω) [DecidableEq ι] [DecidableEq ω] : Decidable (OwnPorts b) :=
  inferInstanceAs (Decidable (_ ∧ _))

/-! ### Handlers -/

/-- The `std::type_info` of a pair of handlers: the object, and what it says. -/
structure HandlerType where
  typeInfo : Nat
  name : String
  size : Nat
  alignment : Nat
  deriving DecidableEq, Repr

def kMarkers : List String := ["_GLOBAL__N", "ZL", "$_", "._anon_", "Ul", "Ut"]

def namesTypeWithoutExternalLinkage (mangledName : String) : Bool :=
  kMarkers.any fun marker => decide (marker.toList <:+: mangledName.toList)

/-- A port without a type offers no handlers. -/
def sameHandlerType : Option HandlerType → Option HandlerType → Bool
  | some first, some second =>
    first.typeInfo == second.typeInfo ||
      (!namesTypeWithoutExternalLinkage first.name && first.name == second.name && first.size == second.size &&
        first.alignment == second.alignment)
  | _, _ => false

/-- What the ports offer for an exchange. -/
structure Handlers (π : Type) where
  type : π → Option HandlerType
  spansInUse : π → Bool

inductive Error
  | blockNotFound
  | exportsPort
  | notCreated
  | portNotFound
  | otherHandlerType
  | spanOutstanding
  | onePortAndTwo
  deriving DecidableEq, Repr

def Handlers.checkHandlerExchange (handlers : Handlers π) (port other : π) : Except Error Unit :=
  if !sameHandlerType (handlers.type port) (handlers.type other) then .error .otherHandlerType
  else if handlers.spansInUse port || handlers.spansInUse other then .error .spanOutstanding
  else .ok ()

end GnuRadio.Replacement

namespace GnuRadio.Graph

variable {α β ι ω π ρ : Type}

def PortOrCollection.map (f : π → ρ) : PortOrCollection π → PortOrCollection ρ
  | port name p => .port name (f p)
  | collection name ps => .collection name (ps.map f)

namespace Wiring

/-- `exchangeHandlers()` of two inputs. -/
def exchangeInputs [DecidableEq ι] (w : Wiring α β ι ω) (pair : ι × ι) : Wiring α β ι ω where
  rings := w.rings
  reader := w.reader ∘ Equiv.swap pair.1 pair.2
  current := w.current
  reader_le _ r hr := w.reader_le _ r hr
  current_lt := w.current_lt

/-- `exchangeHandlers()` of two outputs. -/
def exchangeOutputs [DecidableEq ω] (w : Wiring α β ι ω) (pair : ω × ω) : Wiring α β ι ω where
  rings := w.rings
  reader := w.reader
  current := w.current ∘ Equiv.swap pair.1 pair.2
  reader_le := w.reader_le
  current_lt _ k hk := w.current_lt _ k hk

end Wiring

end GnuRadio.Graph

namespace GnuRadio.Replacement

open Graph (Block Config DynamicPorts EdgeState PortDefinition State Wiring)

variable {α β ι ω π : Type}

/-! ### The graph -/

/-- An edge record with the ports that its connection has found. -/
structure Edge (ι ω : Type) where
  sourceBlock : BlockModel ι ω
  sourcePortDefinition : PortDefinition
  destinationBlock : BlockModel ι ω
  destinationPortDefinition : PortDefinition
  minBufferSize : Option Nat
  actualBufferSize : Nat
  state : EdgeState
  sourcePort : Option (DynamicPort ω)
  destinationPort : Option (DynamicPort ι)
  deriving DecidableEq, Repr

/-- `exportedPorts` are the names of the blocks of `_exportedPorts`. -/
structure Flow (α β ι ω : Type) where
  blocks : List (BlockModel ι ω)
  edges : List (Edge ι ω)
  exportedPorts : List Nat
  wiring : Wiring α β ι ω

namespace Edge

def isFrom (block : BlockModel ι ω) (e : Edge ι ω) : Bool := e.sourceBlock.uniqueName == block.uniqueName

def isInto (block : BlockModel ι ω) (e : Edge ι ω) : Bool := e.destinationBlock.uniqueName == block.uniqueName

end Edge

/-! ### The ports that take over -/

structure PortPair (π : Type) where
  replacedPort : DynamicPort π
  newPort : DynamicPort π
  deriving DecidableEq, Repr

def PortPair.ports (pair : PortPair π) : π × π := (pair.replacedPort.port, pair.newPort.port)

section PairPort
variable [DecidableEq π] (handlers : Handlers π) (replaced newBlock : DynamicPorts (DynamicPort π))

def pairPort (definition : PortDefinition) (pairs : List (PortPair π)) :
    Except Error (DynamicPort π × List (PortPair π)) :=
  match replaced.resolve definition, newBlock.resolve definition with
  | some replacedPort, some newPort =>
    match handlers.checkHandlerExchange replacedPort.port newPort.port with
    | .error error => .error error
    | .ok () =>
      if pairs.any fun pair => decide (pair.replacedPort = replacedPort) != decide (pair.newPort = newPort) then
        .error .onePortAndTwo
      else if pairs.any fun pair => decide (pair.replacedPort = replacedPort) then .ok (newPort, pairs)
      else .ok (newPort, pairs ++ [⟨replacedPort, newPort⟩])
  | _, _ => .error .portNotFound

/-- One end of an edge: it is paired where it is a port of the replaced block, and stays as it is elsewhere. -/
def takeEnd (ends : Bool) (definition : PortDefinition) (port : Option (DynamicPort π)) (pairs : List (PortPair π)) :
    Except Error (Option (DynamicPort π) × List (PortPair π)) :=
  if ends then
    match pairPort handlers replaced newBlock definition pairs with
    | .error error => .error error
    | .ok (newPort, pairs) => .ok (some newPort, pairs)
  else .ok (port, pairs)

end PairPort

structure EdgePorts (ι ω : Type) where
  index : Nat
  source : Option (DynamicPort ω)
  destination : Option (DynamicPort ι)
  deriving DecidableEq, Repr

/-- `inputs` and `outputs` are the pairs of either direction, no port of which is one of the other's. -/
structure Taken (ι ω : Type) where
  inputs : List (PortPair ι)
  outputs : List (PortPair ω)
  takenOver : List (EdgePorts ι ω)
  deriving DecidableEq, Repr

/-- A graph without blocks around the rings. -/
def around (w : Wiring α β ι ω) : State α β ι ω :=
  ⟨.mk 0 .nil [] [] [], w, fun _ => .waitingToBeConnected, fun _ => 0, fun _ => .idle, 0⟩

section ReplaceBlock
variable [DecidableEq ι] [DecidableEq ω] (inputHandlers : Handlers ι) (outputHandlers : Handlers ω)
variable (replaced newBlock : BlockModel ι ω)

/-- One edge of the loop that collects the pairs. -/
def takeEdge (e : Edge ι ω) (index : Nat) (taken : Taken ι ω) : Except Error (Taken ι ω) :=
  if !e.isFrom replaced && !e.isInto replaced then .ok taken
  else
    match takeEnd outputHandlers replaced.outputs newBlock.outputs (e.isFrom replaced) e.sourcePortDefinition e.sourcePort
      taken.outputs with
    | .error error => .error error
    | .ok (source, outputs) =>
      match takeEnd inputHandlers replaced.inputs newBlock.inputs (e.isInto replaced) e.destinationPortDefinition
        e.destinationPort taken.inputs with
      | .error error => .error error
      | .ok (destination, inputs) => .ok ⟨inputs, outputs, taken.takenOver ++ [⟨index, source, destination⟩]⟩

def takeEdges : List (Edge ι ω) → Nat → Taken ι ω → Except Error (Taken ι ω)
  | [], _, taken => .ok taken
  | e :: edges, index, taken =>
    match takeEdge inputHandlers outputHandlers replaced newBlock e index taken with
    | .error error => .error error
    | .ok taken => takeEdges edges (index + 1) taken

/-- The edge names the new block and its ports where it named the replaced one. -/
def Edge.rewrite (ports : EdgePorts ι ω) (e : Edge ι ω) : Edge ι ω :=
  let e := if e.isFrom replaced then { e with sourceBlock := newBlock, sourcePort := ports.source } else e
  if e.isInto replaced then { e with destinationBlock := newBlock, destinationPort := ports.destination } else e

def rewriteEdges (takenOver : List (EdgePorts ι ω)) (edges : List (Edge ι ω)) : List (Edge ι ω) :=
  takenOver.foldl (fun edges ports => edges.modify ports.index (Edge.rewrite replaced newBlock ports)) edges

def exchangeAll (taken : Taken ι ω) (w : Wiring α β ι ω) : Wiring α β ι ω :=
  (taken.outputs.map PortPair.ports).foldl Wiring.exchangeOutputs
    ((taken.inputs.map PortPair.ports).foldl Wiring.exchangeInputs w)

/-- The block with its ports as the rings know them. -/
def bare (b : BlockModel ι ω) : Block ι ω where
  uniqueName := b.uniqueName
  inputs := b.inputs.map (·.map DynamicPort.port)
  outputs := b.outputs.map (·.map DynamicPort.port)
  streamInputs := b.streamInputs.map DynamicPort.port
  inputChunkSize := b.inputChunkSize
  outputChunkSize := b.outputChunkSize
  stride := b.stride
  minSamples := b.minSamples
  isBlocking := b.isBlocking

variable [Fintype ι] [Fintype ω] (c : Config ι ω)

def sizeUnconnectedOptionalOutputs (w : Wiring α β ι ω) (b : Block ι ω) : Wiring α β ι ω :=
  ((around w).sizeUnconnectedOptionalOutputs c b).wiring

/-- `created` is the new block as `instantiate()` and `init()` leave it, or their refusal. -/
def Flow.replaceBlock (uniqueName : Nat) (created : Except Error (BlockModel ι ω)) (s : Flow α β ι ω) :
    Except Error (BlockModel ι ω × BlockModel ι ω) × Flow α β ι ω :=
  match s.blocks.find? (·.uniqueName == uniqueName) with
  | none => (.error .blockNotFound, s)
  | some replaced =>
    if s.exportedPorts.any (· == uniqueName) then (.error .exportsPort, s)
    else
      match created with
      | .error error => (.error error, s)
      | .ok newBlock =>
        match takeEdges inputHandlers outputHandlers replaced newBlock s.edges 0 ⟨[], [], []⟩ with
        | .error error => (.error error, s)
        | .ok taken =>
          let exchanged := { s with wiring := exchangeAll taken s.wiring }
          let rewritten := { exchanged with edges := rewriteEdges replaced newBlock taken.takenOver exchanged.edges }
          let blocks := rewritten.blocks.set (s.blocks.findIdx (·.uniqueName == uniqueName)) newBlock
          let placed := { rewritten with blocks := blocks }
          (.ok (replaced, newBlock),
            { placed with wiring := sizeUnconnectedOptionalOutputs c placed.wiring (bare newBlock) })

end ReplaceBlock

end GnuRadio.Replacement
