import GnuRadio.Graph.Wiring
import GnuRadio.LifeCycle

/-! Graphs and their edge records (BlockModel.hpp and Graph.hpp): blocks, groups of blocks, and how the records of a graph
    are connected (`applyEdgeConnection()`, `connectPendingEdges()`, `disconnectAllEdges()` and `emplaceEdge()`). A port is
    the same port in the block that owns it and in a group that exports it. Compute domains and memory resources of edges,
    and their weights and names, are left out. -/

namespace GnuRadio.Graph

open Function

variable {α β ι ω : Type}

inductive PortType
  | stream
  | message
  deriving DecidableEq, Repr

structure PortInfo where
  typeName : String
  portType : PortType
  isSynchronous : Bool
  isOptional : Bool
  isArithmeticLike : Bool
  deriving DecidableEq, Repr

/-- What a graph is given: what its ports are, the size of the ring that a request gets, the size of a ring that nobody
    asked for, and the order in which an `std::unordered_map` lists the keys that were put into it. -/
structure Config (ι ω : Type) where
  inputInfo : ι → PortInfo
  outputInfo : ω → PortInfo
  ringSize : Nat → Nat
  defaultBufferSize : Nat
  hashOrder : List (Option ω) → List (Option ω)

/-- `streamInputs` are the ports of the block's `inputStreamCache`, and `minSamples` what it says that they need. A group
    has none. -/
structure Block (ι ω : Type) where
  uniqueName : Nat
  inputs : DynamicPorts ι
  outputs : DynamicPorts ω
  streamInputs : List ι
  inputChunkSize : Nat
  outputChunkSize : Nat
  stride : Nat
  minSamples : List Nat
  isBlocking : Bool
  deriving DecidableEq, Repr

/-- `number` is not in the source: it tells the records apart. -/
structure Edge (ι ω : Type) where
  number : Nat
  sourceBlock : Block ι ω
  sourcePortDefinition : PortDefinition
  destinationBlock : Block ι ω
  destinationPortDefinition : PortDefinition
  minBufferSize : Option Nat
  deriving DecidableEq, Repr

instance [DecidableEq ι] [DecidableEq ω] : LawfulBEq (Block ι ω) := inferInstance

instance [DecidableEq ι] [DecidableEq ω] : LawfulBEq (Edge ι ω) := inferInstance

inductive EdgeState
  | waitingToBeConnected
  | connected
  | errorConnecting
  | portNotFound
  | incompatiblePorts
  deriving DecidableEq, Repr

inductive Category
  | transparentBlockGroup
  | scheduledBlockGroup
  deriving DecidableEq, Repr

mutual

/-- A graph and what its wrapper exports of it. -/
inductive Graph (ι ω : Type)
  | mk (uniqueName : Nat) (blocks : Members ι ω) (edges : List (Edge ι ω)) (exportedInputs : List ι)
    (exportedOutputs : List ω)

/-- The blocks of a graph. A group is a block that wraps another graph. -/
inductive Members (ι ω : Type)
  | nil
  | block (block : Block ι ω) (rest : Members ι ω)
  | group (block : Block ι ω) (category : Category) (graph : Graph ι ω) (rest : Members ι ω)

end

namespace Edge

def source (e : Edge ι ω) : Option ω := e.sourceBlock.outputs.resolve e.sourcePortDefinition

def destination (e : Edge ι ω) : Option ι := e.destinationBlock.inputs.resolve e.destinationPortDefinition

/-- `operator==`. -/
def same (e other : Edge ι ω) : Bool :=
  e.sourceBlock.uniqueName == other.sourceBlock.uniqueName &&
    e.destinationBlock.uniqueName == other.destinationBlock.uniqueName &&
    decide (e.sourcePortDefinition = other.sourcePortDefinition) &&
    decide (e.destinationPortDefinition = other.destinationPortDefinition)

def hasSameSourcePort [DecidableEq ω] (e other : Edge ι ω) : Bool :=
  (e.sourceBlock.uniqueName == other.sourceBlock.uniqueName &&
    decide (e.sourcePortDefinition = other.sourcePortDefinition)) ||
  (e.source.isSome && decide (e.source = other.source))

def hasSameInput [DecidableEq ι] (c : Config ι ω) (e other : Edge ι ω) (type : PortType) : Bool :=
  e.destinationBlock.uniqueName == other.destinationBlock.uniqueName &&
    decide (e.destination = other.destination) &&
    e.destination.any fun i => decide ((c.inputInfo i).portType = type)

end Edge

namespace Graph

def uniqueName : Graph ι ω → Nat
  | mk uniqueName _ _ _ _ => uniqueName

def members : Graph ι ω → Members ι ω
  | mk _ blocks _ _ _ => blocks

def edges : Graph ι ω → List (Edge ι ω)
  | mk _ _ edges _ _ => edges

def exportedInputs : Graph ι ω → List ι
  | mk _ _ _ exportedInputs _ => exportedInputs

def exportedOutputs : Graph ι ω → List ω
  | mk _ _ _ _ exportedOutputs => exportedOutputs

end Graph

/-- The blocks of a graph, without those of its groups, with the edges of the graph that a group wraps. -/
def Members.listed : Members ι ω → List (Block ι ω × List (Edge ι ω))
  | .nil => []
  | .block b rest => (b, []) :: rest.listed
  | .group b _ g rest => (b, g.edges) :: rest.listed

/-- The graphs that the transparent groups of a graph wrap, without those of groups inside them. -/
def Members.wrapped : Members ι ω → List (Graph ι ω)
  | .nil => []
  | .block _ rest => rest.wrapped
  | .group _ category g rest => if category = .transparentBlockGroup then g :: rest.wrapped else rest.wrapped

def Graph.blocks (g : Graph ι ω) : List (Block ι ω) := g.members.listed.map Prod.fst

/-! ### Traversal -/

mutual

/-- `traverseSubgraphs`: the graph, and every graph below it through groups that are descended into. -/
def Graph.subgraphs (descend : Category → Bool) : Graph ι ω → List (Graph ι ω)
  | .mk name blocks edges ins outs => .mk name blocks edges ins outs :: blocks.subgraphs descend

def Members.subgraphs (descend : Category → Bool) : Members ι ω → List (Graph ι ω)
  | .nil => []
  | .block _ rest => rest.subgraphs descend
  | .group _ category g rest =>
    if descend category then g.subgraphs descend ++ rest.subgraphs descend else rest.subgraphs descend

end

mutual

/-- Applies an edit to the edges of the graph of this name. -/
def Graph.editEdges (name : Nat) (edit : List (Edge ι ω) → List (Edge ι ω)) : Graph ι ω → Graph ι ω
  | .mk n blocks edges ins outs =>
    .mk n (blocks.editEdges name edit) (if n = name then edit edges else edges) ins outs

def Members.editEdges (name : Nat) (edit : List (Edge ι ω) → List (Edge ι ω)) : Members ι ω → Members ι ω
  | .nil => .nil
  | .block b rest => .block b (rest.editEdges name edit)
  | .group b category g rest => .group b category (g.editEdges name edit) (rest.editEdges name edit)

end

namespace Graph

/-- The graph and its transparent groups, in the order of `forEachBlock<TransparentBlockGroup>` and
    `forEachEdge<TransparentBlockGroup>`. -/
def transparent (g : Graph ι ω) : List (Graph ι ω) := g.subgraphs (· == .transparentBlockGroup)

/-- The graph, and then its transparent groups in the order in which `forEachBlock<TransparentBlockGroup>` meets them. -/
def withGroups (g : Graph ι ω) : List (Graph ι ω) := g :: g.transparent.flatMap fun sub => sub.members.wrapped

def forEachBlock (g : Graph ι ω) : List (Block ι ω) := g.transparent.flatMap blocks

def forEachEdge (g : Graph ι ω) : List (Edge ι ω) := g.transparent.flatMap edges

/-- `forEachEdge<All>`. -/
def forEachEdgeAll (g : Graph ι ω) : List (Edge ι ω) := (g.subgraphs fun _ => true).flatMap edges

end Graph

/-! ### State -/

/-- The graph of a scheduler, the rings behind its ports, the parts of the edge records that change, and the states of the
    blocks. -/
structure State (α β ι ω : Type) where
  graph : Graph ι ω
  wiring : Wiring α β ι ω
  edgeState : Edge ι ω → EdgeState
  actualBufferSize : Edge ι ω → Nat
  blockState : Nat → LifeCycle.State
  nEdges : Nat

section Connections
variable [DecidableEq ι] [DecidableEq ω] [Fintype ι] [Fintype ω] (c : Config ι ω)

namespace State

/-- The ring of a source port is as large as the one that an edge of this graph has connected, or as the largest request
    of all edges from that port. -/
def calculateStreamBufferSize (g : Graph ι ω) (refEdge : Edge ι ω) (s : State α β ι ω) : Nat :=
  match g.edges.find? fun e => refEdge.hasSameSourcePort e && decide (s.edgeState e = .connected) with
  | some e => s.actualBufferSize e
  | none => ((g.forEachEdgeAll.filter refEdge.hasSameSourcePort).filterMap Edge.minBufferSize).foldl max 0

/-- Connects the two ports that the edge names. A source port that has readers keeps its ring. -/
def applyEdgeConnection (g : Graph ι ω) (e : Edge ι ω) (s : State α β ι ω) : State α β ι ω :=
  match e.source, e.destination with
  | some o, some i =>
    if (c.outputInfo o).typeName ≠ (c.inputInfo i).typeName then
      { s with edgeState := update s.edgeState e .incompatiblePorts }
    else
      let sized := if s.wiring.outputConnected o then s.wiring
        else s.wiring.setRing o (c.ringSize (s.calculateStreamBufferSize g e))
      let connects : Bool := decide ((c.outputInfo o).portType = (c.inputInfo i).portType)
      let wired := if connects then sized.connect o i c.defaultBufferSize else sized
      { s with
        wiring := wired
        edgeState := update s.edgeState e (if connects then .connected else .errorConnecting)
        actualBufferSize := update s.actualBufferSize e (wired.bufferSize o) }
  | _, _ => { s with edgeState := update s.edgeState e .portNotFound }

/-- One edge of `connectPendingEdges()`. -/
def connectPendingEdge (g : Graph ι ω) (s : State α β ι ω) (e : Edge ι ω) : State α β ι ω :=
  if s.edgeState e = .waitingToBeConnected then s.applyEdgeConnection c g e else s

/-- The most output samples that one call of a block can ask for when no output limits it. -/
def largestOutputChunk (b : Block ι ω) (s : State α β ι ω) : Nat :=
  let inputChunk := max b.inputChunkSize 1
  let outputChunk := max b.outputChunkSize 1
  let consider (n : Nat) (i : ι) : Nat :=
    if s.wiring.inputConnected i ∧ (c.inputInfo i).isSynchronous then
      max n ((((s.wiring.reader i).bind fun r => s.wiring.rings[r.ring]?).map Ring.size).getD c.defaultBufferSize)
    else n
  let largestInput := b.inputs.all.foldl consider 0
  let inputChunks := (largestInput + inputChunk - 1) / inputChunk
  max (inputChunks * outputChunk) outputChunk

/-- An unconnected optional output gets a ring as large as the largest of the block's connected stream outputs. -/
def sizeUnconnectedOptionalOutputs (s : State α β ι ω) (b : Block ι ω) : State α β ι ω :=
  let maxConnectedSize := b.outputs.all.foldl (fun n o =>
    if s.wiring.outputConnected o ∧ (c.outputInfo o).isSynchronous ∧ (c.outputInfo o).portType = .stream then
      max n (s.wiring.bufferSize o) else n) 0
  let targetSize := if 0 < maxConnectedSize then maxConnectedSize else s.largestOutputChunk c b
  let sizeOne (w : Wiring α β ι ω) (o : ω) : Wiring α β ι ω :=
    if ¬ w.outputConnected o ∧ (c.outputInfo o).isSynchronous ∧ (c.outputInfo o).isOptional ∧ w.bufferSize o < targetSize
    then w.setRing o (c.ringSize targetSize) else w
  { s with wiring := b.outputs.all.foldl sizeOne s.wiring }

/-- `Graph::connectPendingEdges()`. -/
def connectPendingEdges (s : State α β ι ω) (g : Graph ι ω) : State α β ι ω :=
  g.blocks.foldl (sizeUnconnectedOptionalOutputs c) (g.edges.foldl (connectPendingEdge c g) s)

/-- `Graph::disconnectAllEdges()`: a port that the graph's wrapper exports keeps its connection. -/
def disconnectAllEdges (s : State α β ι ω) (g : Graph ι ω) : State α β ι ω :=
  let inputs := (g.blocks.flatMap fun b => b.inputs.all).filter (· ∉ g.exportedInputs)
  let outputs := (g.blocks.flatMap fun b => b.outputs.all).filter (· ∉ g.exportedOutputs)
  { s with
    wiring := outputs.foldl Wiring.disconnectOutput (inputs.foldl Wiring.disconnectInput s.wiring)
    edgeState := fun e => if e ∈ g.edges then .waitingToBeConnected else s.edgeState e }

/-- `Graph::emplaceEdge()` on one of the graphs: the ports are connected, an edge that ends at the same stream input is
    taken off the list, and the record of the new edge is left as a record starts. -/
def emplaceEdge (g : Graph ι ω) (sourceBlock : Nat) (sourcePort : String) (destinationBlock : Nat)
    (destinationPort : String) (minBufferSize : Option Nat) (s : State α β ι ω) : Option (State α β ι ω) := do
  let source ← g.blocks.find? (·.uniqueName == sourceBlock)
  let destination ← g.blocks.find? (·.uniqueName == destinationBlock)
  let o ← source.outputs.fromName sourcePort
  let i ← destination.inputs.fromName destinationPort
  let size := minBufferSize.getD (if (c.outputInfo o).isArithmeticLike then 65536 else 64)
  let e : Edge ι ω := ⟨s.nEdges, source, .name sourcePort, destination, .name destinationPort, some size⟩
  if (c.outputInfo o).typeName ≠ (c.inputInfo i).typeName ∨ (g.edges.any fun e' => e'.hasSameInput c e .message) ∨
      (c.outputInfo o).portType ≠ (c.inputInfo i).portType then
    none
  else
    let displaces (edges : List (Edge ι ω)) := (edges.filter fun e' => !e'.hasSameInput c e .stream) ++ [e]
    let connected : State α β ι ω := { s with
      graph := s.graph.editEdges g.uniqueName displaces
      wiring := s.wiring.connect o i c.defaultBufferSize
      edgeState := update s.edgeState e .waitingToBeConnected
      nEdges := s.nEdges + 1 }
    pure ([source, destination].foldl (sizeUnconnectedOptionalOutputs c) connected)

end State

end Connections

end GnuRadio.Graph
