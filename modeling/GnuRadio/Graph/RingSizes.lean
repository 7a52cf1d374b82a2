import GnuRadio.Graph.Edges

/-! The calls that list the edges of a graph and of its groups and connect them (Graph.hpp): `addEdge()`, `connect()`,
    `emplaceEdge()`, and the two loops of `connectPendingEdges()`, one round of either a step of its own. -/

namespace GnuRadio.RingSizes

open Graph (Block Config Edge EdgeState PortDefinition State)

variable {α β ι ω : Type}

/-- The blocks that a call hands over, each by its name. -/
structure Blocks (ι ω : Type) where
  block : Nat → Block ι ω
  uniqueName_eq : ∀ name, (block name).uniqueName = name

/-- The graph of this name among the graph and the groups below it. -/
def findGraph (g : Graph.Graph ι ω) (name : Nat) : Option (Graph.Graph ι ω) :=
  (g.subgraphs fun _ => true).find? (·.uniqueName == name)

section Requests
variable [DecidableEq ω]

/-- The requests of the edges from a port that the graph and the groups below it list. -/
def requests (g : Graph.Graph ι ω) (o : ω) : List Nat :=
  (g.forEachEdgeAll.filter fun e => decide (e.source = some o)).filterMap Edge.minBufferSize

def largest (requests : List Nat) : Nat := requests.foldl max 0

end Requests

section Calls
variable [DecidableEq ι] [DecidableEq ω] [Fintype ι] [Fintype ω] (c : Config ι ω) (blocks : Blocks ι ω)

/-- A record joins the list of a graph. -/
def appendEdge (g : Graph.Graph ι ω) (e : Edge ι ω) (state : EdgeState) (actualBufferSize : Nat) (s : State α β ι ω) :
    State α β ι ω :=
  { s with
    graph := s.graph.editEdges g.uniqueName (· ++ [e])
    edgeState := Function.update s.edgeState e state
    actualBufferSize := Function.update s.actualBufferSize e actualBufferSize
    nEdges := s.nEdges + 1 }

/-- `addEdge()` takes a record as it is: a copy of another graph's record may say that it is connected. -/
def addEdge (g : Graph.Graph ι ω) (sourceBlock : Nat) (sourcePort : PortDefinition) (destinationBlock : Nat)
    (destinationPort : PortDefinition) (minBufferSize : Option Nat) (state : EdgeState) (actualBufferSize : Nat)
    (s : State α β ι ω) : Option (State α β ι ω) :=
  let e : Edge ι ω :=
    ⟨s.nEdges, blocks.block sourceBlock, sourcePort, blocks.block destinationBlock, destinationPort, minBufferSize⟩
  if g.edges.any fun e' => e'.same e then none else some (appendEdge g e state actualBufferSize s)

def connect (g : Graph.Graph ι ω) (sourceBlock : Nat) (sourcePort : PortDefinition) (destinationBlock : Nat)
    (destinationPort : PortDefinition) (minBufferSize : Option Nat) (s : State α β ι ω) : Option (State α β ι ω) :=
  let isArithmeticLike := ((blocks.block sourceBlock).outputs.resolve sourcePort).all fun o =>
    (c.outputInfo o).isArithmeticLike
  let size := minBufferSize.getD (if isArithmeticLike then 65536 else 64)
  let e : Edge ι ω :=
    ⟨s.nEdges, blocks.block sourceBlock, sourcePort, blocks.block destinationBlock, destinationPort, some size⟩
  if g.edges.any fun e' => e'.hasSameInput c e .stream || e'.hasSameInput c e .message then none
  else some (appendEdge g e .waitingToBeConnected 0 s)

/-- The calls, each on the graph of a name. `connectPendingEdge` and `sizeUnconnectedOptionalOutputs` are one round of the
    first and of the second loop of `connectPendingEdges()`. -/
inductive Call (ι ω : Type)
  | addEdge (graph sourceBlock : Nat) (sourcePort : PortDefinition) (destinationBlock : Nat)
    (destinationPort : PortDefinition) (minBufferSize : Option Nat) (state : EdgeState) (actualBufferSize : Nat)
  | connect (graph sourceBlock : Nat) (sourcePort : PortDefinition) (destinationBlock : Nat)
    (destinationPort : PortDefinition) (minBufferSize : Option Nat)
  | emplaceEdge (graph sourceBlock : Nat) (sourcePort : String) (destinationBlock : Nat) (destinationPort : String)
    (minBufferSize : Option Nat)
  | connectPendingEdge (graph : Nat) (edge : Edge ι ω)
  | sizeUnconnectedOptionalOutputs (graph : Nat) (block : Block ι ω)

def Call.graph : Call ι ω → Nat
  | .addEdge graph .. | .connect graph .. | .emplaceEdge graph .. | .connectPendingEdge graph _
  | .sizeUnconnectedOptionalOutputs graph _ => graph

def Call.run (g : Graph.Graph ι ω) (s : State α β ι ω) : Call ι ω → Option (State α β ι ω)
  | .addEdge _ sourceBlock sourcePort destinationBlock destinationPort minBufferSize state actualBufferSize =>
    RingSizes.addEdge blocks g sourceBlock sourcePort destinationBlock destinationPort minBufferSize state actualBufferSize s
  | .connect _ sourceBlock sourcePort destinationBlock destinationPort minBufferSize =>
    RingSizes.connect c blocks g sourceBlock sourcePort destinationBlock destinationPort minBufferSize s
  | .emplaceEdge _ sourceBlock sourcePort destinationBlock destinationPort minBufferSize =>
    s.emplaceEdge c g sourceBlock sourcePort destinationBlock destinationPort minBufferSize
  | .connectPendingEdge _ e => if e ∈ g.edges then some (s.connectPendingEdge c g e) else none
  | .sizeUnconnectedOptionalOutputs _ b => if b ∈ g.blocks then some (s.sizeUnconnectedOptionalOutputs c b) else none

/-- `requested` is not in the source: what was requested of each port when it was wired. -/
structure Sizing (α β ι ω : Type) where
  state : State α β ι ω
  requested : ω → List Nat

/-- A port that nothing read before is wired. -/
def wiredAnew (s t : State α β ι ω) (o : ω) : Bool := !s.wiring.outputConnected o && t.wiring.outputConnected o

/-- The state after a call, with what is requested now of the ports that it wired. -/
def Sizing.after (s : Sizing α β ι ω) (t : State α β ι ω) : Sizing α β ι ω :=
  ⟨t, fun o => if wiredAnew s.state t o then requests t.graph o else s.requested o⟩

/-- The blocks of the graph, and those that its edges leave, are the blocks of their names. -/
structure Known (g : Graph.Graph ι ω) : Prop where
  block : ∀ sub ∈ g.subgraphs fun _ => true, ∀ b ∈ sub.blocks, blocks.block b.uniqueName = b
  edge : ∀ e ∈ g.forEachEdgeAll, blocks.block e.sourceBlock.uniqueName = e.sourceBlock

/-- At first nothing reads an output, and each ring has one output at most. -/
def system : Transition.System (Sizing α β ι ω) (Call ι ω) where
  start s := Known blocks s.state.graph ∧ (∀ o, s.state.wiring.outputConnected o = false) ∧
    ∀ o o' k, s.state.wiring.current o = some k → s.state.wiring.current o' = some k → o = o'
  step s call := do
    let g ← findGraph s.state.graph call.graph
    let t ← call.run c blocks g s.state
    pure (s.after t)

end Calls

end GnuRadio.RingSizes
