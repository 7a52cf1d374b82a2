import GnuRadio.Graph.Edges
import Mathlib.Algebra.Ring.Int.Defs

/-! Feedback loops (Graph.hpp and Block.hpp): the flattened graph, the loops that a depth-first search finds in it
    (`detectFeedbackLoops()`), the number of samples that starts a loop (`calculateLoopPrimingSize()`), and how they get
    into the ring of its last edge (`primeLoop()` and `primePort()`). -/

namespace GnuRadio.Graph

variable {α β ι ω : Type}

/-- Each listed block with the edges of the graph that it wraps. -/
def Graph.listed (g : Graph ι ω) : List (Block ι ω × List (Edge ι ω)) :=
  g.transparent.flatMap fun sub => sub.members.listed

section Flatten
variable (g : Graph ι ω)

def isListed (e : Edge ι ω) : Bool :=
  (g.forEachBlock.any fun b => b.uniqueName == e.sourceBlock.uniqueName) &&
    g.forEachBlock.any fun b => b.uniqueName == e.destinationBlock.uniqueName

def addListedEdge (edges : List (Edge ι ω)) (e : Edge ι ω) : List (Edge ι ω) :=
  if isListed g e && !edges.any e.same then edges ++ [e] else edges

/-- The edges of `flatten()`. Its blocks are those of `forEachBlock()`. -/
def flatten : List (Edge ι ω) := (g.edges ++ g.listed.flatMap Prod.snd).foldl (addListedEdge g) []

end Flatten

/-! ### Detection -/

section Detection
variable [DecidableEq ω]

/-- `computeAdjacencyList()`: the edges that leave a block, port by port. -/
def adjacent (c : Config ι ω) (edges : List (Edge ι ω)) (block : Nat) : List (Edge ι ω) :=
  let leaving := edges.filter fun e => e.sourceBlock.uniqueName == block
  (c.hashOrder (leaving.map Edge.source).dedup).flatMap fun port => leaving.filter fun e => decide (e.source = port)

inductive VisitState
  | unvisited
  | gray
  | black
  deriving DecidableEq, Repr

structure Search (ι ω : Type) where
  visited : Nat → VisitState
  loops : List (List (Edge ι ω))

/-- What the search does with one edge out of the block that ends `path`. -/
def follow (dfs : Nat → List Nat → List (Edge ι ω) → Search ι ω → Search ι ω) (path : List Nat)
    (pathEdges : List (Edge ι ω)) (found : Search ι ω) (e : Edge ι ω) : Search ι ω :=
  let next := e.destinationBlock.uniqueName
  let pathEdges := pathEdges ++ [e]
  match found.visited next with
  | .gray =>
    if next ∈ path then
      { found with loops := found.loops ++ [pathEdges.drop (path.idxOf next)] }
    else found
  | .unvisited => dfs next path pathEdges found
  | .black => found

/-- `dfs` of the source. Every block on the path is another one, so the number of blocks is fuel enough. -/
def dfs (edgesOf : Nat → List (Edge ι ω)) :
    Nat → Nat → List Nat → List (Edge ι ω) → Search ι ω → Search ι ω
  | 0, _, _, _, found => found
  | fuel + 1, current, path, pathEdges, found =>
    let entered : Search ι ω := { found with visited := Function.update found.visited current .gray }
    let left := (edgesOf current).foldl (follow (dfs edgesOf fuel) (path ++ [current]) pathEdges) entered
    { left with visited := Function.update left.visited current .black }

/-- Blocks inside a group that is not transparent are not listed, and no listed edge leaves them. -/
def detectFeedbackLoops (c : Config ι ω) (g : Graph ι ω) : List (List (Edge ι ω)) :=
  let edges := flatten g
  let names := g.forEachBlock.map Block.uniqueName
  let visit (found : Search ι ω) (name : Nat) : Search ι ω :=
    if found.visited name = .unvisited then dfs (adjacent c edges) names.length name [] [] found else found
  (names.foldl visit ⟨fun _ => .unvisited, []⟩).loops

/-- `forEachBlock<All>`. -/
def Graph.forEachBlockAll (g : Graph ι ω) : List (Block ι ω) := (g.subgraphs fun _ => true).flatMap Graph.blocks

/-- The search from each of some blocks. Each block that it comes to is one of them, or the destination of an edge. -/
def searchLoops (c : Config ι ω) (names : List Nat) (edges : List (Edge ι ω)) : List (List (Edge ι ω)) :=
  let visit (found : Search ι ω) (name : Nat) : Search ι ω :=
    if found.visited name = .unvisited then dfs (adjacent c edges) (names.length + edges.length) name [] [] found
    else found
  (names.foldl visit ⟨fun _ => .unvisited, []⟩).loops

/-- `detectFeedbackLoops()` of a graph as it is given: the edges of its groups are not its own. -/
def detectFeedbackLoopsOf (c : Config ι ω) (g : Graph ι ω) : List (List (Edge ι ω)) :=
  searchLoops c (g.forEachBlockAll.map Block.uniqueName) g.edges

end Detection

/-! ### Priming -/

/-- The place of the edge's input among the entries that `minSamples` is looked up by. -/
def destinationIndex (e : Edge ι ω) : Option Nat :=
  match e.destinationPortDefinition with
  | .index topLevel _ => some topLevel
  | .name name => e.destinationBlock.inputs.indexOf (splitAtHash name).1

/-- A `std::int32_t`: what does not fit wraps around. -/
def int32 (n : Int) : Int := n.bmod (2 ^ 32)

/-- `static_cast<std::size_t>` of a `std::int32_t`. -/
def sizeOfInt32 (n : Int) : Nat := (n % 2 ^ 64).toNat

/-- The numerator of `resamplingRatio()`. -/
def Block.numerator (b : Block ι ω) : Int := int32 b.inputChunkSize

/-- The denominator of `resamplingRatio()`. -/
def Block.denominator (b : Block ι ω) : Int := int32 b.outputChunkSize

/-- A product around the loop, as a `std::int32_t`. -/
def cumulative (part : Block ι ω → Int) (loop : List (Edge ι ω)) : Int :=
  loop.foldl (fun product e => int32 (product * part e.destinationBlock)) 1

/-- What the source of a loop's first edge needs for one sample. -/
def sourceNeeds (b : Block ι ω) (needed : Nat) : Nat :=
  let needed :=
    if 0 < b.denominator then
      max needed (needed * sizeOfInt32 b.numerator % 2 ^ 64 / sizeOfInt32 b.denominator)
    else needed
  max needed b.stride

/-- The entry of `minInputRequirements()` that is read for an edge. -/
def minSamplesRead (e : Edge ι ω) : Nat :=
  ((destinationIndex e).bind fun k => e.destinationBlock.minSamples[k]?).getD 0

/-- The `input_chunk_size` that is read for an edge, where it is positive as a `std::int32_t`. -/
def chunkRead (e : Edge ι ω) : Nat :=
  if 0 < e.destinationBlock.numerator then sizeOfInt32 e.destinationBlock.numerator else 0

/-- What the destination of an edge needs. -/
def destinationNeeds (needed : Nat) (e : Edge ι ω) : Nat :=
  max (max (max needed (minSamplesRead e)) (chunkRead e)) e.destinationBlock.stride

/-- Refused for a loop whose resampling ratios do not cancel out. -/
def calculateLoopPrimingSize : List (Edge ι ω) → Option Nat
  | [] => some 0
  | first :: rest =>
    if cumulative Block.numerator (first :: rest) ≠ cumulative Block.denominator (first :: rest) then none
    else some ((first :: rest).foldl destinationNeeds (sourceNeeds first.sourceBlock 1))

section Priming
variable [Fintype ι] [Fintype ω]

/-- `primePort()` on the inputs of a block: default samples, if the block is not running, the input is connected and its
    ring has room for all of them. -/
def primePort [Inhabited α] (b : Block ι ω) (portIdx nSamples : Nat) (s : State α β ι ω) : State α β ι ω :=
  if s.blockState b.uniqueName = .running ∨ nSamples = 0 then s
  else match b.streamInputs[portIdx]? with
    | none => s
    | some i =>
      match s.wiring.reader i with
      | none => s
      | some r =>
        if s.wiring.inputConnected i ∧ s.wiring.HasRoom r.ring nSamples then
          { s with wiring := s.wiring.publish r.ring (List.replicate nSamples default) [] }
        else s

/-- Samples are injected into the edge that closes the loop. -/
def primeLoop [Inhabited α] (loop : List (Edge ι ω)) (nSamples : Nat) (s : State α β ι ω) : State α β ι ω :=
  match loop.getLast? with
  | none => s
  | some closing =>
    match closing.destinationBlock.inputs.absolutePortIndex closing.destinationPortDefinition with
    | none => s
    | some portIdx => primePort closing.destinationBlock portIdx nSamples s

/-- One loop of `primeFeedbackPorts`. -/
def primeFeedbackLoop [Inhabited α] (s : State α β ι ω) (loop : List (Edge ι ω)) : State α β ι ω :=
  match calculateLoopPrimingSize loop with
  | none => s
  | some nPrimeSamples => primeLoop loop nPrimeSamples s

end Priming

end GnuRadio.Graph

/-! The inputs of a block as `PortCache` sees them (Block.hpp): the stream ports alone, those of the collections included,
    next to the entries that a `PortDefinition` counts, which are streams and messages (BlockModel.hpp). -/

namespace GnuRadio.Graph

variable {π ω : Type}

/-- The inputs of a block: its members have names of their own, and each port is one object. -/
structure PortTable (π : Type) where
  entries : DynamicPorts π
  names_nodup : (entries.map PortOrCollection.portName).Nodup
  ports_nodup : entries.all.Nodup

/-- `inputPorts<PortType::STREAM>()` -/
def streamPorts (isStream : π → Bool) (ports : DynamicPorts π) : List π := ports.all.filter isStream

/-- The port to which `primePort()` counts. -/
def primedPort (isStream : π → Bool) (ports : DynamicPorts π) (portIdx : Nat) : Option π :=
  (streamPorts isStream ports)[portIdx]?

/-! ### What a definition names -/

def PortOrCollection.isPort : PortOrCollection π → Bool
  | port .. => true
  | collection .. => false

/-- The number behind a `'#'`: what follows its digits does not count. -/
def indexBehindHash (tail : List Char) : Option Nat := (fromChars tail).map Prod.fst

/-- A port that a definition names. -/
def Names (ports : DynamicPorts π) : PortDefinition → π → Prop
  | .index topLevel none, p => ∃ name, ports[topLevel]? = some (.port name p)
  | .index topLevel (some sub), p => ∃ name ps, ports[topLevel]? = some (.collection name ps) ∧ ps[sub]? = some p
  | .name text, p =>
    ((splitAtHash text).2 = none ∧ .port text p ∈ ports) ∨
    ∃ tail index ps, (splitAtHash text).2 = some tail ∧ indexBehindHash tail = some index ∧
      .collection (splitAtHash text).1 ps ∈ ports ∧ ps[index]? = some p

/-- A definition that is read in one way: an index alone is that of a single port, an index with a sub-index is that of a
    collection, and nothing follows the number behind a `'#'`. What names no entry is read in one way, too, unless it is
    the first index. -/
def Unambiguous (ports : DynamicPorts π) : PortDefinition → Prop
  | .index topLevel none => topLevel = 0 ∨ topLevel < ports.length → ports[topLevel]?.any PortOrCollection.isPort
  | .index topLevel (some _) => ¬ ports[topLevel]?.any PortOrCollection.isPort
  | .name text => ∀ tail index rest ps, (splitAtHash text).2 = some tail → fromChars tail = some (index, rest) →
      .collection (splitAtHash text).1 ps ∈ ports → index < ps.length → rest = []

section
variable [DecidableEq π]

/-- The ports that are declared before a port. -/
def portsBefore (ports : DynamicPorts π) (p : π) : List π := ports.all.take (ports.all.idxOf p)

/-- No message port is declared before a stream port. A message port lies behind as many ports as there are stream
    ports. -/
def CountsAlike (isStream : π → Bool) (ports : DynamicPorts π) (p : π) : Prop :=
  if isStream p then ∀ q ∈ portsBefore ports p, isStream q
  else (streamPorts isStream ports).length ≤ (portsBefore ports p).length

end

/-- `dynamicInputPort()` finds a port if and only if `absolutePortIndex()` finds an index, and `primePort()` counts with
    it to that port, or to none for a message port. -/
def ResolvesToOne (isStream : π → Bool) (ports : DynamicPorts π) (definition : PortDefinition) : Prop :=
  ((ports.resolve definition).isSome ↔ (ports.absolutePortIndex definition).isSome) ∧
  ∀ p portIdx, ports.resolve definition = some p → ports.absolutePortIndex definition = some portIdx →
    primedPort isStream ports portIdx = if isStream p then some p else none

end GnuRadio.Graph

/-! What a feedback loop needs before it can run (`calculateLoopPrimingSize()` in Graph.hpp): rates that cancel out, and as
    many samples as the destination of each edge asks for. Next to it, what the function reads of that. -/

namespace GnuRadio.Graph

variable {ω : Type}

/-- An input, with the fields that `PortCache` reads of it. `number` is not in the source: it tells the ports apart. -/
structure InputPort where
  number : Nat
  isStream : Bool
  isOptional : Bool
  isConnected : Bool
  minSamples : Nat
  deriving DecidableEq, Repr

/-- `updateConstraints()`: an optional port that is not connected asks for nothing. -/
def InputPort.constraint (p : InputPort) : Nat := if p.isOptional && !p.isConnected then 0 else p.minSamples

/-- The caches of a block hold what its ports say. -/
def Block.Cached (b : Block InputPort ω) : Prop :=
  b.streamInputs = streamPorts InputPort.isStream b.inputs ∧ b.minSamples = b.streamInputs.map InputPort.constraint

/-- The chunk sizes lie in the range of their settings. -/
def Block.Sized {ι : Type} (b : Block ι ω) : Prop :=
  (1 ≤ b.inputChunkSize ∧ b.inputChunkSize < 2 ^ 32) ∧ 1 ≤ b.outputChunkSize ∧ b.outputChunkSize < 2 ^ 32

instance [DecidableEq ω] (b : Block InputPort ω) : Decidable b.Cached := inferInstanceAs (Decidable (_ ∧ _))

instance {ι : Type} (b : Block ι ω) : Decidable b.Sized := inferInstanceAs (Decidable (_ ∧ _))

def inputRate {ι : Type} (loop : List (Edge ι ω)) : Nat := (loop.map fun e => e.destinationBlock.inputChunkSize).prod

def outputRate {ι : Type} (loop : List (Edge ι ω)) : Nat := (loop.map fun e => e.destinationBlock.outputChunkSize).prod

/-- What the destination of an edge asks for: its `input_chunk_size`, its `stride`, and the `min_samples` of the port
    that the edge names. -/
def Requires (e : Edge InputPort ω) (n : Nat) : Prop :=
  n = e.destinationBlock.inputChunkSize ∨ n = e.destinationBlock.stride ∨
    ∃ p, e.destinationBlock.inputs.resolve e.destinationPortDefinition = some p ∧ n = p.minSamples

/-- The loop is refused exactly where its rates do not cancel out, and the count is enough for all edges. -/
def PrimedExactly (loop : List (Edge InputPort ω)) : Prop :=
  (calculateLoopPrimingSize loop = none ↔ inputRate loop ≠ outputRate loop) ∧
  ∀ n, calculateLoopPrimingSize loop = some n → ∀ e ∈ loop, ∀ r, Requires e r → r ≤ n

/-! ### What is read -/

/-- The demands of the source of the first edge. -/
def sourceDemands {ι : Type} (b : Block ι ω) : List Nat :=
  [if 0 < b.denominator then sizeOfInt32 b.numerator % 2 ^ 64 / sizeOfInt32 b.denominator else 0, b.stride]

/-- Every demand that is read around a loop. -/
def demands {ι : Type} (loop : List (Edge ι ω)) : List Nat :=
  1 :: (loop.head?.elim [] fun first => sourceDemands first.sourceBlock) ++
    loop.flatMap fun e => [minSamplesRead e, chunkRead e, e.destinationBlock.stride]

/-- A demand that is not read: an `input_chunk_size` from `2 ^ 31` on, which is negative as a `std::int32_t`, and a
    `min_samples` that the entry read for the edge falls short of. -/
def Missed (e : Edge InputPort ω) (n : Nat) : Prop :=
  (n = e.destinationBlock.inputChunkSize ∧ 2 ^ 31 ≤ n) ∨
    ∃ p, e.destinationBlock.inputs.resolve e.destinationPortDefinition = some p ∧ n = p.minSamples ∧ minSamplesRead e < n

/-- Another demand that is read is no smaller than one that is missed. -/
def Covered (loop : List (Edge InputPort ω)) : Prop :=
  ∀ e ∈ loop, ∀ n, Missed e n → ∃ d ∈ demands loop, n ≤ d

/-- Rates that agree in their last 32 bits agree. -/
def RatesSeen {ι : Type} (loop : List (Edge ι ω)) : Prop :=
  inputRate loop % 2 ^ 32 = outputRate loop % 2 ^ 32 → inputRate loop = outputRate loop

end GnuRadio.Graph
