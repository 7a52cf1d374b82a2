import GnuRadio.Graph.Edges
import GnuRadio.Library.Components

/-! The weakly connected components of a graph (`weaklyConnectedComponents()` in Graph.hpp), each a graph of its own with
    the same blocks and copies of the edges. A pointer to a block is its `uniqueName`. -/

namespace GnuRadio.Graph

variable {ι ω : Type}

/-- What is put into a graph of the result. -/
structure Component (ι ω : Type) where
  blocks : List (Block ι ω)
  edges : List (Edge ι ω)
  deriving DecidableEq, Repr

namespace Component

def clear : Component ι ω := ⟨[], []⟩

def addBlock (g : Component ι ω) (block : Block ι ω) : Component ι ω := { g with blocks := g.blocks ++ [block] }

def containsEdge (g : Component ι ω) (edge : Edge ι ω) : Bool := g.edges.any fun e => e.same edge

/-- An edge that the graph already has is refused. -/
def addEdge (g : Component ι ω) (edge : Edge ι ω) : Component ι ω :=
  if g.containsEdge edge then g else { g with edges := g.edges ++ [edge] }

end Component

/-- `std::ranges::sort` with the greater size first. It leaves open how entries of one size stand. -/
structure RangesSort where
  sort : (Nat → Nat) → List Nat → List Nat
  perm : ∀ size order, (sort size order).Perm order
  sorted : ∀ size order, (sort size order).Pairwise fun a b => size b ≤ size a

section
variable (g : Graph ι ω)

/-- A block that is listed more than once keeps its first place. -/
def indexOf (block : Block ι ω) : Option Nat := g.blocks.findIdx? fun b => b.uniqueName == block.uniqueName

def adjacencyList (i : Nat) : List Nat :=
  g.edges.flatMap fun e =>
    match indexOf g e.sourceBlock, indexOf g e.destinationBlock with
    | some s, some d => (if s = i then [d] else []) ++ if d = i then [s] else []
    | _, _ => []

/-- `compId` and `comps`. -/
def compLabels : Components.Labelled Nat := Components.labelled (adjacencyList g) (List.range g.blocks.length)

def comp (cid : Nat) : List Nat := (compLabels g).components[cid]?.getD []

def componentOrder (r : RangesSort) : List Nat :=
  r.sort (fun cid => (comp g cid).length) (List.range (compLabels g).components.length)

/-- The place of the graph that an edge is added to. -/
def edgeRank (r : RangesSort) (e : Edge ι ω) : Option Nat := do
  let s ← indexOf g e.sourceBlock
  let d ← indexOf g e.destinationBlock
  let cidS ← (compLabels g).label s
  let cidD ← (compLabels g).label d
  if cidS = cidD then some ((componentOrder g r).idxOf cidS) else none

def addToComponent (r : RangesSort) (result : List (Component ι ω)) (e : Edge ι ω) : List (Component ι ω) :=
  match edgeRank g r e with
  | some rank => result.modify rank fun c => c.addEdge e
  | none => result

def weaklyConnectedComponents (r : RangesSort) : List (Component ι ω) :=
  let result := (componentOrder g r).map fun cid =>
    ((comp g cid).filterMap (g.blocks[·]?)).foldl Component.addBlock .clear
  g.edges.foldl (addToComponent g r) result

end

end GnuRadio.Graph
