import Mathlib.Algebra.Order.Field.Rat
import GnuRadio.Library.Layering
import GnuRadio.Tools.GraphDoc

/-! The drawing of one graph level (`svgOf()` in `GraphDoc.hpp`): the nodes, the ranks, and the place of each node. A
    coordinate is the number before it is rounded. The markup is left out. -/

namespace GnuRadio.GraphDoc

open Function
open Yaml (Bytes)

/-! ### Labels -/

def kLabelCharacters : Nat := 28

def fitLabel (text : Bytes) (limit : Nat) : Bytes :=
  if text.length ≤ limit then text else text.take (limit - 3) ++ "...".toList

def kSimpleItemTypes : List Bytes :=
  ["int8", "int16", "int32", "int64", "uint8", "uint16", "uint32", "uint64", "float32", "float64", "complex<float32>",
    "complex<float64>"].map String.toList

def nodeType (type : Bytes) : Bytes :=
  match type.findIdx? (· = '<') with
  | none => []
  | some first =>
    if type.getLast? ≠ some '>' then []
    else
      let argument := (type.drop (first + 1)).take (type.length - first - 2)
      if kSimpleItemTypes.contains argument then argument else []

/-- What a node shows. -/
structure Label where
  name : Bytes
  type : Bytes
  subgraph : Bool
  unresolved : Bool
  deriving DecidableEq

def blockLabel (block : Block) : Label where
  name := if block.name = [] then "(unnamed)".toList else fitLabel block.name kLabelCharacters
  type := nodeType block.type
  subgraph := block.isSubgraph
  unresolved := false

def endLabel (blockName : Bytes) : Label where
  name := fitLabel blockName kLabelCharacters
  type := "(unresolved)".toList
  subgraph := false
  unresolved := true

/-! ### Edges -/

structure Edge where
  fromNode : Nat
  toNode : Nat
  fromPort : Bytes
  toPort : Bytes
  deriving DecidableEq

structure Ends where
  nodes : List Label
  unresolvedIndex : Bytes → Option Nat

/-- The lambda of the same name. -/
def indexOf (names : BlockNames) (ends : Ends) (blockName : Bytes) : Nat × Ends :=
  match names.find blockName with
  | .ok position => (position, ends)
  | .error _ =>
    match ends.unresolvedIndex blockName with
    | some held => (held, ends)
    | none =>
      (ends.nodes.length,
        ⟨ends.nodes ++ [endLabel blockName],
          update ends.unresolvedIndex blockName (some ends.nodes.length)⟩)

def addEdge (names : BlockNames) (s : List Edge × Ends) (connection : Connection) : List Edge × Ends :=
  let source := indexOf names s.2 connection.sourceBlock
  let destination := indexOf names source.2 connection.destinationBlock
  (s.1 ++ [⟨source.1, destination.1, connection.sourcePort, connection.destinationPort⟩], destination.2)

def edgesAndNodes (level : Level) : List Edge × Ends :=
  level.connections.foldl (addEdge (blockNames level.blocks)) ([], ⟨level.blocks.map blockLabel, fun _ => none⟩)

/-- The edges that leave a node, by their positions. -/
def outgoing (edges : List Edge) (node : Nat) : List Nat :=
  (List.range edges.length).filter fun e => (edges[e]?).any (·.fromNode = node)

def target (edges : List Edge) (e : Nat) : Nat := (edges[e]?).elim 0 Edge.toNode

/-- The ends of the edges that the ranking does not leave out. -/
def ranked (edges : List Edge) (closesCycle : Nat → Bool) : List (Nat × Nat) :=
  (edges.zipIdx.filter fun e => !closesCycle e.2).map fun e => (e.1.fromNode, e.1.toNode)

/-! ### Places -/

def kNameCharWidth : Rat := 74 / 10

def kTypeCharWidth : Rat := 66 / 10

def kNodeHeight : Rat := 42

def kNodeMinWidth : Rat := 84

def kNodePadding : Rat := 10

def kNodeGap : Rat := 22

def kRankGap : Rat := 74

def kMargin : Rat := 12

structure Node extends Label where
  x : Rat
  y : Rat
  width : Rat
  deriving DecidableEq

def rankCount (nodeCount : Nat) (rank : Nat → Nat) : Nat :=
  (List.range nodeCount).foldl (fun count i => max count (rank i + 1)) 0

def column (nodeCount : Nat) (rank : Nat → Nat) (r : Nat) : List Nat := (List.range nodeCount).filter (rank · = r)

def columnHeight (column : List Nat) : Rat :=
  if column = [] then 0 else column.length * kNodeHeight + (column.length - 1 : Nat) * kNodeGap

def columnWidth (nodes : List Label) (column : List Nat) : Rat :=
  column.foldl (fun width i => (nodes[i]?).elim width fun node =>
    max width (max (node.name.length * kNameCharWidth) (node.type.length * kTypeCharWidth) + 2 * kNodePadding)) kNodeMinWidth

/-- The place that the loop over one column assigns to each of its nodes. -/
structure Place where
  node : Nat
  x : Rat
  y : Rat
  width : Rat

def placeColumn (left width : Rat) : Rat → List Nat → List Place
  | _, [] => []
  | top, i :: column => ⟨i, left, top, width⟩ :: placeColumn left width (top + (kNodeHeight + kNodeGap)) column

/-- The loop over the columns, each with its width. -/
def placeColumns (tallest : Rat) : Rat → List (List Nat × Rat) → List Place
  | _, [] => []
  | left, (column, width) :: columns =>
    placeColumn left width (kMargin + (tallest - columnHeight column) / 2) column ++
      placeColumns tallest (left + (width + kRankGap)) columns

def placedNodes (nodes : List Label) (places : List Place) : List Node :=
  nodes.zipIdx.map fun (node, i) =>
    match places.find? (·.node = i) with
    | some place => ⟨node, place.x, place.y, place.width⟩
    | none => ⟨node, 0, 0, kNodeMinWidth⟩

structure Drawing where
  nodes : List Node
  edges : List Edge
  closesCycle : Nat → Bool
  rank : Nat → Nat
  width : Rat
  height : Rat

def svgOf (level : Level) : Option Drawing := do
  let (edges, ends) := edgesAndNodes level
  let nodeCount := ends.nodes.length
  let closesCycle ← Layering.closesCycle (outgoing edges) (target edges) (List.range nodeCount)
  let rank := Layering.passes (ranked edges closesCycle) nodeCount fun _ => 0
  let columns := (List.range (rankCount nodeCount rank)).map fun r =>
    (column nodeCount rank r, columnWidth ends.nodes (column nodeCount rank r))
  let tallest := columns.foldl (fun tallest column => max tallest (columnHeight column.1)) 0
  let left := columns.foldl (fun left column => left + (column.2 + kRankGap)) kMargin
  return {
    nodes := placedNodes ends.nodes (placeColumns tallest kMargin columns)
    edges
    closesCycle
    rank
    width := if columns = [] then 2 * kMargin else left - kRankGap + kMargin
    height := tallest + 2 * kMargin }

end GnuRadio.GraphDoc
