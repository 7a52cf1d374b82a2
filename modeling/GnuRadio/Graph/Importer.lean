import GnuRadio.Graph.Ports
import GnuRadio.Yaml.Parser
import Mathlib.Data.Finmap

/-! Loading a graph from a GRC document, with the settings a caller gives for its blocks
    (`core/include/gnuradio-4.0/Graph_yaml_importer.hpp`).

    The blocks, the graphs and the plugins are parameters: what the loader calls of them, on the state `σ` of the
    process. A refusal is an exception, and it leaves what was done before it in the state. A `property_map` that is
    handed over is a map without an order, as the order of a hash map says nothing. -/

namespace GnuRadio.Importer

open Yaml
open Graph (PortDefinition)

variable {F : Type}

/-! ### Fields -/

/-- The errors of `getProperty()`. -/
inductive FieldError
  | missing (field : String)
  | incorrectType (field : String)
  deriving DecidableEq, Repr

def get? (map : ValueMap F) (field : String) : Option (Value F) := map.lookup field.toList

def getProperty (map : ValueMap F) (field : String) : Except FieldError Bytes :=
  match get? map field with
  | none => .error (.missing field)
  | some (.string s) => .ok s
  | some _ => .error (.incorrectType field)

def getSubProperty (map : ValueMap F) (field subName : String) : Except FieldError Bytes :=
  match get? map field with
  | none => .error (.missing field)
  | some (.map inner) => getProperty inner subName
  | some _ => .error (.incorrectType field)

/-- The field as a list, an empty one where it is not there or is no list. -/
def listOrEmpty (map : ValueMap F) (field : String) : List (Value F) :=
  match get? map field with
  | some (.list items) => items
  | _ => []

/-- The field as a map, where it is one. -/
def map? (map : ValueMap F) (field : String) : Option (ValueMap F) :=
  match get? map field with
  | some (.map inner) => some inner
  | _ => none

/-! ### Names -/

/-- The cells of the next row of `editDistance()` behind `left`. -/
def nextCells (c : Char) : Bytes → List Nat → Nat → List Nat
  | d :: rest, diagonal :: above :: row, left =>
    let cell := min (min (above + 1) (left + 1)) (diagonal + if c = d then 0 else 1)
    cell :: nextCells c rest (above :: row) cell
  | _, _, _ => []

def editDistance (source target : Bytes) : Nat :=
  let row := source.zipIdx.foldl (fun row (c, i) => (i + 1) :: nextCells c target row (i + 1)) (List.range (target.length + 1))
  row.getLastD 0

def nearer (lhs rhs : Nat × Bytes) : Bool := lhs.1 < rhs.1 || (lhs.1 = rhs.1 && decide (¬ rhs.2 < lhs.2))

def closestNames (name : Bytes) (candidates : List Bytes) : List Bytes :=
  (((candidates.map fun candidate => (editDistance name candidate, candidate)).mergeSort nearer).take 3).map (·.2)

/-! ### Settings of a caller -/

/-- The entries of a `std::map`, in the order of their keys. -/
abbrev BlockSettings (F : Type) := List (Bytes × ValueMap F)

structure BlockIdentity where
  type : Bytes
  uniqueName : Bytes
  name : Bytes
deriving DecidableEq, Repr

namespace BlockIdentity

def isSubgraph (identity : BlockIdentity) : Bool := identity.type = "SUBGRAPH".toList

/-- An empty name is no name. -/
def carries (identity : BlockIdentity) (key : Bytes) : Bool :=
  key ≠ [] && (identity.uniqueName = key || identity.name = key)

end BlockIdentity

inductive Refusal
  | notReadable (failure : Failure)
  | field (error : FieldError)
  | noSuchBlock (key : Bytes) (nearest : List Bytes)
  | carriedBySeveral (key : Bytes) (carriers : List (Nat × BlockIdentity))
  | givenTwice (block : Nat × BlockIdentity) (first second : Bytes)
  /-- One of the settings is named. Which one depends on the order of a hash map. -/
  | undeclared (block typeName : Bytes) (settings : Finset Bytes)
  | notAMap (field : String) (identity : BlockIdentity)
  | notAList (field : String) (identity : BlockIdentity)
  | contextEntry (identity : BlockIdentity)
  | notCreated (type : Bytes)
  | unableToCreate (identity : BlockIdentity) (cause : Refusal)
  | notActivated
  | notApplied (identity : BlockIdentity)
  | exportedPort
  | ambiguousName (name : Bytes)
  | unknownBlock (name : Bytes)
  | connection
  | inputTaken
  /-- What a block, a graph or a plugin throws. -/
  | thrown (message : Bytes)
  /-- Never seen: the fuel covers the levels of the document. -/
  | fuel

def readBlockIdentity (grcBlock : ValueMap F) : Except FieldError BlockIdentity := do
  let type ← getProperty grcBlock "id"
  let uniqueName := (getProperty grcBlock "unique_name").toOption.getD []
  match getSubProperty grcBlock "parameters" "name" with
  | .ok name => .ok ⟨type, uniqueName, name⟩
  | .error error =>
    -- subgraphs written before the parameters key carry their name at the top level
    if type = "SUBGRAPH".toList then .ok ⟨type, uniqueName, (getProperty grcBlock "name").toOption.getD []⟩ else .error error

/-- The identities of the blocks, with their positions. -/
def readIdentities : Nat → List (Value F) → Except FieldError (List (Nat × BlockIdentity))
  | _, [] => .ok []
  | position, .map grcBlock :: blocks => do
    let identity ← readBlockIdentity grcBlock
    let identities ← readIdentities (position + 1) blocks
    .ok ((position, identity) :: identities)
  | position, _ :: blocks => readIdentities (position + 1) blocks

def carriedKeys (identities : List (Nat × BlockIdentity)) : List Bytes :=
  (identities.flatMap fun block => [block.2.uniqueName, block.2.name]).dedup.filter (· ≠ [])

/-- The body of the loop over the overrides: what is settled for each position, with its key. -/
def resolveOverride (identities : List (Nat × BlockIdentity)) (settled : List (Option (Bytes × ValueMap F)))
    (override : Bytes × ValueMap F) : Except Refusal (List (Option (Bytes × ValueMap F))) :=
  match identities.filter fun block => block.2.carries override.1 with
  | [] => .error (.noSuchBlock override.1 (closestNames override.1 (carriedKeys identities)))
  | [block] =>
    match settled[block.1]?.join with
    | some (key, _) => .error (.givenTwice block key override.1)
    | none => .ok (settled.set block.1 (some override))
  | carriers => .error (.carriedBySeveral override.1 carriers)

/-- The entry of `overrides` that each block takes. -/
def resolveBlockSettings (blocks : List (Value F)) (overrides : BlockSettings F) :
    Except Refusal (List (Option (ValueMap F))) :=
  if overrides.isEmpty then .ok (List.replicate blocks.length none)
  else do
    let identities ← (readIdentities 0 blocks).mapError .field
    let settled ← overrides.foldlM (resolveOverride identities) (List.replicate blocks.length none)
    .ok (settled.map (Option.map (·.2)))

def mergedParameters (fromFile : ValueMap F) (overrides : Option (ValueMap F)) : ValueMap F :=
  (overrides.getD []).foldl (fun merged entry => merged.insertOrAssign entry.1 entry.2) fromFile

def readEntryParameters (grcBlock : ValueMap F) (identity : BlockIdentity) : Except Refusal (ValueMap F) :=
  match get? grcBlock "parameters" with
  | none => .ok []
  | some (.map parameters) => .ok parameters
  | some _ => .error (.notAMap "parameters" identity)

/-- The scheduler of a managed subgraph, and the parameters of the entry with the scheduler's in their place. -/
def readScheduler (grcBlock : ValueMap F) (identity : BlockIdentity) (fromFile : ValueMap F) :
    Except Refusal (Option Bytes × ValueMap F) :=
  if identity.isSubgraph then
    match get? grcBlock "scheduler" with
    | none => .ok (none, fromFile)
    | some (.map scheduler) => do
      let schedulerId ← (getProperty scheduler "id").mapError .field
      let schedulerParams := ((map? scheduler "parameters").getD []).filter (·.1 ≠ "name".toList)
      .ok (some schedulerId, mergedParameters fromFile (some schedulerParams))
    | some _ => .error (.notAMap "scheduler" identity)
  else .ok (none, fromFile)

/-! ### Blocks and graphs -/

/-- A `property_map` that is handed over. -/
abbrev Parameters (F : Type) := Finmap fun _ : Bytes => Value F

def parametersOf (map : ValueMap F) : Parameters F := (map.map fun entry => ⟨entry.1, entry.2⟩ : List (Sigma fun _ => _)).toFinmap

abbrev Load (σ : Type) := ExceptT Refusal (StateM σ)

/-- The functions of `PluginLoader`, `BlockModel` and `Graph` that the loader calls. `B` and `G` are pointers. -/
structure Components (F σ B G : Type) where
  makeGraph : StateM σ G
  instantiateOrError (blockType : Bytes) (parameters : Parameters F) : Load σ (Option B)
  instantiateScheduler (schedulerId : Bytes) (parameters : Parameters F) : Load σ (Option B)
  makeSubgraph (parameters : Parameters F) : Load σ B
  graph (wrapper : B) : Load σ G
  setInitBlockParameters (block : B) (parameters : Parameters F) : Load σ Unit
  writableMembers (block : B) : Load σ (Finset Bytes)
  readableMembers (block : B) : Load σ (Finset Bytes)
  typeName (block : B) : Load σ Bytes
  uniqueName (block : B) : Load σ Bytes
  setName (block : B) (name : Bytes) : Load σ Unit
  /-- With the time and the name of a context. -/
  loadParametersFromPropertyMap (block : B) (parameters : Parameters F) (ctx : Option (Int × Bytes)) : Load σ Unit
  setTagCouplings (block : B) (couplings : Parameters F) : Load σ Unit
  activateContext (block : B) : Load σ Bool
  /-- Whether every staged parameter was taken. -/
  applyStagedParameters (block : B) : Load σ Bool
  tryEmplaceMetaInformation (block : B) (key : Bytes) (value : Value F) : Load σ Unit
  addBlock (graph : G) (block : B) : Load σ B
  exportPort (wrapper : B) (innerUniqueName : Bytes) (isInput : Bool) (internalPortName exportedPortName : Bytes) : Load σ Unit
  /-- Whether an edge of the graph ends at the same stream input. -/
  hasSameInput (graph : G) (source : B × PortDefinition) (destination : B × PortDefinition) : Load σ Bool
  connect (graph : G) (source : B × PortDefinition) (destination : B × PortDefinition) (minBufferSize : Option Nat) : Load σ Unit

/-- The blocks one graph level produced. -/
structure LoadedBlocks (B : Type) where
  byUniqueName : AList fun _ : Bytes => B := ∅
  byName : AList fun _ : Bytes => B := ∅
  ambiguousNames : List Bytes := []

namespace LoadedBlocks

variable {B : Type}

def add (blocks : LoadedBlocks B) (uniqueName name : Bytes) (block : B) : LoadedBlocks B where
  byUniqueName := if uniqueName = [] then blocks.byUniqueName else blocks.byUniqueName.insert uniqueName block
  byName := if name = [] ∨ name ∈ blocks.byName then blocks.byName else blocks.byName.insert name block
  ambiguousNames := if name ≠ [] ∧ name ∈ blocks.byName then name :: blocks.ambiguousNames else blocks.ambiguousNames

def find (blocks : LoadedBlocks B) (key : Bytes) : Except Refusal B :=
  match blocks.byUniqueName.lookup key with
  | some block => .ok block
  | none =>
    if blocks.ambiguousNames.contains key then .error (.ambiguousName key)
    else
      match blocks.byName.lookup key with
      | some block => .ok block
      | none => .error (.unknownBlock key)

end LoadedBlocks

/-! ### Loading -/

section
variable {σ B G : Type} (loader : Components F σ B G)

def checkDeclared (declared : Finset Bytes) (blockName typeName : Bytes) (parameters : Parameters F) : Except Refusal Unit :=
  let settings := parameters.keys.filter (· ∉ declared)
  if settings = ∅ then .ok () else .error (.undeclared blockName typeName settings)

/-- An entry of `ctx_parameters`: its context, the time of it and its parameters. -/
def readContext (ctxPmt : Value F) (identity : BlockIdentity) : Except Refusal (Bytes × Int × ValueMap F) :=
  match ctxPmt with
  | .map ctxPar =>
    match get? ctxPar "context", get? ctxPar "time", get? ctxPar "parameters" with
    | some (.string ctxName), some (.int .uint64 ctxTime), some (.map ctxParameters) => .ok (ctxName, ctxTime, ctxParameters)
    | some _, some _, some _ => .error (.contextEntry identity)
    | none, _, _ => .error (.field (.missing "context"))
    | _, none, _ => .error (.field (.missing "time"))
    | _, _, none => .error (.field (.missing "parameters"))
  | _ => .error (.notAMap "ctx_parameters" identity)

def loadContext (block : B) (identity : BlockIdentity) (readable : Finset Bytes) (ctxPmt : Value F) : Load σ Unit := do
  let (ctxName, ctxTime, ctxParameters) ← readContext ctxPmt identity
  checkDeclared readable identity.name (← loader.typeName block) (parametersOf ctxParameters)
  loader.loadParametersFromPropertyMap block (parametersOf ctxParameters) (some (ctxTime, ctxName))

def loadEntrySettings (block : B) (grcBlock : ValueMap F) (parameters : Parameters F) (identity : BlockIdentity) :
    Load σ Unit := do
  loader.loadParametersFromPropertyMap block parameters none
  match get? grcBlock "ctx_parameters" with
  | none => pure ()
  | some (.list parametersCtx) =>
    let readable ← loader.readableMembers block
    parametersCtx.forM (loadContext loader block identity readable)
  | some _ => throw (.notAList "ctx_parameters" identity)
  match get? grcBlock "tag_couplings" with
  | none => pure ()
  | some (.map couplings) =>
    try loader.setTagCouplings block (parametersOf couplings)
    catch refused => throw (.unableToCreate identity refused)
  | some _ => throw (.notAMap "tag_couplings" identity)
  if !(← loader.activateContext block) then throw .notActivated

/-- The block's own entries win. -/
def restoreMetaInformation (block : B) (grcBlock : ValueMap F) : Load σ Unit :=
  ((map? grcBlock "meta_information").getD []).forM fun entry => loader.tryEmplaceMetaInformation block entry.1 entry.2

def exportPort (graphWrapper : B) (innerBlocks : LoadedBlocks B) : Value F → Load σ Unit
  | .list [.string requiredBlockName, .string portDirection, .string internalPortName, .string exportedPortName] => do
    let innerBlock ← innerBlocks.find requiredBlockName
    let innerUniqueName ← loader.uniqueName innerBlock
    loader.exportPort graphWrapper innerUniqueName (portDirection = "INPUT".toList) internalPortName exportedPortName
  | _ => throw .exportedPort

/-- `nested` loads the blocks of a map into a graph. A caller's settings stay out of it. -/
def loadGraph (nested : G → ValueMap F → Load σ (LoadedBlocks B)) (grcBlock : ValueMap F) (identity : BlockIdentity)
    (graphWrapper : B) : Load σ Unit :=
  match get? grcBlock "graph" with
  | none => throw (.field (.missing "graph"))
  | some (.map graphData) => do
    let innerBlocks ← nested (← loader.graph graphWrapper) graphData
    (listOrEmpty graphData "exported_ports").forM (exportPort loader graphWrapper innerBlocks)
  | some _ => throw (.notAMap "graph" identity)

def makeBlock (identity : BlockIdentity) (schedulerId : Option Bytes) (parameters : Parameters F) : Load σ B :=
  if identity.isSubgraph then
    match schedulerId with
    | some schedulerId => do
      match ← loader.instantiateScheduler schedulerId parameters with
      | some block => pure block
      | none => throw (.notCreated schedulerId)
    | none => loader.makeSubgraph parameters
  else do
    match ← loader.instantiateOrError identity.type parameters with
    | some block => pure block
    | none => throw (.notCreated identity.type)

/-- The parameters that a block is made with, with the scheduler's type. -/
def blockParameters (grcBlock : ValueMap F) (identity : BlockIdentity) (given : Option (ValueMap F)) :
    Except Refusal (Option Bytes × Parameters F) := do
  let fromFile ← readEntryParameters grcBlock identity
  let (schedulerId, fromFile) ← readScheduler grcBlock identity fromFile
  .ok (schedulerId, parametersOf (mergedParameters fromFile given))

/-- The body of the loop over the blocks. -/
def loadBlock (nested : G → ValueMap F → Load σ (LoadedBlocks B)) (resultGraph : G) (createdBlocks : LoadedBlocks B)
    (entry : Value F × Option (ValueMap F)) : Load σ (LoadedBlocks B) :=
  match entry with
  | (.map grcBlock, given) => do
    let identity ← ((readBlockIdentity grcBlock).mapError .field : Except Refusal _)
    let (schedulerId, parameters) ← blockParameters grcBlock identity given
    let currentBlock ← makeBlock loader identity schedulerId parameters
    loader.setInitBlockParameters currentBlock ∅
    checkDeclared (← loader.writableMembers currentBlock) identity.name (← loader.typeName currentBlock) parameters
    loader.setName currentBlock identity.name
    loadEntrySettings loader currentBlock grcBlock parameters identity
    -- a scheduler's init() hides the one that applies the settings
    if schedulerId.isSome then
      if !(← loader.applyStagedParameters currentBlock) then throw (.notApplied identity)
    restoreMetaInformation loader currentBlock grcBlock
    if identity.isSubgraph then loadGraph loader nested grcBlock identity currentBlock
    let added ← loader.addBlock resultGraph currentBlock
    pure (createdBlocks.add identity.uniqueName identity.name added)
  | (_, _) => pure createdBlocks

/-- `static_cast<std::size_t>()`. -/
def asSize (n : Int) : Nat := (n % 2 ^ 64).toNat

def parsePort : Value F → Except Refusal PortDefinition
  | .list [.int .int64 index, .int .int64 subIndex] =>
    -- the largest size is `meta::invalid_index`
    .ok (.index (asSize index) (if asSize subIndex = 2 ^ 64 - 1 then none else some (asSize subIndex)))
  | .string name => .ok (.name (String.ofList name))
  | .int .int64 index => .ok (.index (asSize index) none)
  | _ => .error .connection

def parseBlockPort (createdBlocks : LoadedBlocks B) (blockField portField : Value F) : Except Refusal (B × PortDefinition) := do
  match blockField with
  | .string (c :: blockName) =>
    let block ← createdBlocks.find (c :: blockName)
    .ok (block, ← parsePort portField)
  | _ => .error .connection

def minBufferSizeOf : Value F → Nat
  | .int _ n => asSize n
  | .bool b => if b then 1 else 0
  | _ => 2 ^ 64 - 1

/-- The body of the loop over the connections. -/
def loadConnection (resultGraph : G) (createdBlocks : LoadedBlocks B) : Value F → Load σ Unit
  | .list (sourceBlock :: sourcePort :: destinationBlock :: destinationPort :: rest) => do
    let source ← parseBlockPort createdBlocks sourceBlock sourcePort
    let destination ← parseBlockPort createdBlocks destinationBlock destinationPort
    if ← loader.hasSameInput resultGraph source destination then throw .inputTaken
    loader.connect resultGraph source destination (rest.head?.map minBufferSizeOf)
  | _ => throw .connection

def loadGraphFromMap : Nat → G → ValueMap F → BlockSettings F → Load σ (LoadedBlocks B)
  | 0, _, _, _ => throw .fuel
  | fuel + 1, resultGraph, yaml, overrides => do
    let blocks := listOrEmpty yaml "blocks"
    let settingsByPosition ← resolveBlockSettings blocks overrides
    let nested := fun graph graphData => loadGraphFromMap fuel graph graphData []
    let createdBlocks ← (blocks.zip settingsByPosition).foldlM (loadBlock loader nested resultGraph) {}
    (listOrEmpty yaml "connections").forM (loadConnection loader resultGraph createdBlocks)
    pure createdBlocks

mutual

/-- The levels of graphs below a value. -/
def levels : Value F → Nat
  | .map entries => levelsOfEntries entries + 1
  | .list items => levelsOfItems items
  | _ => 0

def levelsOfEntries : List (Bytes × Value F) → Nat
  | [] => 0
  | (key, value) :: entries =>
    max (if key = "blocks".toList ∨ key = "graph".toList then levels value else 0) (levelsOfEntries entries)

def levelsOfItems : List (Value F) → Nat
  | [] => 0
  | value :: items => max (levels value) (levelsOfItems items)

end

/-- The load of a document that has been read. -/
def loadDocument (yaml : ValueMap F) (overrides : BlockSettings F) : Load σ G := do
  let resultGraph ← loader.makeGraph
  let _ ← loadGraphFromMap loader (levelsOfEntries yaml + 1) resultGraph yaml overrides
  pure resultGraph

def loadGrc (floats : FloatFormat F) (fuel : Nat) (yamlSrc : Bytes) (overrides : BlockSettings F) : Load σ G := do
  match deserialize floats fuel yamlSrc with
  | .error failure =>
    let _ ← loader.makeGraph
    throw (.notReadable failure)
  | .ok parsed => loadDocument loader parsed.value overrides

end

end GnuRadio.Importer
