import GnuRadio.Graph.Importer

/-! The reader of a graph document (`readLevel()` in `GraphDoc.hpp`) and the names by which a level's blocks are addressed.
    A text is its bytes. -/

namespace GnuRadio.GraphDoc

open Function
open Yaml (Bytes Value ValueMap)
open Importer (get? map?)

structure NamedText where
  name : Bytes
  value : Bytes
  deriving DecidableEq

/-- The item type is filled in after the reading. -/
structure Connection where
  sourceBlock : Bytes
  sourcePort : Bytes
  destinationBlock : Bytes
  destinationPort : Bytes
  minBufferSize : Bytes
  deriving DecidableEq

structure ExportedPort where
  block : Bytes
  direction : Bytes
  internalName : Bytes
  exportedName : Bytes
  deriving DecidableEq

/-- A level with blocks of the type `β`. -/
structure LevelOf (β : Type) where
  blocks : List β
  connections : List Connection
  exportedPorts : List ExportedPort
  metadata : List NamedText
  uninterpretedKeys : List NamedText

structure Block where
  type : Bytes
  name : Bytes
  uniqueName : Bytes
  category : Bytes
  schedulerId : Bytes
  parameters : Bytes
  metaInformation : Bytes
  contexts : List NamedText
  schedulerParameters : List NamedText
  uninterpretedKeys : List NamedText
  interior : Option (LevelOf Block)

abbrev Level := LevelOf Block

def Block.isSubgraph (block : Block) : Bool := block.interior.isSome

/-! ### Names -/

structure BlockNames where
  byUniqueName : Bytes → Option Nat
  byName : Bytes → Option Nat
  sharedNames : Bytes → Bool

def BlockNames.add (names : BlockNames) : (Bytes × Bytes) × Nat → BlockNames
  | ((uniqueName, name), position) =>
    let names :=
      if uniqueName ≠ [] then { names with byUniqueName := update names.byUniqueName uniqueName (some position) } else names
    if name = [] then names
    else if (names.byName name).isSome then { names with sharedNames := update names.sharedNames name true }
    else { names with byName := update names.byName name (some position) }

/-- The constructor, for the unique names and the names of the blocks. -/
def namesOf (names : List (Bytes × Bytes)) : BlockNames :=
  names.zipIdx.foldl BlockNames.add ⟨fun _ => none, fun _ => none, fun _ => false⟩

def blockNames (blocks : List Block) : BlockNames := namesOf (blocks.map fun block => (block.uniqueName, block.name))

def BlockNames.find (names : BlockNames) (key : Bytes) : Except String Nat :=
  match names.byUniqueName key with
  | some position => .ok position
  | none =>
    if names.sharedNames key then
      .error "more than one block carries that name; address the block by its unique_name"
    else
      match names.byName key with
      | some position => .ok position
      | none => .error "no block of its level carries that name"

/-! ### Texts -/

/-- What the reader takes from other parts: `gr::pmt::to_string()`, the two kinds of a value and the name of the string type. -/
structure Texts (F : Type) where
  toString : Value F → Bytes
  kinds : Value F → Bytes
  stringType : String

variable {F : Type} (texts : Texts F)

def missingFieldMessage (key : String) : Bytes := ("Missing field " ++ key ++ " in YAML object").toList

def wrongTypeMessage (key : String) (value : Value F) (wanted : String) : Bytes :=
  ("Field " ++ key ++ " in YAML object has an incorrect type ").toList ++ texts.kinds value ++ (" instead of " ++ wanted).toList

def string? (map : ValueMap F) (key : String) : Option Bytes :=
  match get? map key with
  | some (.string text) => some text
  | _ => none

def requiredString (map : ValueMap F) (key : String) : Except Bytes Bytes :=
  match get? map key with
  | none => .error (missingFieldMessage key)
  | some (.string text) => .ok text
  | some value => .error (wrongTypeMessage texts key value texts.stringType)

def sorted (lines : List Bytes) : List Bytes := lines.mergeSort fun a b => decide (¬ b < a)

/-- The order of entries of one name is open. -/
def sortByName (entries : List NamedText) : List NamedText := entries.mergeSort fun a b => decide (¬ b.name < a.name)

def line (key text : Bytes) : Bytes := key ++ ": ".toList ++ text

mutual

def valueText : Value F → Bytes
  | .map entries => "\x7b".toList ++ ", ".toList.intercalate (sorted (entryLines entries)) ++ "\x7d".toList
  | value => texts.toString value

def entryLines : List (Bytes × Value F) → List Bytes
  | [] => []
  | (key, value) :: entries => line key (valueText value) :: entryLines entries

end

def mapLines (map : ValueMap F) : Bytes := "\n".toList.intercalate (sorted (entryLines texts map))

/-- What is listed of an entry. -/
def listed (pre : Bytes) (entry : Bytes × Value F) : NamedText := ⟨pre ++ entry.1, valueText texts entry.2⟩

def unreadKeysOf (map : ValueMap F) (read : List String) : List (Bytes × Value F) :=
  map.filter fun entry => !(read.map String.toList).contains entry.1

def sortedEntriesOf (map : ValueMap F) : List NamedText := sortByName (map.map (listed texts []))

/-- `key[index]` -/
def indexed (key : String) (index : Nat) : Bytes := (key ++ "[" ++ toString index ++ "]").toList

/-! ### Blocks -/

def unableToCreate (name type : Bytes) (reason : String) : Bytes :=
  "Unable to create block '".toList ++ name ++ "' of type '".toList ++ type ++ ("': " ++ reason).toList

/-- A context, and what else its entry holds. -/
def readContext (name type : Bytes) : Value F × Nat → Except Bytes (NamedText × List NamedText)
  | (.map context, index) =>
    match get? context "context", get? context "time", get? context "parameters" with
    | some (.string label), some (.int .uint64 time), some (.map parameters) =>
      .ok (⟨label ++ (" @ " ++ toString time).toList, mapLines texts parameters⟩,
        (unreadKeysOf context ["context", "time", "parameters"]).map
          (listed texts (indexed "ctx_parameters" index ++ ".".toList)))
    | _, _, _ => .error (unableToCreate name type
        "a ctx_parameters entry needs a context, a context_time and a parameters map")
  | _ => .error (unableToCreate name type "a ctx_parameters entry is not a map")

def readContexts (subgraph : Bool) (name type : Bytes) (entry : ValueMap F) :
    Except Bytes (List (NamedText × List NamedText)) :=
  match subgraph, get? entry "ctx_parameters" with
  | false, some (.list contexts) => contexts.zipIdx.mapM (readContext texts name type)
  | false, some _ => .error (unableToCreate name type "ctx_parameters is not a list")
  | _, _ => .ok []

/-- The type of the scheduler, its parameters and what else its map holds. -/
def readScheduler (subgraph : Bool) (entry : ValueMap F) : Except Bytes (Bytes × List NamedText × List NamedText) :=
  match subgraph, get? entry "scheduler" with
  | true, some (.map scheduler) => do
    let schedulerId ← requiredString texts scheduler "id"
    match map? scheduler "parameters" with
    | some parameters =>
      return (schedulerId, sortedEntriesOf texts parameters,
        (unreadKeysOf scheduler ["id", "parameters"]).map (listed texts "scheduler.".toList))
    | none => return (schedulerId, [], (unreadKeysOf scheduler ["id"]).map (listed texts "scheduler.".toList))
  | true, some _ => .error "scheduler is not a property_map".toList
  | _, _ => .ok ([], [], [])

/-- The name of a block, and whether it is the one at the top level of a subgraph's entry. -/
def readName (subgraph : Bool) (entry : ValueMap F) : Except Bytes (Bytes × Bool) :=
  if subgraph then
    match (map? entry "parameters").bind (string? · "name"), string? entry "name" with
    | some name, _ => .ok (name, false)
    | none, some name => .ok (name, true)
    | none, none => .ok ([], false)
  else
    match get? entry "parameters" with
    | none => .error (missingFieldMessage "parameters")
    | some (.map parameters) => (requiredString texts parameters "name").map (·, false)
    | some value => .error (wrongTypeMessage texts "parameters" value "gr::property_map")

/-- `nested` reads the graph of a subgraph. -/
def readInterior (nested : ValueMap F → Except Bytes Level) (subgraph : Bool) (name type : Bytes) (entry : ValueMap F) :
    Except Bytes (Option Level) :=
  match subgraph, get? entry "graph" with
  | true, none => .error (missingFieldMessage "graph")
  | true, some (.map graph) => (nested graph).map some
  | true, some _ => .error (unableToCreate name type "graph is not a map")
  | false, _ => .ok none

def readBlock (nested : ValueMap F → Except Bytes Level) (entry : ValueMap F) : Except Bytes Block := do
  let type ← requiredString texts entry "id"
  let subgraph : Bool := type = "SUBGRAPH".toList
  let uniqueName := string? entry "unique_name"
  let parameters := map? entry "parameters"
  let (name, nameRead) ← readName texts subgraph entry
  let category := string? entry "block_category"
  let metaInformation := map? entry "meta_information"
  let contexts ← readContexts texts subgraph name type entry
  let (schedulerId, schedulerParameters, schedulerUnread) ← readScheduler texts subgraph entry
  let interior ← readInterior nested subgraph name type entry
  let read := [("id", true), ("unique_name", uniqueName.isSome), ("parameters", parameters.isSome), ("name", nameRead),
    ("block_category", category.isSome), ("meta_information", metaInformation.isSome), ("ctx_parameters", !subgraph),
    ("scheduler", subgraph), ("graph", subgraph)]
  return {
    type
    name
    uniqueName := uniqueName.getD []
    category := category.getD []
    schedulerId
    parameters := (parameters.map (mapLines texts)).getD []
    metaInformation := (metaInformation.map (mapLines texts)).getD []
    contexts := contexts.map (·.1)
    schedulerParameters
    uninterpretedKeys := sortByName ((unreadKeysOf entry ((read.filter (·.2)).map (·.1))).map (listed texts []) ++
      (contexts.flatMap (·.2) ++ schedulerUnread))
    interior }

/-! ### Levels -/

def connectionBlockText : Value F → Except Bytes Bytes
  | .string (c :: name) => .ok (c :: name)
  | _ => .error "Invalid blockField".toList

def connectionPortText : Value F → Except Bytes Bytes
  | .list [.int .int64 index, .int .int64 subIndex] => .ok (toString index ++ "." ++ toString subIndex).toList
  | .list [_, _] => .error "Port definition missing values".toList
  | .list fields => .error ("Port definition has invalid length (" ++ toString fields.length ++ " instead of 2)").toList
  | .string name => .ok name
  | .int .int64 index => .ok (toString index).toList
  | _ => .error "Port definition missing values".toList

/-- A block that a connection or an exported port names. -/
def named (names : BlockNames) (key : String) (index : Nat) (block : Bytes) : Except Bytes Unit :=
  match names.find block with
  | .ok _ => .ok ()
  | .error reason => .error (indexed key index ++ " names block '".toList ++ block ++ ("': " ++ reason).toList)

/-- A connection, and the elements behind its buffer size. -/
def readConnection (names : BlockNames) : Value F × Nat → Except Bytes (Connection × List NamedText)
  | (.list (source :: sourcePort :: destination :: destinationPort :: rest), index) => do
    let sourceBlock ← connectionBlockText source
    let sourcePort ← connectionPortText sourcePort
    let destinationBlock ← connectionBlockText destination
    let destinationPort ← connectionPortText destinationPort
    named names "connections" index sourceBlock
    named names "connections" index destinationBlock
    return (⟨sourceBlock, sourcePort, destinationBlock, destinationPort, (rest.head?.map (valueText texts)).getD []⟩,
      ((rest.zipIdx 4).drop 1).map fun (value, field) =>
        ⟨indexed "connections" index ++ ("[" ++ toString field ++ "]").toList, valueText texts value⟩)
  | (.list fields, _) =>
    .error ("Unable to parse connection (" ++ toString fields.length ++ " instead of >=4 elements)").toList
  | _ => .error "Unable to parse connection (not a list)".toList

def readExportedPort (names : BlockNames) : Value F × Nat → Except Bytes ExportedPort
  | (.list [.string block, .string direction, .string internalName, .string exportedName], index) => do
    named names "exported_ports" index block
    return ⟨block, direction, internalName, exportedName⟩
  | (.list [_, _, _, _], _) => .error "Required fields for exported ports missing".toList
  | (.list fields, _) =>
    .error ("Unable to parse exported port (" ++ toString fields.length ++ " instead of 4 elements)").toList
  | _ => .error "Unable to parse exported port (not a list)".toList

inductive LevelKind
  | root
  | subgraph
  deriving DecidableEq

def list? (map : ValueMap F) (key : String) : Option (List (Value F)) :=
  match get? map key with
  | some (.list items) => some items
  | _ => none

/-- A block of a list of blocks, or the text of an entry that is no map. -/
def readEntry (nested : ValueMap F → Except Bytes Level) : Value F × Nat → Except Bytes (Block ⊕ NamedText)
  | (.map entry, _) => .inl <$> readBlock texts nested entry
  | (value, index) => .ok (.inr ⟨indexed "blocks" index, valueText texts value⟩)

/-- The fuel is the number of levels. -/
def readLevel : Nat → LevelKind → ValueMap F → Except Bytes Level
  | 0, _, _ => .error []
  | fuel + 1, kind, map => do
    let entries ← ((list? map "blocks").getD []).zipIdx.mapM (readEntry texts (readLevel fuel .subgraph))
    let blocks := entries.filterMap Sum.getLeft?
    let names := blockNames blocks
    let connections ← ((list? map "connections").getD []).zipIdx.mapM (readConnection texts names)
    let exportedPorts := if kind = .subgraph then list? map "exported_ports" else none
    let ports ← (exportedPorts.getD []).zipIdx.mapM (readExportedPort names)
    let metadata := map? map "definition_metadata"
    let read := [("blocks", (list? map "blocks").isSome), ("connections", (list? map "connections").isSome),
      ("exported_ports", exportedPorts.isSome), ("definition_metadata", metadata.isSome)]
    return {
      blocks
      connections := connections.map (·.1)
      exportedPorts := ports
      metadata := (metadata.map (sortedEntriesOf texts)).getD []
      uninterpretedKeys := sortByName ((unreadKeysOf map ((read.filter (·.2)).map (·.1))).map (listed texts []) ++
        (entries.filterMap Sum.getRight? ++ connections.flatMap (·.2))) }

end GnuRadio.GraphDoc
