import Mathlib.Data.List.Basic
import GnuRadio.Yaml.Text

/-! The generator of the block-registration units (parse_registrations.py): the markers of a header, their expansion, the
    grouping of the registrations into units, and the files that are written for one header. -/

namespace GnuRadio.Blocklib

abbrev Text := List Char

/-- `str(n)` -/
def decimal (n : Nat) : Text := Nat.toDigits 10 n

/-! ### Texts -/

/-- `str.isspace()` of a character -/
def isspace (c : Char) : Bool :=
  (9 ≤ c.toNat && c.toNat ≤ 13) || (28 ≤ c.toNat && c.toNat ≤ 32) || [0x85, 0xa0, 0x1680].contains c.toNat ||
    (0x2000 ≤ c.toNat && c.toNat ≤ 0x200a) || [0x2028, 0x2029, 0x202f, 0x205f, 0x3000].contains c.toNat

/-- `str.lstrip()` and `str.rstrip()` of some characters, together. -/
def stripOf (left right : Char → Bool) (text : Text) : Text :=
  ((text.dropWhile left).reverse.dropWhile right).reverse

def strip (text : Text) : Text := stripOf isspace isspace text

/-- What follows the first occurrence of a text. -/
def textAfter (pattern : Text) : Text → Option Text
  | [] => if pattern = [] then some [] else none
  | c :: cs => if pattern.isPrefixOf (c :: cs) then some ((c :: cs).drop pattern.length) else textAfter pattern cs

/-- `str.replace()`: `skip` characters belong to an occurrence that is replaced. -/
def replaceFrom (pattern value : Text) : Nat → Text → Text
  | _, [] => []
  | skip + 1, _ :: cs => replaceFrom pattern value skip cs
  | 0, c :: cs =>
    if pattern.isPrefixOf (c :: cs) then value ++ replaceFrom pattern value (pattern.length - 1) cs
    else c :: replaceFrom pattern value 0 cs

def replace (pattern value text : Text) : Text := replaceFrom pattern value 0 text

/-! ### Markers -/

def macroName : Text := "GR_REGISTER_BLOCK".toList

/-- The placeholders a parameter pack may carry, in the order the expansion groups fill them. -/
def placeholders : List Text := ["[T]", "[U]", "[A]", "[B]", "[X]", "[Y]", "[Z]", "[S]"].map String.toList

def splitLoop : Text → Text → Nat → Bool → Except Text (List Text)
  | [], token, depth, inString =>
    if depth ≠ 0 ∨ inString then .error "mismatched bracket".toList else .ok [strip token]
  | c :: cs, token, depth, true => splitLoop cs (token ++ [c]) depth (c != '"')
  | c :: cs, token, depth, false =>
    if c = '"' then splitLoop cs (token ++ [c]) depth true
    else if c = '(' ∨ c = '[' ∨ c = '<' then splitLoop cs (token ++ [c]) (depth + 1) false
    else if c = ')' ∨ c = ']' ∨ c = '>' then
      if depth = 0 then .error "mismatched bracket".toList else splitLoop cs (token ++ [c]) (depth - 1) false
    else if c = ',' ∧ depth = 0 then (splitLoop cs [] 0 false).map (strip token :: ·)
    else splitLoop cs (token ++ [c]) depth false

/-- `split_top_level()`: the commas that are not inside brackets or a string literal. -/
def splitTopLevel (text : Text) : Except Text (List Text) := splitLoop (strip text) [] 0 false

/-- `replace_placeholders()` -/
def replacePlaceholders (paramPack : Text) (values : List Text) : Text :=
  let param := stripOf (fun c => c = '(' || c = ' ') (fun c => c = ')' || c = ' ') paramPack
  (placeholders.zip values).foldl (fun param (placeholder, value) => replace placeholder value param) param

def isWord (c : Char) : Bool := c.isAlphanum || c = '_'

def isSuffix (c : Char) : Bool := ['u', 'U', 'z', 'Z', 'l', 'L'].contains c

/-- The digits and the suffix of an integer literal, when the text begins with one that ends there. -/
def suffixedLiteral (text : Text) : Option (Text × Text) :=
  let digits := text.takeWhile Char.isDigit
  let suffix := (text.dropWhile Char.isDigit).takeWhile isSuffix
  let after := (text.dropWhile Char.isDigit).dropWhile isSuffix
  if digits = [] ∨ suffix = [] ∨ after.head?.any isWord then none else some (digits, suffix)

/-- A match of `INTEGER_LITERAL` at a place: what replaces it, and how many characters it has. `before` is the text before
    the place, backwards. -/
def literalMatch (before text : Text) : Option (Text × Nat) :=
  match before with
  | sign :: digit :: _ => if ['e', 'E', 'p', 'P'].contains sign && (digit.isDigit || digit = '.') then none else inside text
  | [_] => inside text
  | [] =>
    match suffixedLiteral text with
    | some (digits, suffix) => some (digits, digits.length + suffix.length)
    | none => inside text
where
  inside : Text → Option (Text × Nat)
    | [] => none
    | c :: cs =>
      if isWord c || c = '.' then none
      else (suffixedLiteral cs).map fun (digits, suffix) => (c :: digits, digits.length + suffix.length + 1)

def withoutSuffixesFrom (before : Text) : Nat → Text → Text
  | _, [] => []
  | skip + 1, c :: cs => withoutSuffixesFrom (c :: before) skip cs
  | 0, c :: cs =>
    match literalMatch before (c :: cs) with
    | some (replacement, length) => replacement ++ withoutSuffixesFrom (c :: before) (length - 1) cs
    | none => c :: withoutSuffixesFrom (c :: before) 0 cs

/-- `without_literal_suffixes()` -/
def withoutLiteralSuffixes (text : Text) : Text := withoutSuffixesFrom [] 0 text

/-- The name of a template with its arguments. -/
def withArguments (name arguments : Text) : Text :=
  if arguments = [] then name else name ++ '<' :: arguments ++ ['>']

/-- `registered_name()` -/
def registeredName (baseName templateName replaced : Text) : Text :=
  if baseName ≠ [] then withArguments baseName replaced
  else if replaced.contains '"' then []
  else withArguments templateName (withoutLiteralSuffixes replaced)

/-- `cartesian_product()`: one value of each group, the last group varying fastest. -/
def cartesianProduct {α : Type} (groups : List (List α)) : List (List α) :=
  groups.foldl (fun combinations group => combinations.flatMap fun chosen => group.map fun value => chosen ++ [value]) [[]]

/-- What `parse_marker()` reads of a marker. -/
structure Marker where
  baseName : Text
  templateName : Text
  paramPack : Text
  groups : List (List Text)
deriving DecidableEq

/-- The text between a first and a last character. -/
def between (first last : Char) (text : Text) : Option Text :=
  if 2 ≤ text.length ∧ text.head? = some first ∧ text.getLast? = some last then some (text.drop 1).dropLast else none

/-- The values of an expansion group. -/
def parseGroup (chunk : Text) : Except Text (List Text) :=
  (splitTopLevel ((between '[' ']' chunk).elim chunk strip)).map (·.filter (· ≠ []))

/-- `parse_marker()` -/
def parseMarker (body : Text) : Except Text Marker := do
  let parts ← splitTopLevel body
  let name := parts.head?.bind (between '"' '"')
  match if name.isSome then parts.drop 1 else parts with
  | [] => .error "missing the block type argument".toList
  | templateName :: rest =>
    let groups ← (rest.drop 1).mapM parseGroup
    return ⟨name.getD [], templateName, rest.headD [], groups.filter (· ≠ [])⟩

/-! ### Registrations -/

/-- An entry of `pending`. -/
structure Registration where
  blockType : Text
  finalName : Text
  line : Nat
  macroIndex : Nat
deriving DecidableEq, Repr

/-- The registrations of a marker. -/
def Marker.registrations (marker : Marker) (line macroIndex : Nat) : List Registration :=
  (cartesianProduct marker.groups).map fun values =>
    let replaced := replacePlaceholders marker.paramPack values
    ⟨withArguments marker.templateName replaced, registeredName marker.baseName marker.templateName replaced, line, macroIndex⟩

/-- The place of an error in the header. -/
def at_ (header : Text) (line : Nat) (message : Text) : Text := header ++ ':' :: decimal line ++ ": ".toList ++ message

/-- The marker of a line, if it has one. -/
def markerOf (header : Text) (lineNumber : Nat) (raw : Text) : Except Text (Option Marker) :=
  let line := strip (stripOf (fun _ => false) (· = '\r') raw)
  if line = [] ∨ "//".toList.isPrefixOf line then .ok none
  else
    match textAfter macroName line with
    | none => .ok none
    | some afterMacro =>
      match textAfter ['('] afterMacro with
      | none => .error (at_ header lineNumber ("missing '(' after ".toList ++ macroName))
      | some rest =>
        match rest.reverse.dropWhile (· ≠ ')') with
        | _ :: c :: body => ((parseMarker (c :: body).reverse).mapError (at_ header lineNumber)).map some
        | _ => .error (at_ header lineNumber ("missing ')' after ".toList ++ macroName))

def registrationsFrom (header : Text) (lineNumber macroCount : Nat) : List Text → Except Text (List Registration)
  | [] => .ok []
  | raw :: lines => do
    match ← markerOf header lineNumber raw with
    | none => registrationsFrom header (lineNumber + 1) macroCount lines
    | some marker =>
      return marker.registrations lineNumber macroCount ++ (← registrationsFrom header (lineNumber + 1) (macroCount + 1) lines)

/-- `registrations_of()` the lines of the header -/
def registrationsOf (header content : Text) : Except Text (List Registration) :=
  registrationsFrom header 1 0 (content.splitOn '\n')

/-! ### Units -/

/-- A registration unit: its name and the indices of the registrations in it. -/
structure TranslationUnit where
  name : Text
  members : List Nat
deriving DecidableEq, Repr

/-- Units of at most `maxPerTu` registrations, whose sizes differ by at most one. -/
def chunks (stem : Text) (total chunkCount chunk nextIndex : Nat) : Nat → List TranslationUnit
  | 0 => []
  | left + 1 =>
    let size := total / chunkCount + (if chunk < total % chunkCount then 1 else 0)
    ⟨stem ++ '_' :: decimal chunk, List.range' nextIndex size⟩ ::
      chunks stem total chunkCount (chunk + 1) (nextIndex + size) left

/-- One registration in the loop that makes a unit for each of them, or for each macro. -/
def addRegistration (stem : Text) (split : Bool) (units : List TranslationUnit) (index macroIndex localIndex : Nat) :
    List TranslationUnit :=
  if split then units ++ [⟨stem ++ '_' :: decimal macroIndex ++ '_' :: decimal localIndex, [index]⟩]
  else if localIndex = 0 then units ++ [⟨stem ++ '_' :: decimal macroIndex, [index]⟩]
  else units.modify (units.length - 1) fun unit => { unit with members := unit.members ++ [index] }

def groupFrom (stem : Text) (split : Bool) (units : List TranslationUnit) (index localIndex : Nat) (previous : Option Nat) :
    List Registration → List TranslationUnit
  | [] => units
  | entry :: entries =>
    let current := if previous = some entry.macroIndex then localIndex + 1 else 0
    groupFrom stem split (addRegistration stem split units index entry.macroIndex current) (index + 1) current
      (some entry.macroIndex) entries

/-- `registration_units()` -/
def registrationUnits (stem : Text) (pending : List Registration) (split : Bool) (maxPerTu : Nat) : List TranslationUnit :=
  if 0 < maxPerTu ∧ pending ≠ [] then
    let chunkCount := (pending.length + maxPerTu - 1) / maxPerTu
    chunks stem pending.length chunkCount 0 0 chunkCount
  else groupFrom stem split [] 0 0 none pending

/-! ### Files -/

/-- The options of a run. The two that group the registrations exclude each other. -/
structure Options where
  generator : Text
  split : Bool
  maxPerTu : Nat
  registryHeader : Option Text
  registryInstance : Text
  exclusive : split = true → maxPerTu = 0
deriving DecidableEq

namespace Options

variable (options : Options)

def registryInclude : Text :=
  (options.registryHeader.filter (· ≠ [])).getD "gnuradio-4.0/BlockRegistry.hpp".toList

end Options

/-- What a generated file holds. -/
inductive Source
  | definition (options : Options) (header : Text) (line : Nat) (factory registration blockType finalName : Text)
  | unit (options : Options) (header init : Text) (members : List (Text × Registration))
  | declarations (init : Text)
  | rawCalls (init : Text)
  | integrator (module : Text)
  | integratorHeader (module : Text)
deriving DecidableEq

namespace Source

def initModule (module : Text) : Text := "gr_blocklib_init_module_".toList ++ module

def lines (l : List (List Text)) : Text := l.flatMap fun pieces => pieces.flatten ++ ['\n']

def lit (text : String) : Text := text.toList

def text : Source → Text
  | .definition options header line factory registration blockType finalName =>
    lines [[lit "// auto-generated by ", options.generator, lit ", do not edit."],
      [lit "#include <", options.registryInclude, lit ">"],
      [lit "#include \"", header, lit "\" // for details: ", header, lit ":", decimal line],
      [],
      [lit "#ifdef GR_ENABLE_BLOCK_REGISTRY"],
      [],
      [lit "std::unique_ptr<gr::BlockModel> ", factory, lit "(gr::property_map params) \x7b return std::make_unique<gr::BlockWrapper<",
        blockType, lit ">>(std::move(params)); \x7d"],
      [],
      [lit "const gr::BlockRegistration& ", registration, lit "() \x7b"],
      [lit "    static const gr::BlockRegistration registration = gr::makeBlockRegistration<", blockType, lit ", \"", finalName,
        lit "\">(&", factory, lit ");"],
      [lit "    return registration;"],
      [lit "\x7d"],
      [],
      [lit "#endif // GR_ENABLE_BLOCK_REGISTRY"],
      [lit "// end of auto-generated code"]]
  | .unit options header init members =>
    lines ([[lit "// auto-generated by ", options.generator, lit ", do not edit."]] ++
      (if options.registryHeader.isSome then [[lit "#include <", options.registryInclude, lit ">"]] else []) ++
      [[lit "#include <gnuradio-4.0/BlockRegistration.hpp>"], [], [lit "#include <cstddef>"], [],
        [lit "#ifdef GR_ENABLE_BLOCK_REGISTRY"]] ++
      (members.map fun (registration, entry) =>
        [lit "extern const gr::BlockRegistration& ", registration, lit "(); // ", entry.blockType, lit " -- for details: ", header,
          lit ":", decimal entry.line]) ++
      [[lit "#endif // GR_ENABLE_BLOCK_REGISTRY"], [], [lit "extern \"C\" \x7b"],
        [lit "GNURADIO_EXPORT std::size_t ", init, lit "([[maybe_unused]] gr::BlockRegistry& registry) \x7b"],
        [lit "    std::size_t result = 0UZ;"], [lit "#ifdef GR_ENABLE_BLOCK_REGISTRY"]] ++
      (members.map fun (registration, _) =>
        [lit "    result += ( gr::insertBlockFactory(registry, ", registration, lit "()) ? 1UZ : 0UZ );"]) ++
      [[lit "#endif // GR_ENABLE_BLOCK_REGISTRY"], [lit "    return result;"], [lit "\x7d"], [lit "\x7d"], [],
        [lit "#ifdef GR_ENABLE_BLOCK_REGISTRY"],
        [lit "auto ", init, lit "_invoked = ", init, lit "(", options.registryInstance, lit "());"],
        [lit "#endif // GR_ENABLE_BLOCK_REGISTRY"], [], [lit "// To initialize, call ", init], [lit "// end of auto-generated code"]])
  | .declarations init =>
    lines [[lit "#ifndef HEADER_GUARD_", init, lit "_HPP"], [lit "#define HEADER_GUARD_", init, lit "_HPP"],
      [lit "extern \"C\" \x7b std::size_t ", init, lit "(gr::BlockRegistry&); \x7d"], [lit "#endif // HEADER_GUARD_", init, lit "_HPP"]]
  | .rawCalls init => lines [[lit "result += ", init, lit "(registry);"]]
  | .integrator module =>
    lines [[], [lit "            #include <gnuradio-4.0/BlockRegistry.hpp>"], [],
      [lit "            #include \"declarations.hpp\""], [],
      [lit "            extern \"C\" \x7b"],
      [lit "                GNURADIO_EXPORT"],
      [lit "                std::size_t ", initModule module, lit "(gr::BlockRegistry& registry) \x7b"],
      [lit "                    std::size_t result = 0UZ;"],
      [lit "                    #include \"raw_calls.hpp\""],
      [lit "                    return result;"],
      [lit "                \x7d"],
      [lit "            \x7d"]]
  | .integratorHeader module =>
    lines [[], [lit "            #ifndef GR_BLOCKLIB_INIT_MODULE_", module], [lit "            #define GR_BLOCKLIB_INIT_MODULE_", module],
      [lit "            #include <cstddef>"], [], [lit "            #include <gnuradio-4.0/Export.hpp>"], [],
      [lit "            namespace gr \x7b class BlockRegistry; \x7d"], [],
      [lit "            extern \"C\" \x7b"],
      [lit "                GNURADIO_EXPORT"],
      [lit "                std::size_t ", initModule module, lit "(gr::BlockRegistry& registry);"],
      [lit "            \x7d"], [],
      [lit "            namespace gr::blocklib \x7b"],
      [lit "                inline"],
      [lit "                std::size_t init", module, lit "(gr::BlockRegistry& registry) \x7b"],
      [lit "                    return ", initModule module, lit "(registry);"],
      [lit "                \x7d"],
      [lit "            \x7d"],
      [lit "            #endif"]]

/-- The symbols that a file defines. -/
def defines : Source → List Text
  | .definition _ _ _ factory registration _ _ => [factory, registration]
  | .unit _ _ init _ => [init]
  | .integrator module => [initModule module]
  | .declarations _ | .rawCalls _ | .integratorHeader _ => []

/-- The symbols that a file declares or calls. -/
def declares : Source → List Text
  | .unit _ _ _ members => members.map (·.1)
  | .declarations init | .rawCalls init => [init]
  | .integratorHeader module => [initModule module]
  | .definition .. | .integrator _ => []

end Source

/-- A header, as the generator is given it: its path and what the file holds. -/
structure Header where
  path : Text
  content : Text
deriving DecidableEq

/-- The file name up to its first point: `os.path.basename(header).split(".", 1)[0]` -/
def Header.stem (header : Header) : Text := (header.path.reverse.takeWhile (· ≠ '/')).reverse.takeWhile (· ≠ '.')

section
variable (module : Text) (options : Options) (header : Header)

def factorySymbol (index : Nat) : Text :=
  "gr_blocklib_factory_".toList ++ module ++ '_' :: header.stem ++ '_' :: decimal index

def registrationSymbol (index : Nat) : Text :=
  "gr_blocklib_registration_".toList ++ module ++ '_' :: header.stem ++ '_' :: decimal index

def initSymbol (unit : TranslationUnit) : Text := "gr_blocklib_init_unit_".toList ++ module ++ '_' :: unit.name

/-- The files of the definition units, which name the block types. -/
def definitionFiles (pending : List Registration) : List (Text × Source) :=
  pending.mapIdx fun index entry =>
    (header.stem ++ "_block_".toList ++ decimal index ++ ".cpp".toList,
      .definition options header.path entry.line (factorySymbol module header index) (registrationSymbol module header index)
        entry.blockType entry.finalName)

/-- The files of a registration unit. -/
def unitFiles (pending : List Registration) (unit : TranslationUnit) : List (Text × Source) :=
  let init := initSymbol module unit
  [(unit.name ++ ".cpp".toList, .unit options header.path init (unit.members.filterMap fun member =>
      pending[member]?.map fun entry => (registrationSymbol module header member, entry))),
    (unit.name ++ "_declarations.hpp.in".toList, .declarations init),
    (unit.name ++ "_raw_calls.hpp.in".toList, .rawCalls init)]

/-- The two files that belong to the module. Each run writes them again only when they are not as they are to be. -/
def moduleFiles : List (Text × Source) :=
  [("integrator.cpp".toList, .integrator module), (module ++ ".hpp".toList, .integratorHeader module)]

/-- The files of a header with the registrations. -/
def filesOf (pending : List Registration) : List (Text × Source) :=
  definitionFiles module options header pending ++
    (registrationUnits header.stem pending options.split options.maxPerTu).flatMap (unitFiles module options header pending)

/-- `main()`: the files that a run for a header writes, apart from those of the module, in order. -/
def generate : Except Text (List (Text × Source)) :=
  (registrationsOf header.path header.content).map (filesOf module options header)

end

/-! ### What the units are for -/

/-- A block library: its module, the options of its runs and its headers. -/
structure BlockLibrary where
  module : Text
  options : Options
  headers : List Header

/-- The block libraries of a build. Each has a generation directory of its own, which is named after its module. -/
structure Build where
  libraries : List BlockLibrary
  modules : (libraries.map (·.module)).Nodup

/-- A run of the generator, for one header of a library. -/
abbrev Run := BlockLibrary × Header

def Build.runs (b : Build) : List Run := b.libraries.flatMap fun library => library.headers.map (library, ·)

namespace Run

variable (r : Run)

/-- The registrations of the header, none if a marker cannot be read. -/
def pending : List Registration := (registrationsOf r.2.path r.2.content).toOption.getD []

def units : List TranslationUnit := registrationUnits r.2.stem r.pending r.1.options.split r.1.options.maxPerTu

/-- The files that the run writes, apart from those of the module. -/
def written : List (Text × Source) := (generate r.1.module r.1.options r.2).toOption.getD []

end Run

def Source.factories : Source → List Text
  | .definition _ _ _ factory _ _ _ => [factory]
  | _ => []

/-- Every registration lands in one generated unit. -/
structure Build.LandsOnce (b : Build) : Prop where
  once : ∀ r ∈ b.runs, r.units.flatMap (·.members) = List.range r.pending.length
  files : (b.runs.flatMap fun r => r.written.map fun file => (r.1.module, file.1)).Nodup
  symbols : (b.runs.flatMap fun r => r.written.flatMap (·.2.factories)).Nodup
  declared : ∀ r ∈ b.runs, ∀ file ∈ r.written, ∀ symbol ∈ file.2.declares, ∃ file' ∈ r.written, symbol ∈ file'.2.defines
  sizes : ∀ r ∈ b.runs, 0 < r.1.options.maxPerTu → ∀ u ∈ r.units, u.members.length ≤ r.1.options.maxPerTu ∧
    ∀ v ∈ r.units, u.members.length ≤ v.members.length + 1

/-- Two headers with registrations differ in their modules and stems as they stand in the symbols, and in a library whose
    units are not split neither stem is the other one with `_block`. -/
def Run.Apart (r r' : Run) : Prop :=
  r.pending ≠ [] → r'.pending ≠ [] →
    r.1.module ++ '_' :: r.2.stem ≠ r'.1.module ++ '_' :: r'.2.stem ∧
    (r.1.module = r'.1.module → r.1.options.split = false →
      r.2.stem ≠ r'.2.stem ++ "_block".toList ∧ r'.2.stem ≠ r.2.stem ++ "_block".toList)

end GnuRadio.Blocklib
