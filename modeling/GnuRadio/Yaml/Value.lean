import GnuRadio.Yaml.Text
import Mathlib.Algebra.Ring.Int.Defs

/-! The values of a document and how the text of a scalar is read (`parseAs`, `applyTag` and `parsePlainScalar` in
    YamlPmt.hpp). What the standard library makes of a floating-point number is a parameter. -/

namespace GnuRadio.Yaml

inductive IntType where
  | int8 | int16 | int32 | int64 | uint8 | uint16 | uint32 | uint64
  deriving DecidableEq, Repr

namespace IntType

def signed : IntType → Bool
  | .int8 | .int16 | .int32 | .int64 => true
  | .uint8 | .uint16 | .uint32 | .uint64 => false

def bits : IntType → Nat
  | .int8 | .uint8 => 8
  | .int16 | .uint16 => 16
  | .int32 | .uint32 => 32
  | .int64 | .uint64 => 64

def min (type : IntType) : Int := if type.signed then -2 ^ (type.bits - 1) else 0

def max (type : IntType) : Int := if type.signed then 2 ^ (type.bits - 1) - 1 else 2 ^ type.bits - 1

end IntType

inductive FloatType where
  | float32 | float64
  deriving DecidableEq, Repr

/-- The tags of `isKnownTag()`. -/
inductive TypeTag where
  | null | bool | int (type : IntType) | float (type : FloatType) | complex (type : FloatType) | str
  deriving DecidableEq, Repr

def knownTags : List (String × TypeTag) :=
  [("!!null", .null), ("!!bool", .bool), ("!!uint8", .int .uint8), ("!!uint16", .int .uint16), ("!!uint32", .int .uint32),
    ("!!uint64", .int .uint64), ("!!int8", .int .int8), ("!!int16", .int .int16), ("!!int32", .int .int32),
    ("!!int64", .int .int64), ("!!float32", .float .float32), ("!!float64", .float .float64),
    ("!!complex32", .complex .float32), ("!!complex64", .complex .float64), ("!!str", .str)]

/-- `pmt::Value`, with floating-point numbers of the type `F`. -/
inductive Value (F : Type) where
  | null
  | bool (b : Bool)
  | int (type : IntType) (n : Int)
  | float (type : FloatType) (x : F)
  | complex (type : FloatType) (re im : F)
  | string (s : Bytes)
  | map (entries : List (Bytes × Value F))
  /-- `Tensor<pmt::Value>` -/
  | list (items : List (Value F))
  /-- `Tensor<T>` of the type of a tag -/
  | tensor (type : TypeTag) (items : List (Value F))

namespace Value

variable {F : Type}

/-- `holds<T>()` for the type of a tag. -/
def holds (tag : TypeTag) : Value F → Bool
  | .null => tag = .null
  | .bool _ => tag = .bool
  | .int type _ => tag = .int type
  | .float type _ => tag = .float type
  | .complex type _ _ => tag = .complex type
  | .string _ => tag = .str
  | .map _ | .list _ | .tensor _ _ => false

/-- `value_or(std::string{})`. -/
def stringOr : Value F → Bytes
  | .string s => s
  | _ => []

end Value

abbrev ValueMap (F : Type) := List (Bytes × Value F)

/-- `insert_or_assign()`. -/
def ValueMap.insertOrAssign {F : Type} (key : Bytes) (value : Value F) : ValueMap F → ValueMap F
  | [] => [(key, value)]
  | (key', value') :: rest =>
    if key' = key then (key, value) :: rest else (key', value') :: insertOrAssign key value rest

/-! ### Numbers -/

/-- What `std::stof()` and `std::stod()` make of a text: the number and how many characters it takes, or the exception and
    what it says. -/
structure FloatFormat (F : Type) where
  infinity : F
  negInfinity : F
  nan : F
  sto : FloatType → Bytes → Except (String × String) (F × Nat)

/-! The spellings of the words of a scalar. -/

def nullWords : List Bytes := [['n', 'u', 'l', 'l'], ['N', 'u', 'l', 'l'], ['N', 'U', 'L', 'L'], ['~']]

def trueWords : List Bytes := [['t', 'r', 'u', 'e'], ['T', 'r', 'u', 'e'], ['T', 'R', 'U', 'E']]

def falseWords : List Bytes := [['f', 'a', 'l', 's', 'e'], ['F', 'a', 'l', 's', 'e'], ['F', 'A', 'L', 'S', 'E']]

def infWords : List Bytes := [['.', 'i', 'n', 'f'], ['.', 'I', 'n', 'f'], ['.', 'I', 'N', 'F']]

def nanWords : List Bytes := [['.', 'n', 'a', 'n'], ['.', 'N', 'a', 'N'], ['.', 'N', 'A', 'N']]

/-- `std::from_chars()` of a whole text: the value, or the text of its error code. -/
def fromChars (type : IntType) (base : Nat) (s : Bytes) : Except String Int :=
  let negative := type.signed && s.head?.any (· = '-')
  let digits := if negative then s.drop 1 else s
  let isDigit := fun c => (hexValue c).any (· < base)
  let number := digits.takeWhile isDigit
  let magnitude := number.foldl (fun n c => base * n + (hexValue c).getD 0) 0
  let value : Int := if negative then -magnitude else magnitude
  if number = [] then .error "Invalid argument"
  else if value < type.min ∨ type.max < value then .error "Numerical result out of range"
  else if number.length < digits.length then .error "Success"
  else .ok value

def parseInt (type : IntType) (sv : Bytes) : Except ValueParseError Int :=
  let sv := trim sv
  let parseWithBase := fun (s : Bytes) (base : Nat) =>
    (fromChars type base s).mapError fun error =>
      ValueParseError.mk 0 ("Invalid integral-type value '" ++ String.ofList s ++ "' (error: " ++ error ++ ")")
  if ['0', 'x'].isPrefixOf sv then parseWithBase (sv.drop 2) 16
  else if ['0', 'o'].isPrefixOf sv then parseWithBase (sv.drop 2) 8
  else if ['0', 'b'].isPrefixOf sv then parseWithBase (sv.drop 2) 2
  else parseWithBase sv 10

def parseBool (sv : Bytes) : Except ValueParseError Bool :=
  let sv := trimAndStripComment sv
  if sv ∈ trueWords then .ok true
  else if sv ∈ falseWords then .ok false
  else .error ⟨0, "Invalid value for bool-type"⟩

section
variable {F : Type} (floats : FloatFormat F)

def parseFloat (type : FloatType) (sv : Bytes) : Except ValueParseError F :=
  let sv := trimAndStripComment sv
  if sv ∈ infWords then .ok floats.infinity
  else if sv ∈ infWords.map ('-' :: ·) then .ok floats.negInfinity
  else if sv ∈ nanWords then .ok floats.nan
  else
    match floats.sto type sv with
    | .ok (value, convertedLength) =>
      if convertedLength = sv.length then .ok value
      else .error ⟨0, "Invalid floating-point-type value '" ++ String.ofList sv ++ "' (error: trailing characters)"⟩
    | .error (exception, what) =>
      .error ⟨0, exception ++ " exception for expected floating-point value of '" ++ String.ofList sv ++ "' - error: " ++ what⟩

def parseComplex (type : FloatType) (sv : Bytes) : Except ValueParseError (F × F) :=
  let sv := trimAndStripComment sv
  let invalid := ValueParseError.mk 0 "Invalid value for complex<>-type"
  if !sv.head?.any (· = '(') || !sv.getLast?.any (· = ')') then .error invalid
  else
    match split ',' (sv.drop 1).dropLast with
    | [re, im] => do
      let re ← parseFloat floats type (trim re)
      let im ← parseFloat floats type (trim im)
      .ok (re, im)
    | _ => .error invalid

/-- `ParseAsValue` for the type of a tag. -/
def applyTag (tag : TypeTag) (sv : Bytes) : Except ValueParseError (Value F) :=
  match tag with
  | .null => .ok .null
  | .bool => (parseBool sv).map .bool
  | .int type => (parseInt type sv).map (.int type)
  | .float type => (parseFloat floats type sv).map (.float type)
  | .complex type => (parseComplex floats type sv).map fun (re, im) => .complex type re im
  | .str => (resolveYamlEscapes_quoted sv).map .string

/-- What a scalar without a tag and without quotes is. -/
def resolveScalar (sv : Bytes) : Except ValueParseError (Value F) :=
  let sv := trimAndStripComment sv
  if sv = [] ∨ sv ∈ nullWords then .ok .null
  else if sv ∈ trueWords then .ok (.bool true)
  else if sv ∈ falseWords then .ok (.bool false)
  else
    match parseInt .int64 sv with
    | .ok n => .ok (.int .int64 n)
    | .error _ =>
      match parseFloat floats .float64 sv with
      | .ok x => .ok (.float .float64 x)
      | .error _ => (resolveYamlEscapes_quoted sv).map .string

/-- `parseNextString()`. The cursor moves behind the text only when `fnc` reads it. -/
def parseNextString (ctx : ParseContext) (extraDelimiters : Bytes)
    (fnc : Nat → Bytes → Except ValueParseError (Value F)) : Except ParseError (Value F × ParseContext) :=
  match findString ctx.remainingLine extraDelimiters with
  | none => .error (ctx.makeError "Unterminated quote")
  | some (offset, length) =>
    let ctx := ctx.consume offset
    match fnc offset (ctx.remainingLine.take length) with
    | .error error => .error (ctx.makeErrorAt error)
    | .ok value => .ok (value, ctx.consume (offset + length))

def parsePlainScalar (ctx : ParseContext) (typeTag : Option TypeTag) (extraDelimiters : Bytes) :
    Except ParseError (Value F × ParseContext) :=
  match typeTag with
  | some tag =>
    parseNextString ctx extraDelimiters fun quoteOffset sv =>
      applyTag floats tag (if tag = .str ∧ quoteOffset = 0 then trimAndStripComment sv else sv)
  | none =>
    parseNextString ctx extraDelimiters fun quoteOffset sv =>
      if 0 < quoteOffset then (resolveYamlEscapes_quoted sv).map .string else resolveScalar floats sv

end

end GnuRadio.Yaml

/-! The writer of a document (`serializeString` to `serialize` in YamlPmt.hpp). What the standard library writes for a
    floating-point number is a parameter. -/

namespace GnuRadio.Yaml

inductive TypeTagMode where
  | none | auto
  deriving DecidableEq, Repr

structure FloatText (F : Type) where
  isNan : F → Bool
  isInf : F → Bool
  isNegative : F → Bool
  format : FloatType → F → Bytes

/-- `indent()`. -/
def indentation (level : Nat) : Bytes := List.replicate (2 * level) ' '

/-- The lines that `std::getline()` finds in a text. -/
def getlines (value : Bytes) : List Bytes := split '\n' value

/-- `serializeString()` -/
def serializeString (tagMode : TypeTagMode) (value : Bytes) (level : Nat) (useMultiline : Bool) : Bytes :=
  if useMultiline then
    (if value.getLast? = some '\n' then ['|'] else ['|', '-']) ++ '\n' ::
      (getlines value).flatMap fun line => indentation (level + 1) ++ escapeString line false ++ ['\n']
  else
    let quoted := '"' :: escapeString value true ++ ['"', '\n']
    match tagMode with
    | .auto => quoted
    | .none =>
      if value.head?.any isspace || value.getLast?.any isspace then quoted else escapeString value true ++ ['\n']

/-- A string is written over several lines when it has a newline and else bytes that are printed. -/
def isMultiline (value : Bytes) : Bool := value.contains '\n' && value.all fun c => isprint c || c = '\n'

/-- `tag_for_type()`. A value holds its strings as views, and these have no tag. -/
def tagForType : TypeTag → Bytes
  | .str => []
  | tag => ((knownTags.find? (·.2 = tag)).map (·.1.toList)).getD []

section
variable {F : Type} (texts : FloatText F) (keyPriority : List Bytes)

def serializeFloatingPoint (type : FloatType) (value : F) : Bytes :=
  if texts.isNan value then ".nan".toList
  else if texts.isInf value then (if texts.isNegative value then "-.inf" else ".inf").toList
  else texts.format type value

/-- The tag of a value, and the space behind it. -/
def tagText (tagMode : TypeTagMode) (tag : TypeTag) : Bytes :=
  match tagMode with
  | .auto => tagForType tag ++ [' ']
  | .none => []

def rank (key : Bytes) : Nat := keyPriority.idxOf key

/-- The order in which keys are written. -/
def writtenBefore (lhs rhs : Bytes) : Bool :=
  if rank keyPriority lhs = rank keyPriority rhs then decide (¬ rhs < lhs)
  else rank keyPriority lhs ≤ rank keyPriority rhs

def sortEntries (entries : List (Bytes × Bytes)) : List (Bytes × Bytes) :=
  entries.mergeSort fun lhs rhs => writtenBefore keyPriority lhs.1 rhs.1

mutual

/-- `detail::serialize()` of a value whose entries or items have the level. -/
def serializeValue (tagMode : TypeTagMode) (level : Nat) : Value F → Bytes
  | .null => tagText tagMode .null ++ "null\n".toList
  | .bool b => tagText tagMode .bool ++ (if b then "true\n" else "false\n").toList
  | .int type n => tagText tagMode (.int type) ++ (toString n).toList ++ ['\n']
  | .float type x => tagText tagMode (.float type) ++ serializeFloatingPoint texts type x ++ ['\n']
  | .complex type re im =>
    tagText tagMode (.complex type) ++ '(' :: serializeFloatingPoint texts type re ++ ',' :: serializeFloatingPoint texts type im ++
      [')', '\n']
  | .string s => tagText tagMode .str ++ serializeString tagMode s (level - 1) (isMultiline s)
  | .map entries =>
    if entries.isEmpty then [' ', '{', '}', '\n']
    else '\n' :: (sortEntries keyPriority (serializeEntries tagMode level entries)).flatMap (·.2)
  | .list items => if items.isEmpty then " []\n".toList else '\n' :: serializeItems tagMode level items
  | .tensor type items =>
    (if tagMode = .auto then tagForType type else []) ++
      if items.isEmpty then " []\n".toList else '\n' :: serializeItems .none level items

/-- The entries of a map: their keys and what is written for them. -/
def serializeEntries (tagMode : TypeTagMode) (level : Nat) : List (Bytes × Value F) → List (Bytes × Bytes)
  | [] => []
  | (key, value) :: rest =>
    (key, indentation level ++ serializeKey key ++ serializeValue tagMode (level + 1) value) ::
      serializeEntries tagMode level rest

def serializeItems (tagMode : TypeTagMode) (level : Nat) : List (Value F) → Bytes
  | [] => []
  | item :: rest =>
    indentation level ++ ['-', ' '] ++ serializeValue tagMode (level + 1) item ++ serializeItems tagMode level rest

end

/-- `serialize()` of a document. -/
def serialize (tagMode : TypeTagMode) (map : ValueMap F) : Bytes :=
  if map.isEmpty then [] else serializeValue texts keyPriority tagMode 0 (.map map)

end

end GnuRadio.Yaml
