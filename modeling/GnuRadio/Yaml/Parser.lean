import GnuRadio.Yaml.Value

/-! The parser of scalars and of flow sequences (`parseTag` to `parseFlow` in YamlPmt.hpp). Functions that call one another
    have fuel. -/

namespace GnuRadio.Yaml

def parseTag (ctx : ParseContext) : Except ParseError (Option TypeTag × ParseContext) :=
  if ctx.startsWith ['!', '!'] then
    let line := ctx.remainingLine
    let tagEnd := find ' ' line
    match knownTags.find? fun known => known.1.toList = line.take (tagEnd.getD line.length) with
    | none => .error (ctx.makeError "Unsupported type")
    | some (_, tag) => .ok (some tag, ctx.consume (tagEnd.elim line.length (· + 1)))
  else .ok (none, ctx)

/-! ### Scalars -/

/-- The loop over the lines of a block scalar. -/
def literalLines (indicator : Char) (expectedIndent : Nat) : Nat → Bool → ParseContext →
    Except ParseError (Bytes × ParseContext)
  | 0, _, ctx => .ok ([], ctx)
  | n + 1, firstLine, ctx =>
    if ctx.atEndOfDocument then .ok ([], ctx)
    else
      match ctx.currentIndent [' '] with
      | none => (literalLines indicator expectedIndent n firstLine ctx.skipToNextLine).map fun (text, ctx) => ('\n' :: text, ctx)
      | some lineIndent =>
        if lineIndent < expectedIndent then .ok ([], ctx)
        else
          let ctx := ctx.consume expectedIndent
          match resolveYamlEscapes_multiline ctx.remainingLine with
          | .error error => .error (ctx.makeErrorAt error)
          | .ok resolved =>
            let folded := if indicator = '>' ∧ !firstLine then [' '] else []
            let newline := if indicator = '|' then ['\n'] else []
            (literalLines indicator expectedIndent n false (ctx.consume ctx.remainingLine.length).skipToNextLine).map
              fun (text, ctx) => (folded ++ resolved ++ newline ++ text, ctx)

/-- How a block scalar ends: with the newlines it has, with none, or with one behind what was folded. -/
def chompText (indicator : Char) (trailingNewline : Bool) (text : Bytes) : Bytes :=
  if indicator = '|' then
    if trailingNewline then text else (text.reverse.dropWhile (· = '\n')).reverse
  else if trailingNewline then text ++ ['\n'] else (text.reverse.dropWhile isspace).reverse

/-- The branch of `parseScalar()` behind the indicator of a block scalar. -/
def parseBlockScalar {F : Type} (indicator : Char) (ctx : ParseContext) (currentIndentLevel : Nat) :
    Except ParseError (Value F × ParseContext) :=
  let trailingNewline := !ctx.startsWith ['-']
  let ctx := (if trailingNewline then ctx else ctx.consume 1).consumeSpaces
  if (findString ctx.remainingLine []).all (0 < ·.2) then
    .error (ctx.makeError "Unexpected characters after multi-line indicator")
  else
    let start := ctx.skipToNextLine
    (literalLines indicator (currentIndentLevel + 2) (start.lines.length - start.lineIdx) true start).map
      fun (text, ctx) => (.string (chompText indicator trailingNewline text), ctx.consumeSpaces)

/-- The line is indented at most so far. -/
def indentAtMost (indent : Option Nat) (level : Int) : Bool := indent.any fun (n : Nat) => (n : Int) ≤ level

section
variable {F : Type} (floats : FloatFormat F)

def parseScalar (ctx : ParseContext) (typeTag : Option TypeTag) (currentIndentLevel : Nat) :
    Except ParseError (Value F × ParseContext) :=
  let initialLine := ctx.lineIdx
  let ctx := ctx.consumeWhitespaceAndComments
  if ctx.atEndOfDocument then .ok (.null, ctx)
  else if initialLine < ctx.lineIdx ∧ indentAtMost (ctx.currentIndent [' ']) currentIndentLevel then .ok (.null, ctx)
  else if (typeTag = some .str ∨ typeTag = none) ∧ ctx.startsWith ['|'] then
    parseBlockScalar '|' (ctx.consume 1) currentIndentLevel
  else if (typeTag = some .str ∨ typeTag = none) ∧ ctx.startsWith ['>'] then
    parseBlockScalar '>' (ctx.consume 1) currentIndentLevel
  else do
    let (value, ctx) ← parsePlainScalar floats ctx typeTag []
    let ctx := ctx.consumeSpaces
    if !ctx.atEndOfLine ∧ (findString ctx.remainingLine []).all (fun (offset, length) => 0 < offset ∨ 0 < length) then
      .error (ctx.makeError "Unexpected characters after scalar value")
    else .ok (value, ctx.skipToNextLine)

end

/-! ### Peeking -/

inductive ValueType where
  | list | map | scalar
  deriving DecidableEq, Repr

def peekToFindValueType (ctx : ParseContext) (previousIndent : Nat) : ValueType :=
  let initialLine := ctx.lineIdx
  let ctx := ctx.consumeWhitespaceAndComments
  if ctx.atEndOfDocument then .scalar
  else if initialLine < ctx.lineIdx ∧ indentAtMost (ctx.currentIndent [' ']) previousIndent then .scalar
  else if ctx.startsWith ['['] ∨ ctx.startsWith ['-', ' '] ∨ ctx.remainingLine = ['-'] then .list
  else if ctx.startsWith ['{'] then .map
  else if (parseKey ctx []).isOk then .map else .scalar

/-! ### Flow style -/

inductive Failure where
  | fuel
  | parse (error : ParseError)
  deriving DecidableEq, Repr

inductive FlowType where
  | list | map
  deriving DecidableEq, Repr

def FlowType.closingChar : FlowType → Char
  | .list => ']'
  | .map => '}'

def FlowType.expected : FlowType → String
  | .list => "Expected ',' or ']'"
  | .map => "Expected ',' or '\x7d'"

/-- `ConvertList` for the type of a tag. -/
def convertList {F : Type} (tag : TypeTag) (items : List (Value F)) : Value F :=
  match tag with
  | .null => .null
  | .str => .list (items.map fun item => .string item.stringOr)
  | tag => .tensor tag (items.filter (Value.holds tag))

def listOf {F : Type} (typeTag : Option TypeTag) (items : List (Value F)) : Value F :=
  match typeTag with
  | none => .list items
  | some tag => convertList tag items

section
variable {F : Type} (floats : FloatFormat F)

/-- The elements of a flow sequence so far: the keys of a list are empty. -/
def flowResult (type : FlowType) (typeTag : Option TypeTag) (entries : ValueMap F) : Value F :=
  match type with
  | .list => listOf typeTag (entries.map (·.2))
  | .map => .map entries

def addElement (type : FlowType) (key : Bytes) (value : Value F) (entries : ValueMap F) : ValueMap F :=
  match type with
  | .list => entries ++ [(key, value)]
  | .map => entries.insertOrAssign key value

/-- The key of a flow map's element. -/
def parseFlowKey (type : FlowType) (ctx : ParseContext) : Except ParseError (Bytes × ParseContext) :=
  match type with
  | .list => .ok ([], ctx)
  | .map => (parseKey ctx [',']).map fun (key, ctx) => (key, ctx.consumeWhitespaceAndComments)

/-- The tag in front of an element, joined with the tag of the sequence. -/
def parseElementTag (typeTag : Option TypeTag) (ctx : ParseContext) : Except ParseError (Option TypeTag × ParseContext) := do
  let (nestedTag, ctx) ← parseTag ctx
  if typeTag.isSome ∧ nestedTag.isSome then .error (ctx.makeError "Cannot have type tag for both list and list item")
  else .ok (nestedTag.or typeTag, ctx.consumeWhitespaceAndComments)

mutual

/-- The loop of `parseFlow()`, from a line `startLineIdx` on and with the elements so far. -/
def parseFlow : Nat → FlowType → Nat → Option TypeTag → Int → ValueMap F → ParseContext → Except Failure (Value F × ParseContext)
  | 0, _, _, _, _, _, _ => .error .fuel
  | fuel + 1, type, startLineIdx, typeTag, parentIndentLevel, entries, ctx =>
    if ctx.atEndOfDocument then .ok (flowResult type typeTag entries, ctx)
    else
      let ctx := ctx.consumeWhitespaceAndComments
      if ctx.atEndOfDocument then .error (.parse (ctx.makeError "Unexpected end of document"))
      else if ctx.startsWith [type.closingChar] then .ok (flowResult type typeTag entries, ctx.consume 1)
      else if startLineIdx < ctx.lineIdx ∧ indentAtMost (ctx.currentIndent [' ']) parentIndentLevel then
        .error (.parse (ctx.makeError "Flow sequence insufficiently indented"))
      else do
        let (key, ctx) ← (parseFlowKey type ctx).mapError .parse
        let (localTag, ctx) ← (parseElementTag typeTag ctx).mapError .parse
        let (value, ctx) ← parseElement fuel type localTag parentIndentLevel ctx
        let ctx := ctx.consumeWhitespaceAndComments
        if ctx.startsWith [','] then
          parseFlow fuel type startLineIdx typeTag parentIndentLevel (addElement type key value entries) (ctx.consume 1)
        else if ctx.startsWith [type.closingChar] then
          .ok (flowResult type typeTag (addElement type key value entries), ctx.consume 1)
        else .error (.parse (ctx.makeError type.expected))

/-- `parseElementValue` behind the tag. -/
def parseElement : Nat → FlowType → Option TypeTag → Int → ParseContext → Except Failure (Value F × ParseContext)
  | 0, _, _, _, _ => .error .fuel
  | fuel + 1, type, localTag, parentIndentLevel, ctx =>
    if ctx.startsWith ['['] then parseFlow fuel .list ctx.lineIdx localTag parentIndentLevel [] (ctx.consume 1)
    else if ctx.startsWith ['{'] then parseFlow fuel .map ctx.lineIdx localTag parentIndentLevel [] (ctx.consume 1)
    else (parsePlainScalar floats ctx localTag [',', type.closingChar]).mapError .parse

end

end

end GnuRadio.Yaml

/-! The parser of block maps and lists (`parseMap` to `deserialize` in YamlPmt.hpp). What its functions return carries, beside
    the value and the cursor, where the values of keys and list items were read: this is no data of the source. -/

namespace GnuRadio.Yaml

/-- The value of a key or of a list item: the indentation of the line, and the cursor in front of the value and behind it. -/
structure ValueSpan where
  lineIndent : Nat
  before : ParseContext
  after : ParseContext
  deriving DecidableEq, Repr

structure Parsed (α : Type) where
  value : α
  ctx : ParseContext
  spans : List ValueSpan

section
variable {F : Type} (floats : FloatFormat F)

mutual

def parseMap : Nat → ParseContext → Int → Except Failure (Parsed (ValueMap F))
  | 0, _, _ => .error .fuel
  | fuel + 1, ctx, parentIndentLevel =>
    let ctx := ctx.consumeWhitespaceAndComments
    if ctx.startsWith ['{'] then do
      let (value, ctx) ← parseFlow floats fuel .map ctx.lineIdx none parentIndentLevel [] (ctx.consume 1)
      let ctx := ctx.skipToNextLine
      match value with
      | .map entries => .ok ⟨entries, ctx, []⟩
      | _ => .error (.parse (ctx.makeError "Expected map in flow-style map"))
    else mapLines fuel true parentIndentLevel [] ctx

/-- The loop of `parseMap()` with the entries so far. -/
def mapLines : Nat → Bool → Int → ValueMap F → ParseContext → Except Failure (Parsed (ValueMap F))
  | 0, _, _, _, _ => .error .fuel
  | fuel + 1, firstLine, parentIndentLevel, map, ctx =>
    if ctx.atEndOfDocument then .ok ⟨map, ctx, []⟩
    else if ctx.startsWith ['-', '-', '-'] then
      .error (.parse (ctx.makeError "Parser limitation: Multiple documents not supported"))
    else
      let ctx := ctx.consumeWhitespaceAndComments
      if ctx.atEndOfDocument then .ok ⟨map, ctx, []⟩
      else if isIgnorableLine ctx.currentLine then mapLines fuel firstLine parentIndentLevel map ctx.skipToNextLine
      else
        -- A map in a list begins behind the dash.
        match ctx.currentIndent (if firstLine then [' ', '-'] else [' ']) with
        | none => mapLines fuel firstLine parentIndentLevel map ctx.skipToNextLine
        | some lineIndent =>
          if (lineIndent : Int) ≤ parentIndentLevel then .ok ⟨map, ctx, []⟩
          else do
            let (key, entry) ← parseEntry fuel lineIndent ctx
            let rest ← mapLines fuel false parentIndentLevel (map.insertOrAssign key entry.value) entry.ctx
            .ok { rest with spans := entry.spans ++ rest.spans }

/-- A key and its value. -/
def parseEntry : Nat → Nat → ParseContext → Except Failure (Bytes × Parsed (Value F))
  | 0, _, _ => .error .fuel
  | fuel + 1, lineIndent, ctx => do
    let (key, ctx) ← (parseKey ctx []).mapError .parse
    let ctx := ctx.consumeSpaces
    let tagPos := ctx.columnIdx
    let (typeTag, ctx) ← (parseTag ctx).mapError .parse
    let ctx := ctx.consumeSpaces
    let peekedType := peekToFindValueType ctx lineIndent
    if peekedType = .map ∧ typeTag.isSome then
      .error (.parse (ctx.makeErrorAtColumn "Cannot have type tag for maps" tagPos))
    else
      let value ← parseValue fuel peekedType typeTag lineIndent ctx
      .ok (key, value)

def parseList : Nat → Option TypeTag → Int → ParseContext → Except Failure (Parsed (Value F))
  | 0, _, _, _ => .error .fuel
  | fuel + 1, typeTag, parentIndentLevel, ctx =>
    let ctx := ctx.consumeWhitespaceAndComments
    if ctx.startsWith ['['] then do
      let (value, ctx) ← parseFlow floats fuel .list ctx.lineIdx typeTag parentIndentLevel [] (ctx.consume 1)
      .ok ⟨value, ctx.skipToNextLine, []⟩
    else listLines fuel typeTag parentIndentLevel [] ctx

/-- The loop of `parseList()` with the items so far. -/
def listLines : Nat → Option TypeTag → Int → List (Value F) → ParseContext → Except Failure (Parsed (Value F))
  | 0, _, _, _, _ => .error .fuel
  | fuel + 1, typeTag, parentIndentLevel, list, ctx =>
    if ctx.atEndOfDocument then .ok ⟨listOf typeTag list, ctx, []⟩
    else
      let ctx := ctx.consumeWhitespaceAndComments
      if ctx.atEndOfDocument then .ok ⟨listOf typeTag list, ctx, []⟩
      else if isIgnorableLine ctx.currentLine then listLines fuel typeTag parentIndentLevel list ctx.skipToNextLine
      else
        match ctx.currentIndent [' '] with
        | none => listLines fuel typeTag parentIndentLevel list ctx.skipToNextLine
        | some lineIndent =>
          if (lineIndent : Int) ≤ parentIndentLevel then .ok ⟨listOf typeTag list, ctx, []⟩
          else if ctx.startsWith ['-'] then do
            let item ← parseItem fuel typeTag lineIndent (ctx.consume 1)
            let rest ← listLines fuel typeTag parentIndentLevel (list ++ [item.value]) item.ctx
            .ok { rest with spans := item.spans ++ rest.spans }
          else .error (.parse (ctx.makeError "Expected list item"))

/-- A list item behind its dash. -/
def parseItem : Nat → Option TypeTag → Nat → ParseContext → Except Failure (Parsed (Value F))
  | 0, _, _, _ => .error .fuel
  | fuel + 1, typeTag, lineIndent, ctx => do
    let ctx := ctx.consumeSpaces
    let itemIndent := ctx.columnIdx
    let (localTag, ctx) ← (parseTag ctx).mapError .parse
    if typeTag.isSome ∧ localTag.isSome then
      .error (.parse (ctx.makeError "Cannot have type tag for both list and list item"))
    else
      let ctx := ctx.consumeSpaces
      let peekedType := peekToFindValueType ctx lineIndent
      if peekedType = .list ∧ typeTag.isSome then
        .error (.parse (ctx.makeErrorAtColumn "Cannot have type tag for list containing lists" itemIndent))
      else if peekedType = .map ∧ localTag.isSome then
        .error (.parse (ctx.makeErrorAtColumn "Cannot have type tag for maps" itemIndent))
      else parseValue fuel peekedType (typeTag.or localTag) lineIndent ctx

/-- The switch over the type that was peeked. -/
def parseValue : Nat → ValueType → Option TypeTag → Nat → ParseContext → Except Failure (Parsed (Value F))
  | 0, _, _, _, _ => .error .fuel
  | fuel + 1, peekedType, tag, lineIndent, ctx => do
    let parsed : Parsed (Value F) ←
      match peekedType with
      | .list => parseList fuel tag lineIndent ctx
      | .map => (parseMap fuel ctx lineIndent).map fun parsed => ⟨.map parsed.value, parsed.ctx, parsed.spans⟩
      | .scalar => ((parseScalar floats ctx tag lineIndent).map fun (value, ctx) => ⟨value, ctx, []⟩).mapError .parse
    .ok { parsed with spans := ⟨lineIndent, ctx, parsed.ctx⟩ :: parsed.spans }

end

/-- The lines of a document, with a carriage return at an end taken off. -/
def documentLines (yaml : Bytes) : List Bytes :=
  (split '\n' yaml).map fun line => if line.getLast? = some '\r' then line.dropLast else line

def deserialize (fuel : Nat) (yaml : Bytes) : Except Failure (Parsed (ValueMap F)) :=
  let ctx := (ParseContext.mk (documentLines yaml) 0 0).consumeWhitespaceAndComments
  parseMap floats fuel (if ctx.startsWith ['-', '-', '-'] then ctx.consume 3 else ctx) (-1)

end

end GnuRadio.Yaml
