import Mathlib.Data.Nat.Basic

/-! The text of a YAML document: escapes, comments, quotes and lines (the first part of `detail` in YamlPmt.hpp). A byte is
    the character of its value. -/

namespace GnuRadio.Yaml

abbrev Bytes := List Char

/-! ### Classes of bytes -/

def isspace (c : Char) : Bool := c = ' ' || (9 ≤ c.toNat && c.toNat ≤ 13)

def iscntrl (c : Char) : Bool := c.toNat < 0x20 || c.toNat = 0x7F

def isprint (c : Char) : Bool := 0x20 ≤ c.toNat && c.toNat ≤ 0x7E

/-! ### Escapes -/

def hexDigit (n : Nat) : Char := if n < 10 then Char.ofNat ('0'.toNat + n) else Char.ofNat ('a'.toNat + (n - 10))

/-- The escape of a byte, itself where it needs none. -/
def escapeChar (escapeForQuotedString : Bool) (c : Char) : Bytes :=
  if c = '"' ∧ escapeForQuotedString then ['\\', '"']
  else if c = '\n' ∧ escapeForQuotedString then ['\\', 'n']
  else if c = '\\' ∧ escapeForQuotedString then ['\\', '\\']
  else if c = '\t' ∧ escapeForQuotedString then ['\\', 't']
  else if c = '\r' ∧ escapeForQuotedString then ['\\', 'r']
  else if c.toNat = 8 then ['\\', 'b']
  else if iscntrl c ∧ c ≠ '\n' then ['\\', 'x', hexDigit (c.toNat / 16), hexDigit (c.toNat % 16)]
  else [c]

def escapeString (str : Bytes) (escapeForQuotedString : Bool) : Bytes := str.flatMap (escapeChar escapeForQuotedString)

def hexValue (c : Char) : Option Nat :=
  if '0' ≤ c ∧ c ≤ '9' then some (c.toNat - '0'.toNat)
  else if 'a' ≤ c ∧ c ≤ 'f' then some (c.toNat - 'a'.toNat + 10)
  else if 'A' ≤ c ∧ c ≤ 'F' then some (c.toNat - 'A'.toNat + 10)
  else none

/-- `parseBytesFromHex()` of two characters. The second one may be no digit: `std::from_chars()` stops in front of it. -/
def parseByteFromHex (high low : Char) : Option Char :=
  (hexValue high).map fun h => Char.ofNat ((hexValue low).elim h (16 * h + ·))

structure ValueParseError where
  offset : Nat
  message : String
  deriving DecidableEq, Repr

def unicodeEscape : String := "Parser limitation: Unicode escape sequences are not supported"

/-- The byte of an escape of one character. A block literal knows the escape of the zero byte only. -/
def escapedByte (quoted : Bool) (c : Char) : Option Char :=
  if c = '0' then some (Char.ofNat 0)
  else if !quoted then none
  else if c = '\\' then some '\\'
  else if c = 'b' then some (Char.ofNat 8)
  else if c = 'n' then some '\n'
  else if c = 't' then some '\t'
  else if c = 'r' then some '\r'
  else if c = '"' then some '"'
  else none

/-- The loop of the two functions that resolve escapes, from the index `i` on. -/
def resolveYamlEscapes (quoted : Bool) (i : Nat) : Bytes → Except ValueParseError Bytes
  | [] => .ok []
  | [c] => .ok [c]
  | '\\' :: 'u' :: _ => .error ⟨i + 1, unicodeEscape⟩
  | '\\' :: 'x' :: high :: low :: rest =>
    match parseByteFromHex high low with
    | some byte => (resolveYamlEscapes quoted (i + 4) rest).map (byte :: ·)
    | none => (resolveYamlEscapes quoted (i + 2) (high :: low :: rest)).map fun result => '\\' :: 'x' :: result
  | '\\' :: c :: rest =>
    match escapedByte quoted c with
    | some byte => (resolveYamlEscapes quoted (i + 2) rest).map (byte :: ·)
    | none => (resolveYamlEscapes quoted (i + 2) rest).map fun result => '\\' :: c :: result
  | c :: c' :: rest => (resolveYamlEscapes quoted (i + 1) (c' :: rest)).map (c :: ·)

/-- `resolveYamlEscapes_multiline()` of the rest of a line. -/
def resolveYamlEscapes_multiline (str : Bytes) : Except ValueParseError Bytes := resolveYamlEscapes false 0 str

def resolveYamlEscapes_quoted (str : Bytes) : Except ValueParseError Bytes := resolveYamlEscapes true 0 str

/-! ### Lines -/

def isIgnorableLine (line : Bytes) : Bool :=
  (line.dropWhile fun c => isspace c || iscntrl c).head?.all (· = '#')

def trim (sv : Bytes) : Bytes := ((sv.dropWhile isspace).reverse.dropWhile isspace).reverse

def stripComment (sv : Bytes) : Bytes := sv.takeWhile (· ≠ '#')

def trimAndStripComment (sv : Bytes) : Bytes := trim (stripComment sv)

/-- `split()` at a character. Nothing follows a separator at the end. -/
def split (separator : Char) (str : Bytes) : List Bytes :=
  let parts := str.splitOnP (· = separator)
  if parts.getLast? = some [] then parts.dropLast else parts

/-- `find()`. -/
def find (c : Char) (sv : Bytes) : Option Nat := sv.findIdx? (· = c)

/-! ### Quotes -/

/-- The loop of `findClosingQuote()` from the index `i` on. -/
def closingQuote (quoteChar : Char) (i : Nat) (inEscape : Bool) : Bytes → Option Nat
  | [] => none
  | c :: rest =>
    if inEscape then closingQuote quoteChar (i + 1) false rest
    else if c = '\\' then closingQuote quoteChar (i + 1) true rest
    else if c = quoteChar then some i
    else closingQuote quoteChar (i + 1) false rest

def findClosingQuote (sv : Bytes) (quoteChar : Char) : Option Nat := closingQuote quoteChar 1 false (sv.drop 1)

/-- Where the string starts in a text and its length, none for a quote that is not closed. -/
def findString (sv : Bytes) (extraDelimiters : Bytes) : Option (Nat × Nat) :=
  match sv with
  | [] => some (0, 0)
  | firstChar :: _ =>
    if firstChar = '"' ∨ firstChar = '\'' then (findClosingQuote sv firstChar).map fun closePos => (1, closePos - 1)
    else
      match sv.findIdx? (· ∈ extraDelimiters) with
      | some delimPos => some (0, delimPos)
      | none => some (0, (find '#' sv).getD sv.length)

end GnuRadio.Yaml

/-! The cursor of the parser: the lines of a document, a line and a column (`ParseContext` in YamlPmt.hpp). -/

namespace GnuRadio.Yaml

structure ParseError where
  line : Nat
  column : Nat
  message : String
  deriving DecidableEq, Repr

structure ParseContext where
  lines : List Bytes
  lineIdx : Nat
  columnIdx : Nat
  deriving DecidableEq, Repr

namespace ParseContext

variable (ctx : ParseContext)

def currentLine : Bytes := ctx.lines.getD ctx.lineIdx []

def atEndOfDocument : Bool := ctx.lineIdx = ctx.lines.length

def atEndOfLine : Bool := ctx.atEndOfDocument || ctx.columnIdx = ctx.currentLine.length

def remainingLine : Bytes := if ctx.atEndOfLine then [] else ctx.currentLine.drop ctx.columnIdx

def startsWith (sv : Bytes) : Bool := !ctx.atEndOfLine && sv.isPrefixOf ctx.remainingLine

/-- A space follows, or the line ends. -/
def startsWithToken (sv : Bytes) : Bool :=
  ctx.startsWith sv && (ctx.remainingLine.drop sv.length).head?.all isspace

def consume (n : Nat) : ParseContext := { ctx with columnIdx := ctx.columnIdx + n }

def skipToNextLine : ParseContext :=
  if ctx.lineIdx < ctx.lines.length then { ctx with lineIdx := ctx.lineIdx + 1, columnIdx := 0 } else ctx

def consumeSpaces : ParseContext := ctx.consume (ctx.remainingLine.takeWhile (· = ' ')).length

/-- The loop over `n` lines. -/
def consumeLines : Nat → ParseContext → ParseContext
  | 0, ctx => ctx
  | n + 1, ctx =>
    if ctx.atEndOfDocument then ctx
    else if ctx.consumeSpaces.remainingLine.head?.any (· ≠ '#') then ctx.consumeSpaces
    else consumeLines n ctx.consumeSpaces.skipToNextLine

def consumeWhitespaceAndComments : ParseContext := consumeLines (ctx.lines.length - ctx.lineIdx) ctx

/-- The column of the first character that is no `indentChars`, none when there is no such character. -/
def currentIndent (indentChars : Bytes) : Option Nat := ctx.currentLine.findIdx? (· ∉ indentChars)

def makeErrorAtColumn (message : String) (colIdx : Nat) : ParseError := ⟨ctx.lineIdx + 1, colIdx + 1, message⟩

def makeError (message : String) : ParseError := ctx.makeErrorAtColumn message ctx.columnIdx

/-- `makeError()` of an error at an offset. -/
def makeErrorAt (error : ValueParseError) : ParseError :=
  ctx.makeErrorAtColumn error.message (ctx.columnIdx + error.offset)

end ParseContext

/-! ### Keys -/

/-- The colon that ends a key without quotes: a space follows it, or the line ends. -/
def keyColon : Nat → Bytes → Option Nat
  | _, [] => none
  | pos, c :: rest => if c = ':' ∧ rest.head?.all isspace then some pos else keyColon (pos + 1) rest

def parseKey (ctx : ParseContext) (extraDelimiters : Bytes) : Except ParseError (Bytes × ParseContext) :=
  let ctx := ctx.consumeSpaces
  if ctx.startsWith ['-'] then .error (ctx.makeError "Unexpected list item in map")
  else
    match findString ctx.remainingLine extraDelimiters with
    | none => .error (ctx.makeError "Unterminated quote")
    | some (quoteOffset, length) =>
      if 0 < quoteOffset then
        match resolveYamlEscapes_quoted ((ctx.remainingLine.drop quoteOffset).take length) with
        | .error error => .error (ctx.makeErrorAt error)
        | .ok key =>
          let ctx := (ctx.consume (2 * quoteOffset + length)).consumeSpaces
          if ctx.startsWithToken [':'] then .ok (key, ctx.consume 1)
          else .error (ctx.makeError "Could not find key/value separator ':'")
      else
        match keyColon 0 ctx.remainingLine with
        | none => .error (ctx.makeError "Could not find key/value separator ':'")
        | some colonPos =>
          if (find '#' ctx.remainingLine).any (· < colonPos) then
            .error (ctx.makeError "Could not find key/value separator ':'")
          else .ok (trim (ctx.remainingLine.take colonPos), ctx.consume (colonPos + 1))

/-- How `serialize()` spells a key. -/
def keyText (key : Bytes) : Bytes :=
  if ':' ∈ key ∨ !key.all isprint then '"' :: escapeString key true ++ ['"'] else key

/-- How `serialize()` writes a key in front of its value. -/
def serializeKey (key : Bytes) : Bytes := keyText key ++ [':', ' ']

end GnuRadio.Yaml
