import DynamicData.Bytes.Parser

/-!
# Failures of the JSON reader

A failure is a cause and a place. The place is kept as the number of bytes that
come after it, which a parser knows without counting what it has read; `Fault.text`
turns it into a line and a column of the input.
-/

namespace DynamicData.Json

/-- Why a text is refused. -/
inductive Cause
  | endInList
  | endInObject
  | endInString
  | endInValue
  | expectedColon
  | expectedListCommaOrEnd
  | expectedObjectCommaOrEnd
  | expectedIdent
  | expectedValue
  | invalidEscape
  | invalidNumber
  | numberOutOfRange
  | invalidUnicode
  | controlCharacter
  | keyMustBeString
  | loneSurrogate
  | trailingComma
  | trailingCharacters
  | unexpectedEndOfEscape
  | recursionLimit
  /-- the text is JSON but not of the shape asked for -/
  | shape (reason : String)
  deriving DecidableEq, Repr

def Cause.message : Cause → String
  | .endInList => "EOF while parsing a list"
  | .endInObject => "EOF while parsing an object"
  | .endInString => "EOF while parsing a string"
  | .endInValue => "EOF while parsing a value"
  | .expectedColon => "expected `:`"
  | .expectedListCommaOrEnd => "expected `,` or `]`"
  | .expectedObjectCommaOrEnd => "expected `,` or `\x7d`"
  | .expectedIdent => "expected ident"
  | .expectedValue => "expected value"
  | .invalidEscape => "invalid escape"
  | .invalidNumber => "invalid number"
  | .numberOutOfRange => "number out of range"
  | .invalidUnicode => "invalid unicode code point"
  | .controlCharacter =>
    "control character (\\u0000-\\u001F) found while parsing a string"
  | .keyMustBeString => "key must be a string"
  | .loneSurrogate => "lone leading surrogate in hex escape"
  | .trailingComma => "trailing comma"
  | .trailingCharacters => "trailing characters"
  | .unexpectedEndOfEscape => "unexpected end of hex escape"
  | .recursionLimit => "recursion limit exceeded"
  | .shape reason => reason

/-- A cause and how many bytes of the input come after its place. -/
structure Fault where
  cause : Cause
  left : Nat
  deriving DecidableEq, Repr

/-- The line of the end of `bytes`, from one, and its column in that line. -/
def position (bytes : Bytes) : Nat × Nat :=
  bytes.foldl
    (fun (line, column) b => if b = '\n'.toUInt8 then (line + 1, 0) else (line, column + 1))
    (1, 0)

def Fault.text (f : Fault) (input : Bytes) : String :=
  let (line, column) := position (input.take (input.length - f.left))
  f.cause.message ++ " at line " ++ toString line ++ " column " ++ toString column

abbrev Reader := Parser Fault

/-- Fails at the end of what has been read. -/
def failHere {α : Type} (cause : Cause) : Reader α := fun bytes =>
  .error ⟨cause, bytes.length⟩

/-- Fails at the next byte, which counts as read if there is one. -/
def failNext {α : Type} (cause : Cause) : Reader α := fun bytes =>
  .error ⟨cause, bytes.length - 1⟩

end DynamicData.Json
