/-!
# Faults in a JSON text

A fault has a cause and a place: the line, counted from one, and the column,
which is the number of bytes read on that line.
-/

namespace JsonIntake.Json

inductive FaultCause where
  | endInList
  | endInObject
  | endInString
  | endInValue
  | expectedColon
  | expectedListCommaOrEnd
  | expectedObjectCommaOrEnd
  | expectedKeyword
  | expectedValue
  | invalidEscape
  | invalidNumber
  | numberOutOfRange
  | invalidCodePoint
  | controlCharacter
  | keyNotString
  | loneSurrogate
  | unfinishedSurrogatePair
  | trailingComma
  | trailingCharacters
  | nestingTooDeep
deriving DecidableEq, Repr

def FaultCause.text : FaultCause → String
  | .endInList => "EOF while parsing a list"
  | .endInObject => "EOF while parsing an object"
  | .endInString => "EOF while parsing a string"
  | .endInValue => "EOF while parsing a value"
  | .expectedColon => "expected `:`"
  | .expectedListCommaOrEnd => "expected `,` or `]`"
  | .expectedObjectCommaOrEnd => "expected `,` or `\x7d`"
  | .expectedKeyword => "expected ident"
  | .expectedValue => "expected value"
  | .invalidEscape => "invalid escape"
  | .invalidNumber => "invalid number"
  | .numberOutOfRange => "number out of range"
  | .invalidCodePoint => "invalid unicode code point"
  | .controlCharacter =>
    "control character (\\u0000-\\u001F) found while parsing a string"
  | .keyNotString => "key must be a string"
  | .loneSurrogate => "lone leading surrogate in hex escape"
  | .unfinishedSurrogatePair => "unexpected end of hex escape"
  | .trailingComma => "trailing comma"
  | .trailingCharacters => "trailing characters"
  | .nestingTooDeep => "recursion limit exceeded"

structure SyntaxFault where
  cause : FaultCause
  line : Nat
  column : Nat
deriving DecidableEq, Repr

namespace SyntaxFault

/-- The fault at the place in `input` that has `remaining` bytes behind
it. -/
def inText (input : List UInt8) (cause : FaultCause) (remaining : Nat) :
    SyntaxFault :=
  let before := input.take (input.length - remaining)
  { cause
    line := 1 + before.count 10
    column := (before.reverse.takeWhile (· ≠ 10)).length }

def message (fault : SyntaxFault) : String :=
  fault.cause.text ++ " at line " ++ toString fault.line ++ " column " ++
    toString fault.column

end SyntaxFault

end JsonIntake.Json
