import JsonIntake.Device

/-!
# Quote normalization

Single-quoted strings are turned into double-quoted ones; text that is
strict JSON already passes unchanged.  The transducer that does so is a table:
a state and the class of the next byte give the next state and what to emit.
Where records have a delimiter, it ends whatever string a record left open, so
a stray quote stays inside its record.
-/

namespace JsonIntake

/-! ## States -/

/-- Where in a JSON text the transducer stands. -/
inductive QuoteState where
  | outsideString
  | inDoubleQuote
  | inSingleQuote
  | escapeInDouble
  | escapeInSingle
deriving DecidableEq, Repr

namespace QuoteState

def all : List QuoteState :=
  [.outsideString, .inDoubleQuote, .inSingleQuote, .escapeInDouble,
    .escapeInSingle]

/-- Whether the stream stands inside a string literal. -/
def inString : QuoteState → Bool
  | .outsideString => false
  | _ => true

end QuoteState

/-- The classes of bytes that the transducer tells apart. -/
inductive ByteClass where
  | singleQuote
  | doubleQuote
  | backslash
  | other
  | delimiter
deriving DecidableEq, Repr

namespace ByteClass

def all : List ByteClass :=
  [.singleQuote, .doubleQuote, .backslash, .other, .delimiter]

/-- The class of a byte.  A record delimiter is one even where the byte is a
quote or a backslash. -/
def ofByte (delimiter : Option UInt8) (byte : UInt8) : ByteClass :=
  if delimiter = some byte then .delimiter
  else if byte = 39 then .singleQuote
  else if byte = 34 then .doubleQuote
  else if byte = 92 then .backslash
  else .other

end ByteClass

/-- What a transition writes. -/
inductive Emission where
  /-- The byte that was read. -/
  | verbatim
  /-- A double quote in place of the byte. -/
  | doubleQuote
  /-- A backslash and a double quote in place of the byte. -/
  | escapedDoubleQuote
  /-- Nothing yet: the byte is a backslash that is written later. -/
  | defer
  /-- The backslash that was held back, then the byte. -/
  | backslashThenVerbatim
deriving DecidableEq, Repr

namespace Emission

/-- The bytes written for `byte`. -/
def bytes (emission : Emission) (byte : UInt8) : List UInt8 :=
  match emission with
  | .verbatim => [byte]
  | .doubleQuote => [34]
  | .escapedDoubleQuote => [92, 34]
  | .defer => []
  | .backslashThenVerbatim => [92, byte]

end Emission

/-- One entry of the table. -/
structure Transition where
  next : QuoteState
  emit : Emission
deriving DecidableEq, Repr

/-- The transition table. -/
def QuoteState.transition : QuoteState → ByteClass → Transition
  | .outsideString, .singleQuote => ⟨.inSingleQuote, .doubleQuote⟩
  | .outsideString, .doubleQuote => ⟨.inDoubleQuote, .verbatim⟩
  | .outsideString, _ => ⟨.outsideString, .verbatim⟩
  | .inDoubleQuote, .doubleQuote => ⟨.outsideString, .verbatim⟩
  | .inDoubleQuote, .backslash => ⟨.escapeInDouble, .verbatim⟩
  | .inDoubleQuote, .delimiter => ⟨.outsideString, .verbatim⟩
  | .inDoubleQuote, _ => ⟨.inDoubleQuote, .verbatim⟩
  | .inSingleQuote, .singleQuote => ⟨.outsideString, .doubleQuote⟩
  | .inSingleQuote, .doubleQuote => ⟨.inSingleQuote, .escapedDoubleQuote⟩
  | .inSingleQuote, .backslash => ⟨.escapeInSingle, .defer⟩
  | .inSingleQuote, .delimiter => ⟨.outsideString, .verbatim⟩
  | .inSingleQuote, .other => ⟨.inSingleQuote, .verbatim⟩
  | .escapeInDouble, .delimiter => ⟨.outsideString, .verbatim⟩
  | .escapeInDouble, _ => ⟨.inDoubleQuote, .verbatim⟩
  -- An escaped single quote is no JSON escape, so it loses its backslash.
  | .escapeInSingle, .singleQuote => ⟨.inSingleQuote, .verbatim⟩
  | .escapeInSingle, .delimiter => ⟨.outsideString, .backslashThenVerbatim⟩
  | .escapeInSingle, _ => ⟨.inSingleQuote, .backslashThenVerbatim⟩

/-! ## Runs -/

/-- A run of the transducer over some bytes. -/
structure QuoteRun where
  state : QuoteState
  /-- Delimiters that arrived inside a string. -/
  unterminated : Nat
  output : Buffer

namespace QuoteRun

/-- Read one more byte. -/
def step (delimiter : Option UInt8) (run : QuoteRun) (byte : UInt8) :
    QuoteRun :=
  let byteClass := ByteClass.ofByte delimiter byte
  let transition := run.state.transition byteClass
  { state := transition.next
    unterminated :=
      if byteClass = .delimiter ∧ run.state.inString then
        run.unterminated + 1
      else
        run.unterminated
    output := run.output.append (transition.emit.bytes byte) }

/-- Write a backslash that is still held back when the bytes end. -/
def flush (run : QuoteRun) : QuoteRun :=
  if run.state = .escapeInSingle then
    { run with output := run.output.push 92 }
  else
    run

end QuoteRun

/-- Run the transducer over `bytes` from state `start`, writing behind what
`output` holds. -/
def transduce (delimiter : Option UInt8) (start : QuoteState)
    (output : Buffer) (bytes : List UInt8) : QuoteRun :=
  (bytes.foldl (QuoteRun.step delimiter) ⟨start, 0, output⟩).flush

/-- Rewrite the single-quoted strings of `input` to strict JSON strings.
Records end at `delimiter`, if there is one; without it the input is one
document. -/
def normalizeQuotes (delimiter : Option UInt8) (input : Buffer) : QuoteRun :=
  transduce delimiter .outsideString Buffer.empty input.toList

end JsonIntake
