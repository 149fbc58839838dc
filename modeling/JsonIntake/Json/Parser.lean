import JsonIntake.Json.Text

/-!
# Reading JSON texts

A text is read from its front.  Arrays and objects may be nested up to a
fixed depth, which is also what bounds the recursion; the members of one
array or object are read in a loop that takes a comma per round.  Every round
of a loop takes at least one byte, so no loop needs more steps than the text
has bytes, and one more; that number is handed down to all of them.
-/

namespace JsonIntake.Json

/-- Blanks between tokens. -/
def isBlank (byte : UInt8) : Bool :=
  byte = 32 || byte = 10 || byte = 9 || byte = 13

def skipBlanks (input : List UInt8) : List UInt8 := input.dropWhile isBlank

/-- The remaining letters of a keyword. -/
def readKeyword (value : Value) : List UInt8 → Reader Value
  | [], rest => .ok (value, rest)
  | _ :: _, [] => stopHere .endInValue []
  | letter :: letters, byte :: rest =>
    if byte = letter then readKeyword value letters rest
    else stopHere .expectedKeyword rest

/-- The items of an array up to its closing bracket, given a reader for one
item.  `items` holds those already read, last one first. -/
def readItems (item : Reader Value) :
    Nat → List Value → Reader Value
  | 0, _, input => stopHere .endInList input
  | steps + 1, items, input =>
    match skipBlanks input with
    | [] => stopHere .endInList []
    | 93 :: rest => .ok (.array items.reverse, rest)
    | first :: rest =>
      let next : Except Stop (List UInt8) :=
        if items.isEmpty then .ok (first :: rest)
        else if first = 44 then
          match skipBlanks rest with
          | [] => stopHere .endInValue []
          | 93 :: rest => stopAtNext .trailingComma (93 :: rest)
          | rest => .ok rest
        else stopAtNext .expectedListCommaOrEnd (first :: rest)
      match next with
      | .error stop => .error stop
      | .ok input =>
        match item input with
        | .error stop => .error stop
        | .ok (value, rest) => readItems item steps (value :: items) rest

/-- One member of an object, behind the opening quote of its name. -/
def readMember (steps : Nat) (item : Reader Value) :
    Reader (String × Value) :=
  fun input => do
    let (name, rest) ← readString steps input
    match skipBlanks rest with
    | [] => stopHere .endInObject []
    | 58 :: rest =>
      let (value, rest) ← item rest
      .ok ((name, value), rest)
    | rest => stopAtNext .expectedColon rest

/-- The members of an object up to its closing brace. -/
def readMembers (item : Reader Value) :
    Nat → Bool → List (String × Value) → Reader Value
  | 0, _, _, input => stopHere .endInObject input
  | steps + 1, isFirst, members, input =>
    match skipBlanks input with
    | [] => stopHere .endInObject []
    | 125 :: rest => .ok (.object members, rest)
    | first :: rest =>
      let next : Except Stop (List UInt8) :=
        if isFirst then
          if first = 34 then .ok rest
          else stopAtNext .keyNotString (first :: rest)
        else if first = 44 then
          match skipBlanks rest with
          | [] => stopHere .endInValue []
          | 34 :: rest => .ok rest
          | 125 :: rest => stopAtNext .trailingComma (125 :: rest)
          | rest => stopAtNext .keyNotString rest
        else stopAtNext .expectedObjectCommaOrEnd (first :: rest)
      match next with
      | .error stop => .error stop
      | .ok input =>
        match readMember (steps + 1) item input with
        | .error stop => .error stop
        | .ok ((name, value), rest) =>
          readMembers item steps false
            (Value.insertMember name value members) rest

/-- A value, given a reader for the values inside arrays and objects, or
none where nothing may be nested any more. -/
def readValueWith (steps : Nat) (nested : Option (Reader Value)) :
    Reader Value :=
  fun input =>
    match skipBlanks input with
    | [] => stopHere .endInValue []
    | 110 :: rest => readKeyword .null [117, 108, 108] rest
    | 116 :: rest => readKeyword (.boolean true) [114, 117, 101] rest
    | 102 :: rest => readKeyword (.boolean false) [97, 108, 115, 101] rest
    | 34 :: rest => do
      let (text, rest) ← readString steps rest
      .ok (.text text, rest)
    | 45 :: rest => do
      let (number, rest) ← readNumber true rest
      .ok (.number number, rest)
    | 91 :: rest =>
      match nested with
      | none => stopAtNext .nestingTooDeep (91 :: rest)
      | some item => readItems item steps [] rest
    | 123 :: rest =>
      match nested with
      | none => stopAtNext .nestingTooDeep (123 :: rest)
      | some item => readMembers item steps true [] rest
    | first :: rest =>
      if isDigit first then do
        let (number, rest) ← readNumber false (first :: rest)
        .ok (.number number, rest)
      else stopAtNext .expectedValue (first :: rest)

/-- A value with at most `depth` levels of nesting. -/
def readValue (steps : Nat) : (depth : Nat) → Reader Value
  | 0 => readValueWith steps none
  | depth + 1 => readValueWith steps (some (readValue steps depth))

/-- How many arrays and objects may be open at once. -/
def nestingLimit : Nat := 127

/-- The fault in `input` that a stop stands for. -/
def Stop.fault (stop : Stop) (input : List UInt8) : SyntaxFault :=
  SyntaxFault.inText input stop.cause stop.remaining

/-- Read a text that holds exactly one value. -/
def parse (input : List UInt8) : Except SyntaxFault Value :=
  let read : Except Stop Value := do
    let (value, rest) ← readValue (input.length + 1) nestingLimit input
    match skipBlanks rest with
    | [] => .ok value
    | rest => stopAtNext .trailingCharacters rest
  read.mapError fun stop => stop.fault input

/-- Bytes that may follow a value whose end is not marked by its own last
byte. -/
def endsValue (byte : UInt8) : Bool :=
  isBlank byte ||
    [34, 91, 93, 123, 125, 44, 58].contains byte

/-- Read one value from the front of a stream of values. -/
def parseNext (steps : Nat) (input : List UInt8) :
    Except SyntaxFault (Value × List UInt8) :=
  let read : Except Stop (Value × List UInt8) := do
    let (value, rest) ← readValue steps nestingLimit input
    let delimited :=
      match value with
      | .text _ | .array _ | .object _ => true
      | _ => false
    if delimited || rest.head?.all endsValue then .ok (value, rest)
    else stopAtNext .trailingCharacters rest
  read.mapError fun stop => stop.fault input

end JsonIntake.Json
