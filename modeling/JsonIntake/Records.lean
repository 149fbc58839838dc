import JsonIntake.Json.Parser
import JsonIntake.Options

/-!
# Splitting a batch into records

In lines mode every line that is not blank is a record.  In document mode the
records are the values of the stream, with the items of an array in place of
the array.  A record that is no object is malformed: it ends the splitting, or
it is kept as an empty place.
-/

namespace JsonIntake

/-- The members of an object, or nothing in place of a malformed record. -/
abbrev Record : Type := Option (List (String × Json.Value))

/-- White space in the sense of ASCII. -/
def isAsciiSpace (byte : UInt8) : Bool :=
  byte = 32 || byte = 9 || byte = 10 || byte = 12 || byte = 13

/-- The bytes without the white space around them. -/
def trimAscii (bytes : List UInt8) : List UInt8 :=
  ((bytes.dropWhile isAsciiSpace).reverse.dropWhile isAsciiSpace).reverse

/-- One step of a split, from right to left: a delimiter opens a new piece,
any other byte goes to the front of the first piece. -/
def splitStep (delimiter byte : UInt8) (pieces : List (List UInt8)) :
    List (List UInt8) :=
  if byte = delimiter then [] :: pieces
  else
    match pieces with
    | [] => [[byte]]
    | piece :: rest => (byte :: piece) :: rest

/-- The pieces between the delimiters; there is always one more of them. -/
def splitAtDelimiter (delimiter : UInt8) (bytes : List UInt8) :
    List (List UInt8) :=
  bytes.foldr (splitStep delimiter) [[]]

/-- The trimmed lines that are not blank. -/
def recordLines (delimiter : UInt8) (bytes : List UInt8) :
    List (List UInt8) :=
  ((splitAtDelimiter delimiter bytes).map trimAscii).filter
    fun line => !line.isEmpty

/-- Records in reverse order, and how many of them are malformed. -/
structure RecordList where
  reversed : List Record
  malformed : Nat

namespace RecordList

def empty : RecordList := ⟨[], 0⟩

/-- Add a malformed record, or fail with its number. -/
def addMalformed (records : RecordList) (recovery : Recovery)
    (message : String) : Except Failure RecordList :=
  match recovery with
  | .fail =>
    .error (.malformedRecord records.reversed.length message)
  | .recoverWithNull =>
    .ok ⟨none :: records.reversed, records.malformed + 1⟩

/-- Add a value as a record. -/
def addValue (records : RecordList) (recovery : Recovery) :
    Json.Value → Except Failure RecordList
  | .object members =>
    .ok { records with reversed := some members :: records.reversed }
  | other =>
    records.addMalformed recovery
      ("expected a JSON object, found " ++ other.kindName)

/-- Add the record on a line. -/
def addLine (recovery : Recovery) (records : RecordList)
    (line : List UInt8) : Except Failure RecordList :=
  match Json.parse line with
  | .ok value => records.addValue recovery value
  | .error fault => records.addMalformed recovery fault.message

/-- The records of a batch of lines. -/
def ofLines (recovery : Recovery) (delimiter : UInt8) (bytes : List UInt8) :
    Except Failure RecordList :=
  (recordLines delimiter bytes).foldlM (addLine recovery) empty

/-- Bytes between the values of a document. -/
def isSeparator (delimiter byte : UInt8) : Bool :=
  isAsciiSpace byte || byte = 44 || byte = delimiter

/-- Add the values of a document one after the other.  A syntax fault ends
the document, since no later value can be told apart from its remains.  Every
value takes at least one byte, so there are always more steps than bytes left,
and they suffice for the value that comes next. -/
def addValues (recovery : Recovery) (delimiter : UInt8) :
    Nat → RecordList → List UInt8 → Except Failure RecordList
  | 0, records, _ => .ok records
  | steps + 1, records, bytes =>
    match bytes.dropWhile (isSeparator delimiter) with
    | [] => .ok records
    | rest =>
      match Json.parseNext (steps + 1) rest with
      | .error fault => records.addMalformed recovery fault.message
      | .ok (value, rest) => do
        let records ←
          match value with
          | .array items =>
            items.foldlM (fun records => records.addValue recovery) records
          | other => records.addValue recovery other
        addValues recovery delimiter steps records rest

/-- The records of a document. -/
def ofDocument (recovery : Recovery) (delimiter : UInt8)
    (bytes : List UInt8) : Except Failure RecordList :=
  addValues recovery delimiter (bytes.length + 1) empty bytes

/-- The records in order. -/
def toList (records : RecordList) : List Record := records.reversed.reverse

end RecordList

end JsonIntake
