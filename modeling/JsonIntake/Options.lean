import JsonIntake.Tuning

/-!
# Options of a read
-/

namespace JsonIntake

/-- What happens to a record that is not a JSON object. -/
inductive Recovery where
  /-- The read fails. -/
  | fail
  /-- The record becomes a row of nulls. -/
  | recoverWithNull
deriving DecidableEq, Repr

namespace Recovery

def all : List Recovery := [.fail, .recoverWithNull]

/-- The name of a mode as it stands in messages. -/
def label : Recovery → String
  | .fail => "Fail"
  | .recoverWithNull => "RecoverWithNull"

/-- The name of a mode as it stands in option files. -/
def keyword : Recovery → String
  | .fail => "fail"
  | .recoverWithNull => "recover_with_null"

def ofKeyword? (word : String) : Option Recovery :=
  all.find? fun mode => mode.keyword == word

end Recovery

/-- The name that a written choice stands for: a string, or an object whose
only member has that name and no value. -/
def choiceName? : Json.Value → Option String
  | .text name => some name
  | .object [(name, .null)] => some name
  | _ => none

/-- A kind of compression in written form. -/
def Compression.ofJson? (value : Json.Value) : Option Compression :=
  (choiceName? value).bind Compression.ofKeyword?

/-- A recovery mode in written form. -/
def Recovery.ofJson? (value : Json.Value) : Option Recovery :=
  (choiceName? value).bind Recovery.ofKeyword?

/-- A type asked for by the caller, for a column of a name. -/
abbrev Hint : Type := String × ColumnType

/-- The type of the first hint for a column. -/
def hintFor? (name : String) (hints : List Hint) : Option ColumnType :=
  (hints.find? fun hint => hint.1 == name).map (·.2)

/-- What the tokenizer has to know. -/
structure ParseOptions where
  lines : Bool
  delimiter : UInt8
  recovery : Recovery
  hints : List Hint
deriving Repr

structure ReadOptions where
  /-- Records stand on lines of their own. -/
  lines : Bool
  compression : Compression
  recovery : Recovery
  hints : List Hint
  /-- Rewrite single-quoted strings first. -/
  normalize : Bool
  /-- Read only the records that start in this range. -/
  byteRange : Option ByteRange
  tuning : Tuning
deriving Repr

namespace ReadOptions

def default : ReadOptions :=
  { lines := true
    compression := .none
    recovery := .fail
    hints := []
    normalize := true
    byteRange := none
    tuning := Tuning.default }

def ofEnvironment (setting : Option String) : Except Failure ReadOptions := do
  let tuning ← Tuning.ofEnvironment setting
  .ok { default with tuning }

/-- Ask for a column type; it replaces what was asked for that column
before. -/
def withHint (options : ReadOptions) (name : String) (type : ColumnType) :
    ReadOptions :=
  { options with
    hints := options.hints.filter (fun hint => hint.1 != name) ++
      [(name, type)] }

/-- The byte written between two sources: a line feed between lines, a comma
inside a document. -/
def delimiter (options : ReadOptions) : UInt8 :=
  if options.lines then 10 else 44

def parseOptions (options : ReadOptions) : ParseOptions :=
  { lines := options.lines
    delimiter := options.delimiter
    recovery := options.recovery
    hints := options.hints }

end ReadOptions

end JsonIntake
