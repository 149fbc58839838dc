import JsonIntake.Json.Value
import JsonIntake.Number.Decimal
import JsonIntake.Table.Shape

/-!
# Decoding columns

Values become cells column by column.  Numbers and booleans may be read into
text columns and texts into number columns; everything else has to have the
kind of its column, or be null.
-/

namespace JsonIntake

/-- Why a value is no cell of its column. -/
inductive DecodeCause where
  | unexpected (wanted : String) (found : Json.Value)
  | badText (text : String) (type : ScalarType)
  | badNumber (number : Json.Number) (type : ScalarType)

/-- A cause, and the names of the record fields around the value, outermost
first. -/
structure DecodeFault where
  path : List String
  cause : DecodeCause

namespace Json

/-- A number as it stands in messages. -/
def Number.text : Number → String
  | .natural value => toString value
  | .negative magnitude => "-" ++ toString magnitude
  | .real value => Decimal.text value

/-- A number as it stands in text columns. -/
def Number.cellText : Number → String
  | .real value => Decimal.realText value
  | integer => integer.text

mutual

/-- A value as it stands in messages: texts between plain quotes, members one
behind the other. -/
def Value.brief : Value → String
  | .null => "null"
  | .boolean true => "true"
  | .boolean false => "false"
  | .number value => value.text
  | .text value => "\"" ++ value ++ "\""
  | .array items => "[" ++ briefItems items ++ "]"
  | .object members => "\x7b" ++ briefMembers members ++ "\x7d"

def Value.briefItems : List Value → String
  | [] => ""
  | [value] => value.brief
  | value :: rest => value.brief ++ ", " ++ briefItems rest

def Value.briefMembers : List (String × Value) → String
  | [] => ""
  | (name, value) :: rest =>
    "\"" ++ name ++ "\": " ++ value.brief ++ briefMembers rest

end

end Json

namespace DecodeFault

def message (fault : DecodeFault) : String :=
  let places := fault.path.map fun name =>
    "whilst decoding field '" ++ name ++ "': "
  let cause :=
    match fault.cause with
    | .unexpected wanted found => "expected " ++ wanted ++ " got " ++ found.brief
    | .badText text type =>
      "failed to parse \"" ++ text ++ "\" as " ++ type.text
    | .badNumber number type =>
      "failed to parse " ++ number.text ++ " as " ++ type.text
  String.join places ++ cause

/-- The same fault, seen from outside a record field. -/
def inField (name : String) (fault : DecodeFault) : DecodeFault :=
  { fault with path := name :: fault.path }

end DecodeFault

namespace Cell

def refuse {α : Type} (cause : DecodeCause) : Except DecodeFault α :=
  .error ⟨[], cause⟩

/-- An integer written in decimal digits with an optional sign. -/
def integerOfText? (type : IntegerType) (text : String) : Option Int :=
  let (negative, digits) := Decimal.spanSign text.toList
  if digits.isEmpty ∨ ¬ digits.all Char.isDigit then none
  else
    let size : Int := Decimal.digitsValue digits
    type.fit? (if negative then -size else size)

def integerOfNumber? (type : IntegerType) : Json.Number → Option Int
  | .natural value => type.fit? value
  | .negative magnitude => type.fit? (-(magnitude : Int))
  | .real value => value.truncate?.bind type.fit?

def floatOfNumber (format : FloatFormat) : Json.Number → Binary format
  | .natural value => .ofNat value
  | .negative magnitude => .ofInt (-(magnitude : Int))
  | .real value => value.convert format

/-- Read a number column's cell, given the readings of texts and numbers. -/
def ofNumeric (type : ScalarType) (ofText : String → Option Cell)
    (ofNumber : Json.Number → Option Cell) :
    Json.Value → Except DecodeFault Cell
  | .null => .ok .null
  | .text written =>
    match ofText written with
    | some cell => .ok cell
    | none => refuse (.badText written type)
  | .number number =>
    match ofNumber number with
    | some cell => .ok cell
    | none => refuse (.badNumber number type)
  | other => refuse (.unexpected "primitive" other)

def ofText : Json.Value → Except DecodeFault Cell
  | .null => .ok .null
  | .text written => .ok (.text written)
  | .boolean true => .ok (.text "true")
  | .boolean false => .ok (.text "false")
  | .number number => .ok (.text number.cellText)
  | other => refuse (.unexpected "string" other)

/-- The cell of a value in a column of scalars. -/
def ofScalar : ScalarType → Json.Value → Except DecodeFault Cell
  | .null, .null => .ok .null
  | .null, other => refuse (.unexpected "null" other)
  | .boolean, .null => .ok .null
  | .boolean, .boolean value => .ok (.boolean value)
  | .boolean, other => refuse (.unexpected "boolean" other)
  | .integer type, value =>
    ofNumeric (.integer type)
      (fun text => (integerOfText? type text).map .integer)
      (fun number => (integerOfNumber? type number).map .integer) value
  | .float32, value =>
    ofNumeric .float32
      (fun text => (Decimal.parse? .single text).map .float32)
      (fun number => some (.float32 (floatOfNumber .single number))) value
  | .float64, value =>
    ofNumeric .float64
      (fun text => (Decimal.parse? .double text).map .float64)
      (fun number => some (.float64 (floatOfNumber .double number))) value
  | .utf8, value => ofText value
  | .largeUtf8, value => ofText value
  | .yearMonthInterval, .null => .ok .null
  | .yearMonthInterval, other => refuse (.unexpected "primitive" other)

/-- The items of a list cell; null has none. -/
def listItems? : Json.Value → Except DecodeFault (Option (List Json.Value))
  | .array items => .ok (some items)
  | .null => .ok none
  | other => refuse (.unexpected "[" other)

/-- The members of a record cell; null has none. -/
def recordMembers? :
    Json.Value → Except DecodeFault (Option (List (String × Json.Value)))
  | .object members => .ok (some members)
  | .null => .ok none
  | other => refuse (.unexpected "\x7b" other)

/-- Give every list back its own cells out of the cells of all of them. -/
def regroup : List (Option Nat) → List Cell → List Cell
  | [], _ => []
  | none :: sizes, cells => .null :: regroup sizes cells
  | some size :: sizes, cells =>
    .list (cells.take size) :: regroup sizes (cells.drop size)

/-- Rows out of columns: row `i` has the `i`-th cell of every column, and a
missing record is null. -/
def transpose : List Bool → List (List Cell) → List Cell
  | [], _ => []
  | present :: rows, columns =>
    (if present then .record (columns.map fun column => column.headD .null)
      else .null) ::
      transpose rows (columns.map List.tail)

/-- The value of a name in every row; null where the row or the name is
missing. -/
def project (name : String)
    (rows : List (Option (List (String × Json.Value)))) :
    List Json.Value :=
  rows.map fun row =>
    (row.bind (Json.Value.lookup? name)).getD .null

mutual

/-- The cells of a column. -/
def decodeColumn :
    ColumnType → List Json.Value → Except DecodeFault (List Cell)
  | .scalar type, values => values.mapM (ofScalar type)
  | .list item, values => do
    let lists ← values.mapM listItems?
    let items := (lists.map fun list => list.getD []).flatten
    let cells ← decodeColumn item items
    .ok (regroup (lists.map fun list => list.map List.length) cells)
  | .record fields, values => do
    let rows ← values.mapM recordMembers?
    let columns ← decodeFields [] fields rows
    .ok (transpose (rows.map Option.isSome) columns)

/-- The columns of record fields.  Of two fields with one name the first gets
the values. -/
def decodeFields (seen : List String) :
    List (String × ColumnType) →
      List (Option (List (String × Json.Value))) →
      Except DecodeFault (List (List Cell))
  | [], _ => .ok []
  | (name, type) :: rest, rows => do
    let values :=
      if seen.contains name then rows.map fun _ => .null
      else project name rows
    let column ← (decodeColumn type values).mapError (·.inField name)
    let columns ← decodeFields (name :: seen) rest rows
    .ok (column :: columns)

end

end Cell

/-- Why rows cannot be decoded under a schema. -/
inductive ColumnarFault where
  | conflict (cause : ShapeConflict)
  | decode (fault : DecodeFault)
  | unsupported (type : ColumnType)

def ColumnarFault.message : ColumnarFault → String
  | .conflict cause => "Json error: " ++ cause.message
  | .decode fault => "Json error: " ++ fault.message
  | .unsupported type =>
    "Not yet implemented: Support for " ++ type.text ++ " in JSON reader"

/-- Decode rows of objects under a schema.  Without columns only the number
of rows remains. -/
def Table.decode (schema : List Field)
    (rows : List (List (String × Json.Value))) :
    Except ColumnarFault Table :=
  match schema.findSome? fun field => field.type.undecodable? with
  | some type => .error (.unsupported type)
  | none =>
    let fields := schema.map fun field => (field.name, field.type)
    match Cell.decodeFields [] fields (rows.map some) with
    | .error fault => .error (.decode fault)
    | .ok columns =>
      .ok
        { rows := rows.length
          columns := List.zipWith Column.mk schema columns }

end JsonIntake
