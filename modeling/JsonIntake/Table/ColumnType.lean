import JsonIntake.Text

/-!
# Column types

The types that the columns of a table can have, and their text.
-/

namespace JsonIntake

/-- Integer widths. -/
inductive IntegerType where
  | int8
  | int16
  | int32
  | int64
  | uint8
  | uint16
  | uint32
  | uint64
deriving DecidableEq, Repr

namespace IntegerType

def text : IntegerType → String
  | .int8 => "Int8"
  | .int16 => "Int16"
  | .int32 => "Int32"
  | .int64 => "Int64"
  | .uint8 => "UInt8"
  | .uint16 => "UInt16"
  | .uint32 => "UInt32"
  | .uint64 => "UInt64"

/-- Least value. -/
def low : IntegerType → Int
  | .int8 => -128
  | .int16 => -32768
  | .int32 => -2147483648
  | .int64 => -9223372036854775808
  | _ => 0

/-- Greatest value. -/
def high : IntegerType → Int
  | .int8 => 127
  | .int16 => 32767
  | .int32 => 2147483647
  | .int64 => 9223372036854775807
  | .uint8 => 255
  | .uint16 => 65535
  | .uint32 => 4294967295
  | .uint64 => 18446744073709551615

/-- The value, if the type holds it. -/
def fit? (type : IntegerType) (value : Int) : Option Int :=
  if type.low ≤ value ∧ value ≤ type.high then some value else none

end IntegerType

/-- Types whose cells hold one value. -/
inductive ScalarType where
  | null
  | boolean
  | integer (type : IntegerType)
  | float32
  | float64
  | utf8
  | largeUtf8
  /-- Months; columns of this type can be asked for but not decoded. -/
  | yearMonthInterval
deriving DecidableEq, Repr

def ScalarType.text : ScalarType → String
  | .null => "Null"
  | .boolean => "Boolean"
  | .integer type => type.text
  | .float32 => "Float32"
  | .float64 => "Float64"
  | .utf8 => "Utf8"
  | .largeUtf8 => "LargeUtf8"
  | .yearMonthInterval => "Interval(YearMonth)"

inductive ColumnType where
  | scalar (type : ScalarType)
  | list (item : ColumnType)
  | record (fields : List (String × ColumnType))
deriving Inhabited, Repr

namespace ColumnType

@[match_pattern] abbrev null : ColumnType := .scalar .null

@[match_pattern] abbrev boolean : ColumnType := .scalar .boolean

@[match_pattern] abbrev int64 : ColumnType := .scalar (.integer .int64)

@[match_pattern] abbrev float64 : ColumnType := .scalar .float64

@[match_pattern] abbrev utf8 : ColumnType := .scalar .utf8

mutual

def decEq : (a b : ColumnType) → Decidable (a = b)
  | .scalar a, .scalar b =>
    if h : a = b then .isTrue (by rw [h]) else .isFalse (by simpa using h)
  | .list a, .list b =>
    match decEq a b with
    | .isTrue h => .isTrue (by rw [h])
    | .isFalse h => .isFalse (by simpa using h)
  | .record a, .record b =>
    match decEqFields a b with
    | .isTrue h => .isTrue (by rw [h])
    | .isFalse h => .isFalse (by simpa using h)
  | .scalar _, .list _ | .scalar _, .record _ => .isFalse nofun
  | .list _, .scalar _ | .list _, .record _ => .isFalse nofun
  | .record _, .scalar _ | .record _, .list _ => .isFalse nofun

def decEqFields : (a b : List (String × ColumnType)) → Decidable (a = b)
  | [], [] => .isTrue rfl
  | [], _ :: _ => .isFalse nofun
  | _ :: _, [] => .isFalse nofun
  | (n, a) :: as, (m, b) :: bs =>
    if hname : n = m then
      match decEq a b, decEqFields as bs with
      | .isTrue h, .isTrue hs => .isTrue (by rw [hname, h, hs])
      | .isFalse h, _ => .isFalse (by simp [h])
      | _, .isFalse hs => .isFalse (by simp [hs])
    else .isFalse (by simp [hname])

end

instance : DecidableEq ColumnType := decEq

mutual

/-- The type in words, with the names of record fields between quotes. -/
def text : ColumnType → String
  | .scalar type => type.text
  | .list item => "List(" ++ item.text ++ ")"
  | .record fields => "Struct(" ++ fieldsText fields ++ ")"

def fieldsText : List (String × ColumnType) → String
  | [] => ""
  | [(name, type)] => Text.quoted name ++ ": " ++ type.text
  | (name, type) :: rest =>
    Text.quoted name ++ ": " ++ type.text ++ ", " ++ fieldsText rest

end

mutual

/-- The first type inside that has no decoder. -/
def undecodable? : ColumnType → Option ColumnType
  | .scalar .yearMonthInterval => some (.scalar .yearMonthInterval)
  | .scalar _ => none
  | .list item => item.undecodable?
  | .record fields => undecodableField? fields

def undecodableField? : List (String × ColumnType) → Option ColumnType
  | [] => none
  | (_, type) :: rest => type.undecodable? <|> undecodableField? rest

end

end ColumnType

end JsonIntake
