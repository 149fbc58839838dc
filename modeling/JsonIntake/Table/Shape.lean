import JsonIntake.Json.Value
import JsonIntake.Size
import JsonIntake.Table.Basic

/-!
# Shapes of values

Column types are inferred by collecting the shapes of all values of a column.
Scalars of different kinds join to a kind that holds both, a scalar beside an
array counts as an item of it, and an object agrees with objects only.
-/

namespace JsonIntake

/-- The kinds of scalars that inference tells apart. -/
inductive ScalarKind where
  | boolean
  | int64
  | float64
  | utf8
deriving DecidableEq, Repr

namespace ScalarKind

/-- The least kind that holds both. -/
def join : ScalarKind → ScalarKind → ScalarKind
  | .boolean, .boolean => .boolean
  | .int64, .int64 => .int64
  | .int64, .float64 => .float64
  | .float64, .int64 => .float64
  | .float64, .float64 => .float64
  | _, _ => .utf8

def columnType : ScalarKind → ColumnType
  | .boolean => .boolean
  | .int64 => .int64
  | .float64 => .float64
  | .utf8 => .utf8

end ScalarKind

/-- What is known about the values of a column. -/
inductive Shape where
  /-- Nothing but nulls. -/
  | unknown
  /-- Scalars of one kind; of none where an array held only nulls. -/
  | scalar (kind : Option ScalarKind)
  | array (item : Shape)
  /-- Objects, with their members in order of first appearance. -/
  | object (members : List (String × Shape))
deriving Repr

/-- Why values have no common shape. -/
inductive ShapeConflict where
  | incompatible
  | scalarExpectedInArray
  | arrayExpectedInArray
  | objectExpectedInArray
  | scalarExpected
  | arrayExpected
  | objectExpected
deriving DecidableEq, Repr

def ShapeConflict.message : ShapeConflict → String
  | .incompatible => "Incompatible type found during schema inference:"
  | .scalarExpectedInArray => "Expected scalar value for scalar array, got:"
  | .arrayExpectedInArray => "Got non array element in nested array:"
  | .objectExpectedInArray => "Expected struct value for struct array, got:"
  | .scalarExpected => "Expected scalar or scalar array JSON type, found:"
  | .arrayExpected => "Expected array json type, found:"
  | .objectExpected => "Expected object json type, found:"

namespace Shape

def joinKinds : Option ScalarKind → Option ScalarKind → Option ScalarKind
  | none, kind => kind
  | kind, none => kind
  | some a, some b => some (a.join b)

/-- The shape recorded for a name. -/
def lookup? (name : String) (members : List (String × Shape)) :
    Option Shape :=
  (members.find? fun member => member.1 == name).map (·.2)

/-- Record a shape for a name: in its place if the name is known, else at the
end. -/
def assign (name : String) (shape : Shape) :
    List (String × Shape) → List (String × Shape)
  | [] => [(name, shape)]
  | (other, held) :: rest =>
    if other = name then (name, shape) :: rest
    else (other, held) :: assign name shape rest

/-- Add scalars to a shape. -/
def mergeScalar : Shape → Option ScalarKind → Except ShapeConflict Shape
  | .unknown, kind => .ok (.scalar kind)
  | .scalar held, kind => .ok (.scalar (joinKinds held kind))
  | .array item, kind => do
    let item ← mergeScalar item kind
    .ok (.array item)
  | .object _, _ => .error .incompatible

mutual

/-- The common shape of two groups of values. -/
def merge : Shape → Shape → Except ShapeConflict Shape
  | held, .unknown => .ok held
  | held, .scalar kind => held.mergeScalar kind
  | .unknown, .array item => .ok (.array item)
  | .array held, .array item => do
    let item ← merge held item
    .ok (.array item)
  | .scalar kind, .array item => do
    let item ← item.mergeScalar kind
    .ok (.array item)
  | .object _, .array _ => .error .incompatible
  | .unknown, .object members => .ok (.object members)
  | .object held, .object members => do
    let members ← mergeMembers held members
    .ok (.object members)
  | .scalar _, .object _ => .error .incompatible
  | .array _, .object _ => .error .incompatible

def mergeMembers (held : List (String × Shape)) :
    List (String × Shape) → Except ShapeConflict (List (String × Shape))
  | [] => .ok held
  | (name, shape) :: rest => do
    let merged ← merge ((lookup? name held).getD .unknown) shape
    mergeMembers (assign name merged held) rest

end

/-- Add one scalar to the shape of a member. -/
def addScalar (name : String) (kind : ScalarKind)
    (members : List (String × Shape)) :
    Except ShapeConflict (List (String × Shape)) :=
  match (lookup? name members).getD .unknown with
  | .object _ => .error .scalarExpected
  | held => do
    let shape ← held.mergeScalar (some kind)
    .ok (assign name shape members)

/-- Add an array with items of shape `item` to the shape of a member. -/
def addArray (name : String) (item : Shape)
    (members : List (String × Shape)) :
    Except ShapeConflict (List (String × Shape)) :=
  match (lookup? name members).getD .unknown with
  | .unknown => .ok (assign name (.array item) members)
  | .array held => do
    let item ← merge held item
    .ok (assign name (.array item) members)
  | .scalar kind => do
    let item ← merge (.scalar kind) item
    .ok (assign name (.array item) members)
  | .object _ => .error .arrayExpected

/-- The kind of a scalar; null has none. -/
def scalarKind? : Json.Value → Option ScalarKind
  | .boolean _ => some .boolean
  | .number (.natural value) =>
    some (if value < Size.half then .int64 else .float64)
  | .number (.negative _) => some .int64
  | .number (.real _) => some .float64
  | .text _ => some .utf8
  | _ => none

/-- The shape of the items of an array that starts with a scalar. -/
def ofScalars : List Json.Value → Except ShapeConflict Shape
  | items => do
    let kinds ← items.mapM fun item =>
      match item with
      | .array _ => Except.error .scalarExpectedInArray
      | .object _ => Except.error .scalarExpectedInArray
      | single => Except.ok (scalarKind? single)
    .ok (.scalar (kinds.foldl joinKinds none))

mutual

/-- The shape of the items of an array.  The first item decides what the
others have to be. -/
def ofItems : List Json.Value → Except ShapeConflict Shape
  | [] => .ok .unknown
  | .array items :: rest => do
    let first ← ofItems items
    let item ← addArrays first rest
    .ok (.array item)
  | .object members :: rest => do
    let first ← addMembers [] members
    let members ← addObjects first rest
    .ok (.object members)
  | .null :: rest => ofScalars (.null :: rest)
  | .boolean value :: rest => ofScalars (.boolean value :: rest)
  | .number value :: rest => ofScalars (.number value :: rest)
  | .text value :: rest => ofScalars (.text value :: rest)

/-- Merge the items of more arrays into a shape. -/
def addArrays (held : Shape) : List Json.Value → Except ShapeConflict Shape
  | [] => .ok held
  | .array items :: rest => do
    let item ← ofItems items
    let held ← merge held item
    addArrays held rest
  | _ :: _ => .error .arrayExpectedInArray

/-- Add the members of more objects. -/
def addObjects (held : List (String × Shape)) :
    List Json.Value → Except ShapeConflict (List (String × Shape))
  | [] => .ok held
  | .object members :: rest => do
    let held ← addMembers held members
    addObjects held rest
  | _ :: _ => .error .objectExpectedInArray

/-- Add the members of an object, one after the other. -/
def addMembers (held : List (String × Shape)) :
    List (String × Json.Value) →
      Except ShapeConflict (List (String × Shape))
  | [] => .ok held
  | (name, value) :: rest => do
    let held ← addMember held name value
    addMembers held rest

def addMember (held : List (String × Shape)) (name : String) :
    Json.Value → Except ShapeConflict (List (String × Shape))
  | .null =>
    if (lookup? name held).isSome then .ok held
    else .ok (assign name .unknown held)
  | .boolean _ => addScalar name .boolean held
  | .number value =>
    addScalar name ((scalarKind? (.number value)).getD .float64) held
  | .text _ => addScalar name .utf8 held
  | .array items => do
    let item ← ofItems items
    addArray name item held
  | .object members =>
    match (lookup? name held).getD .unknown with
    | .unknown => do
      let inner ← addMembers [] members
      .ok (assign name (.object inner) held)
    | .object inner => do
      let inner ← addMembers inner members
      .ok (assign name (.object inner) held)
    | _ => .error .objectExpected

end

mutual

/-- The column type that holds every value of a shape. -/
def columnType : Shape → ColumnType
  | .unknown => .null
  | .scalar none => .utf8
  | .scalar (some kind) => kind.columnType
  | .array item => .list item.columnType
  | .object members => .record (columnTypes members)

def columnTypes : List (String × Shape) → List (String × ColumnType)
  | [] => []
  | (name, shape) :: rest => (name, shape.columnType) :: columnTypes rest

end

end Shape

/-- The names and types of the columns that hold all rows, in order of first
appearance. -/
def inferColumns (rows : List (List (String × Json.Value))) :
    Except ShapeConflict (List (String × ColumnType)) := do
  let members ← rows.foldlM Shape.addMembers []
  .ok (Shape.columnTypes members)

end JsonIntake
