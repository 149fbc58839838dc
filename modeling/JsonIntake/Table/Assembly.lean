import JsonIntake.Failure

/-!
# Joining the tables of batches

The first table that has columns fixes their names and order.  Later tables
are matched to it by name and may widen the type of a column.  Tables without
columns become rows of nulls at the end, under the final columns.
-/

namespace JsonIntake

/-- The type of a column that earlier batches gave type `held` and the next
one gives type `found`: nulls go with everything, and integers widen to
floating point. -/
def ColumnType.join? (held found : ColumnType) : Option ColumnType :=
  if held = found ∨ found = .null then some held
  else if held = .null then some found
  else if (held = .int64 ∧ found = .float64) ∨
      (held = .float64 ∧ found = .int64) then some .float64
  else none

namespace Table

/-- The column of a table for a field, and the field with the type it takes
then. -/
def conformField (table : Table) (field : Field) :
    Except SchemaConflict (Column × Field) :=
  match table.column? field.name with
  | none => .error (.missingColumn field.name)
  | some column =>
    match field.type.join? column.field.type with
    | some type => .ok (column, { field with type })
    | none =>
      .error (.columnType field.name field.type column.field.type)

/-- A table with its columns in the order of a schema, and the schema with
the types that the table widens. -/
def conform (schema : List Field) (table : Table) :
    Except SchemaConflict (Table × List Field) :=
  if table.columns.length ≠ schema.length then
    .error (.columnCount schema.length table.columns.length)
  else do
    let pairs ← schema.mapM table.conformField
    .ok ({ table with columns := pairs.map (·.1) }, pairs.map (·.2))

end Table

/-- An integer as floating point. -/
def Cell.toFloat64 : Cell → Cell
  | .integer value => .float64 (.ofInt value)
  | cell => cell

/-- The cells of a column under a wider type. -/
def Column.cellsAs (column : Column) (type : ColumnType) : List Cell :=
  if column.field.type = .int64 ∧ type = .float64 then
    column.cells.map Cell.toFloat64
  else column.cells

/-- What a batch adds to the table. -/
inductive Part where
  | table (content : Table)
  /-- Rows of a batch without columns. -/
  | nullRows (count : Nat)

namespace Part

def rows : Part → Nat
  | .table content => content.rows
  | .nullRows count => count

/-- The cells of the column with a number, under the type of its field. -/
def cells (index : Nat) (field : Field) : Part → List Cell
  | .table content =>
    match content.columns[index]? with
    | some column => column.cellsAs field.type
    | none => []
  | .nullRows count => List.replicate count .null

end Part

/-- The parts so far, and the columns if there has been a table with any. -/
structure Assembler where
  schema : Option (List Field)
  parts : List Part

namespace Assembler

def empty : Assembler := ⟨none, []⟩

/-- Add the table of the batch with number `index`. -/
def push (assembler : Assembler) (index : Nat) (table : Table) :
    Except Failure Assembler :=
  if table.columns.isEmpty then
    .ok { assembler with
      parts := assembler.parts ++ [.nullRows table.rows] }
  else
    match assembler.schema with
    | none =>
      .ok { schema := some table.schema
            parts := assembler.parts ++ [.table table] }
    | some schema =>
      match table.conform schema with
      | .error conflict => .error (.schemaMismatch index conflict)
      | .ok (conformed, widened) =>
        .ok { schema := some widened
              parts := assembler.parts ++ [.table conformed] }

/-- All parts as one table. -/
def finish (assembler : Assembler) : Table :=
  { rows := assembler.parts.foldl (fun rows part => rows + part.rows) 0
    columns :=
      (assembler.schema.getD []).zipIdx.map fun (field, index) =>
        ⟨field, assembler.parts.flatMap (Part.cells index field)⟩ }

end Assembler

end JsonIntake
