import JsonIntake.Number.Binary
import JsonIntake.Table.ColumnType

/-!
# Tables

A table is a number of rows and a list of columns; every column has one cell
per row.  Tables can be looked into by the names of their columns.
-/

namespace JsonIntake

inductive Cell where
  | null
  | boolean (value : Bool)
  | integer (value : Int)
  | float32 (value : Binary32)
  | float64 (value : Binary64)
  | text (value : String)
  | list (items : List Cell)
  | record (fields : List Cell)
deriving Repr

def Cell.isNull : Cell → Bool
  | .null => true
  | _ => false

/-- A column of a schema. -/
structure Field where
  name : String
  type : ColumnType
  nullable : Bool
deriving DecidableEq, Repr

structure Column where
  field : Field
  cells : List Cell
deriving Repr

namespace Column

/-- Whether the cell in a row is marked as null; there is no mark in columns
that hold nothing but nulls, nor behind the last row. -/
def isNullAt (column : Column) (row : Nat) : Bool :=
  match column.cells[row]? with
  | some cell => cell.isNull && column.field.type != .null
  | none => false

end Column

/-- Columns over a number of rows. -/
structure Table where
  rows : Nat
  columns : List Column
deriving Repr

namespace Table

def schema (table : Table) : List Field := table.columns.map (·.field)

def columnNames (table : Table) : List String :=
  table.columns.map (·.field.name)

def column? (table : Table) (name : String) : Option Column :=
  table.columns.find? fun column => column.field.name == name

/-- A table of nulls. -/
def ofNulls (schema : List Field) (rows : Nat) : Table :=
  { rows
    columns := schema.map fun field => ⟨field, List.replicate rows .null⟩ }

/-- The values of a column of 64-bit integers. -/
def int64Values? (table : Table) (name : String) :
    Option (List (Option Int)) :=
  match table.column? name with
  | none => none
  | some column =>
    if column.field.type = .int64 then
      some (column.cells.map fun cell =>
        match cell with
        | .integer value => some value
        | _ => none)
    else none

/-- The values of a text column. -/
def textValues? (table : Table) (name : String) :
    Option (List (Option String)) :=
  match table.column? name with
  | none => none
  | some column =>
    if column.field.type = .utf8 then
      some (column.cells.map fun cell =>
        match cell with
        | .text value => some value
        | _ => none)
    else none

/-- Whether every column marks a row as null. -/
def isNullRow (table : Table) (row : Nat) : Bool :=
  table.columns.all fun column => column.isNullAt row

end Table

end JsonIntake
