import JsonIntake.Device
import JsonIntake.Records

/-!
# From a batch of bytes to a table

The records of a batch decide the columns; a hint of the caller replaces the
inferred type of a column or adds a column of its own.
-/

namespace JsonIntake

/-- The table of one batch, and how many of its rows stand for malformed
records. -/
structure TableFragment where
  table : Table
  malformed : Nat

/-- Inferred columns under the hints: an inferred column takes the type of
its first hint, and names that were not inferred follow in the order of their
first hint. -/
def applyHints (inferred : List (String × ColumnType)) (hints : List Hint) :
    List Field :=
  let known := inferred.map fun (name, type) =>
    (⟨name, (hintFor? name hints).getD type, true⟩ : Field)
  hints.foldl
    (fun fields (name, type) =>
      if fields.any fun field => field.name == name then fields
      else fields ++ [⟨name, type, true⟩])
    known

/-- The schema of a batch. -/
def inferSchema (records : List Record) (hints : List Hint) :
    Except Failure (List Field) :=
  match inferColumns (records.filterMap id) with
  | .ok inferred => .ok (applyHints inferred hints)
  | .error conflict => .error (.columnar (.conflict conflict))

/-- The table of the records; malformed ones are rows of nulls. -/
def materialize (schema : List Field) (records : List Record) :
    Except Failure Table :=
  match Table.decode schema (records.map fun record => record.getD []) with
  | .ok table => .ok table
  | .error fault => .error (.columnar fault)

/-- Split a batch into records and make its table. -/
def tokenize (options : ParseOptions) (buffer : Buffer) :
    Except Failure TableFragment := do
  let records ←
    if options.lines then
      RecordList.ofLines options.recovery options.delimiter buffer.toList
    else
      RecordList.ofDocument options.recovery options.delimiter buffer.toList
  let schema ← inferSchema records.toList options.hints
  let table ← materialize schema records.toList
  .ok ⟨table, records.malformed⟩

end JsonIntake
