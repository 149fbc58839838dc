import JsonIntake.Proofs.Table.Merging

/-!
# The joined table

The joined table of compatible tables has all their rows, one table behind the
other.  A table gives every column its own cells, found by name and read under
the merged type, and a table without columns gives nulls.
-/

namespace JsonIntake

open ColumnType (mergedType)

/-- The cells that a table has for a field. -/
def Table.cellsFor (field : Field) (table : Table) : List Cell :=
  match table.column? field.name with
  | some column => column.cellsAs field.type
  | none => List.replicate table.rows .null

/-- Every column has one cell per row. -/
def Table.Full (table : Table) : Prop :=
  ∀ column ∈ table.columns, column.cells.length = table.rows

theorem Column.length_cellsAs (column : Column) (type : ColumnType) :
    (column.cellsAs type).length = column.cells.length := by
  unfold Column.cellsAs
  split
  · exact List.length_map _
  · rfl

theorem Table.length_cellsFor {table : Table} (hfull : table.Full)
    (field : Field) : (table.cellsFor field).length = table.rows := by
  unfold Table.cellsFor
  split
  · next column hcolumn =>
      rw [Column.length_cellsAs, hfull column (column?_mem hcolumn).1]
  · exact List.length_replicate

theorem length_flatMap_cellsFor {tables : List Table}
    (hfull : ∀ table ∈ tables, table.Full) (field : Field) :
    (tables.flatMap (Table.cellsFor field)).length =
      (tables.map (·.rows)).sum := by
  rw [List.length_flatMap]
  congr 1
  exact List.map_congr_left fun table htable =>
    Table.length_cellsFor (hfull table htable) field

namespace Assembler

variable {tables : List Table} {table : Table} {index : Nat} {field : Field}

theorem getElem?_filterMap_of_isSome {α β : Type} {f : α → Option β}
    {xs : List α} (hsome : ∀ x ∈ xs, (f x).isSome = true) (index : Nat) :
    (xs.filterMap f)[index]? = xs[index]?.bind f := by
  induction xs generalizing index with
  | nil => rfl
  | cons x xs ih =>
      rw [List.forall_mem_cons] at hsome
      obtain ⟨y, hy⟩ := Option.isSome_iff_exists.mp hsome.1
      rw [List.filterMap_cons_some hy]
      cases index with
      | zero => simp [hy]
      | succ index => simpa using ih hsome.2 index

/-- A part gives a column the cells of its table. -/
theorem cells_partOf (hcompatible : Compatible tables)
    (htable : table ∈ tables) {name : String}
    (hindex : (leadingNames tables)[index]? = some name)
    (hname : field.name = name) :
    (partOf (leading tables) table).cells index field =
      table.cellsFor field := by
  unfold partOf
  by_cases hcolumns : table.columns = []
  · simp [hcolumns, Part.cells, Table.cellsFor, Table.column?]
  · have hsome : ∀ other ∈ leading tables,
        (table.column? other.name).isSome = true := by
      intro other hother
      have hmem : other.name ∈ table.columnNames :=
        (hcompatible.mem_columnNames htable hcolumns).mpr
          (List.mem_map_of_mem hother)
      exact Option.isSome_iff_exists.mpr (Table.exists_column? hmem)
    rw [leadingNames, List.getElem?_map, Option.map_eq_some_iff] at hindex
    obtain ⟨first, hfirst, hother⟩ := hindex
    have hget : (table.reorder (leading tables)).columns[index]? =
        table.column? field.name := by
      rw [Table.reorder, getElem?_filterMap_of_isSome hsome, hfirst,
        Option.bind_some, hother, hname]
    obtain ⟨column, hcolumn⟩ := Option.isSome_iff_exists.mp
      (hsome first (List.mem_of_getElem? hfirst))
    rw [hother, ← hname] at hcolumn
    rw [if_neg (mt List.isEmpty_iff.mp hcolumns), Part.cells, hget,
      Table.cellsFor, hcolumn]

theorem foldl_part_rows (parts : List Part) (start : Nat) :
    parts.foldl (fun rows part => rows + part.rows) start =
      start + (parts.map (·.rows)).sum := by
  induction parts generalizing start with
  | nil => rfl
  | cons part parts ih =>
      rw [List.foldl_cons, ih, List.map_cons, List.sum_cons, Nat.add_assoc]

theorem map_rows_parts (tables : List Table) :
    (ofTables tables).parts.map (·.rows) = tables.map (·.rows) := by
  rw [ofTables, List.map_map]
  refine List.map_congr_left fun table _ => ?_
  rw [Function.comp_apply, partOf]
  split <;> rfl

/-- The joined table of compatible tables. -/
theorem finish_ofTables (hcompatible : Compatible tables) :
    (ofTables tables).finish =
      ⟨(tables.map (·.rows)).sum, (mergedSchema tables).map fun field =>
        ⟨field, tables.flatMap (Table.cellsFor field)⟩⟩ := by
  have hschema : (ofTables tables).schema.getD [] = mergedSchema tables := by
    rw [← finish_schema, finish_schema_ofTables]
  unfold finish
  rw [foldl_part_rows, map_rows_parts, hschema, Nat.zero_add]
  congr 1
  -- The number of a column is only there to find its cells in the parts.
  have hcells : ∀ entry ∈ (mergedSchema tables).zipIdx,
      (⟨entry.1, (ofTables tables).parts.flatMap
        (Part.cells entry.2 entry.1)⟩ : Column) =
      ⟨entry.1, tables.flatMap (Table.cellsFor entry.1)⟩ := by
    rintro ⟨field, index⟩ hentry
    have hfield := List.mem_zipIdx_iff_getElem?.mp hentry
    have hname : (leadingNames tables)[index]? = some field.name := by
      rw [mergedSchema, List.getElem?_map, Option.map_eq_some_iff] at hfield
      obtain ⟨first, hfirst, rfl⟩ := hfield
      rw [leadingNames, List.getElem?_map, hfirst]
      rfl
    rw [ofTables, List.flatMap_map]
    congr 1
    exact List.flatMap_congr fun table htable =>
      cells_partOf hcompatible htable hname rfl
  rw [List.map_congr_left hcells]
  have hfirst : (mergedSchema tables).zipIdx.map Prod.fst =
      mergedSchema tables := List.zipIdx_map_fst _ _
  conv => rhs; rw [← hfirst, List.map_map]
  rfl

end Assembler

end JsonIntake
