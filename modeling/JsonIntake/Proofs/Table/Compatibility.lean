import JsonIntake.Proofs.Table.Ordering
import Mathlib.Data.List.Nodup

/-!
# Compatible tables

Tables can be joined if those with columns have the same names, and if the
types under every name can be merged.  Both conditions are about which tables
there are, not about their order, and tables without columns do not count.
The first table with columns, the leading one, has the names of all.
-/

namespace JsonIntake

open ColumnType (Mergeable)

namespace Table

variable {table : Table} {name : String} {column : Column}

theorem column?_eq_none_iff :
    table.column? name = none ↔ name ∉ table.columnNames := by
  simp [column?, columnNames]

theorem column?_mem (hcolumn : table.column? name = some column) :
    column ∈ table.columns ∧ column.field.name = name :=
  ⟨List.mem_of_find?_eq_some hcolumn, by simpa using List.find?_some hcolumn⟩

theorem exists_column? (hname : name ∈ table.columnNames) :
    ∃ column, table.column? name = some column := by
  rw [← Option.isSome_iff_exists, ← Option.ne_none_iff_isSome, ne_eq,
    column?_eq_none_iff, not_not]
  exact hname

/-- The type of the column of a name. -/
def typeOf? (name : String) (table : Table) : Option ColumnType :=
  (table.column? name).map (·.field.type)

theorem typeOf?_eq_none_iff :
    typeOf? name table = none ↔ name ∉ table.columnNames := by
  rw [typeOf?, Option.map_eq_none_iff, column?_eq_none_iff]

/-- The columns of the fields of a schema. -/
def reorder (schema : List Field) (table : Table) : Table :=
  { table with columns := schema.filterMap fun field =>
      table.column? field.name }

theorem column?_of_mem (hnames : table.columnNames.Nodup)
    (hcolumn : column ∈ table.columns) :
    table.column? column.field.name = some column := by
  unfold columnNames at hnames
  unfold column?
  generalize table.columns = columns at hnames hcolumn
  induction columns with
  | nil => exact absurd hcolumn List.not_mem_nil
  | cons first rest ih =>
      rw [List.map_cons, List.nodup_cons] at hnames
      rw [List.find?_cons]
      rcases List.mem_cons.mp hcolumn with rfl | hrest
      · simp
      · have hne : (first.field.name == column.field.name) = false := by
          rw [beq_eq_false_iff_ne]
          intro heq
          exact hnames.1 (heq ▸ List.mem_map_of_mem hrest)
        rw [hne]
        exact ih hnames.2 hrest

theorem reorder_schema (hnames : table.columnNames.Nodup) :
    table.reorder table.schema = table := by
  have hcolumns : table.schema.filterMap (fun field =>
      table.column? field.name) = table.columns := by
    rw [schema, List.filterMap_map]
    exact (List.filterMap_congr fun _ => column?_of_mem hnames).trans
      List.filterMap_some
  rw [reorder, hcolumns]

end Table

/-! ## Compatible tables -/

/-- The types that tables give the columns of a name. -/
def typesOf (name : String) (tables : List Table) : List ColumnType :=
  tables.filterMap (Table.typeOf? name)

/-- The columns of the first table that has any. -/
def leading : List Table → List Field
  | [] => []
  | table :: rest =>
    if table.columns.isEmpty then leading rest else table.schema

/-- Tables with columns have the same names, and types that merge. -/
structure Compatible (tables : List Table) : Prop where
  names : ∀ table ∈ tables, table.columns ≠ [] →
    ∀ other ∈ tables, other.columns ≠ [] →
    ∀ name, name ∈ table.columnNames ↔ name ∈ other.columnNames
  types : ∀ name, Mergeable (typesOf name tables)

section Compatible

variable {tables more : List Table} {table : Table} {name : String}

theorem typesOf_append (name : String) (tables more : List Table) :
    typesOf name (tables ++ more) =
      typesOf name tables ++ typesOf name more :=
  List.filterMap_append

theorem mem_typesOf {type : ColumnType} :
    type ∈ typesOf name tables ↔
      ∃ table ∈ tables, table.typeOf? name = some type :=
  List.mem_filterMap

theorem typesOf_singleton {column : Column}
    (hcolumn : table.column? name = some column) :
    typesOf name [table] = [column.field.type] := by
  simp [typesOf, Table.typeOf?, hcolumn]

theorem typesOf_of_columns_nil (hcolumns : table.columns = []) :
    typesOf name [table] = [] := by
  simp [typesOf, Table.typeOf?, Table.column?, hcolumns]

theorem mergeable_nil : Mergeable [] :=
  .inl ⟨.null, fun _ hmem => absurd hmem List.not_mem_nil⟩

theorem ColumnType.Mergeable.subset {types others : List ColumnType}
    (hmerge : Mergeable types) (hsubset : ∀ type ∈ others, type ∈ types) :
    Mergeable others := by
  rcases hmerge with ⟨common, hcommon⟩ | hnumbers
  · exact .inl ⟨common, fun type htype => hcommon type (hsubset type htype)⟩
  · exact .inr fun type htype => hnumbers type (hsubset type htype)

/-- Only tables with columns count. -/
theorem Compatible.of_filled (hcompatible : Compatible more)
    (hfilled : ∀ table ∈ tables, table.columns ≠ [] → table ∈ more) :
    Compatible tables := by
  constructor
  · intro table htable hcolumns other hother hcolumns'
    exact hcompatible.names table (hfilled _ htable hcolumns) hcolumns other
      (hfilled _ hother hcolumns') hcolumns'
  · intro name
    refine (hcompatible.types name).subset fun type htype => ?_
    obtain ⟨table, htable, hfound⟩ := mem_typesOf.mp htype
    have hcolumns : table.columns ≠ [] := by
      intro hnil
      rw [Table.typeOf?, Table.column?, hnil] at hfound
      exact absurd hfound nofun
    exact mem_typesOf.mpr ⟨table, hfilled _ htable hcolumns, hfound⟩

/-- It is enough that all tables with columns have the names of one list. -/
theorem compatible_of_names {names : List String}
    (hnames : ∀ table ∈ tables, table.columns ≠ [] →
      ∀ name, name ∈ table.columnNames ↔ name ∈ names)
    (htypes : ∀ name, Mergeable (typesOf name tables)) :
    Compatible tables := by
  refine ⟨fun table htable hcolumns other hother hcolumns' name => ?_, htypes⟩
  rw [hnames table htable hcolumns, hnames other hother hcolumns']

/-- Where a table is the first that is not compatible with those before it, no
shorter list of tables is incompatible. -/
theorem isLeast_incompatible {front : List Table} (back : List Table)
    (hfront : Compatible front) (hfirst : ¬ Compatible (front ++ [table])) :
    IsLeast {index | index < (front ++ table :: back).length ∧
      ¬ Compatible ((front ++ table :: back).take (index + 1))}
      front.length := by
  refine ⟨⟨?_, ?_⟩, ?_⟩
  · rw [List.length_append, List.length_cons]
    omega
  · rwa [List.take_length_add_append]
  · rintro index ⟨-, hindex⟩
    by_contra hless
    refine hindex (hfront.of_filled fun other hother _ => ?_)
    rw [List.take_append_of_le_length (by omega)] at hother
    exact List.mem_of_mem_take hother

theorem compatible_nil : Compatible [] :=
  ⟨fun _ hmem => absurd hmem List.not_mem_nil, fun _ => mergeable_nil⟩

theorem compatible_singleton (table : Table) : Compatible [table] := by
  constructor
  · intro first hfirst _ other hother _ name
    rw [List.mem_singleton] at hfirst hother
    rw [hfirst, hother]
  · intro name
    by_cases hname : name ∈ table.columnNames
    · obtain ⟨column, hcolumn⟩ := Table.exists_column? hname
      rw [typesOf_singleton hcolumn]
      exact .inl ⟨column.field.type, by simp⟩
    · have hnone := Table.typeOf?_eq_none_iff.mpr hname
      simp [typesOf, hnone, mergeable_nil]

theorem leading_eq_nil_iff :
    leading tables = [] ↔ ∀ table ∈ tables, table.columns = [] := by
  induction tables with
  | nil => simp [leading]
  | cons table rest ih =>
      rw [leading, List.forall_mem_cons]
      by_cases hcolumns : table.columns = []
      · simp [hcolumns, ih]
      · simp [hcolumns, Table.schema]

theorem leading_append (tables more : List Table) :
    leading (tables ++ more) =
      if (leading tables).isEmpty then leading more else leading tables := by
  induction tables with
  | nil => rfl
  | cons table rest ih =>
      rw [List.cons_append, leading, leading, ih]
      by_cases hcolumns : table.columns = []
      · simp [hcolumns]
      · simp [hcolumns, Table.schema]

theorem leading_cons (table : Table) (rest : List Table) :
    leading (table :: rest) =
      if table.columns = [] then leading rest else table.schema := by
  simp [leading]

theorem leading_concat (tables : List Table) (table : Table) :
    leading (tables ++ [table]) =
      if (leading tables).isEmpty then table.schema else leading tables := by
  rw [leading_append, leading_cons]
  by_cases hcolumns : table.columns = []
  · simp [hcolumns, leading, Table.schema]
  · simp [hcolumns]

theorem leading_concat_of_ne_nil (hleading : leading tables ≠ [])
    (table : Table) : leading (tables ++ [table]) = leading tables := by
  rw [leading_concat, if_neg (mt List.isEmpty_iff.mp hleading)]

theorem exists_leading (hleading : leading tables ≠ []) :
    ∃ table ∈ tables, table.columns ≠ [] ∧ leading tables = table.schema := by
  induction tables with
  | nil => exact absurd rfl hleading
  | cons table rest ih =>
      rw [leading] at hleading ⊢
      by_cases hcolumns : table.columns = []
      · simp only [hcolumns, List.isEmpty_nil, if_true] at hleading ⊢
        obtain ⟨first, hfirst, hfound⟩ := ih hleading
        exact ⟨first, List.mem_cons_of_mem _ hfirst, hfound⟩
      · exact ⟨table, List.mem_cons_self, hcolumns, by simp [hcolumns]⟩

def leadingNames (tables : List Table) : List String :=
  (leading tables).map (·.name)

theorem names_schema (table : Table) :
    table.schema.map (·.name) = table.columnNames := by
  simp [Table.schema, Table.columnNames]

theorem Compatible.mem_columnNames (hcompatible : Compatible tables)
    (htable : table ∈ tables) (hcolumns : table.columns ≠ []) :
    name ∈ table.columnNames ↔ name ∈ leadingNames tables := by
  have hleading : leading tables ≠ [] :=
    fun hnil => hcolumns (leading_eq_nil_iff.mp hnil table htable)
  obtain ⟨first, hfirst, hfilled, hschema⟩ := exists_leading hleading
  rw [leadingNames, hschema, names_schema]
  exact hcompatible.names table htable hcolumns first hfirst hfilled name

theorem Compatible.typesOf_eq_nil (hcompatible : Compatible tables)
    (hname : name ∉ leadingNames tables) : typesOf name tables = [] := by
  rw [typesOf, List.filterMap_eq_nil_iff]
  intro table htable
  rw [Table.typeOf?_eq_none_iff]
  by_cases hcolumns : table.columns = []
  · simp [Table.columnNames, hcolumns]
  · rwa [hcompatible.mem_columnNames htable hcolumns]

theorem nodup_leadingNames
    (hdistinct : ∀ table ∈ tables, table.columnNames.Nodup) :
    (leadingNames tables).Nodup := by
  by_cases hleading : leading tables = []
  · rw [leadingNames, hleading]
    exact .nil
  · obtain ⟨first, hfirst, -, hschema⟩ := exists_leading hleading
    rw [leadingNames, hschema, names_schema]
    exact hdistinct first hfirst

end Compatible

end JsonIntake
