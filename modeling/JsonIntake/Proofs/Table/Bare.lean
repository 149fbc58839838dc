import JsonIntake.Proofs.Table.Joined
import JsonIntake.Proofs.Table.Recovery

/-!
# Tables without members

A table whose rows have no members has the columns of the hints and nothing
but nulls.  Without hints it has no columns and goes with all other tables.
Under hints it has columns, and it goes only with tables in which every column
is hinted; in front of all others it even decides the order of the columns.
-/

namespace JsonIntake

open Json (Value)
open ColumnType (mergedType)

/-! ## Tables under hints -/

/-- What hints make sure of in every table of a batch. -/
structure Table.Hinted (hints : List Hint) (table : Table) : Prop where
  distinct : table.columnNames.Nodup
  types : ∀ name type, hintFor? name hints = some type →
    table.typeOf? name = some type
  nullable : ∀ column ∈ table.columns, column.field.nullable = true
  full : table.Full

/-- The table of rows without members. -/
def bareTable (hints : List Hint) (rows : Nat) : Table :=
  .ofNulls (hintedFields [] hints) rows

section Hinted

variable {hints : List Hint} {rows : List (List (String × Value))}
  {table : Table} {name : String} {type : ColumnType}

theorem schema_of_isColumn {schema : List Field} {columns : List Column}
    (hcolumns : List.Forall₂ (Table.IsColumn rows) schema columns) :
    columns.map (·.field) = schema := by
  induction hcolumns with
  | nil => rfl
  | cons hcolumn _ ih => rw [List.map_cons, ih, hcolumn.1]

theorem typeOf?_of_mem_schema {field : Field}
    (hnames : table.columnNames.Nodup) (hfield : field ∈ table.schema) :
    table.typeOf? field.name = some field.type := by
  obtain ⟨column, hcolumn, rfl⟩ := List.mem_map.mp hfield
  rw [Table.typeOf?, Table.column?_of_mem hnames hcolumn]
  rfl

theorem Table.hinted_of_tabulate (htable : tabulate hints rows = .ok table) :
    Table.Hinted hints table ∧ table.rows = rows.length ∧
      ∀ field ∈ table.schema, field.type.undecodable? = none := by
  obtain ⟨inferred, hinferred, hdecode⟩ := tabulate_eq_ok.mp htable
  have hnames : ((applyHints inferred hints).map (·.name)).Nodup :=
    nodup_applyHints (nodup_inferColumns hinferred)
  obtain ⟨hdecodable, hcount, hcolumns⟩ := (Table.decode_iff hnames).mp hdecode
  have hschema : table.schema = applyHints inferred hints :=
    schema_of_isColumn hcolumns
  have hdistinct : table.columnNames.Nodup := by
    rwa [← names_schema, hschema]
  rw [← hschema] at hdecodable
  refine ⟨⟨hdistinct, ?_, ?_, ?_⟩, hcount, hdecodable⟩
  · intro name type hhint
    have hmem : name ∈ (applyHints inferred hints).map (·.name) :=
      mem_names_applyHints.mpr (.inr (by rw [hhint]; rfl))
    obtain ⟨field, hfield, rfl⟩ := List.mem_map.mp hmem
    rw [typeOf?_of_mem_schema hdistinct (hschema ▸ hfield)]
    rcases mem_applyHints hfield with hsame | ⟨hnone, -⟩
    · exact hsame.symm.trans hhint
    · rw [hnone] at hhint
      exact absurd hhint nofun
  · intro column hcolumn
    have hfield : column.field ∈ applyHints inferred hints :=
      hschema ▸ List.mem_map_of_mem hcolumn
    exact nullable_applyHints hfield
  · intro column hcolumn
    obtain ⟨_, -, -, hcells⟩ := forall₂_exists_left hcolumns hcolumn
    rw [Cell.length_decodeColumn hcells, hcount, Shape.valuesOf,
      Cell.project, List.length_map, List.length_map]

theorem schema_bareTable (hints : List Hint) (count : Nat) :
    (bareTable hints count).schema = hintedFields [] hints := by
  unfold bareTable Table.ofNulls Table.schema
  rw [List.map_map]
  exact List.map_id _

theorem nodup_bareTable (hints : List Hint) (count : Nat) :
    (bareTable hints count).columnNames.Nodup := by
  rw [← names_schema, schema_bareTable]
  exact nodup_hintedFields

theorem typeOf?_bareTable (count : Nat) :
    (bareTable hints count).typeOf? name = hintFor? name hints := by
  cases hhint : hintFor? name hints with
  | some type =>
      have hfield : (⟨name, type, true⟩ : Field) ∈ hintedFields [] hints :=
        mem_hintedFields.mpr ⟨List.not_mem_nil, hhint, rfl⟩
      rw [← schema_bareTable hints count] at hfield
      exact typeOf?_of_mem_schema (nodup_bareTable hints count) hfield
  | none =>
      rw [Table.typeOf?_eq_none_iff, ← names_schema, schema_bareTable]
      intro hname
      obtain ⟨field, hfield, rfl⟩ := List.mem_map.mp hname
      rw [(mem_hintedFields.mp hfield).2.1] at hhint
      exact absurd hhint nofun

theorem cellsFor_bareTable (hints : List Hint) (count : Nat)
    (field : Field) :
    (bareTable hints count).cellsFor field =
      List.replicate count .null := by
  unfold Table.cellsFor
  split
  · next column hcolumn =>
      obtain ⟨held, -, rfl⟩ :=
        List.mem_map.mp (Table.column?_mem hcolumn).1
      unfold Column.cellsAs
      split
      · rw [List.map_replicate]
        rfl
      · rfl
  · rfl

/-- Rows without members can be tabulated if the columns of the hints can be
decoded. -/
theorem tabulate_bare {count : Nat}
    (hdecodable : ∀ field ∈ hintedFields [] hints,
      field.type.undecodable? = none)
    (hrows : rows = List.replicate count []) :
    tabulate hints rows = .ok (bareTable hints count) := by
  have hinferred : inferColumns rows = .ok [] := by
    have hfold : ∀ count : Nat,
        (List.replicate count []).foldlM Shape.addMembers [] = .ok [] := by
      intro count
      induction count with
      | zero => rfl
      | succ count ih =>
          rw [List.replicate_succ, List.foldlM_cons, Shape.addMembers]
          exact ih
    rw [hrows, inferColumns, hfold]
    rfl
  refine tabulate_eq_ok.mpr ⟨[], hinferred, ?_⟩
  have hfields : applyHints [] hints = hintedFields [] hints := applyHints_eq
  rw [hfields, Table.decode_iff nodup_hintedFields]
  refine ⟨hdecodable, ?_, ?_⟩
  · rw [hrows, List.length_replicate]
    rfl
  · unfold bareTable Table.ofNulls
    rw [List.forall₂_map_right_iff, List.forall₂_same]
    intro field _
    refine ⟨rfl, ?_⟩
    have hvalues : Shape.valuesOf field.name rows =
        List.replicate count .null := by
      rw [Shape.valuesOf_of_empty (by rw [hrows]; simp), hrows,
        List.length_replicate]
    rw [hvalues]
    exact Cell.decodeColumn_replicate_null _ _

end Hinted

/-! ## A bare table among others -/

section Insert

variable {hints : List Hint} {front back : List Table} {count : Nat}

theorem mem_typesOf_insert (count : Nat)
    (hhinted : ∃ table ∈ front ++ back, table.Hinted hints)
    (name : String) (type : ColumnType) :
    type ∈ typesOf name (front ++ bareTable hints count :: back) ↔
      type ∈ typesOf name (front ++ back) := by
  rw [mem_typesOf, mem_typesOf]
  constructor
  · rintro ⟨table, htable, htype⟩
    by_cases hbare : table = bareTable hints count
    · rw [hbare, typeOf?_bareTable] at htype
      obtain ⟨other, hother, hhints⟩ := hhinted
      exact ⟨other, hother, hhints.types name type htype⟩
    · refine ⟨table, ?_, htype⟩
      simpa [hbare] using htable
  · rintro ⟨table, htable, htype⟩
    refine ⟨table, ?_, htype⟩
    rcases List.mem_append.mp htable with hfront | hback
    · exact List.mem_append_left _ hfront
    · exact List.mem_append_right _ (List.mem_cons_of_mem _ hback)

theorem columns_bareTable_eq_nil :
    (bareTable hints count).columns = [] ↔ hints = [] := by
  cases hints with
  | nil => simp [bareTable, Table.ofNulls, hintedFields]
  | cons hint rest => simp [bareTable, Table.ofNulls, hintedFields]

theorem mem_names_bareTable {name : String} :
    name ∈ (bareTable hints count).columnNames ↔
      (hintFor? name hints).isSome = true := by
  rw [← typeOf?_bareTable count, ← not_iff_not,
    ← Table.typeOf?_eq_none_iff, Bool.not_eq_true,
    Option.isSome_eq_false_iff, Option.isNone_iff_eq_none]

theorem Table.Hinted.mem_names {table : Table} {name : String}
    (hhinted : table.Hinted hints)
    (hname : (hintFor? name hints).isSome = true) :
    name ∈ table.columnNames := by
  obtain ⟨type, htype⟩ := Option.isSome_iff_exists.mp hname
  by_contra hmissing
  rw [← Table.typeOf?_eq_none_iff, hhinted.types name type htype] at hmissing
  exact absurd hmissing nofun

theorem Table.Hinted.columns_ne_nil {table : Table}
    (hhinted : table.Hinted hints) (hhints : hints ≠ []) :
    table.columns ≠ [] := by
  obtain ⟨hint, rest, rfl⟩ := List.exists_cons_of_ne_nil hhints
  intro hnil
  have hname : hint.1 ∈ table.columnNames :=
    hhinted.mem_names (by simp [hintFor?_cons])
  rw [Table.columnNames, hnil] at hname
  exact absurd hname List.not_mem_nil

/-- A bare table fits to others if they have no columns but those of the
hints. -/
theorem compatible_insert_iff (count : Nat)
    (hcompatible : Compatible (front ++ back))
    (hhinted : ∀ table ∈ front ++ back, table.Hinted hints)
    (hsome : front ++ back ≠ []) :
    Compatible (front ++ bareTable hints count :: back) ↔
      hints = [] ∨ ∀ name ∈ leadingNames (front ++ back),
        (hintFor? name hints).isSome = true := by
  obtain ⟨first, hfirst⟩ := List.exists_mem_of_ne_nil _ hsome
  have hmem : ∀ {table}, table ∈ front ++ bareTable hints count :: back ↔
      table = bareTable hints count ∨ table ∈ front ++ back := by
    intro table
    simp only [List.mem_append, List.mem_cons]
    exact or_left_comm
  by_cases hhints : hints = []
  · refine iff_of_true (hcompatible.of_filled ?_) (.inl hhints)
    intro table htable hcolumns
    rcases hmem.mp htable with rfl | hother
    · exact absurd (columns_bareTable_eq_nil.mpr hhints) hcolumns
    · exact hother
  · -- Under hints all tables have columns, so their names are compared.
    have hbare : (bareTable hints count).columns ≠ [] :=
      mt columns_bareTable_eq_nil.mp hhints
    have hcolumns : first.columns ≠ [] :=
      (hhinted first hfirst).columns_ne_nil hhints
    have hleading : ∀ name, name ∈ first.columnNames ↔
        name ∈ leadingNames (front ++ back) :=
      fun _ => hcompatible.mem_columnNames hfirst hcolumns
    constructor
    · intro hboth
      refine .inr fun name hname => ?_
      have hsame := hboth.names first (hmem.mpr (.inr hfirst)) hcolumns _
        (hmem.mpr (.inl rfl)) hbare name
      exact mem_names_bareTable.mp (hsame.mp ((hleading name).mpr hname))
    · rintro (hnil | hall)
      · exact absurd hnil hhints
      · have hnames : ∀ table ∈ front ++ bareTable hints count :: back,
            table.columns ≠ [] → ∀ name, name ∈ table.columnNames ↔
              name ∈ leadingNames (front ++ back) := by
          intro table htable hfilled name
          rcases hmem.mp htable with rfl | hother
          · rw [mem_names_bareTable]
            refine ⟨fun hname => ?_, hall name⟩
            exact (hleading name).mp
              ((hhinted first hfirst).mem_names hname)
          · exact hcompatible.mem_columnNames hother hfilled
        refine compatible_of_names hnames fun name => ?_
        exact (hcompatible.types name).subset fun type =>
          (mem_typesOf_insert count ⟨first, hfirst, hhinted first hfirst⟩
            name type).mp

/-! ## The columns and their order -/

theorem mergedSchema_eq {tables : List Table}
    (hhinted : ∀ table ∈ tables, ∀ column ∈ table.columns,
      column.field.nullable = true) :
    Assembler.mergedSchema tables = (leadingNames tables).map fun name =>
      ⟨name, mergedType (typesOf name tables), true⟩ := by
  unfold Assembler.mergedSchema leadingNames
  rw [List.map_map]
  refine List.map_congr_left fun field hfield => ?_
  have hleading : leading tables ≠ [] := List.ne_nil_of_mem hfield
  obtain ⟨first, hfirst, -, hschema⟩ := exists_leading hleading
  rw [hschema] at hfield
  obtain ⟨column, hcolumn, rfl⟩ := List.mem_map.mp hfield
  rw [hhinted first hfirst column hcolumn]
  rfl

theorem mergedSchema_insert (hcompatible : Compatible (front ++ back))
    (hhinted : ∀ table ∈ front ++ back, table.Hinted hints)
    (hsome : front ++ back ≠ [])
    (hnames : leadingNames (front ++ bareTable hints count :: back) =
      leadingNames (front ++ back)) :
    Assembler.mergedSchema (front ++ bareTable hints count :: back) =
      Assembler.mergedSchema (front ++ back) := by
  obtain ⟨first, hfirst⟩ := List.exists_mem_of_ne_nil _ hsome
  rw [mergedSchema_eq, mergedSchema_eq, hnames]
  · refine List.map_congr_left fun name _ => ?_
    have htypes := mem_typesOf_insert count
      ⟨first, hfirst, hhinted first hfirst⟩ name
    rw [ColumnType.mergedType_congr (fun type => (htypes type).symm)
      (hcompatible.types name)]
  · exact fun table htable => (hhinted table htable).nullable
  · intro table htable column hcolumn
    rcases List.mem_append.mp htable with hfront | hlater
    · exact (hhinted table (List.mem_append_left _ hfront)).nullable column
        hcolumn
    · rcases List.mem_cons.mp hlater with rfl | hback
      · obtain ⟨field, hfield, rfl⟩ := List.mem_map.mp hcolumn
        exact (mem_hintedFields.mp hfield).2.2
      · exact (hhinted table (List.mem_append_right _ hback)).nullable column
          hcolumn

/-- A bare table in front of all others decides the order of the columns. -/
theorem leadingNames_insert_iff (count : Nat)
    (hhinted : ∀ table ∈ front ++ back, table.Hinted hints) :
    leadingNames (front ++ bareTable hints count :: back) =
        leadingNames (front ++ back) ↔
      hints = [] ∨ (front = [] → leadingNames (front ++ back) =
        (hintedFields [] hints).map (·.name)) := by
  unfold leadingNames
  rw [leading_append, leading_append, leading_cons]
  by_cases hhints : hints = []
  · simp [columns_bareTable_eq_nil, hhints]
  · rw [if_neg (mt columns_bareTable_eq_nil.mp hhints), schema_bareTable]
    cases front with
    | nil => simp [leading, hhints, eq_comm]
    | cons first rest =>
        have hcolumns : first.columns ≠ [] :=
          (hhinted first (by simp)).columns_ne_nil hhints
        simp [leading_cons, hcolumns, Table.schema]

end Insert

end JsonIntake
