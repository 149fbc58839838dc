import JsonIntake.Proofs.Table.Batches
import JsonIntake.Proofs.Table.Compatibility

/-!
# Merging schemas

Pushing one table after the other keeps the columns of the first table that
has any, each with the merged type of all its types so far.  A push is
rejected exactly if the tables with the new one are not compatible, so the
first push that fails is the first with which they are not.
-/

namespace JsonIntake

open ColumnType (Mergeable mergedType IsMerged)

namespace Assembler

/-! ## The state after some tables -/

/-- The leading columns with the merged types of all columns. -/
def mergedSchema (tables : List Table) : List Field :=
  (leading tables).map fun field =>
    { field with type := mergedType (typesOf field.name tables) }

/-- A table in the order of a schema; without columns only its rows. -/
def partOf (schema : List Field) (table : Table) : Part :=
  if table.columns.isEmpty then .nullRows table.rows
  else .table (table.reorder schema)

/-- The state in which compatible tables are held. -/
def ofTables (tables : List Table) : Assembler :=
  ⟨if (leading tables).isEmpty then none else some (mergedSchema tables),
    tables.map (partOf (leading tables))⟩

variable {tables : List Table} {table : Table} {assembler next : Assembler}
  {index : Nat}

theorem parts_of_leading_nil (hleading : leading tables = [])
    (schema : List Field) :
    tables.map (partOf schema) = tables.map (partOf []) := by
  apply List.map_congr_left
  intro table htable
  have hcolumns := leading_eq_nil_iff.mp hleading table htable
  simp [partOf, hcolumns]

theorem ofTables_concat_nullRows (hcolumns : table.columns = []) :
    ofTables (tables ++ [table]) =
      { ofTables tables with
        parts := (ofTables tables).parts ++ [.nullRows table.rows] } := by
  have hleading : leading (tables ++ [table]) = leading tables := by
    by_cases hnil : leading tables = []
    · rw [leading_concat]
      simp [hnil, Table.schema, hcolumns]
    · exact leading_concat_of_ne_nil hnil table
  have hschema : mergedSchema (tables ++ [table]) = mergedSchema tables := by
    unfold mergedSchema
    rw [hleading]
    simp only [typesOf_append, typesOf_of_columns_nil hcolumns,
      List.append_nil]
  unfold ofTables
  rw [hschema, hleading, List.map_append, List.map_singleton]
  simp [partOf, hcolumns]

theorem ofTables_concat_first (hnames : table.columnNames.Nodup)
    (hleading : leading tables = []) (hcolumns : table.columns ≠ []) :
    ofTables (tables ++ [table]) =
      ⟨some table.schema, (ofTables tables).parts ++ [.table table]⟩ := by
  have hfirst : leading (tables ++ [table]) = table.schema := by
    rw [leading_concat, hleading]
    rfl
  have hfilled : table.schema ≠ [] := by simpa [Table.schema] using hcolumns
  have htypes : ∀ name, typesOf name tables = [] := by
    intro name
    rw [typesOf, List.filterMap_eq_nil_iff]
    intro other hother
    have hnil := leading_eq_nil_iff.mp hleading other hother
    simp [Table.typeOf?, Table.column?, hnil]
  have hmerged : mergedSchema (tables ++ [table]) = table.schema := by
    unfold mergedSchema
    rw [hfirst]
    refine (List.map_congr_left fun field hfield => ?_).trans (List.map_id _)
    obtain ⟨column, hcolumn, rfl⟩ := List.mem_map.mp hfield
    rw [typesOf_append, htypes, List.nil_append,
      typesOf_singleton (Table.column?_of_mem hnames hcolumn),
      ColumnType.mergedType_singleton]
    rfl
  unfold ofTables
  rw [hmerged, hfirst, List.map_append, List.map_singleton, hleading,
    parts_of_leading_nil hleading]
  simp [partOf, hfilled, hcolumns, Table.reorder_schema hnames]

/-! ## One more table -/

/-- The column found for a field, and the field with the type it takes. -/
def Matches (tables : List Table) (table : Table) (field : Field)
    (pair : Column × Field) : Prop :=
  ∃ column, table.column? field.name = some column ∧
    Mergeable (typesOf field.name (tables ++ [table])) ∧
    pair = (column, { field with
      type := mergedType (typesOf field.name (tables ++ [table])) })

theorem conformField_eq_ok_iff {field : Field} {pair : Column × Field}
    (hmerge : Mergeable (typesOf field.name tables)) :
    table.conformField
        { field with type := mergedType (typesOf field.name tables) } =
        .ok pair ↔
      Matches tables table field pair := by
  unfold Table.conformField Matches
  dsimp only
  cases hcolumn : table.column? field.name with
  | none => simp
  | some column =>
      have hjoin := ColumnType.join?_mergedType_iff hmerge column.field.type
      rw [typesOf_append, typesOf_singleton hcolumn]
      dsimp only
      cases htype : ColumnType.join? (mergedType (typesOf field.name tables))
          column.field.type with
      | none =>
          refine ⟨nofun, ?_⟩
          rintro ⟨_, -, hboth, -⟩
          have hsome := (hjoin _).mpr ⟨hboth, rfl⟩
          rw [htype] at hsome
          exact absurd hsome nofun
      | some type =>
          obtain ⟨hboth, rfl⟩ := (hjoin type).mp htype
          simp [hboth, eq_comm]

theorem mapM_conformField_iff {pairs : List (Column × Field)}
    (hcompatible : Compatible tables) :
    (mergedSchema tables).mapM table.conformField = .ok pairs ↔
      List.Forall₂ (Matches tables table) (leading tables) pairs := by
  rw [Except.mapM_eq_ok, mergedSchema, List.forall₂_map_left_iff]
  simp only [conformField_eq_ok_iff (hcompatible.types _)]

theorem map_of_matches {fields : List Field}
    {pairs : List (Column × Field)}
    (hpairs : List.Forall₂ (Matches tables table) fields pairs) :
    pairs.map (·.1) = fields.filterMap (fun field =>
        table.column? field.name) ∧
      pairs.map (·.2) = fields.map fun field => { field with
        type := mergedType (typesOf field.name (tables ++ [table])) } := by
  induction hpairs with
  | nil => exact ⟨rfl, rfl⟩
  | cons hpair _ ih =>
      obtain ⟨column, hcolumn, -, rfl⟩ := hpair
      rw [List.map_cons, List.map_cons, ih.1, ih.2, List.filterMap_cons,
        hcolumn]
      exact ⟨rfl, rfl⟩

theorem exists_matches {fields : List Field}
    (hmatch : ∀ field ∈ fields, field.name ∈ table.columnNames ∧
      Mergeable (typesOf field.name (tables ++ [table]))) :
    ∃ pairs, List.Forall₂ (Matches tables table) fields pairs := by
  induction fields with
  | nil => exact ⟨[], .nil⟩
  | cons field fields ih =>
      rw [List.forall_mem_cons] at hmatch
      obtain ⟨column, hcolumn⟩ := Table.exists_column? hmatch.1.1
      obtain ⟨pairs, hpairs⟩ := ih hmatch.2
      exact ⟨_, .cons ⟨column, hcolumn, hmatch.1.2, rfl⟩ hpairs⟩

theorem ofTables_concat_conformed {pairs : List (Column × Field)}
    (hleading : leading tables ≠ []) (hcolumns : table.columns ≠ [])
    (hpairs : List.Forall₂ (Matches tables table) (leading tables) pairs) :
    ofTables (tables ++ [table]) =
      ⟨some (pairs.map (·.2)), (ofTables tables).parts ++
        [.table { table with columns := pairs.map (·.1) }]⟩ := by
  have hsame := leading_concat_of_ne_nil hleading table
  obtain ⟨hfirst, hsecond⟩ := map_of_matches hpairs
  unfold ofTables mergedSchema
  rw [hsame, hfirst, hsecond, List.map_append, List.map_singleton]
  simp [hleading, partOf, hcolumns, Table.reorder]

/-- A table can be held beside others if its names are theirs and its types
merge with theirs. -/
theorem compatible_concat_iff
    (hdistinct : ∀ other ∈ tables, other.columnNames.Nodup)
    (hnames : table.columnNames.Nodup) (hcompatible : Compatible tables)
    (hleading : leading tables ≠ []) (hcolumns : table.columns ≠ []) :
    Compatible (tables ++ [table]) ↔
      table.columns.length = (leading tables).length ∧
        ∃ pairs, List.Forall₂ (Matches tables table) (leading tables)
          pairs := by
  have hleadingNames : leadingNames (tables ++ [table]) =
      leadingNames tables := by
    rw [leadingNames, leading_concat_of_ne_nil hleading, leadingNames]
  have hlengths : table.columns.length = (leading tables).length ↔
      table.columnNames.length = (leadingNames tables).length := by
    simp [Table.columnNames, leadingNames]
  have hleadingNodup := nodup_leadingNames hdistinct
  rw [hlengths]
  constructor
  · intro hboth
    have hmem : ∀ name, name ∈ table.columnNames ↔
        name ∈ leadingNames tables := by
      intro name
      rw [hboth.mem_columnNames (by simp) hcolumns, hleadingNames]
    refine ⟨((List.perm_ext_iff_of_nodup hnames hleadingNodup).mpr
      hmem).length_eq, exists_matches fun field hfield => ?_⟩
    exact ⟨(hmem _).mpr (List.mem_map_of_mem hfield), hboth.types _⟩
  · rintro ⟨hlength, pairs, hpairs⟩
    have hfound : ∀ name ∈ leadingNames tables, name ∈ table.columnNames ∧
        Mergeable (typesOf name (tables ++ [table])) := by
      intro name hname
      obtain ⟨field, hfield, rfl⟩ := List.mem_map.mp hname
      obtain ⟨_, -, column, hcolumn, hmerge, -⟩ :=
        forall₂_exists_right hpairs hfield
      refine ⟨?_, hmerge⟩
      by_contra hmissing
      rw [Table.column?_eq_none_iff.mpr hmissing] at hcolumn
      cases hcolumn
    -- All leading names are found, and the table has no more names than
    -- there are of these.
    have hperm := (hleadingNodup.subperm fun name hname =>
      (hfound name hname).1).perm_of_length_le (Nat.le_of_eq hlength)
    have hmem : ∀ other ∈ tables ++ [table], other.columns ≠ [] →
        ∀ name, name ∈ other.columnNames ↔ name ∈ leadingNames tables := by
      intro other hother hfilled name
      rcases List.mem_append.mp hother with hold | hlast
      · exact hcompatible.mem_columnNames hold hfilled
      · rw [List.mem_singleton] at hlast
        exact hlast ▸ hperm.mem_iff.symm
    refine compatible_of_names hmem fun name => ?_
    by_cases hname : name ∈ leadingNames tables
    · exact (hfound name hname).2
    · have hmissing : typesOf name [table] = [] := by
        have hnone : table.typeOf? name = none := by
          rwa [Table.typeOf?_eq_none_iff, hmem table (by simp) hcolumns]
        simp [typesOf, hnone]
      rw [typesOf_append, hcompatible.typesOf_eq_nil hname, hmissing]
      exact mergeable_nil

theorem conform_eq_ok_iff {schema : List Field}
    {result : Table × List Field} :
    table.conform schema = .ok result ↔
      table.columns.length = schema.length ∧
        ∃ pairs, schema.mapM table.conformField = .ok pairs ∧
          result = ({ table with columns := pairs.map (·.1) },
            pairs.map (·.2)) := by
  unfold Table.conform
  by_cases hlength : table.columns.length = schema.length
  · rw [if_neg (not_not_intro hlength), Except.bind_eq_ok]
    simp [hlength, eq_comm]
  · simp [hlength]

/-- A table is added exactly if it is compatible with those before it. -/
theorem push_ofTables_eq_ok_iff
    (hdistinct : ∀ other ∈ tables, other.columnNames.Nodup)
    (hnames : table.columnNames.Nodup) (hcompatible : Compatible tables)
    (index : Nat) (next : Assembler) :
    (ofTables tables).push index table = .ok next ↔
      Compatible (tables ++ [table]) ∧
        next = ofTables (tables ++ [table]) := by
  unfold push
  by_cases hcolumns : table.columns = []
  · have hboth : Compatible (tables ++ [table]) := by
      refine hcompatible.of_filled fun other hother hfilled => ?_
      rcases List.mem_append.mp hother with hold | hlast
      · exact hold
      · rw [List.mem_singleton] at hlast
        exact absurd (hlast ▸ hcolumns) hfilled
    rw [ofTables_concat_nullRows hcolumns]
    simp [hcolumns, hboth, eq_comm]
  rw [if_neg (mt List.isEmpty_iff.mp hcolumns)]
  by_cases hleading : leading tables = []
  · have hboth : Compatible (tables ++ [table]) := by
      refine (compatible_singleton table).of_filled
        fun other hother hfilled => ?_
      rcases List.mem_append.mp hother with hold | hlast
      · exact absurd (leading_eq_nil_iff.mp hleading other hold) hfilled
      · exact hlast
    have hschema : (ofTables tables).schema = none := by
      simp [ofTables, hleading]
    rw [hschema, ofTables_concat_first hnames hleading hcolumns]
    simp [hboth, eq_comm]
  · have hschema : (ofTables tables).schema = some (mergedSchema tables) := by
      simp [ofTables, hleading]
    have hlength : (mergedSchema tables).length = (leading tables).length :=
      List.length_map _
    rw [hschema, compatible_concat_iff hdistinct hnames hcompatible hleading
      hcolumns]
    constructor
    · intro hpush
      dsimp only at hpush
      split at hpush
      · exact absurd hpush nofun
      · next conformed widened hconform =>
          cases hpush
          obtain ⟨hcount, pairs, hpairs, heq⟩ :=
            conform_eq_ok_iff.mp hconform
          cases heq
          rw [mapM_conformField_iff hcompatible] at hpairs
          exact ⟨⟨hcount.trans hlength, pairs, hpairs⟩,
            (ofTables_concat_conformed hleading hcolumns hpairs).symm⟩
    · rintro ⟨⟨hcount, pairs, hpairs⟩, rfl⟩
      have hconform := conform_eq_ok_iff.mpr ⟨hcount.trans hlength.symm,
        pairs, (mapM_conformField_iff hcompatible).mpr hpairs, rfl⟩
      rw [ofTables_concat_conformed hleading hcolumns hpairs]
      dsimp only
      rw [hconform]

/-- Only a mismatch of the columns is reported. -/
theorem exists_conflict_of_push {failure : Failure}
    (hpush : assembler.push index table = .error failure) :
    ∃ conflict, failure = .schemaMismatch index conflict := by
  unfold push at hpush
  split at hpush
  · exact absurd hpush nofun
  · split at hpush
    · exact absurd hpush nofun
    · split at hpush
      · cases hpush
        exact ⟨_, rfl⟩
      · exact absurd hpush nofun

/-! ## Any number of tables -/

theorem pushAll_cons (start : Nat) (assembler : Assembler)
    (fragment : TableFragment) (rest : List TableFragment) :
    pushAll start assembler (fragment :: rest) =
      (assembler.push start fragment.table >>= fun next =>
        pushAll (start + 1) next rest) := by
  unfold pushAll
  rw [List.zipIdx_cons, List.foldlM_cons]

/-- Tables that are compatible with those held are all added.  If they are
not, the first one that cannot be held beside those before it is reported. -/
theorem pushAll_ofTables {fragments : List TableFragment}
    (hdistinct : ∀ other ∈ tables ++ fragments.map (·.table),
      other.columnNames.Nodup) (hcompatible : Compatible tables) :
    (Compatible (tables ++ fragments.map (·.table)) ∧
        pushAll tables.length (ofTables tables) fragments =
          .ok (ofTables (tables ++ fragments.map (·.table)))) ∨
      ∃ front fragment back conflict, fragments = front ++ fragment :: back ∧
        Compatible (tables ++ front.map (·.table)) ∧
        ¬ Compatible
          (tables ++ (front ++ [fragment]).map (·.table)) ∧
        pushAll tables.length (ofTables tables) fragments =
          .error (.schemaMismatch (tables.length + front.length)
            conflict) := by
  -- What is held grows along the induction, so it is a list of its own.
  induction fragments generalizing tables with
  | nil =>
      rw [List.map_nil, List.append_nil]
      exact .inl ⟨hcompatible, rfl⟩
  | cons fragment rest ih =>
      have hsplit : tables ++ (fragment :: rest).map (·.table) =
          (tables ++ [fragment.table]) ++ rest.map (·.table) := by
        simp
      have htables : ∀ other ∈ tables, other.columnNames.Nodup :=
        fun other hother => hdistinct other (List.mem_append_left _ hother)
      have hnames : fragment.table.columnNames.Nodup :=
        hdistinct fragment.table (by simp)
      have hstep :=
        push_ofTables_eq_ok_iff htables hnames hcompatible tables.length
      rw [pushAll_cons]
      cases hpush : (ofTables tables).push tables.length fragment.table with
      | error failure =>
          obtain ⟨conflict, rfl⟩ := exists_conflict_of_push hpush
          refine .inr ⟨[], fragment, rest, conflict, rfl, ?_, ?_, rfl⟩
          · simpa using hcompatible
          · intro hboth
            have hok := (hstep _).mpr ⟨by simpa using hboth, rfl⟩
            rw [hpush] at hok
            exact absurd hok nofun
      | ok next =>
          obtain ⟨hboth, rfl⟩ := (hstep next).mp hpush
          have hcount : (tables ++ [fragment.table]).length =
              tables.length + 1 := by
            simp
          rw [hsplit] at hdistinct
          rcases ih hdistinct hboth with ⟨hall, hrun⟩ |
            ⟨front, first, back, conflict, rfl, hfront, hfirst, hrun⟩
          · rw [hcount] at hrun
            rw [hsplit]
            exact .inl ⟨hall, hrun⟩
          · rw [hcount] at hrun
            refine .inr ⟨fragment :: front, first, back, conflict, rfl,
              ?_, ?_, ?_⟩
            · simpa using hfront
            · simpa using hfirst
            · rw [List.length_cons, Nat.add_comm front.length,
                ← Nat.add_assoc]
              exact hrun

/-! ## The joined columns -/

/-- The names of the columns of a table, with their types. -/
def columnTypes (table : Table) : List (String × ColumnType) :=
  table.columns.map fun column => (column.field.name, column.field.type)

theorem finish_schema (assembler : Assembler) :
    assembler.finish.schema = assembler.schema.getD [] := by
  unfold finish Table.schema
  rw [List.map_map]
  exact List.zipIdx_map_fst _ _

theorem finish_schema_ofTables (tables : List Table) :
    (ofTables tables).finish.schema = mergedSchema tables := by
  rw [finish_schema, ofTables]
  by_cases hleading : leading tables = []
  · simp [hleading, mergedSchema]
  · simp [hleading]

theorem columnNames_ofTables (tables : List Table) :
    (ofTables tables).finish.columnNames = leadingNames tables := by
  rw [← names_schema, finish_schema_ofTables]
  simp [mergedSchema, leadingNames]

theorem columnTypes_ofTables (tables : List Table) :
    columnTypes (ofTables tables).finish =
      (leadingNames tables).map fun name =>
        (name, mergedType (typesOf name tables)) := by
  have hschema := finish_schema_ofTables tables
  have htypes : columnTypes (ofTables tables).finish =
      (ofTables tables).finish.schema.map fun field =>
        (field.name, field.type) := by
    simp [columnTypes, Table.schema]
  rw [htypes, hschema]
  simp [mergedSchema, leadingNames]

theorem mem_leadingNames_iff {name : String}
    (hcompatible : Compatible tables) :
    name ∈ leadingNames tables ↔
      ∃ table ∈ tables, name ∈ table.columnNames := by
  constructor
  · intro hname
    have hleading : leading tables ≠ [] := by
      intro hnil
      rw [leadingNames, hnil] at hname
      exact absurd hname List.not_mem_nil
    obtain ⟨first, hfirst, -, hschema⟩ := exists_leading hleading
    rw [leadingNames, hschema, names_schema] at hname
    exact ⟨first, hfirst, hname⟩
  · rintro ⟨table, htable, hname⟩
    have hcolumns : table.columns ≠ [] := by
      intro hnil
      rw [Table.columnNames, hnil] at hname
      exact absurd hname List.not_mem_nil
    exact (hcompatible.mem_columnNames htable hcolumns).mp hname

/-- The same tables in another order are joined under the same columns, up to
the order of these. -/
theorem columnTypes_perm {others : List Table} (hperm : others.Perm tables)
    (hdistinct : ∀ table ∈ tables, table.columnNames.Nodup)
    (hcompatible : Compatible tables) :
    (columnTypes (ofTables others).finish).Perm
      (columnTypes (ofTables tables).finish) := by
  have hother : Compatible others :=
    hcompatible.of_filled fun _ hmem _ => hperm.mem_iff.mp hmem
  have hnodup : (leadingNames others).Nodup :=
    nodup_leadingNames fun table hmem =>
      hdistinct table (hperm.mem_iff.mp hmem)
  have hnames : (leadingNames others).Perm (leadingNames tables) := by
    rw [List.perm_ext_iff_of_nodup hnodup (nodup_leadingNames hdistinct)]
    intro name
    rw [mem_leadingNames_iff hother, mem_leadingNames_iff hcompatible]
    simp only [hperm.mem_iff]
  have htypes : ∀ name, mergedType (typesOf name others) =
      mergedType (typesOf name tables) := by
    intro name
    apply ColumnType.mergedType_congr _ (hother.types name)
    intro type
    rw [mem_typesOf, mem_typesOf]
    simp only [hperm.mem_iff]
  rw [columnTypes_ofTables, columnTypes_ofTables]
  simp only [htypes]
  exact hnames.map _

theorem pushAll_eq_ok_iff {fragments : List TableFragment}
    (hdistinct : ∀ fragment ∈ fragments,
      fragment.table.columnNames.Nodup) :
    pushAll 0 empty fragments = .ok assembler ↔
      Compatible (fragments.map (·.table)) ∧
        assembler = ofTables (fragments.map (·.table)) := by
  have hall : ∀ other ∈ [] ++ fragments.map (·.table),
      other.columnNames.Nodup := by
    simpa using hdistinct
  have hempty : ofTables [] = empty := rfl
  rw [← hempty]
  rcases pushAll_ofTables hall compatible_nil with ⟨hboth, hrun⟩ |
    ⟨front, fragment, back, conflict, rfl, -, hfirst, hrun⟩
  · rw [List.nil_append] at hboth hrun
    rw [← List.length_nil (α := Table), hrun]
    simp [hboth, eq_comm]
  · rw [← List.length_nil (α := Table), hrun]
    refine ⟨nofun, fun hboth => absurd (hboth.1.of_filled ?_) hfirst⟩
    intro other hother _
    have hsplit : (front ++ fragment :: back).map (·.table) =
        (front ++ [fragment]).map (·.table) ++ back.map (·.table) := by
      simp
    rw [hsplit]
    exact List.mem_append_left _ hother

/-- Pushing all fragments succeeds exactly if their tables are compatible.
The joined table has the columns of the first one with columns, in its order,
and every type is merged from all of them, so that another order of the same
fragments is accepted as well and leads to the same types.  Otherwise the
push is rejected that is the first to make the tables incompatible. -/
theorem pushAll_eq_ok_iff_compatible {fragments : List TableFragment}
    (hdistinct : ∀ fragment ∈ fragments,
      fragment.table.columnNames.Nodup) :
    let tables := fragments.map (·.table)
    ((∃ assembler, pushAll 0 empty fragments = .ok assembler) ↔
        Compatible tables) ∧
      (∀ assembler, pushAll 0 empty fragments = .ok assembler →
        assembler.finish.columnNames = leadingNames tables ∧
          ∀ column ∈ assembler.finish.columns,
            IsMerged (typesOf column.field.name tables)
              column.field.type) ∧
      (∀ others : List TableFragment, others.Perm fragments →
        ((∃ assembler, pushAll 0 empty others = .ok assembler) ↔
          ∃ assembler, pushAll 0 empty fragments = .ok assembler) ∧
        ∀ assembler other, pushAll 0 empty fragments = .ok assembler →
          pushAll 0 empty others = .ok other →
          (columnTypes other.finish).Perm (columnTypes assembler.finish)) ∧
      ∀ failure, pushAll 0 empty fragments = .error failure →
        ∃ index conflict, failure = .schemaMismatch index conflict ∧
          IsLeast {index | index < fragments.length ∧
            ¬ Compatible (tables.take (index + 1))} index := by
  intro tables
  have haccepted : ∀ {others : List TableFragment},
      (∀ fragment ∈ others, fragment.table.columnNames.Nodup) →
      ((∃ assembler, pushAll 0 empty others = .ok assembler) ↔
        Compatible (others.map (·.table))) := by
    intro others hothers
    simp [pushAll_eq_ok_iff hothers]
  refine ⟨haccepted hdistinct, ?_, ?_, ?_⟩
  · intro assembler hassembler
    obtain ⟨hcompatible, rfl⟩ := (pushAll_eq_ok_iff hdistinct).mp hassembler
    refine ⟨columnNames_ofTables tables, fun column hcolumn => ?_⟩
    have hfield : column.field ∈ (ofTables tables).finish.schema :=
      List.mem_map_of_mem hcolumn
    rw [finish_schema_ofTables] at hfield
    obtain ⟨field, -, heq⟩ := List.mem_map.mp hfield
    rw [← heq]
    exact ColumnType.isMerged_mergedType (hcompatible.types _)
  · intro others hperm
    have hothers : ∀ fragment ∈ others, fragment.table.columnNames.Nodup :=
      fun fragment hmem => hdistinct fragment (hperm.mem_iff.mp hmem)
    have htables : (others.map (·.table)).Perm tables := hperm.map _
    refine ⟨?_, ?_⟩
    · rw [haccepted hothers, haccepted hdistinct]
      exact ⟨fun h => h.of_filled fun _ hmem _ => htables.mem_iff.mpr hmem,
        fun h => h.of_filled fun _ hmem _ => htables.mem_iff.mp hmem⟩
    · intro assembler other hassembler hother
      obtain ⟨hcompatible, rfl⟩ := (pushAll_eq_ok_iff hdistinct).mp hassembler
      obtain ⟨-, rfl⟩ := (pushAll_eq_ok_iff hothers).mp hother
      refine columnTypes_perm htables ?_ hcompatible
      simpa using hdistinct
  · intro failure hfailure
    have hall : ∀ other ∈ [] ++ tables, other.columnNames.Nodup := by
      simpa [tables] using hdistinct
    have hempty : ofTables [] = empty := rfl
    rcases pushAll_ofTables hall compatible_nil with ⟨-, hrun⟩ |
      ⟨front, fragment, back, conflict, rfl, hfront, hfirst, hrun⟩
    · rw [hempty, List.length_nil, hfailure] at hrun
      exact absurd hrun nofun
    · rw [hempty, List.length_nil, hfailure, Nat.zero_add] at hrun
      cases hrun
      rw [List.nil_append] at hfront hfirst
      rw [List.map_append, List.map_singleton] at hfirst
      have hleast := isLeast_incompatible (back.map (·.table)) hfront hfirst
      exact ⟨front.length, conflict, rfl, by simpa [tables] using hleast⟩

/-- Rows without columns, then integers beside nulls, then texts beside
floating point in the other order; a last table lacks a column. -/
theorem pushAll_eq_ok_iff_compatible_four_fragments :
    let blank : TableFragment := ⟨⟨1, []⟩, 1⟩
    let first : TableFragment := ⟨⟨1, [⟨⟨"a", .int64, true⟩, [.integer 7]⟩,
      ⟨⟨"b", .null, true⟩, [.null]⟩]⟩, 0⟩
    let second : TableFragment := ⟨⟨1, [⟨⟨"b", .utf8, true⟩, [.text "x"]⟩,
      ⟨⟨"a", .float64, true⟩, [.null]⟩]⟩, 0⟩
    let short : TableFragment := ⟨⟨1, [⟨⟨"a", .int64, true⟩, [.null]⟩]⟩, 0⟩
    let fragments := [blank, first, second]
    (∀ fragment ∈ fragments ++ [short], fragment.table.columnNames.Nodup) ∧
      Compatible (fragments.map (·.table)) ∧
      (∃ assembler, pushAll 0 empty fragments = .ok assembler ∧
        columnTypes assembler.finish = [("a", .float64), ("b", .utf8)]) ∧
      (∃ assembler, pushAll 0 empty fragments.reverse = .ok assembler) ∧
      pushAll 0 empty (fragments ++ [short]) =
          .error (.schemaMismatch 3 (.columnCount 2 1)) ∧
        ¬ Compatible ((fragments ++ [short]).map (·.table)) := by
  intro blank first second short fragments
  have hdistinct : ∀ fragment ∈ fragments ++ [short],
      fragment.table.columnNames.Nodup := by
    decide
  have hfew : ∀ fragment ∈ fragments, fragment.table.columnNames.Nodup :=
    fun fragment hmem => hdistinct fragment (List.mem_append_left _ hmem)
  obtain ⟨haccepted, -, hperm, -⟩ := pushAll_eq_ok_iff_compatible hfew
  obtain ⟨-, -, -, hrejected⟩ := pushAll_eq_ok_iff_compatible hdistinct
  obtain ⟨_, _, hindex, ⟨-, hlast⟩, -⟩ :=
    hrejected (.schemaMismatch 3 (.columnCount 2 1)) rfl
  cases hindex
  have hpushed : ∃ assembler, pushAll 0 empty fragments = .ok assembler ∧
      columnTypes assembler.finish = [("a", .float64), ("b", .utf8)] :=
    ⟨_, rfl, by decide⟩
  obtain ⟨assembler, hassembler, htypes⟩ := hpushed
  refine ⟨hdistinct, haccepted.mp ⟨assembler, hassembler⟩,
    ⟨assembler, hassembler, htypes⟩,
    (hperm _ fragments.reverse_perm).1.mpr ⟨assembler, hassembler⟩, rfl,
    hlast⟩

end Assembler

end JsonIntake
