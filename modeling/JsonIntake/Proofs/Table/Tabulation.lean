import JsonIntake.Proofs.Table.Cells
import JsonIntake.Proofs.Table.Widening
import JsonIntake.Tokenizer

/-!
# The table of a batch

The names and types of a table come from the members of its rows, and every
column is decoded on its own.
-/

namespace JsonIntake

open Json (Value)

namespace Shape

/-- The type of the column of a name. -/
def typeOf (name : String) (members : List (String × Shape)) : ColumnType :=
  (shapeOf name members).columnType

theorem columnTypes_eq_map {members : List (String × Shape)}
    (hnames : (names members).Nodup) :
    columnTypes members =
      (names members).map fun name => (name, typeOf name members) := by
  have hmap : ∀ rest : List (String × Shape), columnTypes rest =
      rest.map fun member => (member.1, member.2.columnType) := by
    intro rest
    induction rest with
    | nil => rfl
    | cons member rest ih => rw [columnTypes, ih, List.map_cons]
  rw [hmap, names, List.map_map]
  apply List.map_congr_left
  intro member hmember
  rw [Function.comp_apply, typeOf, shapeOf_of_mem hnames hmember]

/-- The values of a column. -/
def valuesOf (name : String) (rows : List (List (String × Value))) :
    List Value :=
  Cell.project name (rows.map some)

theorem valuesOf_append (name : String)
    (rows more : List (List (String × Value))) :
    valuesOf name (rows ++ more) =
      valuesOf name rows ++ valuesOf name more := by
  unfold valuesOf Cell.project
  rw [List.map_append, List.map_append]

theorem valuesOf_of_empty {name : String}
    {rows : List (List (String × Value))} (hempty : ∀ row ∈ rows, row = []) :
    valuesOf name rows = List.replicate rows.length .null := by
  rw [List.eq_replicate_of_mem hempty]
  unfold valuesOf Cell.project
  rw [List.map_replicate, List.map_replicate, List.length_replicate]
  rfl

theorem mem_of_lookup? {name : String} {value : Value}
    {members : List (String × Value)}
    (hlookup : Value.lookup? name members = some value) :
    (name, value) ∈ members := by
  obtain ⟨member, hfind, rfl⟩ := Option.map_eq_some_iff.mp hlookup
  have hname := List.find?_some hfind
  rw [beq_iff_eq] at hname
  rw [← hname]
  exact List.mem_of_find?_eq_some hfind

theorem whole_of_mem_valuesOf {name : String} {value : Value}
    {rows : List (List (String × Value))}
    (hrows : ∀ row ∈ rows, ∀ value, (name, value) ∈ row → Whole value)
    (hvalue : value ∈ valuesOf name rows) : Whole value := by
  unfold valuesOf Cell.project at hvalue
  rw [List.map_map] at hvalue
  obtain ⟨row, hrow, rfl⟩ := List.mem_map.mp hvalue
  rw [Function.comp_apply, Option.bind_some]
  cases hlookup : Value.lookup? name row with
  | none => exact .null
  | some found => exact hrows row hrow found (mem_of_lookup? hlookup)

end Shape

namespace Table

open Shape (names typeOf valuesOf DistinctMembers)

/-- The field of a column of inferred type. -/
def fieldOf (members : List (String × Shape)) (name : String) : Field :=
  ⟨name, typeOf name members, true⟩

def fieldsOf (members : List (String × Shape)) : List Field :=
  (names members).map (fieldOf members)

/-- The column has the field and the cells of a name. -/
structure ColumnOf (rows : List (List (String × Value)))
    (members : List (String × Shape)) (name : String)
    (column : Column) : Prop where
  field : column.field = fieldOf members name
  cells : Cell.decodeColumn (typeOf name members) (valuesOf name rows) =
    .ok column.cells

/-- The table holds the rows in columns of inferred types. -/
structure Tabulated (rows : List (List (String × Value)))
    (members : List (String × Shape)) (table : Table) : Prop where
  inferred : Shape.addRows? [] rows = some members
  count : table.rows = rows.length
  columns : List.Forall₂ (ColumnOf rows members) (names members) table.columns

variable {rows : List (List (String × Value))}
  {members : List (String × Shape)} {table : Table}

theorem Tabulated.distinct (htable : Tabulated rows members table) :
    DistinctMembers members :=
  DistinctMembers.nil.addRows? htable.inferred

theorem undecodable?_fieldsOf :
    ((fieldsOf members).findSome? fun field => field.type.undecodable?) =
      none := by
  rw [List.findSome?_eq_none_iff]
  intro field hfield
  obtain ⟨name, _, rfl⟩ := List.mem_map.mp hfield
  exact Shape.undecodable?_columnType _

theorem decodeFields_fieldsOf (hdistinct : DistinctMembers members)
    {columns : List (List Cell)} :
    Cell.decodeFields []
        ((fieldsOf members).map fun field => (field.name, field.type))
        (rows.map some) = .ok columns ↔
      List.Forall₂ (fun name column =>
        Cell.decodeColumn (typeOf name members) (valuesOf name rows) =
          .ok column) (names members) columns := by
  have hfields : ((fieldsOf members).map fun field =>
      (field.name, field.type)) =
      (names members).map fun name => (name, typeOf name members) := by
    unfold fieldsOf
    rw [List.map_map]
    rfl
  have hnames : (((names members).map fun name =>
      (name, typeOf name members)).map (·.1)).Nodup := by
    rw [List.map_map]
    exact (List.map_id _).symm ▸ hdistinct.names
  rw [hfields, Cell.decodeFields_iff hnames fun _ _ => List.not_mem_nil,
    List.forall₂_map_left_iff]
  rfl

theorem forall₂_columnOf {order : List String} {columns : List Column} :
    List.Forall₂ (ColumnOf rows members) order columns ↔
      ∃ cells,
        List.Forall₂ (fun name column =>
          Cell.decodeColumn (typeOf name members) (valuesOf name rows) =
            .ok column) order cells ∧
        columns = List.zipWith Column.mk (order.map (fieldOf members)) cells
    := by
  constructor
  · intro hcolumns
    induction hcolumns with
    | nil => exact ⟨[], .nil, rfl⟩
    | @cons name column _ _ hcolumn _ ih =>
        obtain ⟨cells, hcells, hrest⟩ := ih
        refine ⟨column.cells :: cells, .cons hcolumn.cells hcells, ?_⟩
        rw [List.map_cons, List.zipWith_cons_cons, ← hrest, ← hcolumn.field]
  · rintro ⟨cells, hcells, rfl⟩
    induction hcells with
    | nil => exact .nil
    | cons hcolumn _ ih => exact .cons ⟨rfl, hcolumn⟩ ih

theorem decode_fieldsOf (hdistinct : DistinctMembers members) :
    Table.decode (fieldsOf members) rows = .ok table ↔
      table.rows = rows.length ∧
        List.Forall₂ (ColumnOf rows members) (names members)
          table.columns := by
  unfold Table.decode
  rw [undecodable?_fieldsOf, forall₂_columnOf]
  dsimp only
  constructor
  · intro hdecode
    split at hdecode
    · exact absurd hdecode nofun
    · next columns hcolumns =>
        cases hdecode
        exact ⟨rfl, columns, (decodeFields_fieldsOf hdistinct).mp hcolumns, rfl⟩
  · rintro ⟨hcount, columns, hcolumns, hzip⟩
    rw [(decodeFields_fieldsOf hdistinct).mpr hcolumns]
    obtain ⟨count, found⟩ := table
    cases hcount
    cases hzip
    rfl

/-- The cells of a column under every type that its own widens to. -/
theorem ColumnOf.cellsAs {name : String} {column : Column}
    {type : ColumnType} (hinferred : Shape.addRows? [] rows = some members)
    (hcolumn : ColumnOf rows members name column)
    (hwidens : ColumnType.Widens (typeOf name members) type) :
    Cell.decodeColumn type (valuesOf name rows) =
      .ok (column.cellsAs type) := by
  have hcells := hcolumn.cells
  have htype : column.field.type = typeOf name members := by
    rw [hcolumn.field]
    rfl
  unfold Column.cellsAs
  rw [htype]
  generalize hheld : typeOf name members = held at hwidens hcells
  cases hwidens with
  | refl =>
      rw [if_neg fun hboth => absurd (hboth.1.symm.trans hboth.2) nofun]
      exact hcells
  | null =>
      rw [if_neg fun hboth => absurd hboth.1 nofun]
      exact Cell.decodeColumn_of_null hcells
  | int64 =>
      rw [if_pos ⟨rfl, rfl⟩]
      have hshape : Shape.shapeOf name members = .scalar (some .int64) :=
        Shape.columnType_eq_scalar .int64 nofun hheld
      exact Cell.decodeColumn_float64_of_whole
        (fun _ => Shape.whole_of_mem_valuesOf
          (Shape.whole_of_addRows? hinferred hshape)) hcells

end Table

/-! ## Tokenizing -/

/-- The rows of records; a malformed one has no members. -/
def RecordList.rows (records : RecordList) : List (List (String × Value)) :=
  records.toList.map fun record => record.getD []

theorem Shape.addRows?_getD (held : List (String × Shape))
    (records : List Record) :
    addRows? held (records.map fun record => record.getD []) =
      addRows? held (records.filterMap id) := by
  induction records generalizing held with
  | nil => rfl
  | cons record records ih =>
      rw [List.map_cons, addRows?_cons]
      cases record with
      | none =>
          rw [Option.getD_none, addMembers?_nil, Option.bind_some, ih]
          rfl
      | some members =>
          have hfilter : (some members :: records).filterMap id =
              members :: records.filterMap id := rfl
          rw [Option.getD_some, hfilter, addRows?_cons]
          exact Option.bind_congr fun next _ => ih next

theorem inferSchema_eq_ok {records : RecordList} {schema : List Field} :
    inferSchema records.toList [] = .ok schema ↔
      ∃ members, Shape.addRows? [] records.rows = some members ∧
        schema = Table.fieldsOf members := by
  unfold inferSchema inferColumns RecordList.rows
  rw [Shape.addRows?_getD, Shape.addRows?]
  cases hrows : (records.toList.filterMap id).foldlM Shape.addMembers [] with
  | error conflict =>
      constructor
      · intro h
        exact absurd h nofun
      · rintro ⟨members, hmembers, _⟩
        exact absurd hmembers nofun
  | ok members =>
      have hadd : Shape.addRows? [] (records.toList.filterMap id) =
          some members := Except.toOption_eq_some.mpr hrows
      have hdistinct := Shape.DistinctMembers.nil.addRows? hadd
      have hfields : applyHints (Shape.columnTypes members) [] =
          Table.fieldsOf members := by
        unfold applyHints Table.fieldsOf
        rw [Shape.columnTypes_eq_map hdistinct.names, List.map_map]
        rfl
      constructor
      · intro h
        cases h
        exact ⟨members, rfl, hfields⟩
      · rintro ⟨found, hfound, rfl⟩
        cases hfound
        exact congrArg Except.ok hfields

theorem materialize_eq_ok {schema : List Field} {records : RecordList}
    {table : Table} :
    materialize schema records.toList = .ok table ↔
      Table.decode schema records.rows = .ok table := by
  unfold materialize RecordList.rows
  cases Table.decode schema
      (records.toList.map fun record => record.getD []) with
  | error fault => exact ⟨nofun, nofun⟩
  | ok found => simp

theorem Table.tabulated_iff {rows : List (List (String × Value))}
    {members : List (String × Shape)} {table : Table}
    (hinferred : Shape.addRows? [] rows = some members) :
    Table.decode (fieldsOf members) rows = .ok table ↔
      Tabulated rows members table := by
  rw [decode_fieldsOf (Shape.DistinctMembers.nil.addRows? hinferred)]
  constructor
  · rintro ⟨hcount, hcolumns⟩
    exact ⟨hinferred, hcount, hcolumns⟩
  · intro htable
    exact ⟨htable.count, htable.columns⟩

/-- In lines mode, without hints, a batch becomes the table of its
records. -/
theorem tokenize_eq_ok {options : ParseOptions} {buffer : Buffer}
    {fragment : TableFragment} (hlines : options.lines = true)
    (hhints : options.hints = []) :
    tokenize options buffer = .ok fragment ↔
      ∃ records members,
        RecordList.ofLines options.recovery options.delimiter buffer.toList =
          .ok records ∧
        Table.Tabulated records.rows members fragment.table ∧
        fragment.malformed = records.malformed := by
  unfold tokenize
  rw [if_pos hlines, hhints]
  simp only [Except.bind_eq_ok, inferSchema_eq_ok, materialize_eq_ok,
    Except.ok.injEq]
  constructor
  · rintro ⟨records, hrecords, _, ⟨members, hmembers, rfl⟩, table, htable, h⟩
    subst h
    exact ⟨records, members, hrecords, (Table.tabulated_iff hmembers).mp htable,
      rfl⟩
  · rintro ⟨records, members, hrecords, htable, hmalformed⟩
    refine ⟨records, hrecords, _, ⟨members, htable.inferred, rfl⟩,
      fragment.table, (Table.tabulated_iff htable.inferred).mpr htable, ?_⟩
    rw [← hmalformed]

end JsonIntake
