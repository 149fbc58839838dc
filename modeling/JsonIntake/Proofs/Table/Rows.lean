import JsonIntake.Proofs.Table.Hints

/-!
# Rows of a table

A column is decoded value by value, also inside lists and records, so a cell
does not depend on the rows around it.  Under fields of different names a
table has, in every row and every column, the cell of the value that the row
gives the name of the column.
-/

namespace JsonIntake

open Json (Value)

namespace Cell

theorem mapM_append_eq_ok {α β ε : Type} {f : α → Except ε β}
    {xs more : List α} {all : List β}
    (hall : (xs ++ more).mapM f = .ok all) :
    ∃ ys rest, xs.mapM f = .ok ys ∧ more.mapM f = .ok rest ∧
      all = ys ++ rest := by
  rw [List.mapM_append] at hall
  obtain ⟨ys, hys, htail⟩ := Except.bind_eq_ok.mp hall
  obtain ⟨rest, hrest, h⟩ := Except.bind_eq_ok.mp htail
  cases h
  exact ⟨ys, rest, hys, hrest, rfl⟩

mutual

/-- Where the values of two groups can be decoded together, those of each
group can be decoded. -/
theorem decodable_of_append : (type : ColumnType) →
    {values more : List Value} → {all : List Cell} →
      decodeColumn type (values ++ more) = .ok all →
      (∃ cells, decodeColumn type values = .ok cells) ∧
        ∃ rest, decodeColumn type more = .ok rest
  | .scalar type, values, more, all, hall => by
      rw [decodeColumn] at hall
      obtain ⟨cells, rest, hcells, hrest, -⟩ := mapM_append_eq_ok hall
      exact ⟨⟨cells, by rw [decodeColumn, hcells]⟩,
        rest, by rw [decodeColumn, hrest]⟩
  | .list item, values, more, all, hall => by
      obtain ⟨both, inner, hboth, hinner, -⟩ := decodeColumn_list.mp hall
      obtain ⟨lists, others, hlists, hothers, rfl⟩ := mapM_append_eq_ok hboth
      rw [List.map_append, List.flatten_append] at hinner
      obtain ⟨⟨cells, hcells⟩, rest, hrest⟩ := decodable_of_append item hinner
      exact ⟨⟨_, decodeColumn_list.mpr ⟨lists, cells, hlists, hcells, rfl⟩⟩,
        _, decodeColumn_list.mpr ⟨others, rest, hothers, hrest, rfl⟩⟩
  | .record fields, values, more, all, hall => by
      obtain ⟨both, columns, hboth, hcolumns, -⟩ := decodeColumn_record.mp hall
      obtain ⟨rows, others, hrows, hothers, rfl⟩ := mapM_append_eq_ok hboth
      obtain ⟨⟨cells, hcells⟩, rest, hrest⟩ :=
        decodableFields_of_append fields hcolumns
      exact ⟨⟨_, decodeColumn_record.mpr ⟨rows, cells, hrows, hcells, rfl⟩⟩,
        _, decodeColumn_record.mpr ⟨others, rest, hothers, hrest, rfl⟩⟩

theorem decodableFields_of_append : (fields : List (String × ColumnType)) →
    {seen : List String} → {rows more : List Row} →
      {all : List (List Cell)} →
      decodeFields seen fields (rows ++ more) = .ok all →
      (∃ columns, decodeFields seen fields rows = .ok columns) ∧
        ∃ others, decodeFields seen fields more = .ok others
  | [], _, _, _, _, _ => by
      exact ⟨⟨[], by rw [decodeFields]⟩, [], by rw [decodeFields]⟩
  | (name, type) :: fields, _, _, _, _, hall => by
      obtain ⟨column, others, hcolumn, hothers, -⟩ :=
        decodeFields_cons.mp hall
      rw [fieldValues_append] at hcolumn
      obtain ⟨⟨cells, hcells⟩, rest, hrest⟩ :=
        decodable_of_append type hcolumn
      obtain ⟨⟨columns, hcolumns⟩, added, hadded⟩ :=
        decodableFields_of_append fields hothers
      exact ⟨⟨_, decodeFields_cons.mpr ⟨cells, columns, hcells, hcolumns, rfl⟩⟩,
        _, decodeFields_cons.mpr ⟨rest, added, hrest, hadded, rfl⟩⟩

end

theorem decodeColumn_nil (type : ColumnType) : decodeColumn type [] = .ok [] :=
  decodeColumn_replicate_null type 0

theorem decodeColumn_singleton {type : ColumnType} {value : Value}
    {cells : List Cell} (hdecode : decodeColumn type [value] = .ok cells) :
    ∃ cell, cells = [cell] :=
  List.length_eq_one_iff.mp (length_decodeColumn hdecode)

/-- A column is decoded value by value. -/
theorem decodeColumn_iff {type : ColumnType} {values : List Value}
    {cells : List Cell} :
    decodeColumn type values = .ok cells ↔
      List.Forall₂ (fun value cell => decodeColumn type [value] = .ok [cell])
        values cells := by
  constructor
  · intro hdecode
    induction values generalizing cells with
    | nil =>
        rw [decodeColumn_nil, Except.ok.injEq] at hdecode
        exact hdecode ▸ .nil
    | cons value values ih =>
        have hsplit : decodeColumn type ([value] ++ values) = .ok cells :=
          hdecode
        obtain ⟨⟨first, hfirst⟩, rest, hrest⟩ :=
          decodable_of_append type hsplit
        have hboth := decodeColumn_append type hfirst hrest
        rw [List.singleton_append, hdecode, Except.ok.injEq] at hboth
        obtain ⟨cell, rfl⟩ := decodeColumn_singleton hfirst
        exact hboth ▸ .cons hfirst (ih hrest)
  · intro hcells
    induction hcells with
    | nil => exact decodeColumn_nil type
    | cons hcell _ ih => exact decodeColumn_append type hcell ih

end Cell

namespace Table

open Shape (valuesOf)

/-- The column has the field, and for every row the cell of the value that the
row gives its name. -/
def IsColumn (rows : List (List (String × Value))) (field : Field)
    (column : Column) : Prop :=
  column.field = field ∧
    Cell.decodeColumn field.type (valuesOf field.name rows) = .ok column.cells

variable {schema : List Field} {rows : List (List (String × Value))}
  {table : Table}

theorem forall₂_isColumn {columns : List Column} :
    List.Forall₂ (IsColumn rows) schema columns ↔
      ∃ cells,
        List.Forall₂ (fun field column =>
          Cell.decodeColumn field.type (valuesOf field.name rows) =
            .ok column) schema cells ∧
        columns = List.zipWith Column.mk schema cells := by
  constructor
  · intro hcolumns
    induction hcolumns with
    | nil => exact ⟨[], .nil, rfl⟩
    | @cons field column _ _ hcolumn _ ih =>
        obtain ⟨cells, hcells, hrest⟩ := ih
        refine ⟨column.cells :: cells, .cons hcolumn.2 hcells, ?_⟩
        rw [List.zipWith_cons_cons, ← hrest, ← hcolumn.1]
  · rintro ⟨cells, hcells, rfl⟩
    induction hcells with
    | nil => exact .nil
    | cons hcolumn _ ih => exact .cons ⟨rfl, hcolumn⟩ ih

theorem decode_iff (hnames : (schema.map (·.name)).Nodup) :
    Table.decode schema rows = .ok table ↔
      (∀ field ∈ schema, field.type.undecodable? = none) ∧
        table.rows = rows.length ∧
        List.Forall₂ (IsColumn rows) schema table.columns := by
  have hfields : ((schema.map fun field => (field.name, field.type)).map
      (·.1)).Nodup := by
    rwa [List.map_map]
  have hcells : ∀ columns, Cell.decodeFields []
      (schema.map fun field => (field.name, field.type)) (rows.map some) =
        .ok columns ↔ _ :=
    fun _ => Cell.decodeFields_iff hfields fun _ _ => List.not_mem_nil
  simp only [List.forall₂_map_left_iff] at hcells
  rw [forall₂_isColumn, ← List.findSome?_eq_none_iff]
  unfold Table.decode
  cases schema.findSome? fun field => field.type.undecodable? with
  | some type => exact ⟨nofun, fun hboth => absurd hboth.1 nofun⟩
  | none =>
      dsimp only
      constructor
      · intro hdecode
        split at hdecode
        · exact absurd hdecode nofun
        · next columns hcolumns =>
            cases hdecode
            exact ⟨rfl, rfl, columns, (hcells columns).mp hcolumns, rfl⟩
      · rintro ⟨-, hcount, columns, hcolumns, hzip⟩
        rw [(hcells columns).mpr hcolumns]
        obtain ⟨count, found⟩ := table
        cases hcount
        cases hzip
        rfl

end Table

end JsonIntake
