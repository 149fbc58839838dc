import JsonIntake.Proofs.Records.Lines
import JsonIntake.Proofs.Table.Tabulation
import Mathlib.Data.List.Perm.Subperm

/-!
# Tables of batches

Joining the tables of batches, one after the other, gives the table of all
their lines.  The first batch with columns fixes names and order, later
batches may widen types, and the parts are read under the last types.
-/

namespace JsonIntake

open Json (Value)

namespace RecordList

/-- Records that come after others. -/
def behind (base later : RecordList) : RecordList :=
  ⟨later.reversed ++ base.reversed, base.malformed + later.malformed⟩

theorem rows_behind (base later : RecordList) :
    (behind base later).rows = base.rows ++ later.rows := by
  unfold behind rows toList
  rw [List.reverse_append, List.map_append]

theorem addMalformed_behind {base records next : RecordList}
    {recovery : Recovery} {message : String}
    (hadd : records.addMalformed recovery message = .ok next) :
    (behind base records).addMalformed recovery message =
      .ok (behind base next) := by
  cases recovery with
  | fail => exact absurd hadd nofun
  | recoverWithNull =>
      cases hadd
      rfl

theorem addLine_behind {base records next : RecordList}
    {recovery : Recovery} {line : List UInt8}
    (hadd : addLine recovery records line = .ok next) :
    addLine recovery (behind base records) line = .ok (behind base next) := by
  unfold addLine at hadd ⊢
  cases hparse : Json.parse line with
  | error fault =>
      rw [hparse] at hadd
      exact addMalformed_behind hadd
  | ok value =>
      rw [hparse] at hadd
      cases value with
      | object members =>
          cases hadd
          rfl
      | null => exact addMalformed_behind hadd
      | boolean value => exact addMalformed_behind hadd
      | number value => exact addMalformed_behind hadd
      | text value => exact addMalformed_behind hadd
      | array items => exact addMalformed_behind hadd

theorem addLines_behind (base : RecordList) {records next : RecordList}
    {recovery : Recovery} {lines : List (List UInt8)}
    (hadd : lines.foldlM (addLine recovery) records = .ok next) :
    lines.foldlM (addLine recovery) (behind base records) =
      .ok (behind base next) := by
  induction lines generalizing records with
  | nil =>
      cases hadd
      rfl
  | cons line lines ih =>
      rw [List.foldlM_cons] at hadd ⊢
      obtain ⟨mid, hmid, hrest⟩ := Except.bind_eq_ok.mp hadd
      exact Except.bind_eq_ok.mpr ⟨_, addLine_behind hmid, ih hrest⟩

/-- The records of some lines. -/
def collect (recovery : Recovery) (lines : List (List UInt8)) :
    Except Failure RecordList :=
  lines.foldlM (addLine recovery) empty

theorem collect_append {recovery : Recovery} {lines more : List (List UInt8)}
    {records later : RecordList} (hlines : collect recovery lines = .ok records)
    (hmore : collect recovery more = .ok later) :
    collect recovery (lines ++ more) = .ok (behind records later) := by
  have hbehind := addLines_behind records hmore
  have hempty : behind records empty = records := by
    simp [behind, empty]
  rw [hempty] at hbehind
  unfold collect
  rw [List.foldlM_append]
  exact Except.bind_eq_ok.mpr ⟨records, hlines, hbehind⟩

end RecordList

namespace Assembler

open Shape (names typeOf valuesOf)
open ColumnType (Widens)
open Table (fieldOf fieldsOf ColumnOf Tabulated)

/-- The part holds the rows under the columns known so far, and under all
types that these widen to. -/
structure PartOf (members : List (String × Shape))
    (rows : List (List (String × Value))) (part : Part) : Prop where
  count : part.rows = rows.length
  cells : ∀ index name type,
    (members = [] ∨ (names members)[index]? = some name) →
    Widens (typeOf name members) type →
    Cell.decodeColumn type (valuesOf name rows) =
      .ok (part.cells index ⟨name, type, true⟩)

/-- The parts hold the groups of rows, and the schema is theirs. -/
structure Collected (groups : List (List (List (String × Value))))
    (members : List (String × Shape)) (assembler : Assembler) : Prop where
  inferred : Shape.addRows? [] groups.flatten = some members
  schema : assembler.schema =
    if members = [] then none else some (fieldsOf members)
  parts : List.Forall₂ (PartOf members) groups assembler.parts

variable {members found all : List (String × Shape)}
  {rows : List (List (String × Value))}
  {groups : List (List (List (String × Value)))}
  {part : Part} {table : Table} {assembler next : Assembler}

theorem names_eq_nil : names members = [] ↔ members = [] :=
  List.map_eq_nil_iff

theorem PartOf.grow (hnames : members = [] ∨ names all = names members)
    (hwidens : ∀ name, Widens (typeOf name members) (typeOf name all))
    (hpart : PartOf members rows part) : PartOf all rows part := by
  constructor
  · exact hpart.count
  · intro index name type hindex htype
    apply hpart.cells index name type
    · rcases hnames with hempty | hsame
      · exact .inl hempty
      · rw [← names_eq_nil, ← hsame, names_eq_nil]
        exact hindex
    · exact (hwidens name).trans htype

theorem partOf_nullRows (hempty : ∀ row ∈ rows, row = []) :
    PartOf members rows (.nullRows rows.length) := by
  constructor
  · rfl
  · intro index name type _ _
    rw [Shape.valuesOf_of_empty hempty, Cell.decodeColumn_replicate_null]
    rfl

/-- A table whose columns stand in the order of the schema. -/
theorem partOf_table {columns : List Column} (hall : all ≠ [])
    (hinferred : Shape.addRows? [] rows = some found)
    (hwidens : ∀ name, Widens (typeOf name found) (typeOf name all))
    (hcolumns : List.Forall₂ (ColumnOf rows found) (names all) columns) :
    PartOf all rows (.table ⟨rows.length, columns⟩) := by
  constructor
  · rfl
  · intro index name type hindex htype
    have hname := hindex.resolve_left hall
    obtain ⟨hbound, hget⟩ := List.getElem?_eq_some_iff.mp hname
    have hlength := hcolumns.length_eq
    have hcolumn : ColumnOf rows found name columns[index] := by
      have hboth := (List.forall₂_iff_get.mp hcolumns).2 index hbound
        (hlength ▸ hbound)
      rw [List.get_eq_getElem, List.get_eq_getElem, hget] at hboth
      exact hboth
    rw [Part.cells, List.getElem?_eq_getElem (hlength ▸ hbound)]
    exact hcolumn.cellsAs hinferred ((hwidens name).trans htype)

/-! ## Matching columns by name -/

/-- The column of a table for a name, and the field with the type that both
widen to. -/
structure Match (rows : List (List (String × Value)))
    (members found : List (String × Shape)) (name : String)
    (pair : Column × Field) : Prop where
  mem : name ∈ names found
  column : ColumnOf rows found name pair.1
  type : (typeOf name members).join? (typeOf name found) = some pair.2.type
  field : pair.2 = ⟨name, pair.2.type, true⟩

theorem column?_columnOf {name : String} {column : Column}
    (htable : Tabulated rows found table)
    (hcolumn : table.column? name = some column) :
    name ∈ names found ∧ ColumnOf rows found name column := by
  obtain ⟨other, hother, hof⟩ :=
    forall₂_exists_left htable.columns (List.mem_of_find?_eq_some hcolumn)
  have hname := List.find?_some hcolumn
  rw [beq_iff_eq, hof.field] at hname
  have hsame : other = name := hname
  exact hsame ▸ ⟨hother, hof⟩

theorem conformField_match {name : String} {pair : Column × Field}
    (htable : Tabulated rows found table)
    (hconform : table.conformField (fieldOf members name) = .ok pair) :
    Match rows members found name pair := by
  unfold Table.conformField at hconform
  split at hconform
  · exact absurd hconform nofun
  · next column hcolumn =>
      obtain ⟨hmem, hof⟩ := column?_columnOf htable hcolumn
      split at hconform
      · next type htype =>
          cases hconform
          rw [hof.field] at htype
          exact ⟨hmem, hof, htype, rfl⟩
      · exact absurd hconform nofun

theorem conform_match {conformed : Table} {widened : List Field}
    (htable : Tabulated rows found table)
    (hconform : table.conform (fieldsOf members) = .ok (conformed, widened)) :
    (names found).length = (names members).length ∧
      ∃ pairs, List.Forall₂ (Match rows members found) (names members) pairs ∧
        conformed = ⟨rows.length, pairs.map (·.1)⟩ ∧
        widened = pairs.map (·.2) := by
  unfold Table.conform at hconform
  split at hconform
  · exact absurd hconform nofun
  · next hlength =>
      rw [not_not, fieldsOf, List.length_map, ← htable.columns.length_eq]
        at hlength
      obtain ⟨pairs, hpairs, h⟩ := Except.bind_eq_ok.mp hconform
      cases h
      have hmatch := Except.mapM_eq_ok.mp hpairs
      rw [fieldsOf, List.forall₂_map_left_iff] at hmatch
      refine ⟨hlength, pairs, ?_, ?_, rfl⟩
      · exact hmatch.imp fun _ _ => conformField_match htable
      · rw [← htable.count]

/-- Equally many different names, all of them found, are all the names. -/
theorem mem_names_of_matches {pairs : List (Column × Field)}
    (hmembers : (names members).Nodup)
    (hlength : (names found).length = (names members).length)
    (hpairs : List.Forall₂ (Match rows members found) (names members) pairs)
    {name : String} (hname : name ∈ names found) : name ∈ names members := by
  have hsubset : names members ⊆ names found := by
    intro other hother
    obtain ⟨pair, _, hpair⟩ := forall₂_exists_right hpairs hother
    exact hpair.mem
  have hperm := (hmembers.subperm hsubset).perm_of_length_le
    (Nat.le_of_eq hlength)
  exact hperm.mem_iff.mpr hname

theorem typeOf_of_not_mem {name : String} (hname : name ∉ names members) :
    typeOf name members = .null := by
  unfold typeOf
  rw [Shape.shapeOf_of_not_mem hname]
  rfl

/-- Matched members join, name by name, to the types both widen to. -/
theorem joinMembers?_of_matches {pairs : List (Column × Field)}
    (hmembers : (names members).Nodup)
    (hfound : Shape.DistinctMembers found)
    (hlength : (names found).length = (names members).length)
    (hpairs : List.Forall₂ (Match rows members found) (names members) pairs) :
    ∃ all, Shape.joinMembers? members found = some all ∧
      names all = names members ∧
      ∀ name pair, Match rows members found name pair →
        typeOf name all = pair.2.type := by
  have hnames : ∀ name ∈ names found, name ∈ names members :=
    fun _ => mem_names_of_matches hmembers hlength hpairs
  have hshapes : ∀ name ∈ names found, ∃ c,
      Shape.join? (Shape.shapeOf name members) (Shape.shapeOf name found) =
        some c := by
    intro name hname
    obtain ⟨pair, _, hpair⟩ :=
      forall₂_exists_right hpairs (hnames name hname)
    obtain ⟨c, hc, _⟩ := Shape.join?_of_columnType hfound.shapeOf hpair.type
    exact ⟨c, hc⟩
  obtain ⟨all, hall⟩ := Shape.joinMembers?_of_shapes hfound.names hshapes
  refine ⟨all, hall, Shape.names_joinMembers? hnames hall, ?_⟩
  intro name pair hpair
  obtain ⟨c, hc, htype⟩ := Shape.join?_of_columnType hfound.shapeOf hpair.type
  rw [Shape.join?_shapeOf hfound.names hall, Option.some.injEq] at hc
  rw [typeOf, hc, htype]

/-! ## One batch -/

theorem inferred_concat (hgroups : Shape.addRows? [] groups.flatten =
      some members) (hrows : Shape.addRows? [] rows = some found) :
    Shape.addRows? [] (groups ++ [rows]).flatten =
      Shape.joinMembers? members found := by
  rw [List.flatten_append, List.flatten_singleton, Shape.addRows?_append_eq,
    hgroups, hrows, Option.bind_some, Option.bind_some]

theorem parts_concat {parts : List Part}
    (hparts : List.Forall₂ (PartOf members) groups parts)
    (hpart : PartOf members rows part) :
    List.Forall₂ (PartOf members) (groups ++ [rows]) (parts ++ [part]) :=
  List.rel_append hparts (.cons hpart .nil)

theorem forall₂_grow {parts : List Part}
    (hnames : members = [] ∨ names all = names members)
    (hwidens : ∀ name, Widens (typeOf name members) (typeOf name all))
    (hparts : List.Forall₂ (PartOf members) groups parts) :
    List.Forall₂ (PartOf all) groups parts :=
  hparts.imp fun _ _ hpart => hpart.grow hnames hwidens

theorem empty_of_inferred_nil (hrows : Shape.addRows? [] rows = some []) :
    ∀ row ∈ rows, row = [] := by
  intro row hrow
  cases row with
  | nil => rfl
  | cons member rest =>
      have hname : member.1 ∈ names [] :=
        (Shape.mem_names_addRows? hrows).mpr
          (.inr ⟨_, hrow, List.mem_cons_self⟩)
      exact absurd hname List.not_mem_nil

theorem schema_tabulated (htable : Tabulated rows found table) :
    table.schema = fieldsOf found := by
  unfold Table.schema fieldsOf
  have hcolumns := htable.columns
  generalize names found = order at hcolumns
  generalize table.columns = columns at hcolumns
  induction hcolumns with
  | nil => rfl
  | cons hcolumn _ ih => rw [List.map_cons, List.map_cons, hcolumn.field, ih]

/-- A batch without columns. -/
theorem Collected.push_nullRows
    (hcollected : Collected groups members assembler)
    (htable : Tabulated rows [] table) :
    Collected (groups ++ [rows]) members
      { assembler with
        parts := assembler.parts ++ [.nullRows table.rows] } := by
  have hempty := empty_of_inferred_nil htable.inferred
  constructor
  · rw [inferred_concat hcollected.inferred htable.inferred,
      Shape.joinMembers?_nil]
  · exact hcollected.schema
  · rw [htable.count]
    exact parts_concat hcollected.parts (partOf_nullRows hempty)

/-- The first batch with columns. -/
theorem Collected.push_first (hcollected : Collected groups [] assembler)
    (htable : Tabulated rows found table) (hfound : found ≠ []) :
    Collected (groups ++ [rows]) found
      ⟨some table.schema, assembler.parts ++ [.table table]⟩ := by
  have hwidens : ∀ name, Widens (typeOf name []) (typeOf name found) :=
    fun _ => .null _
  constructor
  · rw [List.flatten_append, List.flatten_singleton, Shape.addRows?_append,
      hcollected.inferred, Option.bind_some, htable.inferred]
  · rw [if_neg hfound, schema_tabulated htable]
  · refine parts_concat (forall₂_grow (.inl rfl) hwidens hcollected.parts) ?_
    have hpart := partOf_table hfound htable.inferred (fun _ => .refl _)
      htable.columns
    rwa [← htable.count] at hpart

theorem widens_of_matches {pairs : List (Column × Field)}
    (hsubset : ∀ name ∈ names found, name ∈ names members)
    (hpairs : List.Forall₂ (Match rows members found) (names members) pairs)
    (htypes : ∀ name pair, Match rows members found name pair →
      typeOf name all = pair.2.type) (name : String) :
    Widens (typeOf name members) (typeOf name all) ∧
      Widens (typeOf name found) (typeOf name all) := by
  by_cases hname : name ∈ names members
  · obtain ⟨pair, _, hpair⟩ := forall₂_exists_right hpairs hname
    rw [htypes name pair hpair]
    exact ColumnType.widens_of_join? hpair.type
  · rw [typeOf_of_not_mem hname, typeOf_of_not_mem (mt (hsubset name) hname)]
    exact ⟨.null _, .null _⟩

theorem fields_of_matches {order : List String}
    {pairs : List (Column × Field)}
    (hpairs : List.Forall₂ (Match rows members found) order pairs)
    (htypes : ∀ name pair, Match rows members found name pair →
      typeOf name all = pair.2.type) :
    pairs.map (·.2) = order.map (fieldOf all) := by
  induction hpairs with
  | nil => rfl
  | cons hpair _ ih =>
      rw [List.map_cons, List.map_cons, ih, hpair.field, fieldOf,
        htypes _ _ hpair]

/-- A batch whose columns are matched to the known ones. -/
theorem Collected.push_conformed {conformed : Table} {widened : List Field}
    (hcollected : Collected groups members assembler)
    (htable : Tabulated rows found table) (hmembers : members ≠ [])
    (hconform : table.conform (fieldsOf members) = .ok (conformed, widened)) :
    ∃ all, Collected (groups ++ [rows]) all
      ⟨some widened, assembler.parts ++ [.table conformed]⟩ := by
  have hnodup : (names members).Nodup :=
    (Shape.DistinctMembers.nil.addRows? hcollected.inferred).names
  obtain ⟨hlength, pairs, hpairs, rfl, rfl⟩ := conform_match htable hconform
  obtain ⟨all, hjoin, hnames, htypes⟩ :=
    joinMembers?_of_matches hnodup htable.distinct hlength hpairs
  have hwidens := widens_of_matches
    (fun _ => mem_names_of_matches hnodup hlength hpairs) hpairs htypes
  have hall : all ≠ [] := by
    rwa [ne_eq, ← names_eq_nil, hnames, names_eq_nil]
  refine ⟨all, ?_, ?_, ?_⟩
  · rw [inferred_concat hcollected.inferred htable.inferred, hjoin]
  · rw [if_neg hall, fieldsOf, hnames, fields_of_matches hpairs htypes]
  · refine parts_concat (forall₂_grow (.inr hnames)
      (fun name => (hwidens name).1) hcollected.parts) ?_
    apply partOf_table hall htable.inferred fun name => (hwidens name).2
    rw [hnames, List.forall₂_map_right_iff]
    exact hpairs.imp fun _ _ hpair => hpair.column

/-- Pushing the table of a batch collects its rows. -/
theorem Collected.push {index : Nat}
    (hcollected : Collected groups members assembler)
    (htable : Tabulated rows found table)
    (hpush : assembler.push index table = .ok next) :
    ∃ all, Collected (groups ++ [rows]) all next := by
  have hcolumns : table.columns = [] ↔ found = [] := by
    rw [← names_eq_nil, ← List.length_eq_zero_iff, ← List.length_eq_zero_iff,
      htable.columns.length_eq]
  unfold Assembler.push at hpush
  by_cases hfound : found = []
  · subst hfound
    rw [if_pos (List.isEmpty_iff.mpr (hcolumns.mpr rfl))] at hpush
    cases hpush
    exact ⟨members, hcollected.push_nullRows htable⟩
  · rw [if_neg (mt List.isEmpty_iff.mp (mt hcolumns.mp hfound)),
      hcollected.schema] at hpush
    by_cases hmembers : members = []
    · subst hmembers
      cases hpush
      exact ⟨found, hcollected.push_first htable hfound⟩
    · rw [if_neg hmembers] at hpush
      dsimp only at hpush
      split at hpush
      · exact absurd hpush nofun
      · next conformed widened hconform =>
          cases hpush
          exact hcollected.push_conformed htable hmembers hconform

/-! ## All batches -/

/-- Push the tables of batches one after the other, numbered from `start`. -/
def pushAll (start : Nat) (assembler : Assembler)
    (fragments : List TableFragment) : Except Failure Assembler :=
  (fragments.zipIdx start).foldlM
    (fun assembler batch => assembler.push batch.2 batch.1.table) assembler

theorem collected_empty : Collected [] [] empty :=
  ⟨rfl, rfl, .nil⟩

theorem Collected.pushAll {start : Nat} {fragments : List TableFragment}
    {batches : List (List (List (String × Value)))}
    (hcollected : Collected groups members assembler)
    (htables : List.Forall₂ (fun rows (fragment : TableFragment) =>
      ∃ found, Tabulated rows found fragment.table) batches fragments)
    (hpush : pushAll start assembler fragments = .ok next) :
    ∃ all, Collected (groups ++ batches) all next := by
  induction htables generalizing groups members assembler start with
  | nil =>
      cases hpush
      exact ⟨members, (List.append_nil groups).symm ▸ hcollected⟩
  | @cons rows fragment batches fragments htable _ ih =>
      obtain ⟨found, htable⟩ := htable
      unfold Assembler.pushAll at hpush
      rw [List.zipIdx_cons, List.foldlM_cons] at hpush
      obtain ⟨mid, hmid, hrest⟩ := Except.bind_eq_ok.mp hpush
      obtain ⟨all, hall⟩ := hcollected.push htable hmid
      have hbatches := ih hall hrest
      rwa [List.append_assoc, List.singleton_append] at hbatches

theorem foldl_rows {parts : List Part} (start : Nat)
    (hparts : List.Forall₂ (PartOf members) groups parts) :
    parts.foldl (fun rows part => rows + part.rows) start =
      start + groups.flatten.length := by
  induction hparts generalizing start with
  | nil => rfl
  | cons hpart _ ih =>
      rw [List.foldl_cons, ih, hpart.count, List.flatten_cons,
        List.length_append, Nat.add_assoc]

theorem decodeColumn_parts {parts : List Part} {index : Nat} {name : String}
    (hname : (names members)[index]? = some name)
    (hparts : List.Forall₂ (PartOf members) groups parts) :
    Cell.decodeColumn (typeOf name members) (valuesOf name groups.flatten) =
      .ok (parts.flatMap (Part.cells index (fieldOf members name))) := by
  induction hparts with
  | nil => exact Cell.decodeColumn_replicate_null _ 0
  | cons hpart _ ih =>
      rw [List.flatten_cons, Shape.valuesOf_append, List.flatMap_cons]
      exact Cell.decodeColumn_append _
        (hpart.cells index name _ (.inr hname) (.refl _)) ih

theorem finish_columns (hcollected : Collected groups members assembler) :
    assembler.finish.columns = (fieldsOf members).zipIdx.map fun entry =>
      ⟨entry.1, assembler.parts.flatMap (Part.cells entry.2 entry.1)⟩ := by
  unfold finish
  rw [hcollected.schema]
  by_cases hmembers : members = []
  · subst hmembers
    rfl
  · rw [if_neg hmembers]
    rfl

/-- What has been pushed is finished as the table of all rows. -/
theorem Collected.tabulated (hcollected : Collected groups members assembler) :
    Tabulated groups.flatten members assembler.finish := by
  constructor
  · exact hcollected.inferred
  · exact (foldl_rows 0 hcollected.parts).trans (Nat.zero_add _)
  · rw [finish_columns hcollected, List.forall₂_iff_get]
    constructor
    · rw [List.length_map, List.length_zipIdx, fieldsOf, List.length_map]
    · intro index hleft hright
      have hname := List.getElem?_eq_getElem hleft
      simp only [List.get_eq_getElem, List.getElem_map, List.getElem_zipIdx,
        fieldsOf, Nat.zero_add]
      exact ⟨rfl, decodeColumn_parts hname hcollected.parts⟩

/-! ## Batches of lines -/

section Batches

variable {options : ParseOptions} {lineGroups : List (List (List UInt8))}
  {buffers : List Buffer} {fragments : List TableFragment}

/-- The records of all batches, when every batch can be tokenized. -/
theorem collect_batches (hlines : options.lines = true)
    (hhints : options.hints = [])
    (hbuffers : List.Forall₂ (fun lines (buffer : Buffer) =>
      TextOf options.delimiter lines buffer.toList) lineGroups buffers)
    (hfragments : List.Forall₂ (fun buffer fragment =>
      tokenize options buffer = .ok fragment) buffers fragments) :
    ∃ batches records,
      List.Forall₂ (fun rows (fragment : TableFragment) =>
        ∃ found, Tabulated rows found fragment.table) batches fragments ∧
      RecordList.collect options.recovery
        (lineGroups.flatten.flatMap (recordLines options.delimiter)) =
          .ok records ∧
      records.rows = batches.flatten ∧
      records.malformed = (fragments.map (·.malformed)).sum := by
  induction hbuffers generalizing fragments with
  | nil =>
      cases hfragments
      exact ⟨[], .empty, .nil, rfl, rfl, rfl⟩
  | @cons lines buffer lineGroups _ htext _ ih =>
      cases hfragments with
      | @cons _ fragment _ fragments hfragment hrest =>
          obtain ⟨records, found, hrecords, htable, hmalformed⟩ :=
            (tokenize_eq_ok hlines hhints).mp hfragment
          obtain ⟨batches, later, htables, hlater, hrows, hsum⟩ := ih hrest
          have hfirst : RecordList.collect options.recovery
              (lines.flatMap (recordLines options.delimiter)) =
                .ok records := by
            rw [← htext.recordLines]
            exact hrecords
          refine ⟨records.rows :: batches, records.behind later,
            .cons ⟨found, htable⟩ htables, ?_, ?_, ?_⟩
          · rw [List.flatten_cons, List.flatMap_append]
            exact RecordList.collect_append hfirst hlater
          · rw [RecordList.rows_behind, hrows, List.flatten_cons]
          · rw [List.map_cons, List.sum_cons, hmalformed, ← hsum]
            rfl

/-- Where the lines of a text can be tokenized group by group, and the tables
of the groups joined, the text itself can be tokenized, and this gives the
joined table and all malformed records. -/
theorem tokenize_eq_finish {whole : Buffer} (hlines : options.lines = true)
    (hhints : options.hints = [])
    (hbuffers : List.Forall₂ (fun lines (buffer : Buffer) =>
      TextOf options.delimiter lines buffer.toList) lineGroups buffers)
    (hwhole : TextOf options.delimiter lineGroups.flatten whole.toList)
    (hfragments : buffers.mapM (tokenize options) = .ok fragments)
    (hpush : pushAll 0 empty fragments = .ok assembler) :
    tokenize options whole =
      .ok ⟨assembler.finish, (fragments.map (·.malformed)).sum⟩ := by
  obtain ⟨batches, records, htables, hrecords, hrows, hsum⟩ :=
    collect_batches hlines hhints hbuffers (Except.mapM_eq_ok.mp hfragments)
  obtain ⟨all, hcollected⟩ := collected_empty.pushAll htables hpush
  rw [← hwhole.recordLines] at hrecords
  refine (tokenize_eq_ok hlines hhints).mpr
    ⟨records, all, hrecords, ?_, hsum.symm⟩
  rw [hrows]
  exact hcollected.tabulated

/-- Rows without members, integers beside a malformed line, and floating
point, in three batches. -/
theorem tokenize_eq_finish_three_batches :
    let options : ParseOptions := ⟨true, 10, .recoverWithNull, []⟩
    let lineGroups := [["\x7b\x7d".toUTF8.toList],
      ["\x7b\"a\": 1, \"b\": \"x\"\x7d".toUTF8.toList, "[]".toUTF8.toList],
      ["\x7b\"b\": null, \"a\": 2.5\x7d".toUTF8.toList]]
    let buffers := lineGroups.map fun lines =>
      Buffer.ofList ([10].intercalate lines)
    let whole := Buffer.ofList ([10].intercalate lineGroups.flatten)
    ∃ fragments assembler,
      buffers.mapM (tokenize options) = .ok fragments ∧
      pushAll 0 empty fragments = .ok assembler ∧
      tokenize options whole =
        .ok ⟨assembler.finish, (fragments.map (·.malformed)).sum⟩ := by
  intro options lineGroups buffers whole
  have hok : (buffers.mapM (tokenize options) >>= pushAll 0 empty).isOk =
      true := by
    decide +kernel
  obtain ⟨assembler, hassembler⟩ := Except.exists_of_isOk hok
  obtain ⟨fragments, hfragments, hpush⟩ := Except.bind_eq_ok.mp hassembler
  have htext : ∀ lines : List (List UInt8),
      TextOf 10 lines (Buffer.ofList ([10].intercalate lines)).toList := by
    intro lines
    rw [Buffer.toList_ofList]
    exact .separated
  have hbuffers : List.Forall₂ (fun lines (buffer : Buffer) =>
      TextOf options.delimiter lines buffer.toList) lineGroups buffers :=
    .cons (htext _) (.cons (htext _) (.cons (htext _) .nil))
  exact ⟨fragments, assembler, hfragments, hpush,
    tokenize_eq_finish rfl rfl hbuffers (htext _) hfragments hpush⟩

end Batches

end Assembler

end JsonIntake
