import JsonIntake.Proofs.Table.Bare

/-!
# Inserting a batch without members

The lines of a bare batch hold objects without members, or are malformed and
recovered from.  Where batches have been joined, one more bare batch amounts
to rows of nulls at its place, if there are no hints.  With hints it is a
batch with columns, and this holds only if it fits to the others.
-/

namespace JsonIntake

/-- A table with rows of nulls after the first `start` rows. -/
def Table.insertNulls (start count : Nat) (table : Table) : Table :=
  { rows := table.rows + count
    columns := table.columns.map fun column =>
      { column with cells := column.cells.take start ++
          List.replicate count .null ++ column.cells.drop start } }

/-- The joined table of batches. -/
def assemble (options : ParseOptions) (buffers : List Buffer) :
    Except Failure Table := do
  let fragments ← buffers.mapM (tokenize options)
  let assembler ← Assembler.pushAll 0 .empty fragments
  .ok assembler.finish

/-- The record lines of batches. -/
def batchLines (options : ParseOptions) (buffers : List Buffer) :
    List (List UInt8) :=
  buffers.flatMap fun buffer => recordLines options.delimiter buffer.toList

/-- Every record line is an object without members, or malformed and recovered
from. -/
def IsBare (options : ParseOptions) (buffer : Buffer) : Prop :=
  ∀ line ∈ batchLines options [buffer], lineMembers line = [] ∧
    (isMalformed line = true → options.recovery = .recoverWithNull)

section Joined

variable {hints : List Hint} {front back : List Table} {count : Nat}

/-- A bare table that does not disturb the columns inserts rows of nulls. -/
theorem finish_insert (hcompatible : Compatible (front ++ back))
    (hhinted : ∀ table ∈ front ++ back, table.Hinted hints)
    (hsome : front ++ back ≠ [])
    (hboth : Compatible (front ++ bareTable hints count :: back))
    (hnames : leadingNames (front ++ bareTable hints count :: back) =
      leadingNames (front ++ back)) :
    (Assembler.ofTables (front ++ bareTable hints count :: back)).finish =
      (Assembler.ofTables (front ++ back)).finish.insertNulls
        (front.map (·.rows)).sum count := by
  rw [Assembler.finish_ofTables hboth, Assembler.finish_ofTables hcompatible,
    mergedSchema_insert hcompatible hhinted hsome hnames,
    Table.insertNulls, List.map_map]
  have hrows : ((front ++ bareTable hints count :: back).map (·.rows)).sum =
      ((front ++ back).map (·.rows)).sum + count := by
    have hcount : (bareTable hints count).rows = count := rfl
    simp only [List.map_append, List.map_cons, List.sum_append,
      List.sum_cons, hcount]
    omega
  rw [hrows]
  congr 1
  refine List.map_congr_left fun field _ => ?_
  have hlength : (front.flatMap (Table.cellsFor field)).length =
      (front.map (·.rows)).sum :=
    length_flatMap_cellsFor (fun table htable =>
      (hhinted table (List.mem_append_left _ htable)).full) field
  simp only [Function.comp_apply, List.flatMap_append, List.flatMap_cons,
    cellsFor_bareTable, ← hlength, List.take_left, List.drop_left,
    List.append_assoc]

theorem columnNames_insertNulls (start count : Nat) (table : Table) :
    (table.insertNulls start count).columnNames = table.columnNames := by
  unfold Table.insertNulls Table.columnNames
  rw [List.map_map]
  rfl

/-- A bare table can be held beside others and inserts rows of nulls exactly
if it has no columns, or fits to them and does not come first in another
order. -/
theorem finish_insert_iff (hcompatible : Compatible (front ++ back))
    (hhinted : ∀ table ∈ front ++ back, table.Hinted hints)
    (hsome : front ++ back ≠ []) :
    Compatible (front ++ bareTable hints count :: back) ∧
        (Assembler.ofTables (front ++ bareTable hints count :: back)).finish =
          (Assembler.ofTables (front ++ back)).finish.insertNulls
            (front.map (·.rows)).sum count ↔
      hints = [] ∨
        (∀ name ∈ leadingNames (front ++ back),
          (hintFor? name hints).isSome = true) ∧
        (front = [] → leadingNames (front ++ back) =
          (hintedFields [] hints).map (·.name)) := by
  have hfits := compatible_insert_iff count hcompatible hhinted hsome
  have horder := leadingNames_insert_iff count hhinted
  constructor
  · rintro ⟨hboth, hfinish⟩
    have hnames := congrArg Table.columnNames hfinish
    rw [columnNames_insertNulls, Assembler.columnNames_ofTables,
      Assembler.columnNames_ofTables] at hnames
    rcases hfits.mp hboth with hnil | hall
    · exact .inl hnil
    · exact (horder.mp hnames).imp id fun hfirst => ⟨hall, hfirst⟩
  · intro hcondition
    have hboth := hfits.mpr (hcondition.imp id And.left)
    have hnames := horder.mpr (hcondition.imp id And.right)
    exact ⟨hboth, finish_insert hcompatible hhinted hsome hboth hnames⟩

end Joined

/-! ## Batches -/

section Batches

variable {options : ParseOptions} {buffers front back : List Buffer}
  {batch : Buffer} {fragments : List TableFragment} {table : Table}

theorem hinted_of_tokenize {fragment : TableFragment} {buffer : Buffer}
    (hlines : options.lines = true)
    (hfragment : tokenize options buffer = .ok fragment) :
    fragment.table.Hinted options.hints ∧
      fragment.table.rows = (batchLines options [buffer]).length ∧
      ∀ field ∈ hintedFields [] options.hints,
        field.type.undecodable? = none := by
  have htable := ((tokenize_lines_eq_ok hlines).mp hfragment).2.1
  obtain ⟨hhinted, hcount, hdecodable⟩ := Table.hinted_of_tabulate htable
  refine ⟨hhinted, by simpa [batchLines] using hcount, fun field hfield => ?_⟩
  have htype := hhinted.types field.name field.type
    (mem_hintedFields.mp hfield).2.1
  obtain ⟨column, hcolumn, hsame⟩ := Option.map_eq_some_iff.mp htype
  rw [← hsame]
  exact hdecodable _ (List.mem_map_of_mem (Table.column?_mem hcolumn).1)

/-- A bare batch has a bare table. -/
theorem tokenize_bare (hlines : options.lines = true)
    (hbare : IsBare options batch)
    (hdecodable : ∀ field ∈ hintedFields [] options.hints,
      field.type.undecodable? = none) :
    ∃ fragment, tokenize options batch = .ok fragment ∧
      fragment.table = bareTable options.hints
        (batchLines options [batch]).length := by
  have hsame : batchLines options [batch] =
      recordLines options.delimiter batch.toList := by
    simp [batchLines]
  rw [IsBare, hsame] at hbare
  rw [hsame]
  refine ⟨⟨_, _⟩, (tokenize_lines_eq_ok hlines).mpr ⟨?_, ?_, rfl⟩, rfl⟩
  · intro hfail line hline
    by_contra hmalformed
    have hrecover := (hbare line hline).2 (by simpa using hmalformed)
    rw [hfail] at hrecover
    exact absurd hrecover nofun
  · refine tabulate_bare hdecodable (List.eq_replicate_iff.mpr ⟨?_, ?_⟩)
    · exact List.length_map _
    · intro row hrow
      obtain ⟨line, hline, rfl⟩ := List.mem_map.mp hrow
      exact (hbare line hline).1

theorem hinted_of_mapM (hlines : options.lines = true)
    (hfragments : buffers.mapM (tokenize options) = .ok fragments) :
    (∀ table ∈ fragments.map (·.table), table.Hinted options.hints) ∧
      ((fragments.map (·.table)).map (·.rows)).sum =
        (batchLines options buffers).length := by
  have hpairs := Except.mapM_eq_ok.mp hfragments
  clear hfragments
  induction hpairs with
  | nil => exact ⟨fun _ hmem => absurd hmem List.not_mem_nil, rfl⟩
  | @cons buffer fragment buffers fragments hfragment _ ih =>
      obtain ⟨hhinted, hcount, -⟩ := hinted_of_tokenize hlines hfragment
      refine ⟨?_, ?_⟩
      · rw [List.map_cons, List.forall_mem_cons]
        exact ⟨hhinted, ih.1⟩
      · rw [List.map_cons, List.map_cons, List.sum_cons, ih.2, hcount]
        simp [batchLines]

theorem assemble_eq_ok_iff (hlines : options.lines = true)
    (hfragments : buffers.mapM (tokenize options) = .ok fragments) :
    assemble options buffers = .ok table ↔
      Compatible (fragments.map (·.table)) ∧
        (Assembler.ofTables (fragments.map (·.table))).finish = table := by
  have hdistinct : ∀ fragment ∈ fragments,
      fragment.table.columnNames.Nodup :=
    fun fragment hmem => ((hinted_of_mapM hlines hfragments).1 _
      (List.mem_map_of_mem hmem)).distinct
  unfold assemble
  rw [hfragments, Except.bind_eq_ok]
  constructor
  · rintro ⟨_, h, hrest⟩
    cases h
    obtain ⟨assembler, hpush, hfinish⟩ := Except.bind_eq_ok.mp hrest
    obtain ⟨hcompatible, rfl⟩ :=
      (Assembler.pushAll_eq_ok_iff hdistinct).mp hpush
    cases hfinish
    exact ⟨hcompatible, rfl⟩
  · rintro ⟨hcompatible, rfl⟩
    have hpush := (Assembler.pushAll_eq_ok_iff hdistinct).mpr
      ⟨hcompatible, rfl⟩
    exact ⟨fragments, rfl, Except.bind_eq_ok.mpr ⟨_, hpush, rfl⟩⟩

theorem exists_fragments (htable : assemble options buffers = .ok table) :
    ∃ fragments, buffers.mapM (tokenize options) = .ok fragments := by
  obtain ⟨fragments, hfragments, -⟩ := Except.bind_eq_ok.mp htable
  exact ⟨fragments, hfragments⟩

/-- The fragments around a bare batch, if those of the other batches are
known and there is at least one. -/
theorem mapM_insert {before after : List TableFragment}
    (hlines : options.lines = true) (hbare : IsBare options batch)
    (hbefore : front.mapM (tokenize options) = .ok before)
    (hafter : back.mapM (tokenize options) = .ok after)
    (hsome : front ++ back ≠ []) :
    ∃ fragment, (front ++ batch :: back).mapM (tokenize options) =
        .ok (before ++ fragment :: after) ∧
      fragment.table = bareTable options.hints
        (batchLines options [batch]).length := by
  have hboth := Except.mapM_eq_ok.mp (Cell.mapM_append_ok hbefore hafter)
  obtain ⟨buffer, hbuffer⟩ := List.exists_mem_of_ne_nil _ hsome
  obtain ⟨first, -, hfirst⟩ := forall₂_exists_right hboth hbuffer
  have hdecodable := (hinted_of_tokenize hlines hfirst).2.2
  obtain ⟨fragment, hfragment, htable⟩ :=
    tokenize_bare hlines hbare hdecodable
  have hrest : (batch :: back).mapM (tokenize options) =
      .ok (fragment :: after) :=
    Except.mapM_eq_ok.mpr (.cons hfragment (Except.mapM_eq_ok.mp hafter))
  exact ⟨fragment, Cell.mapM_append_ok hbefore hrest, htable⟩

/-- What becomes of joined batches when a bare batch is inserted.  They can
still be joined exactly if there are no hints or all columns are hinted.  The
joined table has the same columns, with rows of nulls at the place of the
batch, exactly if moreover the batch does not come first under hints in
another order than that of the columns. -/
theorem assemble_insert_bare (hlines : options.lines = true)
    (hbare : IsBare options batch)
    (hmember : ∃ line ∈ batchLines options (front ++ back),
      lineMembers line ≠ [])
    (htable : assemble options (front ++ back) = .ok table) :
    ((∃ joined, assemble options (front ++ batch :: back) = .ok joined) ↔
        options.hints = [] ∨ ∀ name ∈ table.columnNames,
          (hintFor? name options.hints).isSome = true) ∧
      (assemble options (front ++ batch :: back) =
          .ok (table.insertNulls (batchLines options front).length
            (batchLines options [batch]).length) ↔
        options.hints = [] ∨
          (∀ name ∈ table.columnNames,
            (hintFor? name options.hints).isSome = true) ∧
          (front = [] → table.columnNames =
            (hintedFields [] options.hints).map (·.name))) := by
  have hsome : front ++ back ≠ [] := by
    rintro hnil
    rw [hnil] at hmember
    exact absurd hmember nofun
  obtain ⟨fragments, hfragments⟩ := exists_fragments htable
  obtain ⟨before, after, hbefore, hafter, rfl⟩ :=
    Cell.mapM_append_eq_ok hfragments
  obtain ⟨fragment, hinserted, hfragment⟩ :=
    mapM_insert hlines hbare hbefore hafter hsome
  obtain ⟨hcompatible, hfinish⟩ :=
    (assemble_eq_ok_iff hlines hfragments).mp htable
  obtain ⟨hhinted, -⟩ := hinted_of_mapM hlines hfragments
  have hcount := (hinted_of_mapM hlines hbefore).2
  have htables : before ++ after ≠ [] := by
    intro hnil
    rw [hnil, Except.mapM_eq_ok, List.forall₂_nil_right_iff] at hfragments
    exact hsome hfragments
  have hfront : front = [] ↔ before.map (·.table) = [] := by
    rw [List.map_eq_nil_iff, ← List.length_eq_zero_iff,
      (Except.mapM_eq_ok.mp hbefore).length_eq, List.length_eq_zero_iff]
  have hjoined : ∀ joined,
      assemble options (front ++ batch :: back) = .ok joined ↔ _ :=
    fun _ => assemble_eq_ok_iff hlines hinserted
  simp only [List.map_append, List.map_cons, hfragment]
    at hcompatible hfinish hhinted hjoined
  have hfilled : before.map (·.table) ++ after.map (·.table) ≠ [] := by
    simpa using htables
  simp only [hjoined, ← hcount, hfront, ← hfinish,
    Assembler.columnNames_ofTables]
  refine ⟨?_, finish_insert_iff hcompatible hhinted hfilled⟩
  simp only [exists_and_left, exists_eq', and_true]
  exact compatible_insert_iff _ hcompatible hhinted hfilled

/-- An empty object and an array that is recovered from, between two batches
in which the only column is hinted. -/
theorem assemble_insert_bare_hinted :
    let options : ParseOptions :=
      ⟨true, 10, .recoverWithNull, [("a", .float64)]⟩
    let front := [Buffer.ofList "\x7b\"a\": 1\x7d\n".toUTF8.toList]
    let batch := Buffer.ofList "\x7b\x7d\n\n[]".toUTF8.toList
    let back := [Buffer.ofList "\x7b\"a\": null\x7d".toUTF8.toList]
    IsBare options batch ∧
      (∃ line ∈ batchLines options (front ++ back), lineMembers line ≠ []) ∧
      ∃ table, assemble options (front ++ back) = .ok table ∧
        assemble options (front ++ batch :: back) =
          .ok (table.insertNulls 1 2) := by
  intro options front batch back
  have hlengths : ∀ line ∈ batchLines options [batch],
      (lineMembers line).length = 0 := by
    decide +kernel
  have hbare : IsBare options batch := fun line hline =>
    ⟨List.length_eq_zero_iff.mp (hlengths line hline), fun _ => rfl⟩
  have hfilled : ∃ line ∈ batchLines options (front ++ back),
      (lineMembers line).length ≠ 0 := by
    decide +kernel
  have hmember : ∃ line ∈ batchLines options (front ++ back),
      lineMembers line ≠ [] := by
    obtain ⟨line, hline, hlength⟩ := hfilled
    exact ⟨line, hline, mt List.length_eq_zero_iff.mpr hlength⟩
  have hok : (assemble options (front ++ back)).isOk = true := by
    decide +kernel
  obtain ⟨table, htable⟩ := Except.exists_of_isOk hok
  have hnames : ((assemble options (front ++ back)).toOption.map
      (·.columnNames)) = some ["a"] := by
    decide +kernel
  rw [htable] at hnames
  have hcolumns : table.columnNames = ["a"] := Option.some.inj hnames
  have hfront : (batchLines options front).length = 1 := by decide +kernel
  have hcount : (batchLines options [batch]).length = 2 := by decide +kernel
  have hhinted : ∀ name ∈ table.columnNames,
      (hintFor? name options.hints).isSome = true := by
    rw [hcolumns]
    decide
  have hinsert := (assemble_insert_bare rfl hbare hmember htable).2.mpr
    (.inr ⟨hhinted, nofun⟩)
  rw [hfront, hcount] at hinsert
  exact ⟨hbare, hmember, table, htable, hinsert⟩

/-- A hint for a column that no line has: an empty object alone on its batch
breaks the reading. -/
theorem assemble_insert_bare_unhinted :
    let options : ParseOptions := ⟨true, 10, .fail, [("b", .int64)]⟩
    let front := Buffer.ofList "\x7b\"a\":1\x7d\n".toUTF8.toList
    let batch := Buffer.ofList "\x7b\x7d\n".toUTF8.toList
    IsBare options batch ∧
      (∃ line ∈ batchLines options [front], lineMembers line ≠ []) ∧
      (∃ table, assemble options [front] = .ok table) ∧
      ∀ table, assemble options [front, batch] ≠ .ok table := by
  intro options front batch
  have hlengths : ∀ line ∈ batchLines options [batch],
      (lineMembers line).length = 0 ∧ isMalformed line = false := by
    decide +kernel
  have hfilled : ∃ line ∈ batchLines options [front],
      (lineMembers line).length ≠ 0 := by
    decide +kernel
  have hok : (assemble options [front]).isOk = true := by decide +kernel
  have hbroken : (assemble options [front, batch]).isOk = false := by
    decide +kernel
  refine ⟨fun line hline => ⟨?_, ?_⟩, ?_, Except.exists_of_isOk hok, ?_⟩
  · exact List.length_eq_zero_iff.mp (hlengths line hline).1
  · intro hmalformed
    rw [(hlengths line hline).2] at hmalformed
    exact absurd hmalformed nofun
  · obtain ⟨line, hline, hlength⟩ := hfilled
    exact ⟨line, hline, mt List.length_eq_zero_iff.mpr hlength⟩
  · intro table htable
    rw [htable] at hbroken
    exact absurd hbroken nofun

end Batches

end JsonIntake
