import JsonIntake.Proofs.Read.Hints
import JsonIntake.Proofs.Read.Records
import JsonIntake.Proofs.Table.Layout

/-!
# The columns of a read under other settings

How a read of lines is cut into batches has no part in which columns its table
has.  Without hints it has none in their order either.  With hints the records
of the first batch decide the order, and two reads agree in it exactly if the
further records of the longer first batch bring up the hinted names in the
order in which the hints would have added them.
-/

namespace JsonIntake

/-- The names in the records of some lines, as they come. -/
def lineKeys (lines : List (List UInt8)) : List String :=
  keysOf (lines.map lineMembers)

theorem lineKeys_append (lines more : List (List UInt8)) :
    lineKeys (lines ++ more) = lineKeys lines ++ lineKeys more := by
  simp [lineKeys, keysOf]

/-- The names that further lines add to the columns are the first ones of those
that the hints add. -/
def FollowsHints (hints : List Hint) (lines extra : List (List UInt8)) :
    Prop :=
  freshNames (lineKeys lines) (lineKeys extra) <+:
    freshNames (lineKeys lines) (hints.map (·.1))

instance (hints : List Hint) (lines extra : List (List UInt8)) :
    Decidable (FollowsHints hints lines extra) :=
  inferInstanceAs (Decidable (freshNames _ _ <+: freshNames _ _))

theorem columnLayout_lines_eq_iff {hints : List Hint}
    {lines more extra : List (List UInt8)} (hmore : more = lines ++ extra) :
    columnLayout hints (lineKeys more) = columnLayout hints (lineKeys lines) ↔
      FollowsHints hints lines extra := by
  rw [hmore, lineKeys_append, columnLayout_append_eq_iff, FollowsHints]

section Reads

variable {sources : List Source} {options : ReadOptions} {set : SourceSet}
  {outcome : ReadTable}

/-- Where there is something in the stream, a read has a batch. -/
theorem LinesReady.results_ne_nil (hready : LinesReady sources options set)
    (hstream : set.contents.flatten ≠ [])
    (run : ReadRun sources options outcome) : run.results ≠ [] := by
  intro hnil
  have hlength := run.completes.length_eq
  rw [hnil] at hlength
  have hempty := List.eq_nil_of_length_eq_zero hlength.symm
  rw [run.batches_eq_nil_iff fun source hsource =>
    (hready.opened source hsource).mono (Nat.zero_le 1)] at hempty
  obtain ⟨-, -, opened, hmakes, -, hnothing⟩ := hempty
  obtain rfl := Except.ok.inj (hmakes.symm.trans hready.makes)
  have hopened := hready.opened_set
  have hreadable := SourceSet.readable_of_materialize
    (fun source hsource => (hopened source hsource).grounded)
    (Prod.ext hnothing rfl)
  obtain ⟨known, hknown, -⟩ := (hready.fits.sound fun source hsource =>
    (hopened source hsource).sound (hreadable source hsource)).materialize
  rw [hknown] at hnothing
  exact hstream (List.eq_nil_of_length_eq_zero (Except.ok.inj hnothing))

/-- The columns of a read of lines are those of its records and its hints.
They come in the order of all records, or of the records of the first batch if
there are hints. -/
theorem LinesReady.columnNames (hready : LinesReady sources options set)
    (hstream : set.contents.flatten ≠ [])
    (hread : read sources options = .ok outcome) :
    ∃ planned : Planned sources options,
      planned.firstRecords <+: options.requestedRecords set.contents ∧
        outcome.table.columnNames.Nodup ∧
        (∀ name, name ∈ outcome.table.columnNames ↔
          name ∈ lineKeys (options.requestedRecords set.contents) ∨
            name ∈ options.hints.map (·.1)) ∧
        outcome.table.columnNames =
          columnLayout options.hints (lineKeys
            (if options.hints = [] then
              options.requestedRecords set.contents
            else planned.firstRecords)) := by
  obtain ⟨run⟩ := nonempty_readRun hread
  obtain ⟨hcompatible, htable⟩ := run.compatible_and_table
  obtain ⟨hresults, hrecords⟩ := hready.lines_eq run
  have hsome := hready.results_ne_nil hstream run
  have htabulates : Tabulates options.hints _ run.tables :=
    run.completes.tabulates hready.lines
  have hkeys : keysOf (run.results.map fun result =>
      (result.lines options).map lineMembers).flatten =
        lineKeys (options.requestedRecords set.contents) := by
    rw [← hrecords, lineKeys, List.map_flatMap, List.flatMap_def]
  have hnames : outcome.table.columnNames = leadingNames run.tables := by
    rw [htable, Assembler.columnNames_ofTables]
  have hfirst : ∃ first later, run.results = first :: later ∧
      run.firstRecords = first.lines options := by
    obtain ⟨first, later, hcons⟩ := List.exists_cons_of_ne_nil hsome
    rw [hcons] at hresults
    refine ⟨first, later, hcons, ?_⟩
    generalize hbatches : run.plan.batches = batches at hresults
    cases hresults with
    | cons hhead htail =>
        rw [Planned.firstRecords, hbatches, hready.opened_eq run.toPlanned]
        exact hhead.symm
  obtain ⟨first, later, hcons, hfirst⟩ := hfirst
  refine ⟨run.toPlanned, ?_, ?_, ?_, ?_⟩
  · rw [hfirst, ← hrecords, hcons, List.flatMap_cons]
    exact List.prefix_append _ _
  · rw [hnames]
    exact nodup_leadingNames fun table hmem => (run.hinted table hmem).distinct
  · intro name
    have htables : run.tables ≠ [] := mt List.map_eq_nil_iff.mp hsome
    rw [hnames, mem_leadingNames_of_tabulates htabulates hcompatible htables,
      hkeys]
  · rw [hnames]
    by_cases hhints : options.hints = []
    · rw [if_pos hhints, hhints]
      rw [hhints] at htabulates
      rw [leadingNames_of_tabulates_nil htabulates hcompatible, hkeys]
    · rw [hcons, List.map_cons] at htabulates
      rw [if_neg hhints, hfirst,
        leadingNames_of_tabulates_cons hhints htabulates]
      rfl

/-- Two reads of the same lines under other settings have the same columns,
each one once, and without hints in the same order.  With hints the first
batch of the one read has the records of that of the other, and perhaps more.
Then the columns come in the same order exactly if the names that these add to
the columns are the first ones of those that the hints add. -/
theorem read_columnNames_of_tunings {tuning : Tuning} {other : SourceSet}
    {again : ReadTable} (hready : LinesReady sources options set)
    (hother : LinesReady sources { options with tuning } other)
    (hstream : set.contents.flatten ≠ [])
    (hread : read sources options = .ok outcome)
    (hagain : read sources { options with tuning } = .ok again) :
    outcome.table.columnNames.Nodup ∧ again.table.columnNames.Nodup ∧
      outcome.table.columnNames.Perm again.table.columnNames ∧
      (options.hints = [] →
        outcome.table.columnNames = again.table.columnNames) ∧
      ∃ (planned : Planned sources options)
        (replanned : Planned sources { options with tuning }),
        (planned.firstRecords <+: replanned.firstRecords ∨
          replanned.firstRecords <+: planned.firstRecords) ∧
        (options.hints ≠ [] →
          outcome.table.columnNames = columnLayout options.hints
              (lineKeys planned.firstRecords) ∧
            again.table.columnNames = columnLayout options.hints
              (lineKeys replanned.firstRecords)) ∧
        ∀ extra, options.hints ≠ [] →
          (replanned.firstRecords = planned.firstRecords ++ extra →
            (again.table.columnNames = outcome.table.columnNames ↔
              FollowsHints options.hints planned.firstRecords extra)) ∧
          (planned.firstRecords = replanned.firstRecords ++ extra →
            (outcome.table.columnNames = again.table.columnNames ↔
              FollowsHints options.hints replanned.firstRecords extra)) := by
  have hcontents : other.contents = set.contents :=
    SourceSet.contents_make hready.makes hother.makes
  obtain ⟨planned, hprefix, hnodup, hmem, hnames⟩ :=
    hready.columnNames hstream hread
  obtain ⟨replanned, hprefix', hnodup', hmem', hnames'⟩ :=
    hother.columnNames (by rwa [hcontents]) hagain
  have hrecords : { options with tuning }.requestedRecords other.contents =
      options.requestedRecords set.contents := by
    rw [hcontents]
    rfl
  rw [hrecords] at hprefix' hmem' hnames'
  dsimp only at hmem' hnames'
  refine ⟨hnodup, hnodup', ?_, ?_, planned, replanned, ?_, ?_, ?_⟩
  · rw [List.perm_ext_iff_of_nodup hnodup hnodup']
    intro name
    rw [hmem, hmem']
  · intro hhints
    rw [hnames, hnames', if_pos hhints, if_pos hhints]
  · exact List.prefix_or_prefix_of_prefix hprefix hprefix'
  · intro hhints
    rw [if_neg hhints] at hnames hnames'
    exact ⟨hnames, hnames'⟩
  · intro extra hhints
    rw [if_neg hhints] at hnames hnames'
    rw [hnames, hnames']
    exact ⟨columnLayout_lines_eq_iff, columnLayout_lines_eq_iff⟩

theorem linesReady_host {bytes : List UInt8}
    (hlines : options.lines = true) (hcompression : options.compression = .none)
    (hlength : bytes.length < Size.limit) (hvalid : options.tuning.Valid) :
    LinesReady [.host bytes] options ⟨[.host bytes], .none⟩ where
  lines := hlines
  opened source hsource := by
    obtain rfl := List.mem_singleton.mp hsource
    exact .host bytes
  makes := by
    rw [hcompression]
    rfl
  fits := by
    simpa [SourceSet.Fits, Source.weight, Source.size, Source.content,
      Source.content?] using hlength
  valid := hvalid

/-- The lines `{"a":1}` and `{"a":2,"b":3,"c":4}`, with hints for `b` and `c`.
The second line is in the first batch or not, and follows the hints. -/
theorem read_columnNames_of_tunings_two_batches :
    let second := [123, 34, 97, 34, 58, 50, 44, 34, 98, 34, 58, 51, 44, 34, 99,
      34, 58, 52, 125]
    let bytes := [123, 34, 97, 34, 58, 49, 125, 10] ++ second ++ [10]
    let options : ReadOptions :=
      { ReadOptions.default with
        hints := [("b", .int64), ("c", .int64)]
        tuning := ⟨2, 1, 1, 1, 20⟩ }
    let whole := { options with tuning := Tuning.default }
    LinesReady [.host bytes] options ⟨[.host bytes], .none⟩ ∧
      LinesReady [.host bytes] whole ⟨[.host bytes], .none⟩ ∧
      ∃ outcome again, read [.host bytes] options = .ok outcome ∧
        read [.host bytes] whole = .ok again ∧
        outcome.stats.batches = 2 ∧ outcome.table.columnNames.Nodup ∧
        again.table.columnNames = outcome.table.columnNames := by
  intro second bytes options whole
  have hready : LinesReady [.host bytes] options ⟨[.host bytes], .none⟩ :=
    linesReady_host rfl rfl (by decide)
      ⟨by decide, by decide, by decide, by decide⟩
  have hwhole : LinesReady [.host bytes] whole ⟨[.host bytes], .none⟩ :=
    linesReady_host rfl rfl (by decide)
      ⟨by decide, by decide, by decide, by decide⟩
  have hok : ((read [.host bytes] options).map (·.stats.batches)).toOption =
      some 2 := by
    decide +kernel
  obtain ⟨outcome, hread, hbatches⟩ :=
    Except.map_eq_ok.mp (Except.toOption_eq_some.mp hok)
  obtain ⟨again, hagain⟩ :=
    Except.exists_of_isOk (x := read [.host bytes] whole) (by decide +kernel)
  obtain ⟨hnodup, -, -, -, planned, replanned, -, -, hsame⟩ :=
    read_columnNames_of_tunings hready hwhole (by decide) hread hagain
  have hfirst : planned.firstRecords = [[123, 34, 97, 34, 58, 49, 125]] :=
    (planned.firstRecords_of_ranges ⟨[.host bytes], .none⟩ ⟨0, 8⟩ [⟨8, 20⟩]
      rfl rfl (by decide +kernel)).trans (by decide +kernel)
  have hall : replanned.firstRecords =
      [[123, 34, 97, 34, 58, 49, 125], second] :=
    (replanned.firstRecords_of_ranges ⟨[.host bytes], .none⟩ (.toEnd 0) []
      rfl rfl (by decide +kernel)).trans (by decide +kernel)
  refine ⟨hready, hwhole, outcome, again, hread, hagain, hbatches, hnodup, ?_⟩
  refine ((hsame [second] (List.cons_ne_nil _ _)).1 ?_).mpr ?_
  · rw [hfirst, hall]
    rfl
  · rw [hfirst]
    decide +kernel

/-- The lines `{"a":1}` and `{"a":2,"b":3,"c":4}`, with hints for `c` and `b`.
In two batches the hinted columns come in the order of the hints, in one batch
in that of the second line. -/
theorem read_columnNames_of_tunings_other_order :
    let bytes := [123, 34, 97, 34, 58, 49, 125, 10, 123, 34, 97, 34, 58, 50, 44,
      34, 98, 34, 58, 51, 44, 34, 99, 34, 58, 52, 125, 10]
    let options : ReadOptions :=
      { ReadOptions.default with
        hints := [("c", .int64), ("b", .int64)]
        tuning := ⟨2, 1, 1, 1, 20⟩ }
    let whole := { options with tuning := Tuning.default }
    LinesReady [.host bytes] options ⟨[.host bytes], .none⟩ ∧
      LinesReady [.host bytes] whole ⟨[.host bytes], .none⟩ ∧
      ∃ outcome again, read [.host bytes] options = .ok outcome ∧
        read [.host bytes] whole = .ok again ∧
        outcome.table.columnNames = ["a", "c", "b"] ∧
        again.table.columnNames = ["a", "b", "c"] := by
  intro bytes options whole
  have hok : ((read [.host bytes] options).map
      (·.table.columnNames)).toOption = some ["a", "c", "b"] := by
    decide +kernel
  have hagain : ((read [.host bytes] whole).map
      (·.table.columnNames)).toOption = some ["a", "b", "c"] := by
    decide +kernel
  obtain ⟨outcome, hread, hnames⟩ :=
    Except.map_eq_ok.mp (Except.toOption_eq_some.mp hok)
  obtain ⟨again, hread', hnames'⟩ :=
    Except.map_eq_ok.mp (Except.toOption_eq_some.mp hagain)
  exact ⟨linesReady_host rfl rfl (by decide)
      ⟨by decide, by decide, by decide, by decide⟩,
    linesReady_host rfl rfl (by decide)
      ⟨by decide, by decide, by decide, by decide⟩,
    outcome, again, hread, hread', hnames, hnames'⟩

end Reads

end JsonIntake
