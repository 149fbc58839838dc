import JsonIntake.Proofs.Plan.Empty
import JsonIntake.Proofs.Read.Run

/-!
# Hints of a read

Every batch of a read has the columns that are asked for, under the types that
are asked for, and joining tables keeps these types.  So the table of a read
honours the hints as soon as there is a batch.  A plan without batches has no
table from which the columns could come.
-/

namespace JsonIntake

open ColumnType (mergedType)

/-- For every hint the table has exactly one column of its name, with its
type. -/
def Table.Honours (hints : List Hint) (table : Table) : Prop :=
  ∀ hint ∈ hints,
    (table.schema.filter fun field => field.name = hint.1).map (·.type) =
      [hint.2]

instance (hints : List Hint) (table : Table) :
    Decidable (table.Honours hints) :=
  List.decidableBAll _ hints

/-- A whole read of lines whose estimate exceeds the budget, out of a stream
in which nothing is found. -/
def ReadOptions.PlansNothing (options : ReadOptions)
    (sources : List Source) : Prop :=
  options.lines = true ∧ options.byteRange = none ∧
    ∃ opened, SourceSet.make sources options.compression
        options.tuning.compressionRatio = .ok opened ∧
      options.tuning.maxBatchBytes < opened.sizes.sum ∧
      opened.materialize.1 = .ok 0

/-! ## Plans without batches -/

namespace SourceSet

theorem materialize_lt {set known : SourceSet} {total : Nat}
    (hknown : set.materialize = (.ok total, known)) : total < Size.limit := by
  unfold materialize at hknown
  dsimp only at hknown
  split at hknown
  · exact absurd (Prod.mk.inj hknown).1 nofun
  · obtain ⟨hsizes, rfl⟩ :=
      totalSize_eq_ok_iff.mp (Prod.mk.inj hknown).1
    exact hsizes

end SourceSet

section Reads

variable {sources : List Source} {options : ReadOptions}
  {outcome : ReadTable}

/-- The plan of a read is empty in one case only. -/
theorem Planned.batches_eq_nil_iff (planned : Planned sources options)
    (hopened : ∀ source ∈ sources, source.Opened 0) :
    planned.plan.batches = [] ↔ options.PlansNothing sources := by
  rw [Plan.make_eq_nil_iff planned.plans]
  have hrequests := planned.requests
  unfold requestedRange at hrequests
  cases hrange : options.byteRange with
  | none =>
      rw [hrange] at hrequests
      obtain ⟨h, hset⟩ := Prod.mk.inj hrequests
      have hwhole := Except.ok.inj h
      have hstop : ∀ {total}, total < Size.limit →
          min (ByteRange.toEnd 0).stop total = total := by
        intro total htotal
        simp only [ByteRange.stop, ByteRange.toEnd, Size.addSaturating,
          Size.maximum]
        omega
      have hoffset : (ByteRange.toEnd 0).offset = 0 := rfl
      obtain ⟨-, htotal, -⟩ := Plan.make_cases planned.plans
      rw [← hset] at htotal
      rw [← hset, ← hwhole, ReadOptions.PlansNothing, planned.opens, hoffset,
        hstop htotal, Nat.sub_zero, hrange]
      refine and_congr_right fun _ => ?_
      constructor
      · rintro ⟨hlarge, total, known, hknown, hempty⟩
        rw [hstop (SourceSet.materialize_lt hknown)] at hempty
        obtain rfl := Nat.le_zero.mp hempty
        exact ⟨rfl, _, rfl, hlarge, by rw [hknown]⟩
      · rintro ⟨-, opened, h, hlarge, hempty⟩
        cases h
        exact ⟨hlarge, 0, _, Prod.ext hempty rfl, by simp⟩
  | some range =>
      rw [hrange] at hrequests
      refine iff_of_false ?_ fun hnothing => ?_
      · -- The sizes were made exact by the alignment.
        rintro ⟨hlines, hlarge, total, known, hknown, hempty⟩
        simp only [hlines, if_true] at hrequests
        have hexact := SourceSet.exact_of_align
          (fun source hsource => (SourceSet.opened_make (Nat.zero_le _)
            hopened planned.opens source hsource).keepsSize) hrequests
        rw [SourceSet.materialize_of_exact hexact] at hknown
        obtain ⟨-, rfl⟩ :=
          SourceSet.totalSize_eq_ok_iff.mp (Prod.mk.inj hknown).1
        omega
      · rw [hnothing.2.1] at hrange
        cases hrange

/-! ## Hints -/

theorem hintFor?_of_mem {hints : List Hint} {hint : Hint}
    (hnames : (hints.map (·.1)).Nodup) (hhint : hint ∈ hints) :
    hintFor? hint.1 hints = some hint.2 := by
  induction hints with
  | nil => exact absurd hhint List.not_mem_nil
  | cons first rest ih =>
      rw [List.map_cons, List.nodup_cons] at hnames
      rw [hintFor?_cons]
      rcases List.mem_cons.mp hhint with rfl | hrest
      · rw [if_pos rfl]
      · have hother : first.1 ≠ hint.1 :=
          fun heq => hnames.1 (heq ▸ List.mem_map_of_mem hrest)
        rw [if_neg hother]
        exact ih hnames.2 hrest

/-- Tables that all have a type under a name are joined under this type. -/
theorem mergedType_typesOf_hinted {tables : List Table}
    {hints : List Hint} {name : String} {type : ColumnType}
    (hcompatible : Compatible tables) (hsome : tables ≠ [])
    (hhinted : ∀ table ∈ tables, table.Hinted hints)
    (hhint : hintFor? name hints = some type) :
    mergedType (typesOf name tables) = type := by
  obtain ⟨first, hfirst⟩ := List.exists_mem_of_ne_nil _ hsome
  have hall : ∀ found, found ∈ typesOf name tables ↔ found ∈ [type] := by
    intro found
    rw [mem_typesOf, List.mem_singleton]
    constructor
    · rintro ⟨table, htable, hfound⟩
      rw [(hhinted table htable).types name type hhint] at hfound
      exact (Option.some.inj hfound).symm
    · rintro rfl
      exact ⟨first, hfirst, (hhinted first hfirst).types name found hhint⟩
  rw [ColumnType.mergedType_congr hall (hcompatible.types name),
    ColumnType.mergedType_singleton]

/-- The joined table of at least one batch honours the hints. -/
theorem honours_ofTables {tables : List Table} {hints : List Hint}
    (hnames : (hints.map (·.1)).Nodup) (hcompatible : Compatible tables)
    (hsome : tables ≠ [])
    (hhinted : ∀ table ∈ tables, table.Hinted hints) :
    (Assembler.ofTables tables).finish.Honours hints := by
  intro hint hmem
  have hhint := hintFor?_of_mem hnames hmem
  obtain ⟨first, hfirst⟩ := List.exists_mem_of_ne_nil _ hsome
  have hnodup := nodup_leadingNames fun table htable =>
    (hhinted table htable).distinct
  have hname : hint.1 ∈ leadingNames tables :=
    (Assembler.mem_leadingNames_iff hcompatible).mpr
      ⟨first, hfirst, (hhinted first hfirst).mem_names (by simp [hhint])⟩
  have hschema : (Assembler.ofTables tables).finish.schema =
      (leadingNames tables).map fun name =>
        ⟨name, mergedType (typesOf name tables), true⟩ :=
    (Assembler.finish_schema_ofTables tables).trans
      (mergedSchema_eq fun table htable => (hhinted table htable).nullable)
  have hfilter : (leadingNames tables).filter (fun name => name = hint.1) =
      [hint.1] := by
    rw [List.filter_eq, List.count_eq_one_of_mem hnodup hname,
      List.replicate_one]
  have hcolumns : (Assembler.ofTables tables).finish.schema.filter
      (fun field => field.name = hint.1) =
        [⟨hint.1, mergedType (typesOf hint.1 tables), true⟩] := by
    rw [hschema, List.filter_map]
    exact congrArg _ hfilter
  rw [hcolumns, List.map_singleton,
    mergedType_typesOf_hinted hcompatible hsome hhinted hhint]

/-- A read that succeeds honours the hints, if there are any, exactly if its
plan has a batch.  The exception is a whole read of lines whose estimate
exceeds the budget while nothing is in the stream. -/
theorem read_honours_hints_iff
    (hopened : ∀ source ∈ sources, source.Opened 0)
    (hnames : (options.hints.map (·.1)).Nodup)
    (hread : read sources options = .ok outcome) :
    outcome.table.Honours options.hints ↔
      options.hints = [] ∨ ¬ options.PlansNothing sources := by
  obtain ⟨run⟩ := nonempty_readRun hread
  obtain ⟨hcompatible, htable⟩ := run.compatible_and_table
  have hlength : run.tables.length = run.plan.batches.length :=
    (List.length_map _).trans run.completes.length_eq
  rw [← run.batches_eq_nil_iff hopened, htable]
  by_cases hempty : run.plan.batches = []
  · have htables : run.tables = [] :=
      List.eq_nil_of_length_eq_zero (by rw [hlength, hempty]; rfl)
    rw [htables]
    constructor
    · intro hhonours
      refine .inl (List.eq_nil_iff_forall_not_mem.mpr fun hint hhint => ?_)
      exact absurd (hhonours hint hhint) nofun
    · rintro (hhints | hfilled)
      · rw [hhints]
        exact nofun
      · exact absurd hempty hfilled
  · have htables : run.tables ≠ [] := by
      intro hnil
      rw [hnil] at hlength
      exact hempty (List.eq_nil_of_length_eq_zero hlength.symm)
    exact iff_of_true
      (honours_ofTables hnames hcompatible htables run.hinted) (.inr hempty)

/-- The lines `{"a":1}` and `{"a":2}` in two batches, with a hint for a column
that no record has. -/
theorem read_honours_hints_iff_two_batches :
    let sources : List Source :=
      [.host "\x7b\"a\":1\x7d\n\x7b\"a\":2\x7d\n".toUTF8.toList]
    let options : ReadOptions :=
      { ReadOptions.default.withHint "b" .utf8 with tuning := ⟨2, 0, 1, 1, 8⟩ }
    (∀ source ∈ sources, source.Opened 0) ∧
      (options.hints.map (·.1)).Nodup ∧
      ∃ outcome, read sources options = .ok outcome ∧
        outcome.stats.batches = 2 ∧ outcome.table.Honours options.hints := by
  intro sources options
  have hopened : ∀ source ∈ sources, source.Opened 0 := by
    intro source hsource
    obtain rfl := List.mem_singleton.mp hsource
    exact .host _
  have hnames : (options.hints.map (·.1)).Nodup := by decide
  have hok : ((read sources options).map (·.stats.batches)).toOption =
      some 2 := by
    decide +kernel
  obtain ⟨outcome, hread, hbatches⟩ :=
    Except.map_eq_ok.mp (Except.toOption_eq_some.mp hok)
  have hfilled : ¬ options.PlansNothing sources := by
    rintro ⟨-, -, opened, hopens, -, hnothing⟩
    cases hopens
    exact absurd (congrArg Except.toOption hnothing) (by decide +kernel)
  exact ⟨hopened, hnames, outcome, hread, hbatches,
    (read_honours_hints_iff hopened hnames hread).mpr (.inr hfilled)⟩

/-- A block of nothing, whose size is estimated at a hundred bytes, is read in
no batch, and the column of the hint is missing. -/
theorem read_unhonoured_hint_empty_stream :
    let options : ReadOptions :=
      { ReadOptions.default.withHint "a" .int64 with tuning := ⟨2, 4, 1, 1, 8⟩ }
    options.tuning.Valid ∧ (options.hints.map (·.1)).Nodup ∧
      ∃ source, CompressedSource.make [0] .snappy 100 = .ok source ∧
        ∃ outcome, read [.compressed source] options = .ok outcome ∧
          ¬ outcome.table.Honours options.hints := by
  intro options
  refine ⟨⟨by decide, by decide, by decide, by decide⟩, by decide, _, rfl, ?_⟩
  have hok : ((read [.compressed ⟨[0], .snappy, 100, false, none⟩]
      options).map fun outcome =>
        decide (outcome.table.Honours options.hints)).toOption =
          some false := by
    decide +kernel
  obtain ⟨outcome, hread, hmissing⟩ :=
    Except.map_eq_ok.mp (Except.toOption_eq_some.mp hok)
  exact ⟨outcome, hread, of_decide_eq_false hmissing⟩

end Reads

end JsonIntake
