import JsonIntake.Proofs.Read.FirstFault
import JsonIntake.Proofs.Table.Bare

/-!
# Reads that succeed

A read that succeeds has opened its sources, planned the range that was asked
for and run every batch of the plan.  A batch that was run has been ingested,
tokenized and pushed, and it has been counted.  So the table of the read is
that of compatible tables, one for each batch, and its statistics are the sums
of what the batches have counted.
-/

namespace JsonIntake

/-- What was made of a batch: the bytes of the stream it covers, its buffer
before normalization, and its table. -/
structure BatchResult where
  covered : Nat
  buffer : Buffer
  fragment : TableFragment

/-- The counters with those of one more batch, as numbers that may grow beyond
a word. -/
def ReadStats.withBatch (options : ReadOptions) (stats : ReadStats)
    (result : BatchResult) : ReadStats :=
  { stats with
    batches := stats.batches + 1
    bytesIngested := stats.bytesIngested + result.buffer.size
    delimitersInserted :=
      stats.delimitersInserted + (result.buffer.size - result.covered)
    bytesNormalized :=
      stats.bytesNormalized + (options.prepare result.buffer).size
    rows := stats.rows + result.fragment.table.rows
    malformedRecords := stats.malformedRecords + result.fragment.malformed }

/-! ## Tokenizing in either mode -/

/-- The records of a batch, in the mode of the options. -/
def ParseOptions.records (options : ParseOptions) (bytes : List UInt8) :
    Except Failure RecordList :=
  if options.lines then
    RecordList.ofLines options.recovery options.delimiter bytes
  else RecordList.ofDocument options.recovery options.delimiter bytes

theorem tokenize_eq_ok_iff {options : ParseOptions} {buffer : Buffer}
    {fragment : TableFragment} :
    tokenize options buffer = .ok fragment ↔
      ∃ records, options.records buffer.toList = .ok records ∧
        tabulate options.hints records.rows = .ok fragment.table ∧
        fragment.malformed = records.malformed := by
  have htokenize : tokenize options buffer =
      (options.records buffer.toList >>= fun records =>
        inferSchema records.toList options.hints >>= fun schema =>
          materialize schema records.toList >>= fun table =>
            .ok ⟨table, records.malformed⟩) := by
    unfold tokenize ParseOptions.records
    split <;> rfl
  rw [htokenize, Except.bind_eq_ok]
  refine exists_congr fun records => and_congr_right fun _ => ?_
  rw [RecordList.rows, tabulate_getD, Except.bind_eq_ok, Except.bind_eq_ok]
  constructor
  · rintro ⟨schema, hschema, htail⟩
    obtain ⟨table, htable, h⟩ := Except.bind_eq_ok.mp htail
    cases h
    exact ⟨⟨schema, hschema, htable⟩, rfl⟩
  · rintro ⟨⟨schema, hschema, htable⟩, hmalformed⟩
    refine ⟨schema, hschema, Except.bind_eq_ok.mpr ⟨_, htable, ?_⟩⟩
    rw [← hmalformed]

/-! ## Batches -/

namespace ReadState

variable {options : ReadOptions}

/-- A batch that was run without a failure. -/
structure Runs (options : ReadOptions) (batch : Batch)
    (before : ReadState) (result : BatchResult) (after : ReadState) :
    Prop where
  ingested : ingest .empty before.set batch.range options.delimiter =
    ⟨.ok result.buffer.size, result.buffer, after.set⟩
  covered : result.covered =
    min batch.range.stop after.set.sizes.sum - batch.range.offset
  tokenized : tokenize options.parseOptions (options.prepare result.buffer) =
    .ok result.fragment
  pushed : before.assembler.push batch.index result.fragment.table =
    .ok after.assembler
  stats : after.stats = before.stats.withBatch options result

/-- Batches that were run one behind the other without a failure. -/
inductive Completes (options : ReadOptions) :
    List Batch → ReadState → List BatchResult → ReadState → Prop where
  | done (state : ReadState) : Completes options [] state [] state
  | step {batch : Batch} {rest : List Batch} {before middle after : ReadState}
      {result : BatchResult} {later : List BatchResult}
      (hrun : Runs options batch before result middle)
      (hrest : Completes options rest middle later after) :
      Completes options (batch :: rest) before (result :: later) after

theorem count_ingest {buffer : Buffer} {set : SourceSet} {range : ByteRange}
    {delimiter : UInt8} {count : Nat}
    (hcount : (ingest buffer set range delimiter).count = .ok count) :
    count = (ingest buffer set range delimiter).buffer.size := by
  unfold ingest at hcount ⊢
  dsimp only at hcount ⊢
  split at hcount
  · exact absurd hcount nofun
  · split at hcount
    · exact absurd hcount nofun
    · exact (Except.ok.inj hcount).symm

theorem runs_of_process {batch : Batch} {before after : ReadState}
    (hprocess : before.process defaultTokenizer options batch =
      (.ok (), after)) :
    ∃ result, Runs options batch before result after := by
  rw [process_eq] at hprocess
  dsimp only at hprocess
  split at hprocess
  · exact absurd (Prod.mk.inj hprocess).1 nofun
  split at hprocess
  · exact absurd (Prod.mk.inj hprocess).1 nofun
  · exact absurd (Prod.mk.inj hprocess).1 nofun
  next count total hcount htotal =>
    obtain rfl := count_ingest hcount
    obtain ⟨-, rfl⟩ := SourceSet.totalSize_eq_ok_iff.mp htotal
    -- Every stage of the batch has come to a result.
    unfold addBuffer defaultTokenizer at hprocess
    dsimp only at hprocess
    split at hprocess
    · exact absurd (Prod.mk.inj hprocess).1 nofun
    next fragment hfragment =>
      split at hprocess
      · exact absurd (Prod.mk.inj hprocess).1 nofun
      next stats hstats =>
        split at hprocess
        · exact absurd (Prod.mk.inj hprocess).1 nofun
        next assembler hassembler =>
          obtain rfl := (Prod.mk.inj hprocess).2
          refine ⟨⟨_, _, fragment⟩, ?_, rfl, hfragment, hassembler,
            ReadStats.recordBatch?_eq_some hstats⟩
          dsimp only
          rw [← hcount]

theorem completes_of_processAll {batches : List Batch}
    {before after : ReadState}
    (hprocess : before.processAll defaultTokenizer options batches =
      (.ok (), after)) :
    ∃ results, Completes options batches before results after := by
  induction batches generalizing before with
  | nil =>
      obtain rfl := (Prod.mk.inj hprocess).2
      exact ⟨[], .done _⟩
  | cons batch rest ih =>
      rw [processAll_cons] at hprocess
      split at hprocess
      · exact absurd (Prod.mk.inj hprocess).1 nofun
      · next middle hmiddle =>
          obtain ⟨result, hrun⟩ := runs_of_process hmiddle
          obtain ⟨later, hrest⟩ := ih hprocess
          exact ⟨result :: later, .step hrun hrest⟩

namespace Completes

variable {batches : List Batch} {before after : ReadState}
  {results : List BatchResult}

theorem length_eq (hrun : Completes options batches before results after) :
    results.length = batches.length := by
  induction hrun with
  | done state => rfl
  | step hrun hrest ih => rw [List.length_cons, List.length_cons, ih]

theorem stats (hrun : Completes options batches before results after) :
    after.stats =
      results.foldl (ReadStats.withBatch options) before.stats := by
  induction hrun with
  | done state => rfl
  | step hrun hrest ih => rw [List.foldl_cons, ← hrun.stats, ih]

theorem tokenized (hrun : Completes options batches before results after) :
    ∀ result ∈ results,
      tokenize options.parseOptions (options.prepare result.buffer) =
        .ok result.fragment := by
  induction hrun with
  | done state => exact nofun
  | step hrun hrest ih => exact List.forall_mem_cons.mpr ⟨hrun.tokenized, ih⟩

/-- The tables of the batches are added to those that are held. -/
theorem ofTables (hrun : Completes options batches before results after)
    {tables : List Table}
    (hdistinct : ∀ table ∈ tables, table.columnNames.Nodup)
    (hcompatible : Compatible tables)
    (hbefore : before.assembler = Assembler.ofTables tables) :
    Compatible (tables ++ results.map (·.fragment.table)) ∧
      after.assembler =
        Assembler.ofTables (tables ++ results.map (·.fragment.table)) := by
  induction hrun generalizing tables with
  | done state =>
      rw [List.map_nil, List.append_nil]
      exact ⟨hcompatible, hbefore⟩
  | @step batch rest before middle after result later hrun hrest ih =>
      obtain ⟨records, -, htable, -⟩ := tokenize_eq_ok_iff.mp hrun.tokenized
      have hnames : result.fragment.table.columnNames.Nodup :=
        (Table.hinted_of_tabulate htable).1.distinct
      have hpushed := hrun.pushed
      rw [hbefore, Assembler.push_ofTables_eq_ok_iff hdistinct hnames
        hcompatible] at hpushed
      obtain ⟨hboth, hmiddle⟩ := hpushed
      have hall : ∀ table ∈ tables ++ [result.fragment.table],
          table.columnNames.Nodup :=
        List.forall_mem_append.mpr
          ⟨hdistinct, List.forall_mem_singleton.mpr hnames⟩
      have hlater := ih hall hboth hmiddle
      rwa [List.append_assoc] at hlater

end Completes

/-- The state before the first batch of a plan. -/
def start (sized planned : SourceSet) (plan : Plan) : ReadState :=
  { set := planned
    assembler := .empty
    stats :=
      { ReadStats.empty with
        sources := sized.length
        estimatedBytes := sized.sizes.sum
        shiftedCuts := plan.shiftedCuts }
    calls := [] }

end ReadState

/-! ## Reads -/

theorem SourceSet.opened_make {sources : List Source}
    {compression : Compression} {least ratio : Nat} {set : SourceSet}
    (hratio : least ≤ ratio)
    (hopened : ∀ source ∈ sources, source.Opened least)
    (hmake : SourceSet.make sources compression ratio = .ok set) :
    ∀ source ∈ set.sources, source.Opened least := by
  obtain ⟨wrapped, hwrapped, h⟩ := Except.bind_eq_ok.mp hmake
  cases h
  intro source hsource
  obtain ⟨inner, hinner, hwrap⟩ :=
    forall₂_exists_left (Except.mapM_eq_ok.mp hwrapped) hsource
  unfold Source.withCompression at hwrap
  dsimp only at hwrap
  split at hwrap
  · exact Except.ok.inj hwrap ▸ hopened _ hinner
  · exact Except.ok.inj hwrap ▸ hopened _ hinner
  · obtain ⟨region, -, htail⟩ := Except.bind_eq_ok.mp hwrap
    obtain ⟨made, hmade, h⟩ := Except.bind_eq_ok.mp htail
    cases h
    exact .compressed hratio hmade

/-- A read that was planned: its sources as they are opened, its range and its
plan, and the sources after each of the two has been found. -/
structure Planned (sources : List Source) (options : ReadOptions) where
  opened : SourceSet
  range : ByteRange
  sized : SourceSet
  plan : Plan
  after : SourceSet
  opens : SourceSet.make sources options.compression
    options.tuning.compressionRatio = .ok opened
  requests : requestedRange opened options = (.ok range, sized)
  plans : Plan.make sized range options.delimiter options.lines
    options.tuning = (.ok plan, after)

/-- A read that was planned, and all batches of which were run. -/
structure ReadRun (sources : List Source) (options : ReadOptions)
    (outcome : ReadTable) extends Planned sources options where
  results : List BatchResult
  last : ReadState
  completes : ReadState.Completes options plan.batches
    (ReadState.start sized after plan) results last
  table_eq : outcome.table = last.assembler.finish
  stats_last : outcome.stats = last.stats

section Reads

variable {sources : List Source} {options : ReadOptions}
  {outcome : ReadTable}

/-- Sources and settings leave no choice to the plan. -/
instance : Subsingleton (Planned sources options) where
  allEq := by
    rintro ⟨opened, range, sized, plan, after, hopens, hrequests, hplans⟩
      ⟨_, _, _, _, _, hopens', hrequests', hplans'⟩
    cases hopens.symm.trans hopens'
    cases hrequests.symm.trans hrequests'
    cases hplans.symm.trans hplans'
    rfl

theorem nonempty_readRun (hread : read sources options = .ok outcome) :
    Nonempty (ReadRun sources options outcome) := by
  unfold read readWith at hread
  split at hread
  · exact absurd hread nofun
  · next opened hopened =>
      unfold readSet at hread
      split at hread
      · exact absurd hread nofun
      · next range sized hrange =>
          split at hread
          · exact absurd hread nofun
          next estimated htotal =>
            obtain ⟨-, rfl⟩ := SourceSet.totalSize_eq_ok_iff.mp htotal
            dsimp only at hread
            split at hread
            · exact absurd hread nofun
            next plan after hplan =>
              dsimp only at hread
              obtain ⟨⟨⟩, hdone, houtcome⟩ := Except.map_eq_ok.mp hread
              obtain ⟨results, hresults⟩ :=
                ReadState.completes_of_processAll (Prod.ext hdone rfl)
              subst houtcome
              exact ⟨⟨⟨opened, range, sized, plan, after, hopened, hrange,
                hplan⟩, results, _, hresults, rfl, rfl⟩⟩

namespace ReadRun

/-- The tables of the batches. -/
def tables (run : ReadRun sources options outcome) : List Table :=
  run.results.map (·.fragment.table)

theorem compatible_and_table (run : ReadRun sources options outcome) :
    Compatible run.tables ∧
      outcome.table = (Assembler.ofTables run.tables).finish := by
  obtain ⟨hcompatible, hlast⟩ :=
    run.completes.ofTables (List.forall_mem_nil _) compatible_nil rfl
  rw [List.nil_append] at hcompatible hlast
  exact ⟨hcompatible, run.table_eq.trans (congrArg _ hlast)⟩

theorem stats_eq (run : ReadRun sources options outcome) :
    outcome.stats =
      run.results.foldl (ReadStats.withBatch options)
        (ReadState.start run.sized run.after run.plan).stats :=
  run.stats_last.trans run.completes.stats

/-- The table of every batch is that of its records. -/
theorem tabulated (run : ReadRun sources options outcome) :
    ∀ result ∈ run.results, ∃ records,
      options.parseOptions.records (options.prepare result.buffer).toList =
          .ok records ∧
        tabulate options.hints records.rows = .ok result.fragment.table ∧
        result.fragment.malformed = records.malformed :=
  fun result hresult =>
    tokenize_eq_ok_iff.mp (run.completes.tokenized result hresult)

theorem hinted (run : ReadRun sources options outcome) :
    ∀ table ∈ run.tables, table.Hinted options.hints := by
  intro table htable
  obtain ⟨result, hresult, rfl⟩ := List.mem_map.mp htable
  obtain ⟨records, -, hrecords, -⟩ := run.tabulated result hresult
  exact (Table.hinted_of_tabulate hrecords).1

end ReadRun

end Reads

end JsonIntake
