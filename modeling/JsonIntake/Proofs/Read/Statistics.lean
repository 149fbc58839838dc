import JsonIntake.Proofs.Plan.Accounting
import JsonIntake.Proofs.Read.Records
import JsonIntake.Proofs.Records.Counting

/-!
# The statistics of a read

A counter of a read is the sum of what its batches have counted.  A batch has
in its buffer the bytes that it covers and the delimiters between them, and it
has no more rows than bytes that it covers.  The batches together cover what
the range covers, so these laws hold of the read as a whole.
-/

namespace JsonIntake

/-! ## Counters -/

section Counters

variable {options : ReadOptions} {sources : List Source}
  {outcome : ReadTable}

/-- A counter to which every batch adds its number holds their sum. -/
theorem ReadRun.counter_eq (run : ReadRun sources options outcome)
    (counter : ReadStats → Nat) (number : BatchResult → Nat)
    (hstart : counter
      (ReadState.start run.sized run.after run.plan).stats = 0)
    (hadd : ∀ stats result, counter (stats.withBatch options result) =
      counter stats + number result) :
    counter outcome.stats = (run.results.map number).sum := by
  have hfold : ∀ stats,
      counter (run.results.foldl (ReadStats.withBatch options) stats) =
        counter stats + (run.results.map number).sum := by
    induction run.results with
    | nil => exact fun stats => rfl
    | cons result rest ih =>
        intro stats
        rw [List.foldl_cons, ih, hadd, List.map_cons, List.sum_cons,
          Nat.add_assoc]
  rw [run.stats_eq, hfold, hstart, Nat.zero_add]

end Counters

/-! ## Batches -/

section Batches

variable {options : ReadOptions} {contents pieces : List (List UInt8)}
  {range : ByteRange} {result : BatchResult} {buffer : Buffer}
  {records : RecordList}

theorem countP_joinPieces_le (delimiter : UInt8) :
    (joinPieces delimiter pieces).countP (· ≠ delimiter) ≤
      pieces.flatten.length := by
  induction pieces with
  | nil => exact Nat.le_refl _
  | cons piece pieces ih =>
      have hpiece := List.countP_le_length (l := piece) (p := (· ≠ delimiter))
      rw [List.flatten_cons, List.length_append]
      by_cases hpieces : ∀ piece ∈ pieces, piece = []
      · rw [joinPieces_cons_of_empty hpieces]
        omega
      · by_cases hempty : piece = []
        · rw [hempty, joinPieces_nil_cons]
          omega
        · rw [joinPieces_cons hempty hpieces, List.countP_append,
            List.countP_cons_of_neg (by simp)]
          omega

theorem length_flatMap_le {β : Type} {make : List UInt8 → List β}
    (hmake : ∀ bytes, (make bytes).length ≤ bytes.length) :
    (pieces.flatMap make).length ≤ pieces.flatten.length := by
  induction pieces with
  | nil => exact Nat.le_refl _
  | cons piece pieces ih =>
      rw [List.flatMap_cons, List.flatten_cons, List.length_append,
        List.length_append]
      exact Nat.add_le_add (hmake piece) ih

/-- However it is split, a batch has no more records than bytes in its
pieces. -/
theorem ReadOptions.grows_records
    (hbuffer : buffer.toList = joinPieces options.delimiter pieces)
    (hrecords : options.parseOptions.records
      (options.prepare buffer).toList = .ok records) :
    ∃ count, RecordList.Grows options.recovery count .empty records ∧
      count ≤ pieces.flatten.length := by
  cases hlines : options.lines with
  | true =>
      have hparse : options.parseOptions.lines = true := hlines
      rw [ParseOptions.records, if_pos hparse] at hrecords
      refine ⟨_, RecordList.grows_ofLines hrecords, ?_⟩
      have hjoined := options.linewise_recordsOf.joinPieces pieces
      rw [parseOptions, options.recordLines_prepare hlines, hbuffer, hjoined]
      exact length_flatMap_le options.length_recordsOf_le
  | false =>
      have hcomma : options.delimiter = 44 := by
        rw [delimiter, hlines]
        rfl
      have hcounted : buffer.toList.countP (· ≠ 44) ≤
          pieces.flatten.length := by
        rw [hbuffer, hcomma]
        exact countP_joinPieces_le 44
      have hparse : ¬ options.parseOptions.lines = true :=
        Bool.not_eq_true _ ▸ hlines
      rw [ParseOptions.records, if_neg hparse, prepare] at hrecords
      split at hrecords
      · simp only [hlines, Bool.false_eq_true, if_false,
          normalizeQuotes_output] at hrecords
        obtain ⟨count, hgrows, hle⟩ :=
          RecordList.grows_ofDocument_normalText hrecords
        exact ⟨count, hgrows, Nat.le_trans hle hcounted⟩
      · obtain ⟨count, hgrows, hle⟩ := RecordList.grows_ofDocument hrecords
        exact ⟨count, hgrows, Nat.le_trans hle hcounted⟩

/-- The result is that of the batch of a range. -/
structure BatchResult.IsOf (options : ReadOptions)
    (contents : List (List UInt8)) (range : ByteRange)
    (result : BatchResult) : Prop where
  buffer : result.buffer.toList = joinPieces options.delimiter
    (slices range.offset range.stop contents)
  covered : result.covered = range.covered contents
  tokenized : tokenize options.parseOptions (options.prepare result.buffer) =
    .ok result.fragment

namespace BatchResult.IsOf

theorem size (hresult : result.IsOf options contents range) :
    result.buffer.size = range.covered contents + range.seams contents := by
  rw [← Buffer.length_toList, hresult.buffer, range.length_joinPieces_slices]

/-- A batch has no more rows than bytes that it covers, and no more malformed
records than rows. -/
theorem rows (hresult : result.IsOf options contents range) :
    result.fragment.table.rows ≤ range.covered contents ∧
      result.fragment.malformed ≤ result.fragment.table.rows ∧
      (options.recovery = .fail → result.fragment.malformed = 0) := by
  obtain ⟨records, hrecords, htable, hmalformed⟩ :=
    tokenize_eq_ok_iff.mp hresult.tokenized
  obtain ⟨count, hgrows, hle⟩ :=
    options.grows_records hresult.buffer hrecords
  have hrows : result.fragment.table.rows = count := by
    rw [(Table.hinted_of_tabulate htable).2.1, RecordList.rows,
      RecordList.toList, List.length_map, List.length_reverse,
      hgrows.length]
    exact Nat.zero_add count
  rw [length_flatten_slices] at hle
  refine ⟨by rwa [hrows], ?_, fun hfail => ?_⟩
  · rw [hmalformed, hrows]
    exact Nat.le_trans hgrows.malformed (Nat.le_of_eq (Nat.zero_add count))
  · rw [hmalformed, hgrows.strict hfail]
    rfl

end BatchResult.IsOf

namespace ReadState

variable {batch : Batch} {batches : List Batch} {before after : ReadState}
  {results : List BatchResult}

theorem Runs.isOf (hrun : Runs options batch before result after)
    (hsound : before.set.Sound) (hvisible : before.set.Visible)
    (hfits : before.set.Fits) (hdelivers : before.set.Delivers) :
    result.IsOf options before.set.contents batch.range ∧
      before.set.Reads after.set := by
  obtain ⟨hbuffer, hcovered, hreads⟩ :=
    hsound.ingest_covered hvisible hfits hdelivers batch.range
      options.delimiter .empty
  rw [hrun.ingested] at hbuffer hcovered hreads
  exact ⟨⟨hbuffer, hrun.covered.trans hcovered, hrun.tokenized⟩, hreads⟩

theorem Completes.isOf
    (hrun : Completes options batches before results after)
    (hsound : before.set.Sound) (hvisible : before.set.Visible)
    (hfits : before.set.Fits) (hdelivers : before.set.Delivers) :
    List.Forall₂ (BatchResult.IsOf options before.set.contents)
      (batches.map Batch.range) results := by
  induction hrun with
  | done state => exact .nil
  | step hrun hrest ih =>
      obtain ⟨hresult, hreads⟩ :=
        hrun.isOf hsound hvisible hfits hdelivers
      refine .cons hresult ?_
      rw [← hreads.contents_eq]
      exact ih (hreads.sound hsound) (hreads.visible hvisible)
        (hreads.fits hfits) (hreads.delivers hdelivers)

end ReadState

/-- What the batches of some ranges have counted together. -/
theorem sums_of_isOf {ranges : List ByteRange} {results : List BatchResult}
    (hresults : List.Forall₂ (BatchResult.IsOf options contents) ranges
      results) :
    (results.map (·.buffer.size)).sum =
        (ranges.map (ByteRange.covered contents)).sum +
          (ranges.map (ByteRange.seams contents)).sum ∧
      (results.map fun result => result.buffer.size - result.covered).sum =
        (ranges.map (ByteRange.seams contents)).sum ∧
      (results.map (·.fragment.table.rows)).sum ≤
        (ranges.map (ByteRange.covered contents)).sum ∧
      (results.map (·.fragment.malformed)).sum ≤
        (results.map (·.fragment.table.rows)).sum ∧
      (options.recovery = .fail →
        (results.map (·.fragment.malformed)).sum = 0) := by
  induction hresults with
  | nil => simp
  | @cons range result ranges results hresult hrest ih =>
      obtain ⟨hingested, hdelimiters, hrows, hmalformed, hstrict⟩ := ih
      obtain ⟨hcovers, hfewer, hnone⟩ := hresult.rows
      simp only [List.map_cons, List.sum_cons, hingested, hdelimiters,
        hresult.size, hresult.covered, Nat.add_sub_cancel_left]
      refine ⟨by omega, trivial, by omega, by omega, fun hfail => ?_⟩
      rw [hnone hfail, hstrict hfail]

end Batches

/-! ## Reads -/

section Reads

variable {sources : List Source} {options : ReadOptions} {set : SourceSet}
  {outcome : ReadTable}

theorem Planned.reads_sized (planned : Planned sources options)
    (hsound : planned.opened.Sound) :
    planned.opened.Reads planned.sized := by
  have hrequests := planned.requests
  unfold requestedRange at hrequests
  split at hrequests
  · obtain ⟨-, hsame⟩ := Prod.mk.inj hrequests
    exact hsame ▸ hsound.refl
  · next range hrange =>
      split at hrequests
      · by_cases hinside :
            range.offset ≤ planned.opened.contents.flatten.length
        · obtain ⟨first, last, found, halign, -, -, -, hreads, -⟩ :=
            hsound.align range options.delimiter hinside
          rw [halign] at hrequests
          exact (Prod.mk.inj hrequests).2 ▸ hreads
        · obtain ⟨found, houtside⟩ :=
            hsound.align_outside options.delimiter
              (Nat.lt_of_not_le hinside)
          rw [houtside] at hrequests
          exact absurd (Prod.mk.inj hrequests).1 nofun
      · exact absurd (Prod.mk.inj hrequests).1 nofun

/-- The batches of a read are those of the ranges of its plan, and together
they cover the range of the read. -/
theorem ReadRun.isOf (run : ReadRun sources options outcome)
    (hopened : run.opened = set) (hsound : set.Sound)
    (hvisible : set.Visible) (hfits : set.Fits) (hdelivers : set.Delivers) :
    List.Forall₂ (BatchResult.IsOf options set.contents)
        (run.plan.batches.map Batch.range) run.results ∧
      ((run.plan.batches.map Batch.range).map
        (ByteRange.covered set.contents)).sum =
          run.range.covered set.contents := by
  have hsized := run.toPlanned.reads_sized (hopened ▸ hsound)
  rw [hopened] at hsized
  have hafter : set.Reads run.after := by
    rcases Plan.tiling_of_make (hsized.sound hsound) run.plans with
      ⟨hsame, -⟩ | ⟨hreads, -⟩
    · rwa [hsame]
    · exact hsized.trans hreads
  have hresults := run.completes.isOf (hafter.sound hsound)
    (hafter.visible hvisible) (hafter.fits hfits) (hafter.delivers hdelivers)
  have hcontents : (ReadState.start run.sized run.after
      run.plan).set.contents = set.contents := hafter.contents_eq
  have hplan := Plan.sum_covered (hsized.sound hsound) run.plans
  rw [hcontents] at hresults
  rw [hsized.contents_eq] at hplan
  exact ⟨hresults, hplan⟩

/-- The statistics account for a read that succeeds, if no estimate is zero by
mistake and every estimated source has some content.  They count the rows of
the table, the batches of the plan, and in every batch the places where one
source with bytes in it follows another; what was ingested beside these
delimiters is the part of the range that the stream has, and every row takes a
byte of it. -/
theorem read_statistics
    (hmakes : SourceSet.make sources options.compression
      options.tuning.compressionRatio = .ok set)
    (hready : set.Ready 1)
    (hcontent : ∀ source ∈ set.sources,
      source.isSizeExact = false → source.content ≠ [])
    (hread : read sources options = .ok outcome) :
    ∃ planned : Planned sources options,
      outcome.stats.rows = outcome.table.rows ∧
      outcome.stats.batches = planned.plan.length ∧
      outcome.stats.delimitersInserted =
        (planned.plan.batches.map fun batch =>
          batch.range.seams set.contents).sum ∧
      outcome.stats.bytesIngested =
        planned.range.covered set.contents +
          outcome.stats.delimitersInserted ∧
      outcome.stats.rows ≤ planned.range.covered set.contents ∧
      outcome.stats.malformedRecords ≤ outcome.stats.rows ∧
      (options.recovery = .fail → outcome.stats.malformedRecords = 0) ∧
      (options.normalize = false →
        outcome.stats.bytesNormalized = outcome.stats.bytesIngested) := by
  obtain ⟨run⟩ := nonempty_readRun hread
  have hsound := hready.sound
  have hdelivers : set.Delivers := by
    intro source hsource hempty
    cases hexact : source.isSizeExact with
    | true => exact (hsound.sources source hsource).delivers hexact hempty
    | false => exact absurd hempty (hcontent source hsource hexact)
  obtain ⟨hresults, hcovered⟩ :=
    run.isOf (Except.ok.inj (run.opens.symm.trans hmakes)) hsound
      (hready.visible Nat.one_pos) hready.fits hdelivers
  obtain ⟨hingested, hdelimiters, hrows, hmalformed, hstrict⟩ :=
    sums_of_isOf hresults
  rw [hcovered] at hingested hrows
  have hstats : outcome.stats.rows =
      (run.results.map (·.fragment.table.rows)).sum :=
    run.counter_eq ReadStats.rows _ rfl fun _ _ => rfl
  have hfaults : outcome.stats.malformedRecords =
      (run.results.map (·.fragment.malformed)).sum :=
    run.counter_eq ReadStats.malformedRecords _ rfl fun _ _ => rfl
  have hinserted : outcome.stats.delimitersInserted =
      ((run.plan.batches.map Batch.range).map
        (ByteRange.seams set.contents)).sum := by
    rw [← hdelimiters]
    exact run.counter_eq ReadStats.delimitersInserted _ rfl fun _ _ => rfl
  have hbytes := run.counter_eq ReadStats.bytesIngested (·.buffer.size) rfl
    fun _ _ => rfl
  refine ⟨run.toPlanned, ?_, ?_, ?_, ?_, ?_, ?_, ?_, ?_⟩
  · obtain ⟨hcompatible, htable⟩ := run.compatible_and_table
    rw [hstats, htable, Assembler.finish_ofTables hcompatible,
      ReadRun.tables, List.map_map]
    rfl
  · have hbatches : (run.results.map fun _ => 1).sum = run.plan.length := by
      rw [List.map_const', List.sum_replicate_nat, Nat.mul_one,
        run.completes.length_eq, Plan.length]
    rw [← hbatches]
    exact run.counter_eq ReadStats.batches _ rfl fun _ _ => rfl
  · rw [hinserted, List.map_map]
    rfl
  · rw [hbytes, hingested, hinserted]
  · rwa [hstats]
  · rw [hstats, hfaults]
    exact hmalformed
  · intro hfail
    rw [hfaults, hstrict hfail]
  · intro hnormalize
    rw [hbytes, run.counter_eq ReadStats.bytesNormalized
      (fun result => (options.prepare result.buffer).size) rfl
      fun _ _ => rfl]
    simp only [ReadOptions.prepare, hnormalize, Bool.false_eq_true, if_false]

/-- The lines `{"a":1}` and `{"a":2}`, and `{"a":1}` in a block of unknown size.
The first line is a batch, and in the second batch the sources meet. -/
theorem read_statistics_two_batches :
    let bytes := [123, 34, 97, 34, 58, 49, 125, 10, 123, 34, 97, 34, 58, 50,
      125]
    let block := [8, 28, 123, 34, 97, 34, 58, 49, 125, 10]
    let estimated : CompressedSource := ⟨block, .snappy, 40, false, none⟩
    let sources : List Source := [.host bytes, .compressed estimated]
    let options : ReadOptions :=
      { ReadOptions.default with tuning := ⟨2, 1, 1, 1, 16⟩ }
    CompressedSource.make block .snappy 4 = .ok estimated ∧
      SourceSet.make sources options.compression
        options.tuning.compressionRatio = .ok ⟨sources, .none⟩ ∧
      SourceSet.Ready 1 ⟨sources, .none⟩ ∧
      (∀ source ∈ sources,
        source.isSizeExact = false → source.content ≠ []) ∧
      ∃ outcome, read sources options = .ok outcome ∧
        outcome.stats.batches = 2 ∧ outcome.stats.delimitersInserted = 1 ∧
        outcome.stats.rows = outcome.table.rows ∧
        outcome.stats.malformedRecords = 0 ∧
        outcome.stats.malformedRecords ≤ outcome.stats.rows := by
  intro bytes block estimated sources options
  have hmake : CompressedSource.make block .snappy 4 = .ok estimated := rfl
  have hmakes : SourceSet.make sources options.compression
      options.tuning.compressionRatio = .ok ⟨sources, .none⟩ := rfl
  have hcontent : (Source.compressed estimated).content? =
      .ok [123, 34, 97, 34, 58, 49, 125, 10] := rfl
  have hready : SourceSet.Ready 1 ⟨sources, .none⟩ := by
    refine ⟨?_, ?_, by decide +kernel⟩
    · refine List.forall_mem_cons.mpr ⟨.host bytes,
        List.forall_mem_singleton.mpr ?_⟩
      exact .compressed (by decide : 1 ≤ 4) hmake
    · exact List.forall_mem_cons.mpr ⟨rfl,
        List.forall_mem_singleton.mpr (Source.readable_of_decompress hcontent)⟩
  have hsome : ∀ source ∈ sources,
      source.isSizeExact = false → source.content ≠ [] := by
    refine List.forall_mem_cons.mpr ⟨fun hknown => absurd hknown nofun,
      List.forall_mem_singleton.mpr fun _ => ?_⟩
    rw [Source.content, hcontent]
    exact List.cons_ne_nil _ _
  have hok : ((read sources options).map fun outcome =>
      (outcome.stats.batches, outcome.stats.delimitersInserted)).toOption =
        some (2, 1) := by
    decide +kernel
  obtain ⟨outcome, hread, hstats⟩ :=
    Except.map_eq_ok.mp (Except.toOption_eq_some.mp hok)
  obtain ⟨hbatches, hdelimiters⟩ := Prod.mk.inj hstats
  obtain ⟨planned, hrows, -, -, -, -, hmalformed, hstrict, -⟩ :=
    read_statistics hmakes hready hsome hread
  exact ⟨hmake, hmakes, hready, hsome, outcome, hread, hbatches, hdelimiters,
    hrows, hstrict rfl, hmalformed⟩

end Reads

end JsonIntake
