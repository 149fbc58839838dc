import JsonIntake.Proofs.Plan.Empty
import JsonIntake.Proofs.Read.Run
import JsonIntake.Proofs.Stream.Whole

/-!
# The records of the batches

The records of all batches of a read of lines, one batch behind the other, are
the records that are asked for.  This needs no promise that the sources can be
read: sizes are made exact for every read but a whole one in one batch, and
such a read has looked at every source that has something in it.
-/

namespace JsonIntake

/-- The lines of a batch from which its rows are made. -/
def BatchResult.lines (options : ReadOptions) (result : BatchResult) :
    List (List UInt8) :=
  options.recordsOf result.buffer.toList

/-! ## The records of one batch -/

namespace ReadState

variable {options : ReadOptions} {batch : Batch} {batches : List Batch}
  {before after : ReadState} {result : BatchResult}
  {results : List BatchResult}

theorem offset_le_of_count {set : SourceSet} {range : ByteRange}
    {delimiter : UInt8} {buffer : Buffer} {count : Nat} (hsound : set.Sound)
    (hvisible : set.Visible) (hfits : set.Fits)
    (hcount : (ingest buffer set range delimiter).count = .ok count) :
    range.offset ≤ set.contents.flatten.length := by
  obtain ⟨reached, hreached, hle, -⟩ :=
    (hsound.copies hvisible hfits range delimiter buffer).reached
  unfold ingest at hcount
  dsimp only at hcount
  rw [hreached] at hcount
  dsimp only at hcount
  split at hcount
  · cases hcount
  · next hinside =>
      have htotal : set.contents.flatten.length =
          (set.sources.map Source.content).flatten.length := rfl
      omega

/-- A batch that was run holds the records of its range. -/
theorem Runs.lines_eq (hrun : Runs options batch before result after)
    (hsound : before.set.Sound) (hvisible : before.set.Visible)
    (hfits : before.set.Fits) :
    result.lines options =
        readRange options.recordsOf before.set.contents batch.range.offset
          (batch.range.offset + batch.range.size) ∧
      before.set.Reads after.set := by
  have hcount : (ingest .empty before.set batch.range
      options.delimiter).count = .ok result.buffer.size := by
    rw [hrun.ingested]
  obtain ⟨-, hrecords, hreads⟩ :=
    hsound.ingest_linewise options.linewise_recordsOf hvisible hfits .empty
      (offset_le_of_count hsound hvisible hfits hcount)
  rw [hrun.ingested] at hrecords hreads
  exact ⟨hrecords, hreads⟩

/-- A whole stream in one batch holds the records of all contents, even if
not every source can be read. -/
theorem Runs.lines_eq_whole (hrun : Runs options batch before result after)
    (hwhole : batch.range = .toEnd 0)
    (hopened : ∀ source ∈ before.set.sources, source.Opened 1)
    (hfits : before.set.Fits) :
    result.lines options =
      before.set.contents.flatMap options.recordsOf := by
  have hingested := hrun.ingested
  rw [hwhole] at hingested
  have hcount : (ingest .empty before.set (.toEnd 0)
      options.delimiter).count = .ok result.buffer.size := by
    rw [hingested]
  have hrecords := SourceSet.ingest_whole_linewise
    options.linewise_recordsOf Nat.one_pos hopened hfits .empty hcount
  rwa [hingested] at hrecords

/-- The records of a batch are tabulated under the hints. -/
theorem Runs.tabulated (hrun : Runs options batch before result after)
    (hlines : options.lines = true) :
    tabulate options.hints ((result.lines options).map lineMembers) =
      .ok result.fragment.table := by
  have htokenized := (tokenize_lines_eq_ok hlines).mp hrun.tokenized
  obtain ⟨-, htable, -⟩ := htokenized
  have hdelimiter : options.parseOptions.delimiter = options.delimiter := rfl
  rwa [hdelimiter, ReadOptions.recordLines_prepare hlines] at htable

/-- Batches that were run hold the records of their ranges. -/
theorem Completes.lines_eq
    (hrun : Completes options batches before results after)
    (hsound : before.set.Sound) (hvisible : before.set.Visible)
    (hfits : before.set.Fits) :
    List.Forall₂ (fun batch result => result.lines options =
      readRange options.recordsOf before.set.contents batch.range.offset
        (batch.range.offset + batch.range.size)) batches results := by
  induction hrun with
  | done state => exact .nil
  | step hrun hrest ih =>
      obtain ⟨hlines, hreads⟩ := hrun.lines_eq hsound hvisible hfits
      refine .cons hlines ?_
      rw [← hreads.contents_eq]
      exact ih (hreads.sound hsound) (hreads.visible hvisible)
        (hreads.fits hfits)

theorem Completes.tabulates
    (hrun : Completes options batches before results after)
    (hlines : options.lines = true) :
    List.Forall₂ (fun rows table => tabulate options.hints rows = .ok table)
      (results.map fun result => (result.lines options).map lineMembers)
      (results.map (·.fragment.table)) := by
  induction hrun with
  | done state => exact .nil
  | step hrun hrest ih => exact .cons (hrun.tabulated hlines) ih

end ReadState

/-! ## The records of a read -/

theorem ReadOptions.requestedRecords_of_none {options : ReadOptions}
    (hrange : options.byteRange = none) (contents : List (List UInt8)) :
    options.requestedRecords contents =
      contents.flatMap options.recordsOf := by
  rw [requestedRecords, requestedLines, hrange]
  exact readLines_streamLinesFrom options.linewise_recordsOf _

theorem Tiling.flatMap_readRange {options : ReadOptions}
    {contents : List (List UInt8)} {budget start stop : Nat}
    {ranges : List ByteRange}
    (htiling : Tiling (IsBoundary options.delimiter contents) budget stop
      start ranges) :
    (ranges.flatMap fun range => readRange options.recordsOf contents
        range.offset (range.offset + range.size)) =
      readRange options.recordsOf contents start stop := by
  have hlinewise := options.linewise_recordsOf
  induction htiling with
  | done =>
      rw [readRange_eq_nil hlinewise contents (Nat.le_refl stop)]
      rfl
  | @step start cut rest hlt hle hbudget hcut hrest ih =>
      have hend : start + (cut - start) = cut := by omega
      rw [List.flatMap_cons, ih, ByteRange.between,
        readRange_cut hlinewise (Nat.le_of_lt hlt) hle hcut]
      dsimp only
      rw [hend]

namespace Planned

variable {sources : List Source} {options : ReadOptions}

/-- The records that the first batch of a plan is to have. -/
def firstRecords (planned : Planned sources options) :
    List (List UInt8) :=
  match planned.plan.batches with
  | [] => []
  | batch :: _ =>
    readRange options.recordsOf planned.opened.contents batch.range.offset
      (batch.range.offset + batch.range.size)

/-- The first batch of a whole read, by the ranges of its plan. -/
theorem firstRecords_of_ranges (planned : Planned sources options)
    (set : SourceSet) (first : ByteRange) (rest : List ByteRange)
    (hrange : options.byteRange = none)
    (hmakes : SourceSet.make sources options.compression
      options.tuning.compressionRatio = .ok set)
    (hranges : ((Plan.make set (.toEnd 0) options.delimiter options.lines
      options.tuning).1.map fun plan =>
        plan.batches.map Batch.range).toOption = some (first :: rest)) :
    planned.firstRecords =
      readRange options.recordsOf set.contents first.offset
        (first.offset + first.size) := by
  have hrequests := planned.requests
  unfold requestedRange at hrequests
  rw [hrange] at hrequests
  obtain ⟨hwhole, hsized⟩ := Prod.mk.inj hrequests
  have hopened := Except.ok.inj (planned.opens.symm.trans hmakes)
  have hplans := planned.plans
  rw [← Except.ok.inj hwhole, ← hsized, hopened] at hplans
  rw [hplans, Except.toOption_eq_some] at hranges
  obtain ⟨batch, later, hbatches, hfirst, -⟩ :=
    List.map_eq_cons_iff.mp (Except.ok.inj hranges)
  rw [firstRecords, hbatches, hopened, ← hfirst]

/-- Unless a whole read is planned as one batch, all sources have been made
exact. -/
theorem readable_or_whole (planned : Planned sources options)
    (hlines : options.lines = true)
    (hopened : ∀ source ∈ planned.opened.sources, source.Opened 0) :
    (∀ source ∈ planned.opened.sources, source.Readable) ∨
      (options.byteRange = none ∧ planned.after = planned.opened ∧
        planned.plan.batches.map Batch.range = [.toEnd 0]) := by
  have hgrounded : ∀ source ∈ planned.opened.sources, source.Grounded :=
    fun source hsource => (hopened source hsource).grounded
  have hrequests := planned.requests
  unfold requestedRange at hrequests
  cases hrange : options.byteRange with
  | some range =>
      rw [hrange] at hrequests
      simp only [hlines, if_true] at hrequests
      unfold SourceSet.align at hrequests
      split at hrequests
      · cases (Prod.mk.inj hrequests).1
      · next total known hknown =>
          exact .inl (SourceSet.readable_of_materialize hgrounded hknown)
  | none =>
      rw [hrange] at hrequests
      obtain ⟨h, hset⟩ := Prod.mk.inj hrequests
      have hwhole := Except.ok.inj h
      have hplans := planned.plans
      rw [← hwhole, ← hset] at hplans
      obtain ⟨-, -, ⟨-, hafter, hplan⟩ | ⟨-, -, hcut⟩⟩ :=
        Plan.make_cases hplans
      · refine .inr ⟨rfl, hafter, ?_⟩
        rw [hplan]
        exact Plan.map_range_batchesOf _ _
      · unfold Plan.cut at hcut
        dsimp only at hcut
        split at hcut
        · cases (Prod.mk.inj hcut).1
        · next total known hknown =>
            exact .inl (SourceSet.readable_of_materialize hgrounded hknown)

end Planned

/-- Sources of a read of lines as they are opened, and its settings, if no
estimate is zero by mistake and all sums of sizes are words. -/
structure LinesReady (sources : List Source) (options : ReadOptions)
    (set : SourceSet) : Prop where
  lines : options.lines = true
  opened : ∀ source ∈ sources, source.Opened 1
  makes : SourceSet.make sources options.compression
    options.tuning.compressionRatio = .ok set
  fits : set.Fits
  valid : options.tuning.Valid

namespace LinesReady

variable {sources : List Source} {options : ReadOptions} {set : SourceSet}
  {outcome : ReadTable}

theorem opened_set (hready : LinesReady sources options set) :
    ∀ source ∈ set.sources, source.Opened 1 :=
  SourceSet.opened_make hready.valid.ratio_pos hready.opened hready.makes

theorem opened_eq (hready : LinesReady sources options set)
    (planned : Planned sources options) : planned.opened = set :=
  Except.ok.inj (planned.opens.symm.trans hready.makes)

/-- The result holds the records of the range of its batch. -/
abbrev HoldsRange (options : ReadOptions) (contents : List (List UInt8))
    (batch : Batch) (result : BatchResult) : Prop :=
  result.lines options =
    readRange options.recordsOf contents batch.range.offset
      (batch.range.offset + batch.range.size)

theorem flatMap_of_holdsRange {contents : List (List UInt8)}
    {batches : List Batch} {results : List BatchResult}
    (hresults : List.Forall₂ (HoldsRange options contents) batches results) :
    results.flatMap (·.lines options) =
      (batches.map Batch.range).flatMap fun range =>
        readRange options.recordsOf contents range.offset
          (range.offset + range.size) := by
  induction hresults with
  | nil => rfl
  | cons hfirst hrest ih =>
      rw [List.flatMap_cons, List.map_cons, List.flatMap_cons, hfirst, ih]

/-- Sources that can be read are read as planned. -/
theorem lines_eq_of_readable (hready : LinesReady sources options set)
    (hreadable : ∀ source ∈ set.sources, source.Readable)
    (run : ReadRun sources options outcome) :
    List.Forall₂ (HoldsRange options set.contents) run.plan.batches
        run.results ∧
      run.results.flatMap (·.lines options) =
        options.requestedRecords set.contents := by
  have hset : set.Ready 1 := ⟨hready.opened_set, hreadable, hready.fits⟩
  have hsound := hset.sound
  have hrequests := run.requests
  rw [hready.opened_eq run.toPlanned] at hrequests
  rcases hsound.requestedRange (hset.visible Nat.one_pos) hset.fits
      hready.lines with
    ⟨range, sized, hrange, hreads, hvisible, hfits, hoffset, hrecords⟩ |
      ⟨offset, total, sized, hrange⟩
  · obtain ⟨hsame, hsized⟩ := Prod.mk.inj (hrange.symm.trans hrequests)
    have hplans := run.plans
    rw [← Except.ok.inj hsame, ← hsized] at hplans
    have htiling :=
      Plan.make_tiling (hreads.sound hsound) hready.valid hplans
    have hafter : sized.Reads run.after := by
      rcases htiling with ⟨hafter, -⟩ | ⟨hafter, -⟩
      · exact hafter ▸ (hreads.sound hsound).refl
      · exact hafter
    have hall := hreads.trans hafter
    have hresults := run.completes.lines_eq (hall.sound hsound)
      (hafter.visible hvisible) (hafter.fits hfits)
    have hcontents : (ReadState.start run.sized run.after
        run.plan).set.contents = set.contents := hall.contents_eq
    rw [hcontents] at hresults
    refine ⟨hresults, ?_⟩
    rw [flatMap_of_holdsRange hresults, ← hrecords]
    rcases htiling with ⟨-, hsingle⟩ | ⟨-, -, -, htiles⟩
    · rw [hsingle, List.flatMap_singleton]
    · rw [hreads.contents_eq] at htiles
      rw [htiles.flatMap_readRange, range.min_stop_eq hsound.length_lt,
        readRange_min]
  · cases (Prod.mk.inj (hrange.symm.trans hrequests)).1

/-- Every batch of a read has the records of its range, and all of them
together are those that were asked for. -/
theorem lines_eq (hready : LinesReady sources options set)
    (run : ReadRun sources options outcome) :
    List.Forall₂ (HoldsRange options set.contents) run.plan.batches
        run.results ∧
      run.results.flatMap (·.lines options) =
        options.requestedRecords set.contents := by
  have hopened := hready.opened_set
  have hsame := hready.opened_eq run.toPlanned
  rcases run.readable_or_whole hready.lines
      (fun source hsource => (hopened source (hsame ▸ hsource)).mono
        (Nat.zero_le 1)) with hreadable | ⟨hrange, hafter, hbatches⟩
  · rw [hsame] at hreadable
    exact hready.lines_eq_of_readable hreadable run
  · -- The one batch has looked at every source that has something in it.
    obtain ⟨batch, hbatch, hwhole⟩ := List.map_eq_singleton_iff.mp hbatches
    have hlength : set.contents.flatten.length < Size.limit :=
      Nat.lt_of_le_of_lt (Source.length_contents_le set.sources) hready.fits
    have hcompletes := run.completes
    rw [hbatch] at hcompletes ⊢
    generalize run.results = results at hcompletes ⊢
    cases hcompletes with
    | @step _ _ _ middle _ result later hrun hrest =>
        cases hrest with
        | done state =>
            have hstart : (ReadState.start run.sized run.after
                run.plan).set = set := hafter.trans hsame
            have hlines := hrun.lines_eq_whole hwhole
              (by rwa [hstart]) (by rw [hstart]; exact hready.fits)
            rw [hstart] at hlines
            refine ⟨.cons ?_ .nil, ?_⟩
            · rw [HoldsRange, hwhole, readRange_toEnd hlength, hlines]
            · rw [options.requestedRecords_of_none hrange,
                List.flatMap_singleton, hlines]

end LinesReady

end JsonIntake
