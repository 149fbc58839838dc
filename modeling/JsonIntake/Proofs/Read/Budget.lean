import JsonIntake.Proofs.Read.Rejection
import JsonIntake.Proofs.Stream.Exact

/-!
# What the budget bounds

The budget bounds the bytes of the stream that a batch covers.  Ingestion adds
a delimiter where one source follows another, and there are fewer such places
than bytes; normalization doubles a buffer at most.  So the buffers that reach
the tokenizer are bounded as well, whatever sources a batch crosses.
-/

namespace JsonIntake

/-! ## Batches of a plan -/

theorem Tiling.covered_le {IsCut : Nat → Prop} {budget start stop : Nat}
    {ranges : List ByteRange} (htiling : Tiling IsCut budget stop start ranges)
    (contents : List (List UInt8)) :
    ∀ range ∈ ranges, range.covered contents ≤ budget := by
  induction htiling with
  | done => exact nofun
  | @step start cut rest hlt hle hbudget hcut hrest ih =>
      refine List.forall_mem_cons.mpr ⟨?_, ih⟩
      exact Nat.le_trans (ByteRange.covered_le_size _ _) hbudget

namespace Plan

variable {set next : SourceSet} {range : ByteRange} {delimiter : UInt8}
  {tuning : Tuning} {plan : Plan}

/-- No batch of lines covers more than the budget, be it cut or not. -/
theorem covered_le_of_make (hsound : set.Sound) (hexact : set.Exact)
    (hvalid : tuning.Valid)
    (hmake : make set range delimiter true tuning = (.ok plan, next)) :
    set.Reads next ∧ ∀ batch ∈ plan.batches,
      batch.range.covered set.contents ≤ tuning.maxBatchBytes := by
  obtain ⟨-, -, ⟨hsmall, rfl, rfl⟩ | ⟨-, -, hcut⟩⟩ := make_cases hmake
  · refine ⟨hsound.refl, fun batch hbatch => ?_⟩
    have hrange := List.mem_map_of_mem (f := Batch.range) hbatch
    rw [single, map_range_batchesOf, List.mem_singleton] at hrange
    rw [hrange, ByteRange.covered, ← hsound.sum_sizes_eq hexact]
    exact hsmall rfl
  · obtain ⟨hreads, -, -, htiling⟩ := cut_tiling hsound hvalid hcut
    refine ⟨hreads, fun batch hbatch => ?_⟩
    exact htiling.covered_le set.contents batch.range
      (List.mem_map_of_mem hbatch)

end Plan

/-! ## Buffers -/

namespace SourceSet

theorem Sound.size_ingest_le {set used : SourceSet} (hsound : set.Sound)
    (hexact : set.Exact) (hreads : set.Reads used) (range : ByteRange)
    (delimiter : UInt8) (buffer : Buffer) :
    (ingest buffer used range delimiter).buffer.size ≤
      2 * range.covered set.contents - 1 := by
  have hbytes := ((hreads.sound hsound).ingestsExactly (hreads.exact hexact)
    range delimiter buffer).buffer
  have hseams := range.seams_le_pred set.contents
  rw [hreads.contents_eq] at hbytes
  rw [← Buffer.length_toList, hbytes, ByteRange.length_joinPieces_slices]
  omega

end SourceSet

theorem ReadOptions.size_prepare_le (options : ReadOptions) (buffer : Buffer) :
    (options.prepare buffer).size ≤ 2 * buffer.size := by
  unfold prepare
  split
  · exact size_normalizeQuotes_le _ buffer
  · omega

namespace ReadState

variable {tokenizer : BatchTokenizer} {options : ReadOptions}
  {state : ReadState}

theorem addBuffer_calls (parse : ParseOptions)
    (index covered ingested : Nat) (buffer : Buffer) :
    ∃ result,
      (state.addBuffer tokenizer parse index covered ingested buffer).2.calls =
        ⟨buffer, result⟩ :: state.calls := by
  unfold addBuffer
  dsimp only
  split
  · exact ⟨_, rfl⟩
  · split
    · exact ⟨_, rfl⟩
    · split <;> exact ⟨_, rfl⟩

/-- A batch is handed to the tokenizer once at most, after it was ingested. -/
theorem process_calls (tokenizer : BatchTokenizer) (options : ReadOptions)
    (batch : Batch) (state : ReadState) :
    ((state.process tokenizer options batch).2.set = state.set ∨
        (state.process tokenizer options batch).2.set =
          (ingest .empty state.set batch.range options.delimiter).set) ∧
      ∀ call ∈ (state.process tokenizer options batch).2.calls,
        call ∈ state.calls ∨
          call.input = options.prepare
            (ingest .empty state.set batch.range options.delimiter).buffer := by
  rw [process_eq]
  dsimp only
  split
  · exact ⟨.inl rfl, fun call hcall => .inl hcall⟩
  split
  · exact ⟨.inr rfl, fun call hcall => .inl hcall⟩
  · exact ⟨.inr rfl, fun call hcall => .inl hcall⟩
  · refine ⟨.inr (addBuffer_set _ _ _ _ _ _), fun call hcall => ?_⟩
    obtain ⟨result, hcalls⟩ := addBuffer_calls _ _ _ _ _
    rw [hcalls] at hcall
    rcases List.mem_cons.mp hcall with rfl | hbefore
    · exact .inr rfl
    · exact .inl hbefore

/-- One batch: what the tokenizer is given is at most four times as long as
what the batch covers. -/
theorem size_input_of_process (tokenizer : BatchTokenizer)
    (options : ReadOptions) {set : SourceSet} (hsound : set.Sound)
    (hexact : set.Exact) (hreads : set.Reads state.set) (batch : Batch) :
    set.Reads (state.process tokenizer options batch).2.set ∧
      ∀ call ∈ (state.process tokenizer options batch).2.calls,
        call ∈ state.calls ∨
          call.input.size ≤ 4 * batch.range.covered set.contents := by
  obtain ⟨hset, hcalls⟩ := process_calls tokenizer options batch state
  constructor
  · rcases hset with hsame | hingested
    · rwa [hsame]
    · have hused := hreads.sound hsound
      have hexact' := hreads.exact hexact
      rw [hingested]
      exact hreads.trans (hused.copies (hused.visible hexact')
        (hused.fits hexact') batch.range options.delimiter .empty).sources
  · intro call hcall
    refine (hcalls call hcall).imp_right fun hinput => ?_
    have hingested := hsound.size_ingest_le hexact hreads batch.range
      options.delimiter .empty
    have hprepared := options.size_prepare_le
      (ingest .empty state.set batch.range options.delimiter).buffer
    rw [hinput]
    omega

theorem size_input_of_processAll {set : SourceSet} {batches : List Batch}
    {budget : Nat} (hsound : set.Sound) (hexact : set.Exact)
    (hreads : set.Reads state.set)
    (hbatches : ∀ batch ∈ batches,
      batch.range.covered set.contents ≤ budget) :
    ∀ call ∈ (state.processAll tokenizer options batches).2.calls,
      call ∈ state.calls ∨ call.input.size ≤ 4 * budget := by
  induction batches generalizing state with
  | nil => exact fun call hcall => .inl hcall
  | cons batch rest ih =>
      rw [List.forall_mem_cons] at hbatches
      obtain ⟨hnext, hcalls⟩ :=
        size_input_of_process tokenizer options hsound hexact hreads batch
      have hstep : ∀ call ∈ (state.process tokenizer options batch).2.calls,
          call ∈ state.calls ∨ call.input.size ≤ 4 * budget := by
        intro call hcall
        refine (hcalls call hcall).imp_right fun hsize => ?_
        omega
      intro call hcall
      rw [processAll_cons] at hcall
      split at hcall
      · next failure after hprocess =>
          rw [hprocess] at hstep
          exact hstep call hcall
      · next after hprocess =>
          rw [hprocess] at hnext hstep
          rcases ih hnext hbatches.2 call hcall with hbefore | hsize
          · exact hstep call hbefore
          · exact .inr hsize

end ReadState

/-- Every batch of a plan for lines covers at most the budget.  Its buffer has
less than twice the bytes that it covers, unless it covers none, and at most
twice as many after normalization.  So whatever batches are run, nothing that
is handed to the tokenizer is longer than four times the budget. -/
theorem make_bounds_buffers {set next : SourceSet} {range : ByteRange}
    {delimiter : UInt8} {tuning : Tuning} {plan : Plan}
    (hopened : ∀ source ∈ set.sources, source.Opened 0)
    (hexact : set.Exact)
    (hlength : set.contents.flatten.length < Size.limit)
    (hvalid : tuning.Valid)
    (hmake : Plan.make set range delimiter true tuning = (.ok plan, next)) :
    (∀ batch ∈ plan.batches,
      let covered := batch.range.covered set.contents
      covered ≤ tuning.maxBatchBytes ∧
        ∀ (used : SourceSet) (prior : Buffer) (between : UInt8)
            (ending : Option UInt8),
          next.Reads used →
          let buffer := (ingest prior used batch.range between).buffer
          buffer.size ≤ 2 * covered - 1 ∧
            (normalizeQuotes ending buffer).output.size ≤ 2 * buffer.size) ∧
      ∀ (tokenizer : BatchTokenizer) (options : ReadOptions)
          (start : ReadState),
        next.Reads start.set →
        ∀ call ∈ (start.processAll tokenizer options plan.batches).2.calls,
          call ∈ start.calls ∨ call.input.size ≤ 4 * tuning.maxBatchBytes := by
  have hsound := hexact.sound hopened hlength
  obtain ⟨hreads, hcovered⟩ :=
    Plan.covered_le_of_make hsound hexact hvalid hmake
  refine ⟨fun batch hbatch => ⟨hcovered batch hbatch, ?_⟩, ?_⟩
  · intro used prior between ending hused buffer
    exact ⟨hsound.size_ingest_le hexact (hreads.trans hused) _ _ _,
      size_normalizeQuotes_le ending buffer⟩
  · intro tokenizer options start hstart
    exact ReadState.size_input_of_processAll hsound hexact
      (hreads.trans hstart) hcovered

/-- The first batch has something of three sources, one of which is empty, and
its quotes are escaped. -/
theorem make_bounds_buffers_two_batches :
    let set : SourceSet :=
      ⟨[.host [39, 34, 34], .host [], .device ⟨#[34]⟩,
        .host [10, 91, 93, 10, 123, 125]], .none⟩
    let first := (ingest .empty set ⟨0, 4⟩ 10).buffer
    ∃ plan,
      Plan.make set (.toEnd 0) 10 true ⟨2, 0, 1, 1, 8⟩ = (.ok plan, set) ∧
        plan.batches.map Batch.range = [⟨0, 4⟩, ⟨4, 6⟩] ∧
        (∀ batch ∈ plan.batches, batch.range.covered set.contents ≤ 8) ∧
        first.toList = [39, 34, 34, 10, 34] ∧ first.size ≤ 2 * 4 - 1 ∧
        (normalizeQuotes (some 10) first).output.size ≤ 2 * first.size ∧
        ∀ call ∈ (ReadState.processAll defaultTokenizer .default plan.batches
            ⟨set, .empty, .empty, []⟩).2.calls,
          call.input.size ≤ 4 * 8 := by
  intro set first
  have hopened : ∀ source ∈ set.sources, source.Opened 0 := by
    rintro source (_ | ⟨_, _ | ⟨_, _ | ⟨_, _ | ⟨_, ⟨⟩⟩⟩⟩⟩)
    · exact .host _
    · exact .host _
    · exact .device _
    · exact .host _
  have hexact : set.Exact := by
    rintro source (_ | ⟨_, _ | ⟨_, _ | ⟨_, _ | ⟨_, ⟨⟩⟩⟩⟩⟩) <;> rfl
  have hlength : set.contents.flatten.length < Size.limit := by decide
  have hreads : set.Reads set := (hexact.sound hopened hlength).refl
  have hvalid : Tuning.Valid ⟨2, 0, 1, 1, 8⟩ :=
    ⟨by decide, by decide, by decide, by decide⟩
  refine ⟨_, rfl, rfl, ?_⟩
  obtain ⟨hbatches, hcalls⟩ :=
    make_bounds_buffers hopened hexact hlength hvalid
      (rfl : Plan.make set (.toEnd 0) 10 true _ = (.ok _, set))
  obtain ⟨-, hbuffers⟩ := hbatches _ (.head _)
  obtain ⟨hsize, hnormal⟩ := hbuffers set .empty 10 (some 10) hreads
  refine ⟨fun batch hbatch => (hbatches batch hbatch).1, rfl, hsize, hnormal,
    fun call hcall => ?_⟩
  exact (hcalls defaultTokenizer .default ⟨set, .empty, .empty, []⟩ hreads call
    hcall).resolve_left nofun

/-- A read of lines over sources of exact sizes hands nothing to the tokenizer
that is longer than four times the budget, however the read ends. -/
theorem readSet_calls_le {set : SourceSet} {options : ReadOptions}
    (hopened : ∀ source ∈ set.sources, source.Opened 0)
    (hexact : set.Exact)
    (hlength : set.contents.flatten.length < Size.limit)
    (hvalid : options.tuning.Valid) (hlines : options.lines = true)
    (tokenizer : BatchTokenizer) :
    ∀ call ∈ (readSet tokenizer set options).calls,
      call.input.size ≤ 4 * options.tuning.maxBatchBytes := by
  have hsound := hexact.sound hopened hlength
  unfold readSet
  rcases hsound.requestedRange (hsound.visible hexact) (hsound.fits hexact)
      hlines with ⟨range, sized, hrange, hreads, -⟩ | ⟨_, _, _, hrange⟩
  · rw [hrange, hlines]
    dsimp only
    split
    · exact nofun
    split
    · exact nofun
    · next plan next hmake =>
        have hsized := hreads.sound hsound
        have hsizedExact := hreads.exact hexact
        obtain ⟨hnext, hcovered⟩ :=
          Plan.covered_le_of_make hsized hsizedExact hvalid hmake
        intro call hcall
        exact (ReadState.size_input_of_processAll hsized hsizedExact hnext
          hcovered call (List.mem_reverse.mp hcall)).resolve_left nofun
  · rw [hrange]
    exact nofun

end JsonIntake
