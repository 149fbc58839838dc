import JsonIntake.Proofs.Plan.Safety
import JsonIntake.Proofs.Read.Requested
import JsonIntake.Proofs.Table.Merging
import JsonIntake.Proofs.Table.Recovery

/-!
# The record that a failed read names

A batch counts its records from zero, and a failed read adds the rows of the
batches before it.  Every record of these has a row, so the sum is the place
of the record among all that were asked for.  It is the place of the first
malformed one, since the batches before were read without a fault.  How the
stream was cut does not enter into it.
-/

namespace JsonIntake

/-- The record that a failure names, and what is wrong with it. -/
def Failure.record? : Failure → Option (Nat × String)
  | .malformedRecord record message => some (record, message)
  | _ => none

theorem Failure.eq_of_record? {failure : Failure} {record : Nat}
    {message : String} (hrecord : failure.record? = some (record, message)) :
    failure = .malformedRecord record message := by
  unfold record? at hrecord
  split at hrecord
  · cases hrecord
    rfl
  · cases hrecord

/-- What can come of reading lines one behind the other, without recovery and
with `rows` rows before them. -/
inductive Counted (lines : List (List UInt8)) (rows : Nat) :
    Except Failure Unit → Nat → Prop where
  | complete (hlines : ∀ line ∈ lines, isMalformed line = false) :
    Counted lines rows (.ok ()) (rows + lines.length)
  | malformed {record : Nat} {message : String}
      (hfirst : FirstMalformed lines record message) (after : Nat) :
    Counted lines rows (.error (.malformedRecord (rows + record) message))
      after
  | stopped {failure : Failure} (hother : failure.record? = none)
      (after : Nat) :
    Counted lines rows (.error failure) after

namespace Counted

variable {front back : List (List UInt8)} {rows after : Nat}
  {result : Except Failure Unit} {failure : Failure}

theorem eq_of_ok {done : Unit} (hlines : Counted front rows (.ok done) after) :
    (∀ line ∈ front, isMalformed line = false) ∧
      after = rows + front.length := by
  cases hlines with
  | complete hsound => exact ⟨hsound, rfl⟩

theorem firstMalformed {record : Nat} {message : String}
    (hlines : Counted front rows (.error (.malformedRecord record message))
      after) :
    ∃ index, record = rows + index ∧ FirstMalformed front index message := by
  cases hlines with
  | malformed hfirst => exact ⟨_, rfl, hfirst⟩
  | stopped hother => cases hother

/-- What stopped the reading of some lines stops that of more lines. -/
theorem append_right (hfront : Counted front rows (.error failure) after)
    (back : List (List UInt8)) :
    Counted (front ++ back) rows (.error failure) after := by
  cases hfront with
  | malformed hfirst => exact .malformed hfirst.append_right after
  | stopped hother => exact .stopped hother after

theorem append_left
    (hfront : ∀ line ∈ front, isMalformed line = false)
    (hback : Counted back (rows + front.length) result after) :
    Counted (front ++ back) rows result after := by
  cases hback with
  | complete hlines =>
      rw [Nat.add_assoc, ← List.length_append]
      exact .complete (List.forall_mem_append.mpr ⟨hfront, hlines⟩)
  | malformed hfirst =>
      rw [Nat.add_assoc]
      exact .malformed (hfirst.append_left hfront) after
  | stopped hother => exact .stopped hother after

end Counted

theorem Failure.afterRows_eq {failure : Failure}
    (hother : failure.record? = none) (rows : Nat) :
    failure.afterRows rows = failure := by
  unfold afterRows
  split
  · cases hother
  · rfl

namespace ReadState

variable {state : ReadState} {options : ReadOptions}

/-! ## One batch -/

theorem bufferFor_eq (set : SourceSet) (range : ByteRange) :
    bufferFor set range =
      if set.sizes.sum < Size.limit then
        if ingestCapacity (min range.size set.sizes.sum) set.length ≤
            Buffer.maxCapacity then .ok .empty
        else
          .error (.capacityExceeded
            (ingestCapacity (min range.size set.sizes.sum) set.length))
      else .error .overflow := by
  rw [bufferFor, SourceSet.totalSize_eq]
  split
  · simp only [bind, Except.bind, Buffer.withCapacity?]
    by_cases hroom : ingestCapacity (min range.size set.sizes.sum) set.length ≤
        Buffer.maxCapacity <;>
      simp only [hroom, if_true, if_false]
  · rfl

theorem bufferFor_eq_ok {set : SourceSet} {range : ByteRange}
    {buffer : Buffer} (hbuffer : bufferFor set range = .ok buffer) :
    buffer = .empty := by
  rw [bufferFor_eq] at hbuffer
  split at hbuffer
  · split at hbuffer
    · exact (Except.ok.inj hbuffer).symm
    · cases hbuffer
  · cases hbuffer

theorem record?_of_bufferFor {set : SourceSet} {range : ByteRange}
    {failure : Failure} (hbuffer : bufferFor set range = .error failure) :
    failure.record? = none := by
  rw [bufferFor_eq] at hbuffer
  split at hbuffer
  · split at hbuffer
    · cases hbuffer
    · cases hbuffer
      rfl
  · cases hbuffer
    rfl

/-- A batch is ingested into an empty buffer, and then its bytes are prepared
for the tokenizer. -/
theorem process_eq (tokenizer : BatchTokenizer) (options : ReadOptions)
    (batch : Batch) (state : ReadState) :
    state.process tokenizer options batch =
      match bufferFor state.set batch.range with
      | .error failure => (.error failure, state)
      | .ok _ =>
        let ingested := ingest .empty state.set batch.range options.delimiter
        let next := { state with set := ingested.set }
        match ingested.count, ingested.set.totalSize with
        | .error failure, _ => (.error failure, next)
        | .ok _, .error failure => (.error failure, next)
        | .ok count, .ok total =>
          next.addBuffer tokenizer options.parseOptions batch.index
            (min batch.range.stop total - batch.range.offset) count
            (options.prepare ingested.buffer) := by
  unfold process
  cases hbuffer : bufferFor state.set batch.range with
  | error failure => rfl
  | ok buffer =>
      obtain rfl := bufferFor_eq_ok hbuffer
      rfl

theorem addBuffer_set (tokenizer : BatchTokenizer) (parse : ParseOptions)
    (index covered ingested : Nat) (buffer : Buffer) :
    (state.addBuffer tokenizer parse index covered ingested buffer).2.set =
      state.set := by
  unfold addBuffer
  dsimp only
  split
  · rfl
  · split
    · rfl
    · split <;> rfl

/-- The records of a buffer are counted behind the rows that are there. -/
theorem addBuffer_counted (state : ReadState) (parse : ParseOptions)
    {buffer : Buffer} (hlines : parse.lines = true)
    (hrecovery : parse.recovery = .fail)
    (hrows : state.stats.rows +
      (recordLines parse.delimiter buffer.toList).length < Size.limit)
    (index covered ingested : Nat) :
    Counted (recordLines parse.delimiter buffer.toList) state.stats.rows
      (state.addBuffer defaultTokenizer parse index covered ingested
        buffer).1
      (state.addBuffer defaultTokenizer parse index covered ingested
        buffer).2.stats.rows := by
  obtain ⟨_, delimiter, _, hints⟩ := parse
  cases hlines
  cases hrecovery
  unfold addBuffer defaultTokenizer
  dsimp only at hrows ⊢
  cases htokenize :
      tokenize ⟨true, delimiter, .fail, hints⟩ buffer with
  | error failure =>
      dsimp only
      cases hrecord : failure.record? with
      | none =>
          rw [Failure.afterRows_eq hrecord]
          exact .stopped hrecord _
      | some place =>
          obtain rfl := Failure.eq_of_record? hrecord
          have hfirst := tokenize_fail_eq_error_iff.mp htokenize
          have hplace : Size.add? place.1 state.stats.rows =
              some (state.stats.rows + place.1) := by
            have hlt := hfirst.lt_length
            rw [Size.add?_of_lt (by omega), Nat.add_comm]
          rw [Failure.afterRows, hplace]
          exact .malformed hfirst _
  | ok fragment =>
      obtain ⟨hsound, htable, -⟩ := (tokenize_lines_eq_ok rfl).mp htokenize
      dsimp only
      cases hrecord : state.stats.recordBatch? covered ingested buffer.size
          fragment.table.rows fragment.malformed with
      | none => exact .stopped rfl _
      | some stats =>
          obtain rfl := ReadStats.recordBatch?_eq_some hrecord
          dsimp only
          cases hpush : state.assembler.push index fragment.table with
          | error failure =>
              obtain ⟨conflict, rfl⟩ :=
                Assembler.exists_conflict_of_push hpush
              exact .stopped rfl _
          | ok assembler =>
              rw [(Table.ofLines_of_tabulate htable).count]
              exact .complete (hsound rfl)

/-- A batch is counted as the records of its range. -/
theorem process_counted {batch : Batch} (hlines : options.lines = true)
    (hrecovery : options.recovery = .fail) (hsound : state.set.Sound)
    (hvisible : state.set.Visible) (hfits : state.set.Fits)
    (hoffset : batch.range.offset ≤ state.set.contents.flatten.length)
    (hrows : state.stats.rows +
      (readRange options.recordsOf state.set.contents batch.range.offset
        (batch.range.offset + batch.range.size)).length < Size.limit) :
    Counted
        (readRange options.recordsOf state.set.contents batch.range.offset
          (batch.range.offset + batch.range.size))
        state.stats.rows
        (state.process defaultTokenizer options batch).1
        (state.process defaultTokenizer options batch).2.stats.rows ∧
      state.set.Reads
        (state.process defaultTokenizer options batch).2.set := by
  rw [process_eq]
  split
  · next failure hbuffer =>
      exact ⟨.stopped (record?_of_bufferFor hbuffer) _, hsound.refl⟩
  obtain ⟨hcount, hrecords, hreads⟩ :=
    hsound.ingest_linewise options.linewise_recordsOf hvisible hfits .empty
      hoffset
  have htotal := (hreads.fits hfits).totalSize_eq
  have htext := options.recordLines_prepare hlines
    (ingest .empty state.set batch.range options.delimiter).buffer
  simp only [hcount, htotal]
  rw [← hrecords, ← htext] at hrows ⊢
  generalize ingest .empty state.set batch.range options.delimiter =
    ingested at hrows hreads ⊢
  refine ⟨addBuffer_counted { state with set := ingested.set }
    options.parseOptions hlines hrecovery hrows _ _ _, ?_⟩
  rw [addBuffer_set]
  exact hreads

/-! ## All batches -/

theorem processAll_cons (tokenizer : BatchTokenizer) (batch : Batch)
    (rest : List Batch) :
    state.processAll tokenizer options (batch :: rest) =
      match state.process tokenizer options batch with
      | (.error failure, after) => (.error failure, after)
      | (.ok (), after) => after.processAll tokenizer options rest := rfl

/-- Batches that tile a range are counted as the records of the range. -/
theorem processAll_counted {contents : List (List UInt8)}
    {budget start stop : Nat} {batches : List Batch}
    (hlines : options.lines = true) (hrecovery : options.recovery = .fail)
    (hsound : state.set.Sound) (hexact : state.set.Exact)
    (hcontents : state.set.contents = contents)
    (hstop : stop ≤ contents.flatten.length)
    (htiling : Tiling (IsBoundary options.delimiter contents) budget stop
      start (batches.map Batch.range))
    (hrows : state.stats.rows +
      (readRange options.recordsOf contents start stop).length <
        Size.limit) :
    Counted (readRange options.recordsOf contents start stop)
      state.stats.rows
      (state.processAll defaultTokenizer options batches).1
      (state.processAll defaultTokenizer options batches).2.stats.rows := by
  have hlinewise := options.linewise_recordsOf
  generalize hranges : batches.map Batch.range = ranges at htiling
  -- The rows so far are counted at every cut, and the range is what is left.
  induction htiling generalizing batches state with
  | done =>
      obtain rfl := List.map_eq_nil_iff.mp hranges
      rw [readRange_eq_nil hlinewise contents (Nat.le_refl stop)]
      exact .complete nofun
  | @step start cut ranges hlt hle hbudget hcut hrest ih =>
      obtain ⟨batch, rest, rfl, hbatch, hrestRanges⟩ :=
        List.map_eq_cons_iff.mp hranges
      have hoffset : batch.range.offset = start := by rw [hbatch]; rfl
      have hend : batch.range.offset + batch.range.size = cut := by
        rw [hbatch]
        simp only [ByteRange.between]
        omega
      rw [readRange_cut hlinewise (Nat.le_of_lt hlt) hle hcut] at hrows ⊢
      rw [List.length_append] at hrows
      obtain ⟨hfirst, hreads⟩ :=
        process_counted hlines hrecovery hsound (hsound.visible hexact)
          (hsound.fits hexact)
          (by rw [hcontents]; omega : batch.range.offset ≤ _)
          (by rw [hcontents, hend, hoffset]; omega)
      rw [hcontents, hend, hoffset] at hfirst
      rw [processAll_cons]
      generalize state.process defaultTokenizer options batch =
        outcome at hfirst hreads ⊢
      obtain ⟨result, after⟩ := outcome
      cases result with
      | error failure => exact hfirst.append_right _
      | ok done =>
          dsimp only at hfirst hreads
          obtain ⟨hfront, hrow⟩ := hfirst.eq_of_ok
          have hlater := ih (hreads.sound hsound) (hreads.exact hexact)
            (hreads.contents_eq.trans hcontents) (by omega) hrestRanges
          rw [hrow] at hlater
          exact hlater.append_left hfront

theorem processAll_singleton (tokenizer : BatchTokenizer) (batch : Batch) :
    state.processAll tokenizer options [batch] =
      state.process tokenizer options batch := by
  rw [processAll_cons]
  generalize state.process tokenizer options batch = outcome
  obtain ⟨result, after⟩ := outcome
  cases result with
  | error failure => rfl
  | ok done => rfl

/-- Any plan of a range is counted as the records of the range. -/
theorem processAll_make {set : SourceSet} {range : ByteRange}
    {tuning : Tuning} {plan : Plan} (hlines : options.lines = true)
    (hrecovery : options.recovery = .fail) (hsound : set.Sound)
    (hvisible : set.Visible) (hfits : set.Fits) (hvalid : tuning.Valid)
    (hoffset : range.offset ≤ set.contents.flatten.length)
    (hmake : Plan.make set range options.delimiter options.lines tuning =
      (.ok plan, state.set))
    (hstart : state.stats.rows = 0) :
    Counted
      (readRange options.recordsOf set.contents range.offset
        (range.offset + range.size))
      0 (state.processAll defaultTokenizer options plan.batches).1
      (state.processAll defaultTokenizer options
        plan.batches).2.stats.rows := by
  have hlength :
      (readRange options.recordsOf set.contents range.offset
        (range.offset + range.size)).length < Size.limit :=
    Nat.lt_of_le_of_lt
      (length_readRange_le options.length_recordsOf_le _ _ set.contents)
      hsound.length_lt
  have hrows : state.stats.rows +
      (readRange options.recordsOf set.contents range.offset
        (range.offset + range.size)).length < Size.limit := by
    omega
  rw [← hstart]
  rcases Plan.make_tiling hsound hvalid hmake with
    ⟨hset, hsingle⟩ | ⟨hreads, hexact, -, htiling⟩
  · obtain ⟨batch, hbatches, hbatch⟩ := List.map_eq_singleton_iff.mp hsingle
    subst hbatch
    rw [← hset] at hsound hvisible hfits hoffset hrows ⊢
    rw [hbatches, processAll_singleton]
    exact (process_counted hlines hrecovery hsound hvisible hfits hoffset
      hrows).1
  · rw [← readRange_min, ← range.min_stop_eq hsound.length_lt] at hrows ⊢
    exact processAll_counted hlines hrecovery (hreads.sound hsound) hexact
      hreads.contents_eq (Nat.min_le_right _ _) htiling hrows

end ReadState

/-! ## Reads -/

/-- Once a range is planned, a read is a run of its batches from nothing. -/
theorem exists_start_of_make {options : ReadOptions}
    {set next after : SourceSet} {range : ByteRange} {plan : Plan}
    (tokenizer : BatchTokenizer)
    (hrange : requestedRange set options = (.ok range, next))
    (hsizes : next.sizes.sum < Size.limit)
    (hmake : Plan.make next range options.delimiter options.lines
      options.tuning = (.ok plan, after)) :
    ∃ start : ReadState, start.set = after ∧ start.stats.rows = 0 ∧
      (readSet tokenizer set options).result =
        (start.processAll tokenizer options plan.batches).1.map fun _ =>
          ⟨(start.processAll tokenizer options
              plan.batches).2.assembler.finish,
            (start.processAll tokenizer options plan.batches).2.stats⟩ := by
  unfold readSet
  rw [hrange]
  dsimp only
  rw [SourceSet.totalSize_of_lt hsizes]
  dsimp only
  rw [hmake]
  exact ⟨_, rfl, rfl, rfl⟩

/-- Sources as they are opened for a read of lines that ends at the first
malformed one. -/
structure StrictLines (sources : List Source) (options : ReadOptions)
    (set : SourceSet) : Prop where
  lines : options.lines = true
  recovery : options.recovery = .fail
  opened : SourceSet.make sources options.compression
    options.tuning.compressionRatio = .ok set
  ready : set.Ready 1
  valid : options.tuning.Valid

namespace StrictLines

variable {sources : List Source} {options : ReadOptions} {set : SourceSet}

theorem read_eq (hopen : StrictLines sources options set) :
    read sources options = (readSet defaultTokenizer set options).result := by
  unfold read readWith
  rw [hopen.opened]

/-- Whatever comes of a read is counted over the requested records. -/
theorem read_counted (hopen : StrictLines sources options set) :
    ∃ rows,
      Counted (options.requestedRecords set.contents) 0
          ((read sources options).map fun _ => ()) rows ∧
        ∀ outcome, read sources options = .ok outcome →
          outcome.stats.rows = rows := by
  have hsound := hopen.ready.sound
  rw [hopen.read_eq]
  rcases hsound.requestedRange (hopen.ready.visible Nat.one_pos)
      hopen.ready.fits hopen.lines with
    ⟨range, next, hrange, hreads, hvisible, hfits, hoffset, hrecords⟩ |
      ⟨offset, total, next, hrange⟩
  · have hnext := hreads.sound hsound
    rw [← hrecords, ← hreads.contents_eq]
    rw [← hreads.contents_eq] at hoffset
    rcases hmake : Plan.make next range options.delimiter options.lines
        options.tuning with ⟨failure | plan, after⟩
    · have hfailed : (readSet defaultTokenizer set options).result =
          .error failure := by
        simp only [readSet, hrange, hfits.totalSize_eq, hmake]
      rw [hfailed]
      rcases Plan.make_error hnext hopen.valid hmake with
        rfl | ⟨_, _, rfl⟩ | ⟨_, _, rfl⟩
      · exact ⟨0, .stopped rfl 0, nofun⟩
      · exact ⟨0, .stopped rfl 0, nofun⟩
      · exact ⟨0, .stopped rfl 0, nofun⟩
    · obtain ⟨start, rfl, hrows, hresult⟩ :=
        exists_start_of_make defaultTokenizer hrange hfits.sizes_lt hmake
      have hcounted := ReadState.processAll_make hopen.lines hopen.recovery
        hnext hvisible hfits hopen.valid hoffset hmake hrows
      rw [hresult]
      generalize start.processAll defaultTokenizer options plan.batches =
        outcome at hcounted ⊢
      obtain ⟨result, last⟩ := outcome
      cases result with
      | error failure => exact ⟨_, hcounted, nofun⟩
      | ok done =>
          refine ⟨_, hcounted, ?_⟩
          intro outcome houtcome
          cases houtcome
          rfl
  · have hfailed : (readSet defaultTokenizer set options).result =
        .error (.sourceExhausted offset total) := by
      simp only [readSet, hrange]
    rw [hfailed]
    exact ⟨0, .stopped rfl 0, nofun⟩

end StrictLines

/-- A read of lines that fails at a record names the first malformed one of the
requested records, by its place among them and with what the parser says about
it alone.  A read that does not fail has found no malformed record, and has a
row for each.  So reads of the same sources that differ in their settings only
and fail at a record name the same one. -/
theorem read_names_first_malformed {sources : List Source}
    {options : ReadOptions} {set : SourceSet}
    (hopen : StrictLines sources options set) :
    (∀ record message,
        read sources options = .error (.malformedRecord record message) →
        FirstMalformed (options.requestedRecords set.contents) record
          message) ∧
      (∀ outcome, read sources options = .ok outcome →
        (∀ line ∈ options.requestedRecords set.contents,
          isMalformed line = false) ∧
        outcome.stats.rows =
          (options.requestedRecords set.contents).length) ∧
      (∀ tuning other, StrictLines sources { options with tuning } other →
        ∀ record message again text,
          read sources options = .error (.malformedRecord record message) →
          read sources { options with tuning } =
            .error (.malformedRecord again text) →
          record = again ∧ message = text) := by
  have hfault : ∀ {options : ReadOptions} {set : SourceSet},
      StrictLines sources options set → ∀ {record message},
      read sources options = .error (.malformedRecord record message) →
      FirstMalformed (options.requestedRecords set.contents) record
        message := by
    intro options set hopen record message hread
    obtain ⟨rows, hcounted, -⟩ := hopen.read_counted
    rw [hread] at hcounted
    obtain ⟨index, hindex, hfirst⟩ := hcounted.firstMalformed
    rwa [hindex, Nat.zero_add]
  refine ⟨fun record message => hfault hopen, ?_, ?_⟩
  · intro outcome hread
    obtain ⟨rows, hcounted, hrows⟩ := hopen.read_counted
    rw [hread] at hcounted
    obtain ⟨hsound, hlength⟩ := hcounted.eq_of_ok
    rw [hrows outcome hread, hlength, Nat.zero_add]
    exact ⟨hsound, rfl⟩
  · intro tuning other hother record message again text hread hagain
    have hcontents : other.contents = set.contents :=
      SourceSet.contents_make hopen.opened hother.opened
    have hfirst := hfault hopen hread
    have hsecond := hfault hother hagain
    rw [hcontents] at hsecond
    exact hfirst.unique hsecond

/-- The lines `{}`, `{'a': 1}`, a blank one, `[2]` and `{`, read from the
second one on.  In two batches the read fails in the second of them, at the
record `[2]`, and in one batch it fails at the same record. -/
theorem read_names_first_malformed_second_batch :
    let bytes := [123, 125, 10, 123, 39, 97, 39, 58, 32, 49, 125, 10, 10, 91,
      50, 93, 10, 123]
    let options : ReadOptions :=
      { ReadOptions.default with
        byteRange := some ⟨1, 99⟩
        tuning := ⟨2, 0, 1, 1, 10⟩ }
    let single := { options with tuning := Tuning.default }
    let message := "expected a JSON object, found an array"
    StrictLines [.host bytes] options ⟨[.host bytes], .none⟩ ∧
      StrictLines [.host bytes] single ⟨[.host bytes], .none⟩ ∧
      read [.host bytes] options = .error (.malformedRecord 1 message) ∧
      FirstMalformed (options.requestedRecords [bytes]) 1 message ∧
      ∃ record text,
        read [.host bytes] single = .error (.malformedRecord record text) ∧
        1 = record ∧ message = text := by
  intro bytes options single message
  have hready : SourceSet.Ready 1 ⟨[.host bytes], .none⟩ := by
    refine ⟨?_, ?_, by decide⟩
    · rintro source (_ | ⟨_, ⟨⟩⟩)
      exact .host _
    · rintro source (_ | ⟨_, ⟨⟩⟩)
      rfl
  have hopen : StrictLines [.host bytes] options ⟨[.host bytes], .none⟩ :=
    ⟨rfl, rfl, rfl, hready,
      ⟨by decide, by decide, by decide, by decide⟩⟩
  have hsingle : StrictLines [.host bytes] single ⟨[.host bytes], .none⟩ :=
    ⟨rfl, rfl, rfl, hready,
      ⟨by decide, by decide, by decide, by decide⟩⟩
  have hmalformed : ∀ options : ReadOptions,
      ((read [.host bytes] options).mapError Failure.record?).map
          (fun _ => ()) = .error (some (1, message)) →
      read [.host bytes] options =
        .error (.malformedRecord 1 message) := by
    intro options hfailed
    cases hread : read [.host bytes] options with
    | ok outcome =>
        rw [hread] at hfailed
        cases hfailed
    | error failure =>
        rw [hread] at hfailed
        rw [Failure.eq_of_record? (Except.error.inj hfailed)]
  have hread := hmalformed options (by decide +kernel)
  have hother := hmalformed single (by decide +kernel)
  obtain ⟨hfirst, -, hsame⟩ := read_names_first_malformed hopen
  exact ⟨hopen, hsingle, hread, hfirst 1 message hread, 1, message, hother,
    hsame _ _ hsingle _ _ _ _ hread hother⟩

end JsonIntake
