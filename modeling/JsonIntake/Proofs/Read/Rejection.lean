import JsonIntake.Proofs.Read.Records
import JsonIntake.Proofs.Stream.Caches

/-!
# Rejected batches

A batch may be rejected because its buffer would be too large, while it is
ingested or tokenized, or because its table does not fit the columns of the
tables before it.  The assembler is replaced only after all that, so a
rejected batch leaves it as it was.  What it does leave behind are sources
that know more of their contents, the calls of the tokenizer, and counters if
its table was counted.  Batches that are offered later get the same answers as
if the rejected one had never been offered, but for the numbers of malformed
records, in which the rows of the rejected batch are counted.
-/

namespace JsonIntake

/-! ## Failures that name no record -/

theorem record?_of_decompress {kind : Compression} {region : List UInt8}
    {failure : Failure} (hfailed : decompress kind region = .error failure) :
    failure.record? = none := by
  have hcorrupt : ∀ content : Option (List UInt8),
      kind.orCorrupt content = .error failure → failure.record? = none := by
    intro content hcontent
    cases content with
    | some bytes => cases hcontent
    | none => cases hcontent; rfl
  cases kind with
  | none => cases hfailed; rfl
  | auto => cases hfailed; rfl
  | gzip => exact hcorrupt _ hfailed
  | snappy => exact hcorrupt _ hfailed
  | zstd => exact hcorrupt _ hfailed
  | bzip2 => exact hcorrupt _ hfailed
  | xz => exact hcorrupt _ hfailed
  | zip =>
      unfold decompress at hfailed
      cases hentry : Zip.firstEntry region with
      | ok bytes => rw [hentry] at hfailed; cases hfailed
      | error fault => rw [hentry] at hfailed; cases hfailed; rfl

theorem Source.record?_of_content? {source : Source} {failure : Failure}
    (hbroken : source.content? = .error failure) : failure.record? = none := by
  cases source with
  | file source => cases hbroken
  | host bytes => cases hbroken
  | device buffer => cases hbroken
  | compressed source => exact record?_of_decompress hbroken

/-- A place that is too large for a word stays so. -/
theorem Failure.afterRows_add (failure : Failure) (rows extra : Nat) :
    failure.afterRows (rows + extra) =
      (failure.afterRows rows).afterRows extra := by
  cases failure with
  | malformedRecord record message =>
      dsimp only [Failure.afterRows]
      rcases Nat.lt_or_ge (record + rows) Size.limit with hword | hlarge
      · have hplace : Size.add? record (rows + extra) =
            Size.add? (record + rows) extra := by
          rw [Size.add?, Size.add?, Nat.add_assoc]
        simp only [Size.add?_of_lt hword, hplace]
      · have hlarger : Size.limit ≤ record + (rows + extra) := by omega
        simp only [Size.add?_eq_none_iff.mpr hlarge,
          Size.add?_eq_none_iff.mpr hlarger]
  | _ => rfl

/-- A table that conforms is put together from its own columns, one for each
field, so it has what a table needs. -/
theorem Table.columns_of_conform {table conformed : Table}
    {schema widened : List Field}
    (hconform : table.conform schema = .ok (conformed, widened)) :
    conformed.rows = table.rows ∧
      conformed.columns.length = schema.length ∧
      conformed.columns ⊆ table.columns := by
  obtain ⟨-, pairs, hpairs, hresult⟩ :=
    Assembler.conform_eq_ok_iff.mp hconform
  have hmatch := Except.mapM_eq_ok.mp hpairs
  cases hresult
  refine ⟨rfl, ?_, ?_⟩
  · simp [hmatch.length_eq]
  · intro column hcolumn
    obtain ⟨pair, hpair, rfl⟩ := List.mem_map.mp hcolumn
    obtain ⟨field, -, hfield⟩ := forall₂_exists_left hmatch hpair
    unfold conformField at hfield
    split at hfield
    · cases hfield
    · next found hfound =>
        split at hfield
        · cases hfield
          exact List.mem_of_find?_eq_some hfound
        · cases hfield

/-! ## Tokenizers without a memory -/

/-- A tokenizer that neither remembers its calls nor sees a delimiter that an
estimate has put at the end of a batch. -/
def BatchTokenizer.Steady (tokenizer : BatchTokenizer)
    (options : ReadOptions) (exact : Prop) : Prop :=
  ∀ call again buffer full,
    SameBytes exact options.delimiter buffer full →
    tokenizer call options.parseOptions (options.prepare buffer) =
      tokenizer again options.parseOptions (options.prepare full)

/-- The ordinary tokenizer drops an empty line at the end. -/
theorem steady_defaultTokenizer {options : ReadOptions} {exact : Prop}
    (hmode : options.lines = true ∨ exact) :
    BatchTokenizer.Steady defaultTokenizer options exact := by
  intro call again buffer full hsame
  rcases hsame with rfl | ⟨hnot, hpush⟩
  · rfl
  have hlines : options.lines = true := hmode.resolve_right hnot
  have hrecords : options.recordsOf buffer.toList =
      options.recordsOf full.toList := by
    rcases hpush with rfl | rfl <;>
      simp only [Buffer.toList_push,
        options.linewise_recordsOf.concat_delimiter]
  rw [← options.recordLines_prepare hlines,
    ← options.recordLines_prepare hlines] at hrecords
  have hparse : options.parseOptions.lines = true := hlines
  have hdelimiter : options.parseOptions.delimiter = options.delimiter := rfl
  simp only [defaultTokenizer, tokenize, hparse, if_true, RecordList.ofLines,
    hdelimiter, hrecords]

namespace ReadState

variable {tokenizer : BatchTokenizer} {options : ReadOptions}
  {batch : Batch} {state after : ReadState} {failure : Failure}

/-- How a batch is rejected, and what it leaves behind. -/
inductive Rejects (options : ReadOptions) (batch : Batch)
    (state : ReadState) : Failure → ReadState → Prop where
  | buffer {failure : Failure}
      (hbuffer : bufferFor state.set batch.range = .error failure) :
      Rejects options batch state failure state
  | ingestion {failure : Failure}
      (hingest : (ingest .empty state.set batch.range
        options.delimiter).count = .error failure) :
      Rejects options batch state failure
        { state with
          set := (ingest .empty state.set batch.range options.delimiter).set }
  | total {failure : Failure}
      (htotal : (ingest .empty state.set batch.range
        options.delimiter).set.totalSize = .error failure) :
      Rejects options batch state failure
        { state with
          set := (ingest .empty state.set batch.range options.delimiter).set }
  | tokenizer {failure : Failure} {call : TokenizerCall}
      (hcall : call.result = .error failure) :
      Rejects options batch state (failure.afterRows state.stats.rows)
        { state with
          set := (ingest .empty state.set batch.range options.delimiter).set
          calls := call :: state.calls }
  | counters (call : TokenizerCall) :
      Rejects options batch state .overflow
        { state with
          set := (ingest .empty state.set batch.range options.delimiter).set
          calls := call :: state.calls }
  | mismatch {table : Table} {conflict : SchemaConflict}
      (hpush : state.assembler.push batch.index table =
        .error (.schemaMismatch batch.index conflict))
      {stats : ReadStats} (hrows : state.stats.rows ≤ stats.rows)
      (call : TokenizerCall) :
      Rejects options batch state (.schemaMismatch batch.index conflict)
        { state with
          set := (ingest .empty state.set batch.range options.delimiter).set
          stats
          calls := call :: state.calls }

theorem rejects_of_process
    (hrejected : state.process tokenizer options batch =
      (.error failure, after)) :
    Rejects options batch state failure after := by
  rw [process_eq] at hrejected
  dsimp only at hrejected
  split at hrejected
  · next hbuffer =>
      cases hrejected
      exact .buffer hbuffer
  split at hrejected
  · next hingest =>
      cases hrejected
      exact .ingestion hingest
  · next htotal =>
      cases hrejected
      exact .total htotal
  unfold addBuffer at hrejected
  dsimp only at hrejected
  split at hrejected
  · next hanswer =>
      cases hrejected
      exact .tokenizer hanswer
  split at hrejected
  · cases hrejected
    exact .counters _
  next stats hcount =>
    have hrows : state.stats.rows ≤ stats.rows := by
      rw [ReadStats.recordBatch?_eq_some hcount]
      exact Nat.le_add_right _ _
    split at hrejected
    · next hpush =>
        cases hrejected
        obtain ⟨conflict, rfl⟩ := Assembler.exists_conflict_of_push hpush
        exact .mismatch hpush hrows _
    · cases hrejected

/-! ## Later batches -/

/-- Offer batches one after the other, also behind rejected ones. -/
def offerAll (tokenizer : BatchTokenizer) (options : ReadOptions) :
    List Batch → ReadState → List (Except Failure Unit) × ReadState
  | [], state => ([], state)
  | batch :: rest, state =>
    let (answer, state) := state.process tokenizer options batch
    let (answers, state) := offerAll tokenizer options rest state
    (answer :: answers, state)

/-- All sources, by their sizes and by their contents, fit into one buffer. -/
def HasRoom (origins : List Source) : Prop :=
  (origins.map Source.weight).sum + origins.length ≤ Buffer.maxCapacity

instance (origins : List Source) : Decidable (HasRoom origins) :=
  Nat.decLe _ _

theorem sum_lt_of_hasRoom {origins : List Source}
    (hroom : HasRoom origins) :
    (origins.map Source.weight).sum < Size.limit := by
  have hsmall : Buffer.maxCapacity < Size.limit := by decide
  unfold HasRoom at hroom
  omega

theorem fits_of_hasRoom {origins : List Source} {set : SourceSet}
    (hroom : HasRoom origins) (hused : Source.AllUsed origins set.sources) :
    set.Fits :=
  Nat.lt_of_le_of_lt (Source.sum_weight_le_of_allUsed hused)
    (sum_lt_of_hasRoom hroom)

theorem bufferFor_of_hasRoom {origins : List Source} {set : SourceSet}
    (hroom : HasRoom origins) (hused : Source.AllUsed origins set.sources)
    (range : ByteRange) : bufferFor set range = .ok .empty := by
  have hweight := Source.sum_weight_le_of_allUsed hused
  have hlength : set.length = origins.length := hused.length_eq.symm
  have hsizes : set.sizes.sum ≤ (set.sources.map Source.weight).sum :=
    Source.sum_size_le set.sources
  rw [bufferFor_eq, if_pos (fits_of_hasRoom hroom hused).sizes_lt, if_pos]
  unfold HasRoom at hroom
  unfold ingestCapacity Size.addSaturating
  omega

/-- Two reads that hold the same tables.  They may know more or less of their
sources, and one of them may have counted `extra` rows more. -/
structure Agrees (origins : List Source) (extra : Nat)
    (one other : ReadState) : Prop where
  ones : Source.AllUsed origins one.set.sources
  others : Source.AllUsed origins other.set.sources
  assembler_eq : one.assembler = other.assembler
  rows : one.stats.rows = other.stats.rows + extra

variable {origins : List Source} {extra : Nat} {one other : ReadState}

theorem Agrees.addBuffer (hagree : Agrees origins extra one other)
    {parse : ParseOptions} {buffer full : Buffer}
    (hanswer : tokenizer one.calls.length parse buffer =
      tokenizer other.calls.length parse full)
    {index covered again ingested filled : Nat}
    (hone : (one.addBuffer tokenizer parse index covered ingested buffer).1 ≠
      .error .overflow)
    (hother : (other.addBuffer tokenizer parse index again filled full).1 ≠
      .error .overflow) :
    (one.addBuffer tokenizer parse index covered ingested buffer).1 =
        (other.addBuffer tokenizer parse index again filled full).1.mapError
          (Failure.afterRows extra) ∧
      Agrees origins extra
        (one.addBuffer tokenizer parse index covered ingested buffer).2
        (other.addBuffer tokenizer parse index again filled full).2 := by
  obtain ⟨hones, hothers, hassembler, hrows⟩ := hagree
  unfold ReadState.addBuffer at hone hother ⊢
  dsimp only at hone hother ⊢
  rw [hanswer, hassembler] at hone ⊢
  cases htokenize : tokenizer other.calls.length parse full with
  | error failure =>
      refine ⟨?_, hones, hothers, rfl, hrows⟩
      rw [hrows]
      exact congrArg _ (Failure.afterRows_add failure _ _)
  | ok fragment =>
      rw [htokenize] at hone hother
      dsimp only at hone hother ⊢
      -- Both have counted the batch, or else one of them has no answer.
      cases hcount : one.stats.recordBatch? covered ingested buffer.size
          fragment.table.rows fragment.malformed with
      | none => exact absurd (by rw [hcount]) hone
      | some stats =>
          cases hcount' : other.stats.recordBatch? again filled full.size
              fragment.table.rows fragment.malformed with
          | none => exact absurd (by rw [hcount']) hother
          | some stats' =>
              have hcounted : stats.rows = stats'.rows + extra := by
                rw [ReadStats.recordBatch?_eq_some hcount,
                  ReadStats.recordBatch?_eq_some hcount']
                dsimp only
                omega
              dsimp only
              cases hpush : other.assembler.push index fragment.table with
              | error failure =>
                  obtain ⟨conflict, rfl⟩ :=
                    Assembler.exists_conflict_of_push hpush
                  exact ⟨rfl, hones, hothers, rfl, hcounted⟩
              | ok assembler => exact ⟨rfl, hones, hothers, rfl, hcounted⟩

/-- One more batch gets the same answer from both, unless a counter is full, and
they still agree. -/
theorem Agrees.process (hagree : Agrees origins extra one other)
    (hroom : HasRoom origins)
    (hsteady : tokenizer.Steady options
      (∀ origin ∈ origins, origin.isSizeExact = true))
    (hone : (one.process tokenizer options batch).1 ≠ .error .overflow)
    (hother : (other.process tokenizer options batch).1 ≠ .error .overflow) :
    (one.process tokenizer options batch).1 =
        (other.process tokenizer options batch).1.mapError
          (Failure.afterRows extra) ∧
      Agrees origins extra (one.process tokenizer options batch).2
        (other.process tokenizer options batch).2 := by
  obtain ⟨hones, hothers, hassembler, hrows⟩ := hagree
  obtain ⟨hones', hothers', houtcome⟩ :=
    SourceSet.ingest_agree _ hones hothers (sum_lt_of_hasRoom hroom) id .empty
      batch.range options.delimiter
  have htotal := (fits_of_hasRoom hroom hones').totalSize_eq
  have htotal' := (fits_of_hasRoom hroom hothers').totalSize_eq
  simp only [process_eq, bufferFor_of_hasRoom hroom hones,
    bufferFor_of_hasRoom hroom hothers, htotal, htotal'] at hone hother ⊢
  rcases houtcome with ⟨failure, hcause, hfailed, hfailed'⟩ |
    ⟨hcount, hcount', hsame⟩
  · simp only [hfailed, hfailed']
    have hrecord : failure.record? = none := by
      rcases hcause with ⟨origin, -, hbroken⟩ | ⟨reached, rfl⟩
      · exact Source.record?_of_content? hbroken
      · rfl
    refine ⟨?_, hones', hothers', hassembler, hrows⟩
    simp only [Except.mapError, Failure.afterRows_eq hrecord]
  · simp only [hcount, hcount'] at hone hother ⊢
    have hnext : Agrees origins extra
        { one with
          set := (ingest .empty one.set batch.range options.delimiter).set }
        { other with
          set :=
            (ingest .empty other.set batch.range options.delimiter).set } :=
      ⟨hones', hothers', hassembler, hrows⟩
    exact hnext.addBuffer (hsteady _ _ _ _ hsame) hone hother

theorem Agrees.offerAll (hagree : Agrees origins extra one other)
    (hroom : HasRoom origins)
    (hsteady : tokenizer.Steady options
      (∀ origin ∈ origins, origin.isSizeExact = true))
    {batches : List Batch}
    (hone : .error .overflow ∉ (one.offerAll tokenizer options batches).1)
    (hother : .error .overflow ∉
      (other.offerAll tokenizer options batches).1) :
    (one.offerAll tokenizer options batches).1 =
        (other.offerAll tokenizer options batches).1.map
          (Except.mapError (Failure.afterRows extra)) ∧
      Agrees origins extra (one.offerAll tokenizer options batches).2
        (other.offerAll tokenizer options batches).2 := by
  induction batches generalizing one other with
  | nil => exact ⟨rfl, hagree⟩
  | cons batch rest ih =>
      obtain ⟨hfirst, hrest⟩ := not_or.mp (mt List.mem_cons.mpr hone)
      obtain ⟨hfirst', hrest'⟩ := not_or.mp (mt List.mem_cons.mpr hother)
      obtain ⟨hanswer, hnext⟩ :=
        hagree.process hroom hsteady (Ne.symm hfirst) (Ne.symm hfirst')
      obtain ⟨hanswers, hlast⟩ := ih hnext hrest hrest'
      exact ⟨congrArg₂ List.cons hanswer hanswers, hlast⟩

theorem Rejects.assembler_eq
    (hrejects : Rejects options batch state failure after) :
    after.assembler = state.assembler := by
  cases hrejects <;> rfl

theorem Rejects.stats_eq
    (hrejects : Rejects options batch state failure after) :
    after.stats = state.stats ∨
      ∃ conflict, failure = .schemaMismatch batch.index conflict := by
  cases hrejects with
  | buffer hbuffer => exact .inl rfl
  | ingestion hingest => exact .inl rfl
  | total htotal => exact .inl rfl
  | tokenizer hcall => exact .inl rfl
  | counters call => exact .inl rfl
  | mismatch hpush hrows call => exact .inr ⟨_, rfl⟩

theorem Rejects.rows_le
    (hrejects : Rejects options batch state failure after) :
    state.stats.rows ≤ after.stats.rows := by
  cases hrejects with
  | mismatch hpush hrows call => exact hrows
  | _ => exact Nat.le_refl _

/-- A rejected batch only makes more known of the sources. -/
theorem Rejects.allUsed
    (hrejects : Rejects options batch state failure after)
    (hopened : ∀ source ∈ state.set.sources, source.Opened 1)
    (hroom : HasRoom state.set.sources) :
    Source.AllUsed state.set.sources after.set.sources := by
  have hsame := Source.allUsed_refl hopened
  have hingested := (SourceSet.ingest_agree False hsame hsame
    (sum_lt_of_hasRoom hroom) nofun .empty batch.range options.delimiter).1
  cases hrejects with
  | buffer hbuffer => exact hsame
  | _ => exact hingested

end ReadState

/-- A rejected batch leaves the assembler as it was, and counts rows only if
its table has come as far as the assembler.  There it does not fail on its
columns once they conform, since they are its own, one for each field.  In the
same surroundings, later batches get the answers and the table that they would
have got without it.  Where the tokenizer is steady, even the surroundings do
not matter: as long as no counter is full, later batches get the same answers
as if the batch had never been offered, with the rows that it has counted in
front of the numbers of malformed records, and they leave the same
assembler. -/
theorem process_error {tokenizer : BatchTokenizer} {options : ReadOptions}
    {batch : Batch} {state after : ReadState} {failure : Failure}
    (hrejected : state.process tokenizer options batch =
      (.error failure, after)) :
    let extra := after.stats.rows - state.stats.rows
    after.assembler = state.assembler ∧
      (after.stats = state.stats ∨
        ∃ conflict, failure = .schemaMismatch batch.index conflict) ∧
      (∀ (table conformed : Table) schema widened,
        state.assembler.schema = some schema →
        table.conform schema = .ok (conformed, widened) →
        conformed.rows = table.rows ∧
          conformed.columns.length = schema.length ∧
          conformed.columns ⊆ table.columns) ∧
      (∀ set stats calls later,
        ReadState.offerAll tokenizer options later
            ⟨set, after.assembler, stats, calls⟩ =
          ReadState.offerAll tokenizer options later
            ⟨set, state.assembler, stats, calls⟩) ∧
      ((∀ source ∈ state.set.sources, source.Opened 1) →
        ReadState.HasRoom state.set.sources →
        tokenizer.Steady options state.set.Exact → ∀ later,
          .error .overflow ∉ (after.offerAll tokenizer options later).1 →
          .error .overflow ∉ (state.offerAll tokenizer options later).1 →
          (after.offerAll tokenizer options later).1 =
              (state.offerAll tokenizer options later).1.map
                (Except.mapError (Failure.afterRows extra)) ∧
            (after.offerAll tokenizer options later).2.assembler =
              (state.offerAll tokenizer options later).2.assembler) := by
  intro extra
  have hrejects := ReadState.rejects_of_process hrejected
  have hassembler := hrejects.assembler_eq
  refine ⟨hassembler, hrejects.stats_eq,
    fun _ _ _ _ _ => Table.columns_of_conform, ?_, ?_⟩
  · intro set stats calls later
    rw [hassembler]
  · intro hopened hroom hsteady later hcounted hcounted'
    have hagree :
        ReadState.Agrees state.set.sources extra after state :=
      { ones := hrejects.allUsed hopened hroom
        others := Source.allUsed_refl hopened
        assembler_eq := hassembler
        rows := (Nat.add_sub_cancel' hrejects.rows_le).symm }
    obtain ⟨hanswers, hlast⟩ :=
      hagree.offerAll hroom hsteady hcounted hcounted'
    exact ⟨hanswers, hlast.assembler_eq⟩

/-- The lines `{"a":1}`, `{"b":2}` and `{"a":3}` in three sources, the second
of them compressed.  The batch of the second one is rejected.  It is counted
as a row and its size is known now, and the third one is read as it would have
been at once. -/
theorem process_error_missing_column :
    let bytes := fun name digit : UInt8 =>
      [123, 34, name, 34, 58, digit, 125, 10]
    let block : List UInt8 := [8, 28, 123, 34, 98, 34, 58, 50, 125, 10]
    let start : ReadState :=
      { set :=
          ⟨[.host (bytes 97 49),
            .compressed ⟨block, .snappy, 40, false, none⟩,
            .host (bytes 97 51)], .none⟩
        assembler := .empty
        stats := .empty
        calls := [] }
    let offer := fun (state : ReadState) (index : Nat) =>
      state.process defaultTokenizer .default ⟨index, ⟨8 * index, 8⟩, []⟩
    let state := (offer start 0).2
    let rejected := offer state 1
    let later : List Batch := [⟨2, ⟨16, 8⟩, []⟩]
    (∃ conflict, rejected.1 = .error (.schemaMismatch 1 conflict)) ∧
      rejected.2.set.sizes = [8, 8, 8] ∧ rejected.2.stats.rows = 2 ∧
      rejected.2.assembler = state.assembler ∧
      (rejected.2.offerAll defaultTokenizer .default later).2.assembler =
        (state.offerAll defaultTokenizer .default later).2.assembler ∧
      (state.offerAll defaultTokenizer .default later).2.stats.rows = 2 := by
  intro bytes block start offer state rejected later
  have hnone : rejected.1.toOption = none := by
    decide +kernel
  have hrows : rejected.2.stats.rows = 2 := by
    decide +kernel
  have hbefore : state.stats.rows = 1 := by
    decide +kernel
  have hsources : state.set.sources = start.set.sources := by
    decide +kernel
  obtain ⟨failure, after, hrejected⟩ :
      ∃ failure after, rejected = (.error failure, after) := by
    generalize rejected = outcome at hnone
    obtain ⟨answer, after⟩ := outcome
    cases answer with
    | ok done => cases hnone
    | error failure => exact ⟨failure, after, rfl⟩
  obtain ⟨hassembler, hstats, -, -, hlater⟩ := process_error hrejected
  have hafter : after = rejected.2 := by
    rw [hrejected]
  rw [hafter] at hassembler hstats hlater
  obtain ⟨conflict, rfl⟩ : ∃ conflict,
      failure = .schemaMismatch 1 conflict := by
    apply hstats.resolve_left
    intro hsame
    rw [hsame, hbefore] at hrows
    exact absurd hrows (by decide)
  have hopened : ∀ source ∈ state.set.sources, source.Opened 1 := by
    rw [hsources]
    rintro source (_ | ⟨_, _ | ⟨_, _ | ⟨_, ⟨⟩⟩⟩⟩)
    · exact .host _
    · have hmake : CompressedSource.make block .snappy 4 =
          .ok ⟨block, .snappy, 40, false, none⟩ := rfl
      exact .compressed (by decide : 1 ≤ 4) hmake
    · exact .host _
  have hroom : ReadState.HasRoom state.set.sources := by
    rw [hsources]
    decide +kernel
  have hcounted : ∀ {answers : List (Except Failure Unit)},
      answers.map Except.toOption = [some ()] →
      .error .overflow ∉ answers := by
    intro answers hanswers hmem
    have hnone := List.mem_map_of_mem (f := Except.toOption) hmem
    rw [hanswers] at hnone
    exact absurd hnone (by decide)
  obtain ⟨-, hlast⟩ :=
    hlater hopened hroom (steady_defaultTokenizer (.inl rfl)) later
      (hcounted (by decide +kernel)) (hcounted (by decide +kernel))
  refine ⟨⟨conflict, ?_⟩, ?_, hrows, hassembler, hlast, ?_⟩
  · rw [hrejected]
  · decide +kernel
  · decide +kernel

end JsonIntake
