import JsonIntake.Alignment
import JsonIntake.Ingest
import JsonIntake.Quote
import JsonIntake.Stats
import JsonIntake.Table.Assembly
import JsonIntake.Tokenizer

/-!
# Reading

A read plans its batches and runs them in order: each one is ingested,
normalized and tokenized, and its table joins those before it.  The first
failure ends the read.
-/

namespace JsonIntake

/-- What turns a batch into a table, given how many calls came before. -/
abbrev BatchTokenizer : Type :=
  Nat → ParseOptions → Buffer → Except Failure TableFragment

/-- The tokenizer of every batch of an ordinary read. -/
def defaultTokenizer : BatchTokenizer := fun _ options buffer =>
  tokenize options buffer

/-- One answer of a tokenizer that has been laid down in advance. -/
inductive TokenizerStep where
  | standard
  /-- Tokenize under other hints. -/
  | withHints (hints : List Hint)
  | fail (failure : Failure)

/-- A tokenizer that answers its calls in the order of a list, and in the
ordinary way after that. -/
def scriptedTokenizer (steps : List TokenizerStep) : BatchTokenizer :=
  fun call options buffer =>
    match steps[call]? with
    | none => tokenize options buffer
    | some .standard => tokenize options buffer
    | some (.withHints hints) => tokenize { options with hints } buffer
    | some (.fail failure) => .error failure

/-- What a tokenizer was given and what it answered. -/
structure TokenizerCall where
  input : Buffer
  result : Except Failure TableFragment

/-- A read in progress. -/
structure ReadState where
  set : SourceSet
  assembler : Assembler
  stats : ReadStats
  /-- The calls of the tokenizer, last one first. -/
  calls : List TokenizerCall

/-- Records of a batch are counted from the front of the read. -/
def Failure.afterRows (rows : Nat) : Failure → Failure
  | .malformedRecord record message =>
    match Size.add? record rows with
    | none => .overflow
    | some place => .malformedRecord place message
  | other => other

namespace ReadState

/-- Hand a batch to the tokenizer and add its table.  A table that does not
fit has been counted all the same. -/
def addBuffer (tokenizer : BatchTokenizer) (parse : ParseOptions)
    (index covered ingested : Nat) (buffer : Buffer) (state : ReadState) :
    Except Failure Unit × ReadState :=
  let result := tokenizer state.calls.length parse buffer
  let state := { state with calls := ⟨buffer, result⟩ :: state.calls }
  match result with
  | .error failure => (.error (failure.afterRows state.stats.rows), state)
  | .ok fragment =>
    match state.stats.recordBatch? covered ingested buffer.size
        fragment.table.rows fragment.malformed with
    | none => (.error .overflow, state)
    | some stats =>
      let state := { state with stats }
      match state.assembler.push index fragment.table with
      | .error failure => (.error failure, state)
      | .ok assembler => (.ok (), { state with assembler })

/-- An empty buffer with room for a batch. -/
def bufferFor (set : SourceSet) (range : ByteRange) :
    Except Failure Buffer := do
  let total ← set.totalSize
  let capacity := ingestCapacity (min range.size total) set.length
  match Buffer.withCapacity? capacity with
  | none => .error (.capacityExceeded capacity)
  | some buffer => .ok buffer

/-- Run one batch. -/
def process (tokenizer : BatchTokenizer) (options : ReadOptions)
    (batch : Batch) (state : ReadState) :
    Except Failure Unit × ReadState :=
  match bufferFor state.set batch.range with
  | .error failure => (.error failure, state)
  | .ok buffer =>
    let ingested := ingest buffer state.set batch.range options.delimiter
    let state := { state with set := ingested.set }
    match ingested.count, state.set.totalSize with
    | .error failure, _ => (.error failure, state)
    | .ok _, .error failure => (.error failure, state)
    | .ok count, .ok total =>
      let covered := min batch.range.stop total - batch.range.offset
      let delimiter :=
        if options.lines then some options.delimiter else none
      let buffer :=
        if options.normalize then
          (normalizeQuotes delimiter ingested.buffer).output
        else ingested.buffer
      state.addBuffer tokenizer options.parseOptions batch.index covered
        count buffer

/-- Run batches up to the first failure. -/
def processAll (tokenizer : BatchTokenizer) (options : ReadOptions) :
    List Batch → ReadState → Except Failure Unit × ReadState
  | [], state => (.ok (), state)
  | batch :: rest, state =>
    match state.process tokenizer options batch with
    | (.error failure, state) => (.error failure, state)
    | (.ok (), state) => processAll tokenizer options rest state

end ReadState

/-- The table of a read and what is known about it. -/
structure ReadTable where
  table : Table
  stats : ReadStats

/-- The outcome of a read, and the calls of the tokenizer in order. -/
structure ReadOutcome where
  result : Except Failure ReadTable
  calls : List TokenizerCall

/-- The part of the stream that is to be read. -/
def requestedRange (set : SourceSet) (options : ReadOptions) :
    Except Failure ByteRange × SourceSet :=
  match options.byteRange with
  | none => (.ok (ByteRange.toEnd 0), set)
  | some requested =>
    if options.lines then set.align requested options.delimiter
    else (.error (.invalidOptions .rangeNeedsLines), set)

/-- Plan and run the batches of a set of sources. -/
def readSet (tokenizer : BatchTokenizer) (set : SourceSet)
    (options : ReadOptions) : ReadOutcome :=
  match requestedRange set options with
  | (.error failure, _) => ⟨.error failure, []⟩
  | (.ok range, set) =>
    match set.totalSize with
    | .error failure => ⟨.error failure, []⟩
    | .ok estimated =>
      let stats :=
        { ReadStats.empty with
          sources := set.length
          estimatedBytes := estimated }
      match Plan.make set range options.delimiter options.lines
          options.tuning with
      | (.error failure, _) => ⟨.error failure, []⟩
      | (.ok plan, set) =>
        let start : ReadState :=
          { set
            assembler := .empty
            stats := { stats with shiftedCuts := plan.shiftedCuts }
            calls := [] }
        let (result, state) :=
          start.processAll tokenizer options plan.batches
        ⟨result.map fun () => ⟨state.assembler.finish, state.stats⟩,
          state.calls.reverse⟩

/-- Read sources with a tokenizer. -/
def readWith (tokenizer : BatchTokenizer) (sources : List Source)
    (options : ReadOptions) : ReadOutcome :=
  match SourceSet.make sources options.compression
      options.tuning.compressionRatio with
  | .error failure => ⟨.error failure, []⟩
  | .ok set => readSet tokenizer set options

/-- Read sources. -/
def read (sources : List Source) (options : ReadOptions) :
    Except Failure ReadTable :=
  (readWith defaultTokenizer sources options).result

end JsonIntake
