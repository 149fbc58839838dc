import JsonIntake.Proofs.Records.Lines

/-!
# Records are normalized apart

Bytes without the delimiter are read as if there were none.  A delimiter
leads out of every string and writes what was held back, as the end of the
bytes does.  So a run over records with delimiters between them is one run
after the other, and what is wrong with one record stays in it.
-/

namespace JsonIntake

/-- Two bytes are written that need not have been read: the double quote and
the backslash in front of one. -/
theorem Emission.not_mem_bytes {delimiter byte : UInt8} (emission : Emission)
    (hbyte : delimiter ≠ byte) (hquote : delimiter ≠ 34)
    (hbackslash : delimiter ≠ 92) : delimiter ∉ emission.bytes byte := by
  cases emission <;> simp [Emission.bytes, hbyte, hquote, hbackslash]

namespace QuoteState

variable {delimiter byte : UInt8} {bytes : List UInt8}

theorem onByte_of_ne (state : QuoteState) (hbyte : byte ≠ delimiter) :
    state.onByte (some delimiter) byte = state.onByte none byte := by
  rw [onByte, onByte, ByteClass.ofByte_of_ne (by simpa using hbyte.symm)]

theorem breaksAt_of_ne (state : QuoteState) (hbyte : byte ≠ delimiter) :
    state.breaksAt (some delimiter) byte = false := by
  simp [breaksAt, ByteClass.ofByte_eq_delimiter_iff, hbyte.symm]

theorem after_of_not_mem (state : QuoteState) (hfree : delimiter ∉ bytes) :
    state.after (some delimiter) bytes = state.after none bytes := by
  induction bytes generalizing state with
  | nil => rfl
  | cons byte rest ih =>
      rw [List.mem_cons, not_or] at hfree
      rw [after_cons, after_cons, onByte_of_ne state (Ne.symm hfree.1),
        ih _ hfree.2]

theorem written_of_not_mem (state : QuoteState) (hfree : delimiter ∉ bytes) :
    state.written (some delimiter) bytes = state.written none bytes := by
  induction bytes generalizing state with
  | nil => rfl
  | cons byte rest ih =>
      rw [List.mem_cons, not_or] at hfree
      rw [written_cons, written_cons,
        onByte_of_ne state (Ne.symm hfree.1), ih _ hfree.2]

theorem breaks_of_not_mem (state : QuoteState) (hfree : delimiter ∉ bytes) :
    state.breaks (some delimiter) bytes = 0 := by
  induction bytes generalizing state with
  | nil => rfl
  | cons byte rest ih =>
      rw [List.mem_cons, not_or] at hfree
      rw [breaks, breaksAt_of_ne state (Ne.symm hfree.1), ih _ hfree.2]
      rfl

theorem not_mem_written (state : QuoteState) (hquote : delimiter ≠ 34)
    (hbackslash : delimiter ≠ 92) (hfree : delimiter ∉ bytes) :
    delimiter ∉ state.written none bytes := by
  induction bytes generalizing state with
  | nil => exact List.not_mem_nil
  | cons byte rest ih =>
      rw [List.mem_cons, not_or] at hfree
      rw [written_cons, List.mem_append, not_or]
      exact ⟨Emission.not_mem_bytes _ hfree.1 hquote hbackslash, ih _ hfree.2⟩

theorem not_mem_pending (state : QuoteState) (hbackslash : delimiter ≠ 92) :
    delimiter ∉ state.pending := by
  cases state <;> simp [pending, hbackslash]

end QuoteState

/-- The run over one record by itself. -/
def normalizeRecord (record : List UInt8) : QuoteRun :=
  normalizeQuotes none (.ofList record)

section Record

variable {delimiter : UInt8} {record : List UInt8}

theorem normalizeRecord_output (record : List UInt8) :
    (normalizeRecord record).output.toList = normalText none record := by
  rw [normalizeRecord, normalizeQuotes_output, Buffer.toList_ofList]

theorem normalizeRecord_state (record : List UInt8) :
    (normalizeRecord record).state =
      QuoteState.outsideString.after none record := by
  rw [normalizeRecord, normalizeQuotes, transduce_state,
    Buffer.toList_ofList]

theorem normalText_of_not_mem (hfree : delimiter ∉ record) :
    normalText (some delimiter) record = normalText none record := by
  rw [normalText, normalText, QuoteState.after_of_not_mem _ hfree,
    QuoteState.written_of_not_mem _ hfree]

theorem not_mem_normalText (hquote : delimiter ≠ 34)
    (hbackslash : delimiter ≠ 92) (hfree : delimiter ∉ record) :
    delimiter ∉ normalText none record := by
  rw [normalText, List.mem_append, not_or]
  exact ⟨QuoteState.not_mem_written _ hquote hbackslash hfree,
    QuoteState.not_mem_pending _ hbackslash⟩

end Record

/-! ## Records with delimiters between them -/

section Records

variable {delimiter : UInt8} {records : List (List UInt8)}

theorem normalText_intercalate
    (hfree : ∀ record ∈ records, delimiter ∉ record) :
    normalText (some delimiter) ([delimiter].intercalate records) =
      [delimiter].intercalate (records.map (normalText none)) := by
  induction records with
  | nil => simp
  | cons record rest ih =>
      rw [List.forall_mem_cons] at hfree
      have hfirst := normalText_of_not_mem hfree.1
      cases rest with
      | nil => simpa using hfirst
      | cons next rest =>
          rw [intercalate_cons_cons, normalText_append_delimiter, hfirst,
            ih hfree.2]
          simp only [List.map_cons, intercalate_cons_cons]

theorem after_intercalate (hrecords : records ≠ [])
    (hfree : ∀ record ∈ records, delimiter ∉ record) :
    QuoteState.outsideString.after (some delimiter)
        ([delimiter].intercalate records) =
      QuoteState.outsideString.after none (records.getLast hrecords) := by
  induction records with
  | nil => exact absurd rfl hrecords
  | cons record rest ih =>
      rw [List.forall_mem_cons] at hfree
      cases rest with
      | nil =>
          rw [List.intercalate_singleton, List.getLast_singleton]
          exact QuoteState.after_of_not_mem _ hfree.1
      | cons next rest =>
          rw [intercalate_cons_cons, QuoteState.after_append,
            QuoteState.after_cons, QuoteState.onByte_delimiter_next,
            ih (List.cons_ne_nil next rest) hfree.2,
            List.getLast_cons_cons]

/-- Every delimiter breaks the string that the record before it left
open. -/
theorem breaks_intercalate
    (hfree : ∀ record ∈ records, delimiter ∉ record) :
    QuoteState.outsideString.breaks (some delimiter)
        ([delimiter].intercalate records) =
      records.dropLast.countP fun record =>
        (QuoteState.outsideString.after none record).inString := by
  induction records with
  | nil => rfl
  | cons record rest ih =>
      rw [List.forall_mem_cons] at hfree
      have hfirst := QuoteState.breaks_of_not_mem .outsideString hfree.1
      cases rest with
      | nil => simpa using hfirst
      | cons next rest =>
          have hbreak : ∀ state : QuoteState,
              state.breaksAt (some delimiter) delimiter = state.inString := by
            intro state
            simp [QuoteState.breaksAt, ByteClass.ofByte]
          rw [intercalate_cons_cons, QuoteState.breaks_append, hfirst,
            QuoteState.breaks, QuoteState.onByte_delimiter_next, hbreak,
            QuoteState.after_of_not_mem _ hfree.1, ih hfree.2,
            List.dropLast_cons_cons, List.countP_cons]
          omega

theorem splitAtDelimiter_intercalate (hrecords : records ≠ [])
    (hfree : ∀ record ∈ records, delimiter ∉ record) :
    splitAtDelimiter delimiter ([delimiter].intercalate records) =
      records := by
  induction records with
  | nil => exact absurd rfl hrecords
  | cons record rest ih =>
      rw [List.forall_mem_cons] at hfree
      cases rest with
      | nil =>
          rw [List.intercalate_singleton]
          exact splitAtDelimiter_eq_singleton delimiter hfree.1
      | cons next rest =>
          rw [intercalate_cons_cons,
            splitAtDelimiter_line delimiter hfree.1,
            ih (List.cons_ne_nil next rest) hfree.2]

/-- The output splits into the records, each normalized by itself. -/
theorem split_normalText_intercalate (hquote : delimiter ≠ 34)
    (hbackslash : delimiter ≠ 92) (hrecords : records ≠ [])
    (hfree : ∀ record ∈ records, delimiter ∉ record) :
    splitAtDelimiter delimiter
        (normalText (some delimiter) ([delimiter].intercalate records)) =
      records.map (normalText none) := by
  rw [normalText_intercalate hfree]
  apply splitAtDelimiter_intercalate
  · simpa using hrecords
  · intro text htext
    obtain ⟨record, hrecord, rfl⟩ := List.mem_map.mp htext
    exact not_mem_normalText hquote hbackslash (hfree record hrecord)

/-- Records with delimiters between them are normalized one by one.  Each
string that is open at a delimiter counts once, and only the last record
decides where the run ends.  Unless the delimiter is a byte that is written
for others, the output splits into as many records again, and another record
in one place changes the output in that place only. -/
theorem normalizeQuotes_intercalate (delimiter : UInt8)
    (records : List (List UInt8)) (hrecords : records ≠ [])
    (hfree : ∀ record ∈ records, delimiter ∉ record) :
    let run := normalizeQuotes (some delimiter)
      (.ofList ([delimiter].intercalate records))
    run.output.toList =
        [delimiter].intercalate (records.map fun record =>
          (normalizeRecord record).output.toList) ∧
      run.unterminated =
        (records.dropLast.countP fun record =>
          (normalizeRecord record).state.inString) ∧
      run.state = (normalizeRecord (records.getLast hrecords)).state ∧
      (delimiter ≠ 34 → delimiter ≠ 92 →
        (∀ record ∈ records,
          delimiter ∉ (normalizeRecord record).output.toList) ∧
        splitAtDelimiter delimiter run.output.toList =
          records.map (fun record =>
            (normalizeRecord record).output.toList) ∧
        ∀ index other, delimiter ∉ other →
          splitAtDelimiter delimiter
              (normalizeQuotes (some delimiter)
                (.ofList ([delimiter].intercalate
                  (records.set index other)))).output.toList =
            (splitAtDelimiter delimiter run.output.toList).set index
              (normalizeRecord other).output.toList) := by
  intro run
  have houtput : ∀ records : List (List UInt8),
      (normalizeQuotes (some delimiter)
          (.ofList ([delimiter].intercalate records))).output.toList =
        normalText (some delimiter) ([delimiter].intercalate records) := by
    intro records
    rw [normalizeQuotes_output, Buffer.toList_ofList]
  simp only [run, houtput, normalizeRecord_output, normalizeRecord_state]
  refine ⟨normalText_intercalate hfree, ?_, ?_, ?_⟩
  · rw [normalizeQuotes, transduce_unterminated, Buffer.toList_ofList]
    exact breaks_intercalate hfree
  · rw [normalizeQuotes, transduce_state, Buffer.toList_ofList]
    exact after_intercalate hrecords hfree
  · intro hquote hbackslash
    have hsplit :=
      split_normalText_intercalate hquote hbackslash hrecords hfree
    refine ⟨?_, hsplit, ?_⟩
    · intro record hrecord
      exact not_mem_normalText hquote hbackslash (hfree record hrecord)
    · intro index other hother
      have hfree' : ∀ record ∈ records.set index other,
          delimiter ∉ record := by
        intro record hrecord
        rcases List.mem_or_eq_of_mem_set hrecord with hold | rfl
        · exact hfree record hold
        · exact hother
      have hrecords' : records.set index other ≠ [] := by
        simpa using hrecords
      rw [hsplit, split_normalText_intercalate hquote hbackslash hrecords'
        hfree', List.map_set]

/-- Three records, the first of which ends behind a backslash in an open
string: `'a\`, `"b"` and nothing. -/
theorem normalizeQuotes_intercalate_open_string :
    let run := normalizeQuotes (some 10)
      (.ofList [39, 97, 92, 10, 34, 98, 34, 10])
    run.output.toList = [34, 97, 92, 10, 34, 98, 34, 10] ∧
      run.unterminated = 1 ∧ run.state = .outsideString ∧
      splitAtDelimiter 10 run.output.toList =
        [[34, 97, 92], [34, 98, 34], []] := by
  obtain ⟨houtput, hunterminated, hstate, hrest⟩ :=
    normalizeQuotes_intercalate 10 [[39, 97, 92], [34, 98, 34], []]
      (by decide) (by decide)
  exact ⟨houtput, hunterminated, hstate,
    (hrest (by decide) (by decide)).2.1⟩

end Records

end JsonIntake
