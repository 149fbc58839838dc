import JsonIntake.Quote

/-!
# Runs of the quote transducer

A run is determined by three functions of the bytes it reads: the state it
reaches, the bytes it writes on the way, and the number of delimiters that it
meets inside a string.  What a run held before has no influence on them.  A
delimiter ends a run for good: it writes what is still held back, exactly as
the end of the bytes does, and the rest is a run of its own.  What is written
is at most twice as long as what was read.
-/

namespace JsonIntake

namespace ByteClass

/-- What the class of a byte says of the byte. -/
inductive Describes (delimiter : Option UInt8) (byte : UInt8) :
    ByteClass → Prop where
  | delimiter (hdelimiter : delimiter = some byte) :
      Describes delimiter byte .delimiter
  | singleQuote (hinner : delimiter ≠ some byte) (hbyte : byte = 39) :
      Describes delimiter byte .singleQuote
  | doubleQuote (hinner : delimiter ≠ some byte) (hbyte : byte = 34) :
      Describes delimiter byte .doubleQuote
  | backslash (hinner : delimiter ≠ some byte) (hbyte : byte = 92) :
      Describes delimiter byte .backslash
  | other (hinner : delimiter ≠ some byte) (hsingle : byte ≠ 39)
      (hdouble : byte ≠ 34) (hbackslash : byte ≠ 92) :
      Describes delimiter byte .other

theorem describes_ofByte (delimiter : Option UInt8) (byte : UInt8) :
    Describes delimiter byte (ofByte delimiter byte) := by
  unfold ofByte
  split
  · next hdelimiter => exact .delimiter hdelimiter
  · next hinner =>
      split
      · next hsingle => exact .singleQuote hinner hsingle
      · next hsingle =>
          split
          · next hdouble => exact .doubleQuote hinner hdouble
          · next hdouble =>
              split
              · next hbackslash => exact .backslash hinner hbackslash
              · next hbackslash =>
                  exact .other hinner hsingle hdouble hbackslash

theorem ofByte_eq_delimiter_iff {delimiter : Option UInt8} {byte : UInt8} :
    ofByte delimiter byte = .delimiter ↔ delimiter = some byte := by
  constructor
  · intro hclass
    have hdescribes := describes_ofByte delimiter byte
    rw [hclass] at hdescribes
    cases hdescribes with
    | delimiter hdelimiter => exact hdelimiter
  · exact fun hdelimiter => if_pos hdelimiter

/-- Only one byte is changed by a delimiter. -/
theorem ofByte_of_ne {delimiter : Option UInt8} {byte : UInt8}
    (hinner : delimiter ≠ some byte) :
    ofByte delimiter byte = ofByte none byte := by
  rw [ofByte, ofByte, if_neg hinner, if_neg (Option.some_ne_none byte).symm]

end ByteClass

namespace QuoteState

variable (delimiter : Option UInt8)

def onByte (state : QuoteState) (byte : UInt8) : Transition :=
  state.transition (ByteClass.ofByte delimiter byte)

def after (state : QuoteState) (bytes : List UInt8) : QuoteState :=
  bytes.foldl (fun state byte => (state.onByte delimiter byte).next) state

def written : QuoteState → List UInt8 → List UInt8
  | _, [] => []
  | state, byte :: rest =>
    (state.onByte delimiter byte).emit.bytes byte ++
      written (state.onByte delimiter byte).next rest

def breaksAt (state : QuoteState) (byte : UInt8) : Bool :=
  ByteClass.ofByte delimiter byte = .delimiter && state.inString

def breaks : QuoteState → List UInt8 → Nat
  | _, [] => 0
  | state, byte :: rest =>
    (if state.breaksAt delimiter byte then 1 else 0) +
      breaks (state.onByte delimiter byte).next rest

def pending (state : QuoteState) : List UInt8 :=
  if state = .escapeInSingle then [92] else []

@[simp] theorem after_nil (state : QuoteState) :
    state.after delimiter [] = state := rfl

@[simp] theorem after_cons (state : QuoteState) (byte : UInt8)
    (rest : List UInt8) :
    state.after delimiter (byte :: rest) =
      (state.onByte delimiter byte).next.after delimiter rest := rfl

@[simp] theorem written_nil (state : QuoteState) :
    state.written delimiter [] = [] := rfl

@[simp] theorem written_cons (state : QuoteState) (byte : UInt8)
    (rest : List UInt8) :
    state.written delimiter (byte :: rest) =
      (state.onByte delimiter byte).emit.bytes byte ++
        (state.onByte delimiter byte).next.written delimiter rest := rfl

theorem after_append (state : QuoteState) (front back : List UInt8) :
    state.after delimiter (front ++ back) =
      (state.after delimiter front).after delimiter back :=
  List.foldl_append

theorem written_append (state : QuoteState) (front back : List UInt8) :
    state.written delimiter (front ++ back) =
      state.written delimiter front ++
        (state.after delimiter front).written delimiter back := by
  induction front generalizing state with
  | nil => rfl
  | cons byte front ih =>
      simp only [List.cons_append, written_cons, after_cons]
      rw [ih, List.append_assoc]

theorem breaks_append (state : QuoteState) (front back : List UInt8) :
    state.breaks delimiter (front ++ back) =
      state.breaks delimiter front +
        (state.after delimiter front).breaks delimiter back := by
  induction front generalizing state with
  | nil => simp [breaks]
  | cons byte front ih =>
      simp only [List.cons_append, breaks, after_cons]
      rw [ih]
      omega

@[simp] theorem onByte_delimiter_next (state : QuoteState) (byte : UInt8) :
    (state.onByte (some byte) byte).next = .outsideString := by
  cases state <;> simp [onByte, ByteClass.ofByte, transition]

theorem onByte_delimiter_bytes (state : QuoteState) (byte : UInt8) :
    (state.onByte (some byte) byte).emit.bytes byte =
      state.pending ++ [byte] := by
  cases state <;>
    simp [onByte, ByteClass.ofByte, transition, Emission.bytes, pending]

/-- A byte adds two bytes at most to what is written and what is held back. -/
theorem length_onByte_le (state : QuoteState) (byte : UInt8) :
    ((state.onByte delimiter byte).emit.bytes byte).length +
        (state.onByte delimiter byte).next.pending.length ≤
      2 + state.pending.length := by
  unfold onByte
  generalize ByteClass.ofByte delimiter byte = byteClass
  cases state <;> cases byteClass <;>
    simp [transition, Emission.bytes, pending]

theorem length_written_le (state : QuoteState) (bytes : List UInt8) :
    (state.written delimiter bytes).length +
        (state.after delimiter bytes).pending.length ≤
      2 * bytes.length + state.pending.length := by
  induction bytes generalizing state with
  | nil => simp
  | cons byte rest ih =>
      have hstep := state.length_onByte_le delimiter byte
      have hrest := ih (state.onByte delimiter byte).next
      rw [written_cons, after_cons, List.length_append, List.length_cons]
      omega

end QuoteState

namespace QuoteRun

variable (delimiter : Option UInt8)

theorem foldl_step_state (run : QuoteRun) (bytes : List UInt8) :
    (bytes.foldl (step delimiter) run).state =
      run.state.after delimiter bytes := by
  induction bytes generalizing run with
  | nil => rfl
  | cons byte rest ih =>
      simp only [List.foldl_cons, QuoteState.after_cons]
      rw [ih]
      rfl

theorem foldl_step_unterminated (run : QuoteRun) (bytes : List UInt8) :
    (bytes.foldl (step delimiter) run).unterminated =
      run.unterminated + run.state.breaks delimiter bytes := by
  induction bytes generalizing run with
  | nil => rfl
  | cons byte rest ih =>
      have hstate :
          (run.step delimiter byte).state =
            (run.state.onByte delimiter byte).next := rfl
      have hcount :
          (run.step delimiter byte).unterminated =
            run.unterminated +
              if run.state.breaksAt delimiter byte then 1 else 0 := by
        simp only [step, QuoteState.breaksAt, Bool.and_eq_true,
          decide_eq_true_eq]
        split <;> rfl
      simp only [List.foldl_cons, QuoteState.breaks]
      rw [ih, hstate, hcount]
      omega

theorem foldl_step_output (run : QuoteRun) (bytes : List UInt8) :
    (bytes.foldl (step delimiter) run).output.toList =
      run.output.toList ++ run.state.written delimiter bytes := by
  induction bytes generalizing run with
  | nil => simp
  | cons byte rest ih =>
      have hstate :
          (run.step delimiter byte).state =
            (run.state.onByte delimiter byte).next := rfl
      have houtput :
          (run.step delimiter byte).output.toList =
            run.output.toList ++
              (run.state.onByte delimiter byte).emit.bytes byte := by
        simp [step, QuoteState.onByte]
      simp only [List.foldl_cons, QuoteState.written_cons]
      rw [ih, hstate, houtput, List.append_assoc]

@[simp] theorem flush_state (run : QuoteRun) :
    run.flush.state = run.state := by
  unfold flush
  split <;> rfl

@[simp] theorem flush_unterminated (run : QuoteRun) :
    run.flush.unterminated = run.unterminated := by
  unfold flush
  split <;> rfl

theorem flush_output (run : QuoteRun) :
    run.flush.output.toList = run.output.toList ++ run.state.pending := by
  unfold flush QuoteState.pending
  split <;> simp

end QuoteRun

section Transduce

variable (delimiter : Option UInt8) (start : QuoteState) (output : Buffer)
  (bytes : List UInt8)

theorem transduce_state :
    (transduce delimiter start output bytes).state =
      start.after delimiter bytes := by
  simp [transduce, QuoteRun.foldl_step_state]

theorem transduce_unterminated :
    (transduce delimiter start output bytes).unterminated =
      start.breaks delimiter bytes := by
  simp [transduce, QuoteRun.foldl_step_unterminated]

theorem transduce_output :
    (transduce delimiter start output bytes).output.toList =
      output.toList ++ start.written delimiter bytes ++
        (start.after delimiter bytes).pending := by
  simp [transduce, QuoteRun.flush_output, QuoteRun.foldl_step_output,
    QuoteRun.foldl_step_state]

end Transduce

/-- The text that some bytes are normalized to. -/
def normalText (delimiter : Option UInt8) (bytes : List UInt8) :
    List UInt8 :=
  QuoteState.outsideString.written delimiter bytes ++
    (QuoteState.outsideString.after delimiter bytes).pending

theorem normalizeQuotes_output (delimiter : Option UInt8) (input : Buffer) :
    (normalizeQuotes delimiter input).output.toList =
      normalText delimiter input.toList := by
  simp [normalizeQuotes, transduce_output, normalText]

theorem size_normalizeQuotes_le (delimiter : Option UInt8) (input : Buffer) :
    (normalizeQuotes delimiter input).output.size ≤ 2 * input.size := by
  have hgrowth :=
    QuoteState.outsideString.length_written_le delimiter input.toList
  rw [← List.length_append] at hgrowth
  rw [← Buffer.length_toList, normalizeQuotes_output, ← input.length_toList]
  exact hgrowth

@[simp] theorem normalText_nil (delimiter : Option UInt8) :
    normalText delimiter [] = [] := by
  simp [normalText, QuoteState.pending]

/-- What stands before a delimiter is normalized by itself, and so is what
stands behind it. -/
theorem normalText_append_delimiter (delimiter : UInt8)
    (front back : List UInt8) :
    normalText (some delimiter) (front ++ delimiter :: back) =
      normalText (some delimiter) front ++
        delimiter :: normalText (some delimiter) back := by
  simp only [normalText, QuoteState.written_append,
    QuoteState.after_append, QuoteState.written_cons,
    QuoteState.after_cons, QuoteState.onByte_delimiter_next,
    QuoteState.onByte_delimiter_bytes]
  simp

end JsonIntake
