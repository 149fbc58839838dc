import JsonIntake.Proofs.Quote.Strings

/-!
# Normalized text stays as it is

Where a scanner for strict text finds each single quote inside a string, the
transducer goes through the places of the scanner and writes what it reads.
Text that the transducer has written is of this kind, so normalizing it once
more changes nothing: the text stays, the same delimiters stand in strings,
and a string is open at the end or not as before.
-/

namespace JsonIntake

open Json (StringPlace)

/-! ## What is written as it stands -/

namespace Json.StringPlace

variable {delimiter : Option UInt8}

/-- Where the transducer stands if it has written what it has read. -/
def state : StringPlace → QuoteState
  | .outside => .outsideString
  | .inside => .inDoubleQuote
  | .escaped => .escapeInDouble

theorem state_pending (place : StringPlace) : place.state.pending = [] := by
  cases place <;> rfl

theorem state_inString (place : StringPlace) :
    place.state.inString = place.isOpen := by
  cases place <;> rfl

theorem onByte_state (place : StringPlace) (byte : UInt8)
    (hquote : byte = 39 → place.isOpen = true) :
    place.state.onByte delimiter byte =
      ⟨(place.step delimiter byte).state, .verbatim⟩ := by
  have hclass := ByteClass.describes_ofByte delimiter byte
  unfold QuoteState.onByte
  generalize ByteClass.ofByte delimiter byte = byteClass at hclass
  cases hclass with
  | delimiter hdelimiter =>
      cases place <;> simp [state, step, QuoteState.transition, hdelimiter]
  | singleQuote hinner hbyte =>
      subst hbyte
      cases place with
      | outside => exact absurd (hquote rfl) (by decide)
      | inside => simp [state, step, QuoteState.transition, hinner]
      | escaped => simp [state, step, QuoteState.transition, hinner]
  | doubleQuote hinner hbyte | backslash hinner hbyte =>
      subst hbyte
      cases place <;> simp [state, step, QuoteState.transition, hinner]
  | other hinner hsingle hdouble hbackslash =>
      cases place <;>
        simp [state, step, QuoteState.transition, hinner, hdouble,
          hbackslash]

theorem breaksAt_state (place : StringPlace) (byte : UInt8) :
    place.state.breaksAt delimiter byte =
      (decide (delimiter = some byte) && place.isOpen) := by
  simp [QuoteState.breaksAt, state_inString, ByteClass.ofByte_eq_delimiter_iff]

/-- The transducer goes with the scanner over a text that has its single
quotes in strings. -/
theorem run_state (place : StringPlace) {bytes : List UInt8}
    (hquoted : place.Quoted delimiter bytes) :
    place.state.written delimiter bytes = bytes ∧
      place.state.after delimiter bytes =
        (place.after delimiter bytes).state ∧
      place.state.breaks delimiter bytes = place.cuts delimiter bytes := by
  induction bytes generalizing place with
  | nil => simp [QuoteState.breaks]
  | cons byte rest ih =>
      rw [quoted_cons] at hquoted
      obtain ⟨hwritten, hafter, hbreaks⟩ := ih _ hquoted.2
      rw [QuoteState.written_cons, QuoteState.after_cons, QuoteState.breaks,
        onByte_state place byte hquoted.1, hwritten, hafter, hbreaks,
        breaksAt_state]
      simp [Emission.bytes]

end Json.StringPlace

theorem normalText_of_quoted {delimiter : Option UInt8} {bytes : List UInt8}
    (hquoted : StringPlace.outside.Quoted delimiter bytes) :
    normalText delimiter bytes = bytes := by
  obtain ⟨hwritten, hafter, -⟩ := StringPlace.run_state .outside hquoted
  rw [StringPlace.state] at hwritten hafter
  rw [normalText, hwritten, hafter, StringPlace.state_pending,
    List.append_nil]

/-- The texts that normalization does not change are those with all single
quotes in strings. -/
theorem normalText_eq_self_iff {delimiter : Option UInt8}
    {bytes : List UInt8} (hsingle : delimiter ≠ some 39)
    (hdouble : delimiter ≠ some 34) (hescape : delimiter ≠ some 92) :
    normalText delimiter bytes = bytes ↔
      StringPlace.outside.Quoted delimiter bytes := by
  constructor
  · intro hsame
    rw [← hsame]
    obtain ⟨last, -, hscans⟩ :=
      exists_scans_normalText delimiter bytes hsingle hdouble hescape
    exact hscans.quoted
  · exact normalText_of_quoted

/-- A second normalization changes nothing: neither the text, nor how often a
delimiter breaks a string, nor whether a string is open at the end.  Every
single quote in the text stands in a string, and a scanner for strict text
ends in a string just when the transducer did. -/
theorem normalizeQuotes_normalizeQuotes (delimiter : Option UInt8)
    (hsingle : delimiter ≠ some 39) (hdouble : delimiter ≠ some 34)
    (hescape : delimiter ≠ some 92) (input : Buffer) :
    let run := normalizeQuotes delimiter input
    let again := normalizeQuotes delimiter run.output
    again.output = run.output ∧
      again.unterminated = run.unterminated ∧
      again.state.inString = run.state.inString ∧
      StringPlace.outside.Quoted delimiter run.output.toList ∧
      (StringPlace.outside.after delimiter run.output.toList).isOpen =
        run.state.inString := by
  intro run again
  obtain ⟨last, hopen, hscans⟩ :=
    exists_scans_normalText delimiter input.toList hsingle hdouble hescape
  rw [← normalizeQuotes_output delimiter input] at hscans
  obtain ⟨-, hafter, hbreaks⟩ :=
    StringPlace.run_state .outside hscans.quoted
  rw [hscans.after_eq] at hafter
  rw [hscans.cuts_eq] at hbreaks
  have hstate : last.isOpen = run.state.inString := by
    simp only [run, normalizeQuotes, transduce_state, hopen]
  refine ⟨?_, ?_, ?_, hscans.quoted, ?_⟩
  · apply Buffer.ext_toList
    rw [normalizeQuotes_output, normalText_of_quoted hscans.quoted]
  · simp only [again, run, normalizeQuotes, transduce_unterminated]
    exact hbreaks
  · rw [← hstate, ← StringPlace.state_inString, ← hafter]
    simp only [again, normalizeQuotes, transduce_state]
    rfl
  · rw [hscans.after_eq, hstate]

/-- A single quote that opens a string, one that is escaped in it, and a
backslash that is held back at the end: `{'a':'it\'s\`. -/
theorem normalizeQuotes_normalizeQuotes_open_string :
    let input := Buffer.ofList
      [123, 39, 97, 39, 58, 39, 105, 116, 92, 39, 115, 92]
    let run := normalizeQuotes (some 10) input
    let again := normalizeQuotes (some 10) run.output
    run.output.toList =
        [123, 34, 97, 34, 58, 34, 105, 116, 39, 115, 92] ∧
      again.output = run.output ∧ again.state.inString = true ∧
      StringPlace.outside.Quoted (some 10) run.output.toList := by
  obtain ⟨houtput, -, hopen, hquoted, -⟩ :=
    normalizeQuotes_normalizeQuotes (some 10) (by decide) (by decide)
      (by decide)
      (.ofList [123, 39, 97, 39, 58, 39, 105, 116, 92, 39, 115, 92])
  exact ⟨rfl, houtput, hopen, hquoted⟩

end JsonIntake
