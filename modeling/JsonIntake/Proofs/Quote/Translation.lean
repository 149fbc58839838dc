import JsonIntake.Proofs.Quote.Grammar
import JsonIntake.Proofs.Quote.Run

/-!
# Normalization translates permissive texts

Every token of a permissive text takes the transducer from one state to
another and is written in its strict form.  A token without quotes leaves the
transducer outside of strings, and so does a literal as a whole; inside a
literal every part leads back to the state of its quotes.  No token breaks a
string, as long as the delimiter is a control character.
-/

namespace JsonIntake

/-- Reading `input` leads from one state to another, writes `output` on the
way and breaks no string. -/
structure QuoteState.Runs (delimiter : Option UInt8)
    (first last : QuoteState) (input output : List UInt8) : Prop where
  after_eq : first.after delimiter input = last
  written_eq : first.written delimiter input = output
  breaks_eq : first.breaks delimiter input = 0

namespace QuoteState

variable {delimiter : Option UInt8} {first middle last state : QuoteState}
  {byte : UInt8}

theorem runs_nil : state.Runs delimiter state [] [] :=
  ⟨rfl, rfl, rfl⟩

theorem Runs.append {input₁ input₂ output₁ output₂ : List UInt8}
    (hfirst : first.Runs delimiter middle input₁ output₁)
    (hlast : middle.Runs delimiter last input₂ output₂) :
    first.Runs delimiter last (input₁ ++ input₂) (output₁ ++ output₂) where
  after_eq := by
    rw [after_append, hfirst.after_eq, hlast.after_eq]
  written_eq := by
    rw [written_append, hfirst.after_eq, hfirst.written_eq, hlast.written_eq]
  breaks_eq := by
    rw [breaks_append, hfirst.after_eq, hfirst.breaks_eq, hlast.breaks_eq]

theorem runs_byte (hbreaks : state.breaksAt delimiter byte = false) :
    state.Runs delimiter (state.onByte delimiter byte).next [byte]
      ((state.onByte delimiter byte).emit.bytes byte) where
  after_eq := rfl
  written_eq := List.append_nil _
  breaks_eq := by
    simp [breaks, hbreaks]

/-! ## Outside of strings -/

/-- A byte that is no quote does not matter outside of strings. -/
theorem runs_outside_byte (hdouble : byte ≠ 34) (hsingle : byte ≠ 39) :
    outsideString.Runs delimiter .outsideString [byte] [byte] := by
  have hbreaks : outsideString.breaksAt delimiter byte = false := by
    simp [breaksAt, inString]
  have hstep := runs_byte hbreaks
  have htransition :
      outsideString.onByte delimiter byte = ⟨.outsideString, .verbatim⟩ := by
    have hclass := ByteClass.describes_ofByte delimiter byte
    unfold onByte
    generalize ByteClass.ofByte delimiter byte = byteClass at hclass
    cases hclass with
    | singleQuote _ hbyte => exact absurd hbyte hsingle
    | doubleQuote _ hbyte => exact absurd hbyte hdouble
    | delimiter | backslash | other => rfl
  rwa [htransition] at hstep

theorem runs_outside {bytes : List UInt8}
    (hquotes : ∀ byte ∈ bytes, byte ≠ 34 ∧ byte ≠ 39) :
    outsideString.Runs delimiter .outsideString bytes bytes := by
  induction bytes with
  | nil => exact runs_nil
  | cons byte rest ih =>
      rw [List.forall_mem_cons] at hquotes
      exact (runs_outside_byte hquotes.1.1 hquotes.1.2).append
        (ih hquotes.2)

end QuoteState

namespace Grammar

open QuoteState

variable {delimiter : Option UInt8}

/-! ## Tokens without quotes -/

theorem ne_quotes_of_isBlank {byte : UInt8} (hblank : isBlank byte = true) :
    byte ≠ 34 ∧ byte ≠ 39 := by
  constructor
  · rintro rfl
    exact absurd hblank (by decide)
  · rintro rfl
    exact absurd hblank (by decide)

theorem ne_quotes_of_isDigit {byte : UInt8} (hdigit : isDigit byte = true) :
    byte ≠ 34 ∧ byte ≠ 39 := by
  constructor
  · rintro rfl
    exact absurd hdigit (by decide)
  · rintro rfl
    exact absurd hdigit (by decide)

theorem Blank.runs (blank : Blank) :
    outsideString.Runs delimiter .outsideString blank.bytes blank.bytes :=
  runs_outside fun byte hbyte => ne_quotes_of_isBlank (blank.blank byte hbyte)

theorem Digits.runs (digits : Digits) :
    outsideString.Runs delimiter .outsideString digits.bytes digits.bytes :=
  runs_outside fun byte hbyte =>
    ne_quotes_of_isDigit (digits.digit byte hbyte)

theorem Exponent.runs (exponent : Exponent) :
    outsideString.Runs delimiter .outsideString exponent.bytes
      exponent.bytes := by
  have hletter :
      ∀ byte ∈ [if exponent.capital then (69 : UInt8) else 101],
        byte ≠ 34 ∧ byte ≠ 39 := by
    cases exponent.capital <;> simp
  have hsign :
      ∀ byte ∈ exponent.sign.elim [] signBytes, byte ≠ 34 ∧ byte ≠ 39 := by
    rcases exponent.sign with _ | _ | _ <;> simp [signBytes]
  exact ((runs_outside hletter).append (runs_outside hsign)).append
    exponent.digits.runs

theorem Numeral.runs (numeral : Numeral) :
    outsideString.Runs delimiter .outsideString numeral.bytes
      numeral.bytes := by
  have hsign :
      ∀ byte ∈ if numeral.negative then [(45 : UInt8)] else [],
        byte ≠ 34 ∧ byte ≠ 39 := by
    cases numeral.negative <;> simp
  have hfraction :
      outsideString.Runs delimiter .outsideString
        (numeral.fraction.elim [] fun digits => [46] ++ digits.bytes)
        (numeral.fraction.elim [] fun digits => [46] ++ digits.bytes) := by
    cases numeral.fraction with
    | none => exact runs_nil
    | some digits => exact (runs_outside (by simp)).append digits.runs
  have hexponent :
      outsideString.Runs delimiter .outsideString
        (numeral.exponent.elim [] Exponent.bytes)
        (numeral.exponent.elim [] Exponent.bytes) := by
    cases numeral.exponent with
    | none => exact runs_nil
    | some exponent => exact exponent.runs
  exact (((runs_outside hsign).append numeral.whole.runs).append
    hfraction).append hexponent

theorem Scalar.runs (scalar : Scalar) :
    outsideString.Runs delimiter .outsideString scalar.bytes
      scalar.bytes := by
  cases scalar with
  | null => exact runs_outside (by simp [Scalar.bytes])
  | true => exact runs_outside (by simp [Scalar.bytes])
  | false => exact runs_outside (by simp [Scalar.bytes])
  | number numeral => exact numeral.runs

/-! ## String literals -/

/-- The state between quotes. -/
def Quote.state : Quote → QuoteState
  | .double => .inDoubleQuote
  | .single => .inSingleQuote

theorem onByte_escapeInDouble (byte : UInt8) :
    escapeInDouble.onByte none byte = ⟨.inDoubleQuote, .verbatim⟩ := by
  have hclass := ByteClass.describes_ofByte none byte
  unfold onByte
  generalize ByteClass.ofByte none byte = byteClass at hclass
  cases hclass with
  | delimiter hbyte => exact absurd hbyte nofun
  | singleQuote | doubleQuote | backslash | other => rfl

theorem onByte_escapeInSingle {byte : UInt8} (hsingle : byte ≠ 39) :
    escapeInSingle.onByte none byte =
      ⟨.inSingleQuote, .backslashThenVerbatim⟩ := by
  have hclass := ByteClass.describes_ofByte none byte
  unfold onByte
  generalize ByteClass.ofByte none byte = byteClass at hclass
  cases hclass with
  | delimiter hbyte => exact absurd hbyte nofun
  | singleQuote _ hbyte => exact absurd hbyte hsingle
  | doubleQuote | backslash | other => rfl

theorem printable_of_isEscape {byte : UInt8}
    (hescape : isEscape byte = true) : 32 ≤ byte ∧ byte ≠ 39 := by
  have hall :
      ∀ escape ∈ [(34 : UInt8), 92, 47, 98, 102, 110, 114, 116],
        32 ≤ escape ∧ escape ≠ 39 := by
    simp
  exact hall byte (List.contains_iff_mem.mp hescape)

theorem printable_of_isHexDigit {byte : UInt8}
    (hhex : isHexDigit byte = true) :
    32 ≤ byte ∧ byte ≠ 34 ∧ byte ≠ 39 ∧ byte ≠ 92 := by
  refine ⟨?_, ?_, ?_, ?_⟩
  · simp only [isHexDigit, isDigit, Bool.or_eq_true, Bool.and_eq_true,
      decide_eq_true_eq] at hhex
    rcases hhex with (⟨hlow, -⟩ | ⟨hlow, -⟩) | ⟨hlow, -⟩ <;>
      exact UInt8.le_trans (by decide) hlow
  · rintro rfl
    exact absurd hhex (by decide)
  · rintro rfl
    exact absurd hhex (by decide)
  · rintro rfl
    exact absurd hhex (by decide)

section Literals

variable (hdelimiter : ∀ byte, delimiter = some byte → byte < 32)

include hdelimiter

/-- A byte that is no control character is no delimiter. -/
theorem runs_printable (state : QuoteState) (byte : UInt8)
    (hcontrol : 32 ≤ byte) :
    state.Runs delimiter (state.onByte none byte).next [byte]
      ((state.onByte none byte).emit.bytes byte) := by
  have hinner : delimiter ≠ some byte := fun hbyte =>
    absurd (hdelimiter byte hbyte) (UInt8.not_lt.mpr hcontrol)
  have hbreaks : state.breaksAt delimiter byte = false := by
    simp [breaksAt, ByteClass.ofByte_eq_delimiter_iff, hinner]
  have hstep := runs_byte hbreaks
  unfold onByte at hstep ⊢
  rwa [ByteClass.ofByte_of_ne hinner] at hstep

/-- A byte that has no meaning between the quotes is kept. -/
theorem runs_plain {quote : Quote} {byte : UInt8} (hcontrol : 32 ≤ byte)
    (hquote : byte ≠ quote.byte) (hbackslash : byte ≠ 92)
    (hdouble : byte ≠ 34) :
    quote.state.Runs delimiter quote.state [byte] [byte] := by
  have hstep := runs_printable hdelimiter quote.state byte hcontrol
  have htransition :
      quote.state.onByte none byte = ⟨quote.state, .verbatim⟩ := by
    have hclass := ByteClass.describes_ofByte none byte
    unfold onByte
    generalize ByteClass.ofByte none byte = byteClass at hclass
    cases hclass with
    | delimiter hbyte => exact absurd hbyte nofun
    | doubleQuote _ hbyte => exact absurd hbyte hdouble
    | backslash _ hbyte => exact absurd hbyte hbackslash
    | singleQuote _ hbyte =>
        cases quote with
        | double => rfl
        | single => exact absurd hbyte hquote
    | other => cases quote <;> rfl
  rwa [htransition] at hstep

/-- An escape is kept, with its backslash. -/
theorem runs_escape (quote : Quote) {byte : UInt8} (hcontrol : 32 ≤ byte)
    (hsingle : byte ≠ 39) :
    quote.state.Runs delimiter quote.state [92, byte] [92, byte] := by
  cases quote with
  | double =>
      have hbackslash :=
        runs_printable hdelimiter inDoubleQuote 92 (by decide)
      have hbyte :=
        runs_printable hdelimiter escapeInDouble byte hcontrol
      rw [onByte_escapeInDouble] at hbyte
      exact hbackslash.append hbyte
  | single =>
      have hbackslash :=
        runs_printable hdelimiter inSingleQuote 92 (by decide)
      have hbyte :=
        runs_printable hdelimiter escapeInSingle byte hcontrol
      rw [onByte_escapeInSingle hsingle] at hbyte
      exact hbackslash.append hbyte

theorem runs_hexDigits (quote : Quote) {digits : List UInt8}
    (hhex : ∀ digit ∈ digits, isHexDigit digit = true) :
    quote.state.Runs delimiter quote.state digits digits := by
  induction digits with
  | nil => exact runs_nil
  | cons digit rest ih =>
      rw [List.forall_mem_cons] at hhex
      obtain ⟨hcontrol, hdouble, hsingle, hbackslash⟩ :=
        printable_of_isHexDigit hhex.1
      have hquote : digit ≠ quote.byte := by
        cases quote with
        | double => exact hdouble
        | single => exact hsingle
      exact (runs_plain hdelimiter hcontrol hquote hbackslash hdouble).append
        (ih hhex.2)

theorem StringPart.runs {quote : Quote} (part : StringPart quote) :
    quote.state.Runs delimiter quote.state part.bytes part.toStrict.bytes := by
  cases part with
  | plain byte hcontrol hquote hbackslash =>
      simp only [StringPart.toStrict, StringPart.bytes]
      by_cases hdouble : byte = 34
      · subst hdouble
        cases quote with
        | double => exact absurd rfl hquote
        | single =>
            exact runs_printable hdelimiter inSingleQuote 34
              (by decide)
      · rw [dif_neg hdouble]
        exact runs_plain hdelimiter hcontrol hquote hbackslash hdouble
  | escape byte hescape =>
      obtain ⟨hcontrol, hsingle⟩ := printable_of_isEscape hescape
      exact runs_escape hdelimiter quote hcontrol hsingle
  | unicode first second third fourth hhex =>
      exact (runs_escape hdelimiter quote (by decide) (by decide)).append
        (runs_hexDigits hdelimiter quote hhex)
  | escapedQuote hsingle =>
      cases quote with
      | double => exact absurd hsingle (by decide)
      | single =>
          have hbackslash :=
            runs_printable hdelimiter inSingleQuote 92 (by decide)
          have hquote :=
            runs_printable hdelimiter escapeInSingle 39
              (by decide)
          exact hbackslash.append hquote

theorem runs_parts {quote : Quote} (parts : List (StringPart quote)) :
    quote.state.Runs delimiter quote.state
      (parts.flatMap StringPart.bytes)
      ((parts.map StringPart.toStrict).flatMap StringPart.bytes) := by
  induction parts with
  | nil => exact runs_nil
  | cons part rest ih =>
      rw [List.flatMap_cons, List.map_cons, List.flatMap_cons]
      exact (StringPart.runs hdelimiter part).append ih

/-- A literal starts and ends outside of strings. -/
theorem Literal.runs (literal : Literal) :
    outsideString.Runs delimiter .outsideString literal.bytes
      literal.toStrict.bytes := by
  obtain ⟨quote, parts⟩ := literal
  have hparts := runs_parts hdelimiter parts
  cases quote with
  | double =>
      have hopen :=
        runs_printable hdelimiter outsideString 34 (by decide)
      have hclose :=
        runs_printable hdelimiter inDoubleQuote 34 (by decide)
      exact (hopen.append hparts).append hclose
  | single =>
      have hopen :=
        runs_printable hdelimiter outsideString 39 (by decide)
      have hclose :=
        runs_printable hdelimiter inSingleQuote 39 (by decide)
      exact (hopen.append hparts).append hclose

end Literals

/-! ## Texts -/

mutual

theorem Tree.runs (tree : Tree Literal)
    (hdelimiter : ∀ byte, delimiter = some byte → byte < 32) :
    outsideString.Runs delimiter .outsideString (tree.bytes Literal.bytes)
      ((tree.map Literal.toStrict).bytes StrictLiteral.bytes) := by
  cases tree with
  | scalar scalar => exact scalar.runs
  | string literal => exact literal.runs hdelimiter
  | emptyArray inside =>
      exact ((runs_outside (by simp)).append inside.runs).append
        (runs_outside (by simp))
  | array items =>
      exact ((runs_outside (by simp)).append
        (Items.runs items hdelimiter)).append (runs_outside (by simp))
  | emptyObject inside =>
      exact ((runs_outside (by simp)).append inside.runs).append
        (runs_outside (by simp))
  | object members =>
      exact ((runs_outside (by simp)).append
        (Members.runs members hdelimiter)).append (runs_outside (by simp))

theorem Items.runs (items : Items Literal)
    (hdelimiter : ∀ byte, delimiter = some byte → byte < 32) :
    outsideString.Runs delimiter .outsideString (items.bytes Literal.bytes)
      ((items.map Literal.toStrict).bytes StrictLiteral.bytes) := by
  cases items with
  | last before value behind =>
      exact (before.runs.append (Tree.runs value hdelimiter)).append behind.runs
  | cons before value behind rest =>
      exact (((before.runs.append (Tree.runs value hdelimiter)).append
        behind.runs).append (runs_outside (by simp))).append
        (Items.runs rest hdelimiter)

theorem Members.runs (members : Members Literal)
    (hdelimiter : ∀ byte, delimiter = some byte → byte < 32) :
    outsideString.Runs delimiter .outsideString (members.bytes Literal.bytes)
      ((members.map Literal.toStrict).bytes StrictLiteral.bytes) := by
  cases members with
  | last before key behindKey beforeValue value behind =>
      have hkey :=
        (before.runs.append (key.runs hdelimiter)).append behindKey.runs
      exact (((hkey.append (runs_outside (by simp))).append
        beforeValue.runs).append (Tree.runs value hdelimiter)).append behind.runs
  | cons before key behindKey beforeValue value behind rest =>
      have hkey :=
        (before.runs.append (key.runs hdelimiter)).append behindKey.runs
      exact (((((hkey.append (runs_outside (by simp))).append
        beforeValue.runs).append (Tree.runs value hdelimiter)).append
        behind.runs).append (runs_outside (by simp))).append
        (Members.runs rest hdelimiter)

end

theorem Text.runs (text : Text Literal)
    (hdelimiter : ∀ byte, delimiter = some byte → byte < 32) :
    outsideString.Runs delimiter .outsideString (text.bytes Literal.bytes)
      ((text.map Literal.toStrict).bytes StrictLiteral.bytes) :=
  (text.before.runs.append (Tree.runs text.value hdelimiter)).append
    text.behind.runs

theorem Text.normalText_eq (text : Text Literal)
    (hdelimiter : ∀ byte, delimiter = some byte → byte < 32) :
    normalText delimiter (text.bytes Literal.bytes) =
      (text.map Literal.toStrict).bytes StrictLiteral.bytes := by
  have hruns := text.runs hdelimiter
  rw [normalText, hruns.after_eq, hruns.written_eq]
  exact List.append_nil _

/-- Normalization writes every literal in its strict form and keeps all
else, so strict texts stay what they are. -/
theorem normalizeQuotes_text (delimiter : Option UInt8)
    (hdelimiter : ∀ byte, delimiter = some byte → byte < 32) :
    (∀ text : Text Literal,
      (normalizeQuotes delimiter
          (.ofList (text.bytes Literal.bytes))).output.toList =
        (text.map Literal.toStrict).bytes StrictLiteral.bytes ∧
      (normalizeQuotes delimiter
          (.ofList (text.bytes Literal.bytes))).state = .outsideString ∧
      (normalizeQuotes delimiter
          (.ofList (text.bytes Literal.bytes))).unterminated = 0) ∧
    ∀ text : Text StrictLiteral,
      (normalizeQuotes delimiter
          (.ofList (text.bytes StrictLiteral.bytes))).output.toList =
        text.bytes StrictLiteral.bytes := by
  constructor
  · intro text
    have hruns := text.runs hdelimiter
    refine ⟨?_, ?_, ?_⟩
    · rw [normalizeQuotes_output, Buffer.toList_ofList,
        text.normalText_eq hdelimiter]
    · rw [normalizeQuotes, transduce_state, Buffer.toList_ofList,
        hruns.after_eq]
    · rw [normalizeQuotes, transduce_unterminated, Buffer.toList_ofList,
        hruns.breaks_eq]
  · intro text
    have hback :
        ((text.map StrictLiteral.toLiteral).map Literal.toStrict).bytes
            StrictLiteral.bytes =
          text.bytes StrictLiteral.bytes := by
      simp only [Text.bytes_map, StrictLiteral.toLiteral_toStrict]
    rw [normalizeQuotes_output, Buffer.toList_ofList, ← text.bytes_toLiteral,
      Text.normalText_eq _ hdelimiter, hback, text.bytes_toLiteral]

/-- The array `['a\'"']` with a line break as delimiter. -/
theorem normalizeQuotes_text_array :
    (normalizeQuotes (some 10)
        (.ofList [91, 39, 97, 92, 39, 34, 39, 93])).output.toList =
      [91, 34, 97, 39, 92, 34, 34, 93] :=
  ((normalizeQuotes_text (some 10)
    (fun _ hbyte => Option.some.inj hbyte ▸ by decide)).1
    ⟨⟨[], nofun⟩,
      .array (.last ⟨[], nofun⟩
        (.string ⟨.single,
          [.plain 97 (by decide) (by decide) (by decide), .escapedQuote rfl,
            .plain 34 (by decide) (by decide) (by decide)]⟩)
        ⟨[], nofun⟩),
      ⟨[], nofun⟩⟩).1

end Grammar

end JsonIntake
