import JsonIntake.Proofs.Json.Nesting
import JsonIntake.Proofs.Quote.Run

/-!
# Strings in normalized text

A scanner for strict text knows double quotes and escapes only, and every
delimiter takes it out of strings.  The text that the transducer writes has a
string open just where the transducer stands in one: a single quote that opens
a string has become a double one, and double quotes inside are escaped, so
both agree on where each string ends.  Single quotes are written in strings
only.  A backslash that is held back is a part of an escape only once it is
written.
-/

namespace JsonIntake

open Json (Place StringPlace)

/-! ## The scanner -/

namespace Json.StringPlace

variable (delimiter : Option UInt8)

def isOpen : StringPlace → Bool
  | .outside => false
  | _ => true

def step (place : StringPlace) (byte : UInt8) : StringPlace :=
  if delimiter = some byte then .outside
  else
    match place with
    | .outside => if byte = 34 then .inside else .outside
    | .inside =>
      if byte = 34 then .outside
      else if byte = 92 then .escaped
      else .inside
    | .escaped => .inside

def after (place : StringPlace) (bytes : List UInt8) : StringPlace :=
  bytes.foldl (step delimiter) place

/-- How often a delimiter stands in a string. -/
def cuts : StringPlace → List UInt8 → Nat
  | _, [] => 0
  | place, byte :: rest =>
    (if delimiter = some byte ∧ place.isOpen then 1 else 0) +
      cuts (place.step delimiter byte) rest

/-- Every single quote stands in a string. -/
def Quoted (place : StringPlace) (bytes : List UInt8) : Prop :=
  ∀ front back, bytes = front ++ 39 :: back →
    (place.after delimiter front).isOpen = true

variable {place : StringPlace} {byte : UInt8} {front back rest : List UInt8}

@[simp] theorem after_nil : place.after delimiter [] = place := rfl

@[simp] theorem after_cons :
    place.after delimiter (byte :: rest) =
      (place.step delimiter byte).after delimiter rest := rfl

@[simp] theorem cuts_nil : place.cuts delimiter [] = 0 := rfl

@[simp] theorem cuts_cons :
    place.cuts delimiter (byte :: rest) =
      (if delimiter = some byte ∧ place.isOpen then 1 else 0) +
        (place.step delimiter byte).cuts delimiter rest := rfl

@[simp] theorem quoted_nil : place.Quoted delimiter [] := by
  simp [Quoted]

@[simp] theorem quoted_cons :
    place.Quoted delimiter (byte :: rest) ↔
      (byte = 39 → place.isOpen = true) ∧
        (place.step delimiter byte).Quoted delimiter rest := by
  constructor
  · intro hquoted
    constructor
    · intro hbyte
      exact hquoted [] rest (by simp [hbyte])
    · intro front back hrest
      exact hquoted (byte :: front) back (by simp [hrest])
  · intro hquoted front back hbytes
    cases front with
    | nil =>
        simp only [List.nil_append, List.cons.injEq] at hbytes
        exact hquoted.1 hbytes.1
    | cons first front =>
        simp only [List.cons_append, List.cons.injEq] at hbytes
        rw [← hbytes.1, after_cons]
        exact hquoted.2 front back hbytes.2

theorem after_append :
    place.after delimiter (front ++ back) =
      (place.after delimiter front).after delimiter back :=
  List.foldl_append

theorem cuts_append :
    place.cuts delimiter (front ++ back) =
      place.cuts delimiter front +
        (place.after delimiter front).cuts delimiter back := by
  induction front generalizing place with
  | nil => simp
  | cons byte front ih =>
      simp only [List.cons_append, cuts_cons, after_cons]
      rw [ih, Nat.add_assoc]

theorem quoted_append :
    place.Quoted delimiter (front ++ back) ↔
      place.Quoted delimiter front ∧
        (place.after delimiter front).Quoted delimiter back := by
  induction front generalizing place with
  | nil => simp
  | cons byte front ih => simp [ih, and_assoc]

/-- A text leads from one place to another, its single quotes stand in
strings, and so do `count` delimiters. -/
structure Scans (first last : StringPlace) (text : List UInt8)
    (count : Nat) : Prop where
  after_eq : first.after delimiter text = last
  cuts_eq : first.cuts delimiter text = count
  quoted : first.Quoted delimiter text

theorem Scans.append {first middle last : StringPlace} {count more : Nat}
    (hfront : Scans delimiter first middle front count)
    (hback : Scans delimiter middle last back more) :
    Scans delimiter first last (front ++ back) (count + more) where
  after_eq := by rw [after_append, hfront.after_eq, hback.after_eq]
  cuts_eq := by
    rw [cuts_append, hfront.after_eq, hfront.cuts_eq, hback.cuts_eq]
  quoted := by
    rw [quoted_append, hfront.after_eq]
    exact ⟨hfront.quoted, hback.quoted⟩

end Json.StringPlace

/-- Outside of strings, brackets are counted as well. -/
theorem Json.Place.string_step (place : Place) (byte : UInt8) :
    (place.step byte).string = place.string.step none byte := by
  obtain ⟨depth, string⟩ := place
  cases string with
  | outside =>
      simp only [step, StringPlace.step, reduceCtorEq, if_false]
      split
      · rfl
      · split
        · rfl
        · split <;> rfl
  | inside =>
      simp only [step, StringPlace.step, reduceCtorEq, if_false]
      split
      · rfl
      · split <;> rfl
  | escaped => rfl

theorem Json.Place.string_after (place : Place) (bytes : List UInt8) :
    (place.after bytes).string = place.string.after none bytes := by
  induction bytes generalizing place with
  | nil => rfl
  | cons byte rest ih =>
      rw [after_cons, StringPlace.after_cons, ih, string_step]

/-! ## What has been written -/

namespace QuoteState

/-- Where the text that has been written stands. -/
def place : QuoteState → StringPlace
  | .outsideString => .outside
  | .inDoubleQuote => .inside
  | .inSingleQuote => .inside
  | .escapeInDouble => .escaped
  | .escapeInSingle => .inside

variable {delimiter : Option UInt8}

/-- At a delimiter the scanner leaves the string that the transducer
leaves. -/
theorem scans_delimiter (state : QuoteState) {byte : UInt8}
    (hsingle : byte ≠ 39) (hescape : byte ≠ 92) :
    StringPlace.Scans (some byte) state.place outsideString.place
      (state.pending ++ [byte])
      (if state.breaksAt (some byte) byte then 1 else 0) := by
  cases state <;> constructor <;>
    simp [breaksAt, ByteClass.ofByte, pending, inString, place,
      StringPlace.step, StringPlace.isOpen, hsingle, hescape]

/-- The scanner goes with the transducer over what one step writes. -/
theorem scans_onByte (state : QuoteState) (byte : UInt8)
    (hsingle : delimiter ≠ some 39) (hdouble : delimiter ≠ some 34)
    (hescape : delimiter ≠ some 92) :
    StringPlace.Scans delimiter state.place
      (state.onByte delimiter byte).next.place
      ((state.onByte delimiter byte).emit.bytes byte)
      (if state.breaksAt delimiter byte then 1 else 0) := by
  by_cases hdelimiter : delimiter = some byte
  · subst hdelimiter
    simp only [ne_eq, Option.some.injEq] at hsingle hescape
    rw [onByte_delimiter_next, onByte_delimiter_bytes]
    exact scans_delimiter state hsingle hescape
  have hclass := ByteClass.describes_ofByte delimiter byte
  unfold onByte breaksAt
  generalize ByteClass.ofByte delimiter byte = byteClass at hclass
  cases hclass with
  | delimiter hbyte => exact absurd hbyte hdelimiter
  | singleQuote _ hbyte | doubleQuote _ hbyte | backslash _ hbyte =>
      subst hbyte
      cases state <;> constructor <;>
        simp [transition, Emission.bytes, place, StringPlace.step,
          StringPlace.isOpen, hsingle, hdouble, hescape]
  | other _ hquote hquotes hbackslash =>
      cases state <;> constructor <;>
        simp [transition, Emission.bytes, place, StringPlace.step,
          StringPlace.isOpen, hdelimiter, hescape, hquote, hquotes,
          hbackslash]

theorem scans_written (state : QuoteState) (bytes : List UInt8)
    (hsingle : delimiter ≠ some 39) (hdouble : delimiter ≠ some 34)
    (hescape : delimiter ≠ some 92) :
    StringPlace.Scans delimiter state.place (state.after delimiter bytes).place
      (state.written delimiter bytes) (state.breaks delimiter bytes) := by
  induction bytes generalizing state with
  | nil => constructor <;> simp [breaks]
  | cons byte rest ih =>
      exact (scans_onByte state byte hsingle hdouble hescape).append _
        (ih (state.onByte delimiter byte).next)

/-- What is held back at the end stands in the string that is open there. -/
theorem exists_scans_pending (state : QuoteState)
    (hescape : delimiter ≠ some 92) :
    ∃ last : StringPlace, last.isOpen = state.inString ∧
      StringPlace.Scans delimiter state.place last state.pending 0 := by
  refine ⟨state.place.after delimiter state.pending, ?_, rfl, ?_, ?_⟩ <;>
    cases state <;>
    simp [pending, place, inString, StringPlace.step, StringPlace.isOpen,
      hescape]

/-- A comma goes through every state as it stands. -/
theorem onByte_comma_bytes (state : QuoteState) :
    (state.onByte none 44).emit.bytes 44 = state.pending ++ [44] := by
  cases state <;> rfl

end QuoteState

theorem exists_scans_normalText (delimiter : Option UInt8)
    (bytes : List UInt8) (hsingle : delimiter ≠ some 39)
    (hdouble : delimiter ≠ some 34) (hescape : delimiter ≠ some 92) :
    ∃ last : StringPlace,
      last.isOpen =
          (QuoteState.outsideString.after delimiter bytes).inString ∧
        StringPlace.Scans delimiter .outside last (normalText delimiter bytes)
          (QuoteState.outsideString.breaks delimiter bytes) := by
  obtain ⟨last, hopen, hpending⟩ :=
    QuoteState.exists_scans_pending
      (QuoteState.outsideString.after delimiter bytes) hescape
  exact ⟨last, hopen,
    (QuoteState.scans_written .outsideString bytes hsingle hdouble
      hescape).append _ hpending⟩

theorem after_eq_outsideString {bytes : List UInt8}
    (hclosed : Place.front.after (normalText none bytes) = Place.front) :
    QuoteState.outsideString.after none bytes = .outsideString := by
  have hstring :
      StringPlace.outside.after none (normalText none bytes) = .outside := by
    have hplace := Place.string_after Place.front (normalText none bytes)
    rw [hclosed] at hplace
    exact hplace.symm
  obtain ⟨last, hopen, hscans⟩ :=
    exists_scans_normalText none bytes nofun nofun nofun
  rw [← hscans.after_eq, hstring] at hopen
  cases hstate : QuoteState.outsideString.after none bytes with
  | outsideString => rfl
  | _ =>
      rw [hstate] at hopen
      exact absurd hopen nofun

/-- Behind a comma the text goes on; it is that of the bytes there if the
transducer stands outside of strings. -/
theorem normalText_append_comma (front back : List UInt8) :
    ∃ later,
      normalText none (front ++ 44 :: back) =
        normalText none front ++ 44 :: later ∧
      (QuoteState.outsideString.after none front = .outsideString →
        later = normalText none back) := by
  generalize hstate : QuoteState.outsideString.after none front = state
  refine ⟨(state.onByte none 44).next.written none back ++
    ((state.onByte none 44).next.after none back).pending, ?_, ?_⟩
  · simp only [normalText, QuoteState.written_append, QuoteState.after_append,
      QuoteState.written_cons, QuoteState.after_cons, hstate,
      QuoteState.onByte_comma_bytes]
    simp
  · rintro rfl
    rfl

end JsonIntake
