import JsonIntake.Proofs.Json.Values
import JsonIntake.Proofs.Quote.Grammar

/-!
# What strict texts stand for

A strict text stands for a value.  A numeral without fraction and exponent
stands for an integer.  A literal spells a string: each of its characters is
written as it is, as a short escape, or by the numbers of its UTF-16 units.
The members of an object may be written in any order.
-/

namespace JsonIntake

namespace Json

/-- An integer as a number. -/
def Number.ofInt : Int → Number
  | .ofNat value => .natural value
  | .negSucc value => .negative (value + 1)

end Json

namespace Grammar

open Json (Value Number)

def Digits.value (digits : Digits) : Nat :=
  digits.bytes.foldl (fun value byte => 10 * value + Json.digitValue byte) 0

/-- The numeral of an integer between the least negative and the greatest
unsigned one. -/
structure Numeral.Denotes (numeral : Numeral) (value : Int) : Prop where
  fraction : numeral.fraction = none
  exponent : numeral.exponent = none
  /-- Zero has no sign. -/
  negative : numeral.negative = decide (value < 0)
  digits : numeral.whole.value = value.natAbs
  low : -(Size.half : Int) ≤ value
  high : value ≤ Size.maximum

inductive Scalar.Denotes : Scalar → Value → Prop
  | null : Scalar.Denotes .null .null
  | true : Scalar.Denotes .true (.boolean .true)
  | false : Scalar.Denotes .false (.boolean .false)
  | number {numeral : Numeral} {value : Int} (hvalue : numeral.Denotes value) :
      Scalar.Denotes (.number numeral) (.number (.ofInt value))

def hexValue (byte : UInt8) : Nat :=
  if byte ≤ 57 then byte.toNat - 48
  else if byte ≤ 70 then byte.toNat - 55
  else byte.toNat - 87

def hexUnit (first second third fourth : UInt8) : Nat :=
  ((hexValue first * 16 + hexValue second) * 16 + hexValue third) * 16 +
    hexValue fourth

/-- The character of a short escape. -/
def escaped : UInt8 → Char
  | 98 => '\x08'
  | 102 => '\x0c'
  | 110 => '\n'
  | 114 => '\r'
  | 116 => '\t'
  | byte => .ofNat byte.toNat

inductive Spells : List (StringPart .double) → List Char → Prop
  | nil : Spells [] []
  /-- The bytes of a character as they are. -/
  | verbatim {front parts : List (StringPart .double)} {char : Char}
      {chars : List Char}
      (hfront : front.flatMap StringPart.bytes = String.utf8EncodeChar char)
      (hrest : Spells parts chars) : Spells (front ++ parts) (char :: chars)
  | escape {byte : UInt8} (hescape : isEscape byte = true)
      {parts : List (StringPart .double)} {chars : List Char}
      (hrest : Spells parts chars) :
      Spells (.escape byte hescape :: parts) (escaped byte :: chars)
  | unit {first second third fourth : UInt8}
      (hhex : ∀ digit ∈ [first, second, third, fourth],
        isHexDigit digit = true)
      {char : Char} (hunit : hexUnit first second third fourth = char.toNat)
      {parts : List (StringPart .double)} {chars : List Char}
      (hrest : Spells parts chars) :
      Spells (.unicode first second third fourth hhex :: parts)
        (char :: chars)
  /-- The two halves of a surrogate pair. -/
  | pair {first second third fourth : UInt8}
      (hleading : ∀ digit ∈ [first, second, third, fourth],
        isHexDigit digit = true)
      {fifth sixth seventh eighth : UInt8}
      (htrailing : ∀ digit ∈ [fifth, sixth, seventh, eighth],
        isHexDigit digit = true)
      {char : Char} (hlarge : 0x10000 ≤ char.toNat)
      (hhigh : hexUnit first second third fourth =
        0xd800 + (char.toNat - 0x10000) / 0x400)
      (hlow : hexUnit fifth sixth seventh eighth =
        0xdc00 + (char.toNat - 0x10000) % 0x400)
      {parts : List (StringPart .double)} {chars : List Char}
      (hrest : Spells parts chars) :
      Spells (.unicode first second third fourth hleading ::
        .unicode fifth sixth seventh eighth htrailing :: parts)
        (char :: chars)

def StrictLiteral.Denotes (literal : StrictLiteral) (text : String) : Prop :=
  Spells literal.parts text.toList

theorem StrictLiteral.Denotes.single {part : StringPart .double}
    {text : String} {char : Char} (htext : text.toList = [char])
    (hpart : part.bytes = String.utf8EncodeChar char) :
    StrictLiteral.Denotes ⟨[part]⟩ text := by
  have hfront : [part].flatMap StringPart.bytes =
      String.utf8EncodeChar char := by
    rw [List.flatMap_singleton, hpart]
  have hspells : Spells ([part] ++ []) [char] := .verbatim hfront .nil
  rw [StrictLiteral.Denotes, htext]
  exact hspells

mutual

inductive Tree.Denotes : Tree StrictLiteral → Value → Prop
  | scalar {scalar : Scalar} {value : Value} (hscalar : scalar.Denotes value) :
      Tree.Denotes (.scalar scalar) value
  | string {literal : StrictLiteral} {text : String}
      (hliteral : literal.Denotes text) :
      Tree.Denotes (.string literal) (.text text)
  | emptyArray (inside : Blank) : Tree.Denotes (.emptyArray inside) (.array [])
  | array {items : Items StrictLiteral} {values : List Value}
      (hitems : Items.Denotes items values) :
      Tree.Denotes (.array items) (.array values)
  | emptyObject (inside : Blank) :
      Tree.Denotes (.emptyObject inside) (.object [])
  | object {members : Members StrictLiteral}
      {written sorted : List (String × Value)}
      (hmembers : Members.Denotes members written)
      (hperm : written.Perm sorted)
      (hsorted : sorted.Pairwise fun a b => a.1 < b.1) :
      Tree.Denotes (.object members) (.object sorted)

inductive Items.Denotes : Items StrictLiteral → List Value → Prop
  | last {before behind : Blank} {tree : Tree StrictLiteral} {value : Value}
      (htree : Tree.Denotes tree value) :
      Items.Denotes (.last before tree behind) [value]
  | cons {before behind : Blank} {tree : Tree StrictLiteral} {value : Value}
      {rest : Items StrictLiteral} {values : List Value}
      (htree : Tree.Denotes tree value) (hrest : Items.Denotes rest values) :
      Items.Denotes (.cons before tree behind rest) (value :: values)

inductive Members.Denotes :
    Members StrictLiteral → List (String × Value) → Prop
  | last {before behindKey beforeValue behind : Blank} {key : StrictLiteral}
      {name : String} {tree : Tree StrictLiteral} {value : Value}
      (hkey : key.Denotes name) (htree : Tree.Denotes tree value) :
      Members.Denotes (.last before key behindKey beforeValue tree behind)
        [(name, value)]
  | cons {before behindKey beforeValue behind : Blank} {key : StrictLiteral}
      {name : String} {tree : Tree StrictLiteral} {value : Value}
      {rest : Members StrictLiteral} {members : List (String × Value)}
      (hkey : key.Denotes name) (htree : Tree.Denotes tree value)
      (hrest : Members.Denotes rest members) :
      Members.Denotes (.cons before key behindKey beforeValue tree behind rest)
        ((name, value) :: members)

end

section Nesting

variable {L : Type}

mutual

/-- How many arrays and objects are open at once. -/
def Tree.nesting : Tree L → Nat
  | .scalar _ => 0
  | .string _ => 0
  | .emptyArray _ => 1
  | .array items => items.nesting + 1
  | .emptyObject _ => 1
  | .object members => members.nesting + 1

def Items.nesting : Items L → Nat
  | .last _ tree _ => tree.nesting
  | .cons _ tree _ rest => max tree.nesting rest.nesting

def Members.nesting : Members L → Nat
  | .last _ _ _ _ tree _ => tree.nesting
  | .cons _ _ _ _ tree _ rest => max tree.nesting rest.nesting

end

end Nesting

end Grammar

namespace Json

open Grammar

/-! ## Reading numerals -/

/-- What may follow a number: nothing that would be part of it. -/
def EndsNumber (rest : List UInt8) : Prop :=
  ∀ byte, rest.head? = some byte →
    isDigit byte = false ∧ byte ≠ 46 ∧ byte ≠ 101 ∧ byte ≠ 69

section Numerals

variable {negative : Bool} {digits rest : List UInt8} {value count : Nat}

theorem le_foldl_digits (digits : List UInt8) (value : Nat) :
    value ≤ digits.foldl (fun value byte => 10 * value + digitValue byte)
      value := by
  induction digits generalizing value with
  | nil => exact Nat.le_refl _
  | cons byte digits ih =>
      exact Nat.le_trans (by omega) (ih (10 * value + digitValue byte))

theorem readDigits_append (hdigits : ∀ byte ∈ digits, isDigit byte = true)
    (hfits : digits.foldl (fun value byte => 10 * value + digitValue byte)
      value ≤ Size.maximum) :
    readDigits value count (digits ++ rest) =
      readDigits
        (digits.foldl (fun value byte => 10 * value + digitValue byte) value)
        (count + digits.length) rest := by
  induction digits generalizing value count with
  | nil => rfl
  | cons byte digits ih =>
      rw [List.forall_mem_cons] at hdigits
      rw [List.foldl_cons] at hfits ⊢
      have hnext := le_foldl_digits digits (10 * value + digitValue byte)
      rw [List.cons_append, readDigits, if_pos hdigits.1,
        if_neg (by omega), ih hdigits.2 hfits, List.length_cons]
      congr 1
      omega

theorem readDigits_of_endsNumber (hrest : EndsNumber rest) :
    readDigits value count rest = ⟨value, count, false, rest⟩ := by
  cases rest with
  | nil => rfl
  | cons byte rest =>
      have hdigit := (hrest byte rfl).1
      rw [readDigits, if_neg (by simp [hdigit])]

theorem readAfterInteger_of_endsNumber (hrest : EndsNumber rest) :
    readAfterInteger negative value rest =
      .ok (integer negative value, rest) :=
  readAfterInteger_of_head? (fun hhead => (hrest _ hhead).2.1 rfl)
    (fun hhead => (hrest _ hhead).2.2.1 rfl)
    (fun hhead => (hrest _ hhead).2.2.2 rfl)

theorem readNumber_append (negative : Bool) (digits : Digits)
    (hleading : digits.bytes.head? = some 48 → digits.bytes.length = 1)
    (hfits : digits.value ≤ Size.maximum) (hrest : EndsNumber rest) :
    readNumber negative (digits.bytes ++ rest) =
      .ok (integer negative digits.value, rest) := by
  obtain ⟨bytes, hdigits, hnonempty⟩ := digits
  obtain ⟨first, tail, rfl⟩ := List.exists_cons_of_ne_nil hnonempty
  have hsplit := List.forall_mem_cons.mp hdigits
  by_cases hzero : first = 48
  · subst hzero
    obtain rfl : tail = [] := by simpa using hleading rfl
    have hnone : ¬ rest.head?.any isDigit = true := by
      rw [Option.any_eq_true]
      rintro ⟨byte, hhead, hdigit⟩
      rw [(hrest byte hhead).1] at hdigit
      exact absurd hdigit nofun
    exact (if_neg hnone).trans (readAfterInteger_of_endsNumber hrest)
  · have hread : readDigits (digitValue first) 1 (tail ++ rest) =
        ⟨Digits.value ⟨first :: tail, hdigits, hnonempty⟩, 1 + tail.length,
          false, rest⟩ := by
      have hvalue : Digits.value ⟨first :: tail, hdigits, hnonempty⟩ =
          tail.foldl (fun value byte => 10 * value + digitValue byte)
            (digitValue first) := by
        rw [Digits.value, List.foldl_cons, Nat.mul_zero, Nat.zero_add]
      rw [hvalue] at hfits ⊢
      rw [readDigits_append hsplit.2 hfits, readDigits_of_endsNumber hrest]
    rw [List.cons_append, readNumber_of_fits hzero hsplit.1 (by rw [hread]),
      hread]
    exact readAfterInteger_of_endsNumber hrest

theorem integer_of_denotes {numeral : Numeral} {value : Int}
    (hvalue : numeral.Denotes value) :
    integer numeral.negative numeral.whole.value = .ofInt value := by
  have hlow := hvalue.low
  rw [hvalue.negative, hvalue.digits]
  unfold integer
  cases value with
  | ofNat value => simp [Number.ofInt]
  | negSucc value =>
      have hfits : ¬ (value + 1 = 0 ∨ Size.half < value + 1) := by omega
      rw [decide_eq_true (Int.negSucc_lt_zero value), if_neg (by simp)]
      exact if_neg hfits

end Numerals

/-! ## Reading literals -/

theorem hexValue?_eq {byte : UInt8} (hhex : isHexDigit byte = true) :
    hexValue? byte = some (hexValue byte) := by
  simp only [isHexDigit, Grammar.isDigit, Bool.or_eq_true, Bool.and_eq_true,
    decide_eq_true_eq, UInt8.le_iff_toNat_le] at hhex
  simp only [UInt8.reduceToNat] at hhex
  unfold hexValue? hexValue
  simp only [UInt8.le_iff_toNat_le, UInt8.reduceToNat]
  rcases hhex with (hdigit | hupper) | hlower
  · rw [if_pos hdigit, if_pos hdigit.2]
  · rw [if_neg (by omega), if_pos hupper, if_neg (by omega),
      if_pos hupper.2]
  · rw [if_neg (by omega), if_neg (by omega), if_pos hlower,
      if_neg (by omega), if_neg (by omega)]

section Literals

variable {first second third fourth fifth sixth seventh eighth byte : UInt8}
  {steps : Nat} {read bytes rest : List UInt8} {char : Char}

theorem readHexUnit_append
    (hhex : ∀ digit ∈ [first, second, third, fourth],
      isHexDigit digit = true) :
    readHexUnit (first :: second :: third :: fourth :: rest) =
      .ok (hexUnit first second third fourth, rest) := by
  simp only [List.forall_mem_cons] at hhex
  simp only [readHexUnit, hexValue?_eq hhex.1, hexValue?_eq hhex.2.1,
    hexValue?_eq hhex.2.2.1, hexValue?_eq hhex.2.2.2.1]
  rfl

theorem readEscape_unit
    (hhex : ∀ digit ∈ [first, second, third, fourth],
      isHexDigit digit = true)
    (hunit : hexUnit first second third fourth = char.toNat) :
    readEscape (117 :: first :: second :: third :: fourth :: rest) =
      .ok (String.utf8EncodeChar char, rest) := by
  have hvalid : char.toNat < 0xd800 ∨ 0xdfff < char.toNat ∧ _ := char.valid
  have htrailing : isTrailingSurrogate char.toNat = false := by
    simp only [isTrailingSurrogate, Bool.and_eq_false_iff,
      decide_eq_false_iff_not]
    omega
  have hleading : isLeadingSurrogate char.toNat = false := by
    simp only [isLeadingSurrogate, Bool.and_eq_false_iff, decide_eq_false_iff_not]
    omega
  simp [readEscape, readCodePoint, readHexUnit_append hhex, hunit, htrailing,
    hleading, bind, Except.bind]

theorem readEscape_pair
    (hleading : ∀ digit ∈ [first, second, third, fourth],
      isHexDigit digit = true)
    (htrailing : ∀ digit ∈ [fifth, sixth, seventh, eighth],
      isHexDigit digit = true)
    (hlarge : 0x10000 ≤ char.toNat)
    (hhigh : hexUnit first second third fourth =
      0xd800 + (char.toNat - 0x10000) / 0x400)
    (hlow : hexUnit fifth sixth seventh eighth =
      0xdc00 + (char.toNat - 0x10000) % 0x400) :
    readEscape (117 :: first :: second :: third :: fourth :: 92 :: 117 ::
        fifth :: sixth :: seventh :: eighth :: rest) =
      .ok (String.utf8EncodeChar char, rest) := by
  have hvalid : char.toNat < 0xd800 ∨ 0xdfff < char.toNat ∧
      char.toNat < 0x110000 := char.valid
  have hfirst : isTrailingSurrogate (hexUnit first second third fourth) =
      false := by
    simp only [isTrailingSurrogate, Bool.and_eq_false_iff,
      decide_eq_false_iff_not]
    omega
  have hhalf : isLeadingSurrogate (hexUnit first second third fourth) =
      true := by
    simp only [isLeadingSurrogate, Bool.and_eq_true, decide_eq_true_eq]
    omega
  have hsecond : isTrailingSurrogate (hexUnit fifth sixth seventh eighth) =
      true := by
    simp only [isTrailingSurrogate, Bool.and_eq_true, decide_eq_true_eq]
    omega
  have hcode : 0x10000 + (hexUnit first second third fourth - 0xd800) * 0x400 +
      (hexUnit fifth sixth seventh eighth - 0xdc00) = char.toNat := by
    omega
  simp only [readEscape, readCodePoint, readHexUnit_append hleading, hfirst,
    hhalf, readPairByte, readHexUnit_append htrailing, hsecond, hcode, bind,
    Except.bind, if_true, Bool.false_eq_true, if_false, Char.ofNat_toNat]

theorem readEscape_escape (hescape : isEscape byte = true) :
    readEscape (byte :: rest) =
      .ok (String.utf8EncodeChar (escaped byte), rest) := by
  simp only [isEscape, List.contains_iff_mem, List.mem_cons, List.not_mem_nil,
    or_false] at hescape
  rcases hescape with rfl | rfl | rfl | rfl | rfl | rfl | rfl | rfl <;> rfl

/-- An escape takes one step, however long it is. -/
theorem readStringBytes_escape {behind later : List UInt8}
    {chars : List Char} (hsteps : 0 < steps)
    (hread : readEscape behind = .ok (String.utf8EncodeChar char, later))
    (hlater : ∀ read, readStringBytes (steps - 1) read later =
      .ok (read.reverse ++ chars.flatMap String.utf8EncodeChar, rest)) :
    readStringBytes steps read (92 :: behind) =
      .ok (read.reverse ++ (char :: chars).flatMap String.utf8EncodeChar,
        rest) := by
  cases steps with
  | zero => exact absurd hsteps (Nat.lt_irrefl 0)
  | succ left =>
      rw [Nat.add_sub_cancel] at hlater
      simp only [readStringBytes, hread, hlater, List.reverse_append,
        List.reverse_reverse, List.flatMap_cons, List.append_assoc]

/-- Bytes that stand for themselves in a string. -/
def isVerbatim (byte : UInt8) : Prop := 32 ≤ byte ∧ byte ≠ 34 ∧ byte ≠ 92

theorem readStringBytes_verbatim (hbytes : ∀ byte ∈ bytes, isVerbatim byte) :
    readStringBytes (steps + bytes.length) read (bytes ++ rest) =
      readStringBytes steps (bytes.reverse ++ read) rest := by
  induction bytes generalizing read with
  | nil => rfl
  | cons byte bytes ih =>
      rw [List.forall_mem_cons] at hbytes
      obtain ⟨hcontrol, hquote, hescape⟩ := hbytes.1
      rw [List.cons_append, List.length_cons, ← Nat.add_assoc,
        readStringBytes_character hquote hescape,
        if_neg (UInt8.not_lt.mpr hcontrol), ih hbytes.2, List.reverse_cons,
        List.append_assoc, List.singleton_append]

theorem utf8EncodeChar_cases (char : Char) :
    String.utf8EncodeChar char = [UInt8.ofNat char.toNat] ∨
      ∀ byte ∈ String.utf8EncodeChar char, 128 ≤ byte := by
  have hlarge : ∀ n, 128 ≤ n → n < 256 → 128 ≤ UInt8.ofNat n := by
    intro n hlow hhigh
    rw [UInt8.le_iff_toNat_le, UInt8.toNat_ofNat_of_lt' hhigh]
    exact hlow
  unfold String.utf8EncodeChar
  dsimp only
  split
  · exact .inl rfl
  · right
    split
    · simp only [List.forall_mem_cons]
      exact ⟨hlarge _ (by omega) (by omega), hlarge _ (by omega) (by omega),
        nofun⟩
    split
    · simp only [List.forall_mem_cons]
      exact ⟨hlarge _ (by omega) (by omega), hlarge _ (by omega) (by omega),
        hlarge _ (by omega) (by omega), nofun⟩
    · simp only [List.forall_mem_cons]
      exact ⟨hlarge _ (by omega) (by omega), hlarge _ (by omega) (by omega),
        hlarge _ (by omega) (by omega), hlarge _ (by omega) (by omega), nofun⟩

/-- The parts that write a character as it is are single bytes. -/
theorem isVerbatim_of_bytes {front : List (StringPart .double)}
    (hfront : front.flatMap StringPart.bytes = String.utf8EncodeChar char) :
    ∀ byte ∈ String.utf8EncodeChar char, isVerbatim byte := by
  rcases utf8EncodeChar_cases char with hsingle | hlarge
  · rw [hsingle] at hfront ⊢
    cases front with
    | nil => exact absurd hfront.symm (List.cons_ne_nil _ _)
    | cons part parts =>
        rw [List.flatMap_cons] at hfront
        cases part with
        | plain byte hcontrol hquote hbackslash =>
            obtain ⟨rfl, -⟩ := List.cons.inj hfront
            simpa using ⟨hcontrol, hquote, hbackslash⟩
        | escape byte hescape => exact absurd hfront (by simp [StringPart.bytes])
        | unicode first second third fourth hhex =>
            exact absurd hfront (by simp [StringPart.bytes])
        | escapedQuote hquote => exact absurd hquote (by decide)
  · intro byte hbyte
    have hle := hlarge byte hbyte
    refine ⟨UInt8.le_trans (by decide) hle, ?_, ?_⟩
    · rintro rfl
      exact absurd hle (by decide)
    · rintro rfl
      exact absurd hle (by decide)

theorem readStringBytes_spells {parts : List (StringPart .double)}
    {chars : List Char} (hspells : Spells parts chars)
    (hsteps : (parts.flatMap StringPart.bytes).length < steps) :
    readStringBytes steps read
        (parts.flatMap StringPart.bytes ++ 34 :: rest) =
      .ok (read.reverse ++ chars.flatMap String.utf8EncodeChar, rest) := by
  induction hspells generalizing steps read with
  | nil =>
      obtain ⟨left, rfl⟩ := Nat.exists_eq_add_of_lt hsteps
      simp [readStringBytes]
  | @verbatim front parts char chars hfront hrest ih =>
      rw [List.flatMap_append, hfront, List.length_append] at hsteps
      obtain ⟨left, rfl⟩ : ∃ left, steps =
          left + (String.utf8EncodeChar char).length :=
        ⟨steps - (String.utf8EncodeChar char).length, by omega⟩
      rw [List.flatMap_append, hfront, List.append_assoc,
        readStringBytes_verbatim (isVerbatim_of_bytes hfront), ih (by omega),
        List.flatMap_cons, List.reverse_append, List.reverse_reverse,
        List.append_assoc]
  | escape hescape _ ih =>
      simp only [List.flatMap_cons, StringPart.bytes, List.length_append,
        List.length_cons] at hsteps
      exact readStringBytes_escape (by omega) (readEscape_escape hescape)
        fun _ => ih (by omega)
  | unit hhex hunit _ ih =>
      simp only [List.flatMap_cons, StringPart.bytes, List.length_append,
        List.length_cons] at hsteps
      exact readStringBytes_escape (by omega) (readEscape_unit hhex hunit)
        fun _ => ih (by omega)
  | pair hleading htrailing hlarge hhigh hlow _ ih =>
      simp only [List.flatMap_cons, StringPart.bytes, List.length_append,
        List.length_cons] at hsteps
      exact readStringBytes_escape (by omega)
        (readEscape_pair hleading htrailing hlarge hhigh hlow)
        fun _ => ih (by omega)

theorem fromUTF8?_flatMap (text : String) :
    String.fromUTF8? ⟨(text.toList.flatMap String.utf8EncodeChar).toArray⟩ =
      some text := by
  have hbytes : (String.ofList text.toList).toByteArray =
      ⟨(text.toList.flatMap String.utf8EncodeChar).toArray⟩ :=
    ByteArray.ext List.data_toByteArray
  rw [String.ofList_toList] at hbytes
  rw [← hbytes]
  exact dif_pos text.isValidUTF8

theorem readString_literal {literal : StrictLiteral} {text : String}
    (hliteral : literal.Denotes text)
    (hsteps : literal.bytes.length ≤ steps) :
    readString steps
        (literal.parts.flatMap StringPart.bytes ++ 34 :: rest) =
      .ok (text, rest) := by
  rw [StrictLiteral.bytes, List.length_append, List.length_append] at hsteps
  exact readString_of_bytes (readStringBytes_spells hliteral
    (by simp only [List.length_singleton] at hsteps; omega))
    (fromUTF8?_flatMap text)

end Literals

end Json

end JsonIntake
