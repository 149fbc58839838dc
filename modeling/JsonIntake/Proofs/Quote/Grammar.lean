/-!
# Permissive JSON texts

A JSON text is a tree of values with blanks between its tokens.  The tree
does not say how string literals are written.  A strict literal stands in
double quotes; a permissive one may stand in single quotes as well, and then
double quotes in it need no backslash, but single quotes do.
-/

namespace JsonIntake.Grammar

/-! ## Tokens without quotes -/

def isBlank (byte : UInt8) : Bool :=
  byte = 32 || byte = 9 || byte = 10 || byte = 13

def isDigit (byte : UInt8) : Bool :=
  48 ≤ byte && byte ≤ 57

def isHexDigit (byte : UInt8) : Bool :=
  isDigit byte || (65 ≤ byte && byte ≤ 70) || (97 ≤ byte && byte ≤ 102)

/-- White space between two tokens. -/
structure Blank where
  bytes : List UInt8
  blank : ∀ byte ∈ bytes, isBlank byte = true

structure Digits where
  bytes : List UInt8
  digit : ∀ byte ∈ bytes, isDigit byte = true
  nonempty : bytes ≠ []

structure Exponent where
  capital : Bool
  /-- The sign, if there is one; `true` stands for minus. -/
  sign : Option Bool
  digits : Digits

structure Numeral where
  negative : Bool
  whole : Digits
  /-- Zero is the only number that starts with a zero. -/
  leading : whole.bytes.head? = some 48 → whole.bytes.length = 1
  fraction : Option Digits
  exponent : Option Exponent

inductive Scalar where
  | null
  | true
  | false
  | number (numeral : Numeral)

def signBytes : Bool → List UInt8
  | .true => [45]
  | .false => [43]

def Exponent.bytes (exponent : Exponent) : List UInt8 :=
  [if exponent.capital then 69 else 101] ++
    exponent.sign.elim [] signBytes ++ exponent.digits.bytes

def Numeral.bytes (numeral : Numeral) : List UInt8 :=
  (if numeral.negative then [45] else []) ++ numeral.whole.bytes ++
    numeral.fraction.elim [] (fun digits => [46] ++ digits.bytes) ++
    numeral.exponent.elim [] Exponent.bytes

def Scalar.bytes : Scalar → List UInt8
  | .null => [110, 117, 108, 108]
  | .true => [116, 114, 117, 101]
  | .false => [102, 97, 108, 115, 101]
  | .number numeral => numeral.bytes

/-! ## String literals -/

inductive Quote where
  | double
  | single
deriving DecidableEq

def Quote.byte : Quote → UInt8
  | .double => 34
  | .single => 39

/-- The bytes that may follow a backslash, but for `u`. -/
def isEscape (byte : UInt8) : Bool :=
  [34, 92, 47, 98, 102, 110, 114, 116].contains byte

/-- One part of a string between quotes. -/
inductive StringPart (quote : Quote) where
  | plain (byte : UInt8) (hcontrol : 32 ≤ byte) (hquote : byte ≠ quote.byte)
      (hbackslash : byte ≠ 92)
  | escape (byte : UInt8) (hescape : isEscape byte = true)
  | unicode (first second third fourth : UInt8)
      (hhex : ∀ digit ∈ [first, second, third, fourth],
        isHexDigit digit = true)
  | escapedQuote (hsingle : quote = .single)

namespace StringPart

variable {quote : Quote}

def bytes : StringPart quote → List UInt8
  | .plain byte _ _ _ => [byte]
  | .escape byte _ => [92, byte]
  | .unicode first second third fourth _ =>
    [92, 117, first, second, third, fourth]
  | .escapedQuote _ => [92, 39]

/-- The same part between double quotes. -/
def toStrict : StringPart quote → StringPart .double
  | .plain byte hcontrol _ hbackslash =>
    if hdouble : byte = 34 then .escape 34 rfl
    else .plain byte hcontrol hdouble hbackslash
  | .escape byte hescape => .escape byte hescape
  | .unicode first second third fourth hhex =>
    .unicode first second third fourth hhex
  | .escapedQuote _ => .plain 39 (by decide) (by decide) (by decide)

theorem toStrict_double (part : StringPart .double) :
    part.toStrict = part := by
  cases part with
  | plain byte hcontrol hquote hbackslash =>
      simp only [toStrict]
      exact dif_neg hquote
  | escape byte hescape => rfl
  | unicode first second third fourth hhex => rfl
  | escapedQuote hsingle => exact absurd hsingle (by decide)

end StringPart

/-- A string in either kind of quotes. -/
structure Literal where
  quote : Quote
  parts : List (StringPart quote)

/-- A string in double quotes. -/
structure StrictLiteral where
  parts : List (StringPart .double)

def Literal.bytes (literal : Literal) : List UInt8 :=
  [literal.quote.byte] ++ literal.parts.flatMap StringPart.bytes ++
    [literal.quote.byte]

def StrictLiteral.bytes (literal : StrictLiteral) : List UInt8 :=
  [34] ++ literal.parts.flatMap StringPart.bytes ++ [34]

def Literal.toStrict (literal : Literal) : StrictLiteral :=
  ⟨literal.parts.map StringPart.toStrict⟩

def StrictLiteral.toLiteral (literal : StrictLiteral) : Literal :=
  ⟨.double, literal.parts⟩

@[simp] theorem StrictLiteral.toLiteral_toStrict (literal : StrictLiteral) :
    literal.toLiteral.toStrict = literal := by
  obtain ⟨parts⟩ := literal
  have hparts : parts.map StringPart.toStrict = parts := by
    rw [List.map_congr_left fun part _ => part.toStrict_double, List.map_id']
  exact congrArg StrictLiteral.mk hparts

/-! ## Texts -/

mutual

/-- A value whose strings and keys are written as literals of some kind. -/
inductive Tree (L : Type) where
  | scalar (scalar : Scalar)
  | string (literal : L)
  | emptyArray (inside : Blank)
  | array (items : Items L)
  | emptyObject (inside : Blank)
  | object (members : Members L)

/-- One or more values with commas between them. -/
inductive Items (L : Type) where
  | last (before : Blank) (value : Tree L) (behind : Blank)
  | cons (before : Blank) (value : Tree L) (behind : Blank) (rest : Items L)

/-- One or more pairs of a key and a value with commas between them. -/
inductive Members (L : Type) where
  | last (before : Blank) (key : L) (behindKey beforeValue : Blank)
      (value : Tree L) (behind : Blank)
  | cons (before : Blank) (key : L) (behindKey beforeValue : Blank)
      (value : Tree L) (behind : Blank) (rest : Members L)

end

section Render

variable {L : Type} (render : L → List UInt8)

mutual

def Tree.bytes : Tree L → List UInt8
  | .scalar scalar => scalar.bytes
  | .string literal => render literal
  | .emptyArray inside => [91] ++ inside.bytes ++ [93]
  | .array items => [91] ++ Items.bytes items ++ [93]
  | .emptyObject inside => [123] ++ inside.bytes ++ [125]
  | .object members => [123] ++ Members.bytes members ++ [125]

def Items.bytes : Items L → List UInt8
  | .last before value behind =>
    before.bytes ++ Tree.bytes value ++ behind.bytes
  | .cons before value behind rest =>
    before.bytes ++ Tree.bytes value ++ behind.bytes ++ [44] ++
      Items.bytes rest

def Members.bytes : Members L → List UInt8
  | .last before key behindKey beforeValue value behind =>
    before.bytes ++ render key ++ behindKey.bytes ++ [58] ++
      beforeValue.bytes ++ Tree.bytes value ++ behind.bytes
  | .cons before key behindKey beforeValue value behind rest =>
    before.bytes ++ render key ++ behindKey.bytes ++ [58] ++
      beforeValue.bytes ++ Tree.bytes value ++ behind.bytes ++ [44] ++
      Members.bytes rest

end

end Render

section Map

variable {L M : Type} (translate : L → M)

mutual

/-- The same value with other literals. -/
def Tree.map : Tree L → Tree M
  | .scalar scalar => .scalar scalar
  | .string literal => .string (translate literal)
  | .emptyArray inside => .emptyArray inside
  | .array items => .array (Items.map items)
  | .emptyObject inside => .emptyObject inside
  | .object members => .object (Members.map members)

def Items.map : Items L → Items M
  | .last before value behind => .last before (Tree.map value) behind
  | .cons before value behind rest =>
    .cons before (Tree.map value) behind (Items.map rest)

def Members.map : Members L → Members M
  | .last before key behindKey beforeValue value behind =>
    .last before (translate key) behindKey beforeValue (Tree.map value)
      behind
  | .cons before key behindKey beforeValue value behind rest =>
    .cons before (translate key) behindKey beforeValue (Tree.map value)
      behind (Members.map rest)

end

end Map

section BytesMap

variable {L M : Type} (render : M → List UInt8) (translate : L → M)

mutual

theorem Tree.bytes_map (tree : Tree L) :
    (tree.map translate).bytes render =
      tree.bytes fun literal => render (translate literal) := by
  cases tree with
  | scalar scalar => rfl
  | string literal => rfl
  | emptyArray inside => rfl
  | array items =>
      simp only [Tree.map, Tree.bytes, Items.bytes_map items]
  | emptyObject inside => rfl
  | object members =>
      simp only [Tree.map, Tree.bytes, Members.bytes_map members]

theorem Items.bytes_map (items : Items L) :
    (items.map translate).bytes render =
      items.bytes fun literal => render (translate literal) := by
  cases items with
  | last before value behind =>
      simp only [Items.map, Items.bytes, Tree.bytes_map value]
  | cons before value behind rest =>
      simp only [Items.map, Items.bytes, Tree.bytes_map value,
        Items.bytes_map rest]

theorem Members.bytes_map (members : Members L) :
    (members.map translate).bytes render =
      members.bytes fun literal => render (translate literal) := by
  cases members with
  | last before key behindKey beforeValue value behind =>
      simp only [Members.map, Members.bytes, Tree.bytes_map value]
  | cons before key behindKey beforeValue value behind rest =>
      simp only [Members.map, Members.bytes, Tree.bytes_map value,
        Members.bytes_map rest]

end

end BytesMap

/-- A value with blanks around it. -/
structure Text (L : Type) where
  before : Blank
  value : Tree L
  behind : Blank

def Text.bytes {L : Type} (render : L → List UInt8) (text : Text L) :
    List UInt8 :=
  text.before.bytes ++ text.value.bytes render ++ text.behind.bytes

def Text.map {L M : Type} (translate : L → M) (text : Text L) : Text M :=
  ⟨text.before, text.value.map translate, text.behind⟩

theorem Text.bytes_map {L M : Type} (render : M → List UInt8)
    (translate : L → M) (text : Text L) :
    (text.map translate).bytes render =
      text.bytes fun literal => render (translate literal) := by
  simp only [Text.map, Text.bytes, Tree.bytes_map]

/-- A strict text is a permissive one whose literals all stand in double
quotes. -/
theorem Text.bytes_toLiteral (text : Text StrictLiteral) :
    (text.map StrictLiteral.toLiteral).bytes Literal.bytes =
      text.bytes StrictLiteral.bytes :=
  text.bytes_map Literal.bytes StrictLiteral.toLiteral

end JsonIntake.Grammar
