import JsonIntake.Json.Number

/-!
# Strings in a JSON text

Escapes are resolved byte by byte; at the closing quote the whole has to be
valid UTF-8.  An escape stands for a whole character and is written in whole
characters, so the written text is valid just when the resolved one is.
-/

namespace JsonIntake.Json

/-- The value of a hexadecimal digit. -/
def hexValue? (byte : UInt8) : Option Nat :=
  let n := byte.toNat
  if 48 ≤ n ∧ n ≤ 57 then some (n - 48)
  else if 65 ≤ n ∧ n ≤ 70 then some (n - 55)
  else if 97 ≤ n ∧ n ≤ 102 then some (n - 87)
  else none

/-- Four hexadecimal digits. -/
def readHexUnit : Reader Nat
  | a :: b :: c :: d :: rest =>
    match hexValue? a, hexValue? b, hexValue? c, hexValue? d with
    | some a, some b, some c, some d =>
      .ok (((a * 16 + b) * 16 + c) * 16 + d, rest)
    | _, _, _, _ => stopHere .invalidEscape rest
  | _ => stopHere .endInString []

def isLeadingSurrogate (unit : Nat) : Bool := 0xd800 ≤ unit && unit < 0xdc00

def isTrailingSurrogate (unit : Nat) : Bool := 0xdc00 ≤ unit && unit < 0xe000

/-- One expected byte between the two halves of a surrogate pair. -/
def readPairByte (expected : UInt8) :
    List UInt8 → Except Stop (List UInt8)
  | [] => stopHere .endInString []
  | byte :: rest =>
    if byte = expected then .ok rest
    else stopHere .unfinishedSurrogatePair rest

/-- A code point behind the `u` of an escape: one unit, or two that form a
surrogate pair. -/
def readCodePoint : Reader Nat := fun input => do
  let (first, rest) ← readHexUnit input
  if isTrailingSurrogate first then stopHere .loneSurrogate rest
  else if isLeadingSurrogate first then
    let rest ← readPairByte 92 rest
    let rest ← readPairByte 117 rest
    let (second, rest) ← readHexUnit rest
    if isTrailingSurrogate second then
      .ok (0x10000 + (first - 0xd800) * 0x400 + (second - 0xdc00), rest)
    else stopHere .loneSurrogate rest
  else .ok (first, rest)

/-- The bytes of an escape, behind its backslash. -/
def readEscape : Reader (List UInt8)
  | [] => stopHere .endInString []
  | 34 :: rest => .ok ([34], rest)
  | 92 :: rest => .ok ([92], rest)
  | 47 :: rest => .ok ([47], rest)
  | 98 :: rest => .ok ([8], rest)
  | 102 :: rest => .ok ([12], rest)
  | 110 :: rest => .ok ([10], rest)
  | 114 :: rest => .ok ([13], rest)
  | 116 :: rest => .ok ([9], rest)
  | 117 :: rest => do
    let (code, rest) ← readCodePoint rest
    .ok (String.utf8EncodeChar (Char.ofNat code), rest)
  | _ :: rest => stopHere .invalidEscape rest

/-- The bytes of a string up to its closing quote.  `read` holds those
already read, last one first; every step takes at least one byte, so the
length of the input bounds their number. -/
def readStringBytes : Nat → List UInt8 → Reader (List UInt8)
  | 0, _, rest => stopHere .endInString rest
  | _ + 1, _, [] => stopHere .endInString []
  | _ + 1, read, 34 :: rest => .ok (read.reverse, rest)
  | steps + 1, read, 92 :: rest =>
    match readEscape rest with
    | .ok (bytes, rest) => readStringBytes steps (bytes.reverse ++ read) rest
    | .error stop => .error stop
  | steps + 1, read, byte :: rest =>
    if byte < 32 then stopHere .controlCharacter rest
    else readStringBytes steps (byte :: read) rest

/-- The number of bytes before the first one that begins no character, from
`start` on.  Every character takes at least one byte, so their number bounds
the steps. -/
def validLength (bytes : ByteArray) : (steps start : Nat) → Nat
  | 0, start => start
  | steps + 1, start =>
    match bytes.utf8DecodeChar? start with
    | some c => validLength bytes steps (start + c.utf8Size)
    | none => start

/-- A string, behind its opening quote.  It takes no more steps than the
input has bytes, and one more. -/
def readString (steps : Nat) : Reader String := fun input => do
  let (bytes, rest) ← readStringBytes steps [] input
  match String.fromUTF8? ⟨bytes.toArray⟩ with
  | some text => .ok (text, rest)
  | none =>
    let written := input.take (input.length - rest.length)
    let valid := validLength ⟨written.toArray⟩ written.length 0
    stopAtNext .invalidCodePoint (input.drop valid)

end JsonIntake.Json
