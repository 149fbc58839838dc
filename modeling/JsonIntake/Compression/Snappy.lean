import JsonIntake.Compression.Bits

/-!
# Snappy

A raw snappy block is the length of its content and a sequence of elements:
literals, and copies of what came before.
-/

namespace JsonIntake.Snappy

/-- A number in groups of seven bits, least significant group first; the top
bit of a byte tells that another one follows. -/
def readLength (shift value : Nat) : List UInt8 → Option (Nat × List UInt8)
  | [] => none
  | byte :: rest =>
    if 64 ≤ shift then none
    else
      let value := (value + byte.toNat % 128 * Nat.pow 2 shift) % Nat.pow 2 64
      if byte < 128 then some (value, rest)
      else readLength (shift + 7) value rest

/-- The literal of a tag with `code` in its upper bits.  From 60 on the code
tells how many bytes the length takes; four bytes have to be there in any
case. -/
def readLiteral? (code : Nat) (rest : List UInt8) :
    Option (List UInt8 × List UInt8) :=
  if code < 60 then splitExact? (code + 1) rest
  else do
    let (_, _) ← splitExact? 4 rest
    let (length, rest) ← takeNumber? (code - 59) rest
    splitExact? (length + 1) rest

/-- A copy that stays behind the front of the output. -/
def copy? (offset length : Nat) (output : Array UInt8) :
    Option (Array UInt8) :=
  if offset = 0 ∨ output.size < offset then none
  else some (copyBack offset length output)

/-- Read elements.  Every element takes at least one byte, so the length of
the input bounds the steps. -/
def readElements : (steps : Nat) → Array UInt8 → List UInt8 →
    Option (Array UInt8)
  | 0, _, _ => none
  | _ + 1, output, [] => some output
  | steps + 1, output, tag :: rest =>
    let code := tag.toNat / 4
    match tag.toNat % 4 with
    | 0 => do
      let (bytes, rest) ← readLiteral? code rest
      readElements steps (bytes.foldl Array.push output) rest
    | 1 => do
      let (low, rest) ← takeNumber? 1 rest
      let output ← copy? (code / 8 * 256 + low) (code % 8 + 4) output
      readElements steps output rest
    | 2 => do
      let (offset, rest) ← takeNumber? 2 rest
      let output ← copy? offset (code + 1) output
      readElements steps output rest
    | _ => do
      let (offset, rest) ← takeNumber? 4 rest
      let output ← copy? offset (code + 1) output
      readElements steps output rest

/-- Greatest length of a content. -/
def maxLength : Nat := Nat.pow 2 32 - 1

def decode? (bytes : List UInt8) : Option (List UInt8) := do
  let (length, rest) ← readLength 0 0 bytes
  if maxLength < length then none
  else
    let output ← readElements (rest.length + 1) #[] rest
    if output.size = length then some output.toList else none

/-- Write a number in groups of seven bits. -/
def writeLength : (steps : Nat) → Nat → List UInt8
  | 0, n => [UInt8.ofNat (n % 128)]
  | steps + 1, n =>
    if n < 128 then [UInt8.ofNat n]
    else UInt8.ofNat (128 + n % 128) :: writeLength steps (n / 128)

/-- A block with one literal. -/
def stored (content : List UInt8) : List UInt8 :=
  writeLength 9 content.length ++
    if content.isEmpty then []
    else 0xfc :: LittleEndian.bytes 4 (content.length - 1) ++ content

end JsonIntake.Snappy
