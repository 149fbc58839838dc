import JsonIntake.Compression.Checksum
import JsonIntake.Compression.Deflate

/-!
# Gzip

A gzip file is a sequence of members.  A member is a header, a deflate stream,
and the check sum and length of the content.
-/

namespace JsonIntake.Gzip

/-- Longest text field of a header. -/
def maxText : Nat := 65535

/-- The bytes behind a text that ends in a zero byte. -/
def skipText? (bytes : List UInt8) : Option (List UInt8) :=
  let text := bytes.takeWhile fun byte => byte ≠ 0
  if maxText < text.length then none
  else
    match bytes.drop text.length with
    | [] => none
    | _ :: rest => some rest

/-- The bytes behind the header of a member. -/
def skipHeader? (bytes : List UInt8) : Option (List UInt8) := do
  let (fixed, rest) ← splitExact? 10 bytes
  let flags ←
    match fixed with
    | 0x1f :: 0x8b :: 8 :: flags :: _ => some flags
    | _ => none
  if flags &&& 0xe0 ≠ 0 then none
  else
    let rest ←
      if flags &&& 4 = 0 then some rest
      else do
        let (length, rest) ← takeNumber? 2 rest
        (splitExact? length rest).map (·.2)
    let rest ← if flags &&& 8 = 0 then some rest else skipText? rest
    let rest ← if flags &&& 16 = 0 then some rest else skipText? rest
    if flags &&& 2 = 0 then some rest
    else do
      let header := bytes.take (bytes.length - rest.length)
      let (check, rest) ← takeNumber? 2 rest
      if (crc32 header).toNat % 65536 = check then some rest else none

/-- The content of the member in front, and the bytes behind the member. -/
def member? (bytes : List UInt8) : Option (List UInt8 × List UInt8) := do
  let body ← skipHeader? bytes
  let (content, rest) ← Deflate.inflate? body
  let (check, rest) ← takeNumber? 4 rest
  let (length, rest) ← takeNumber? 4 rest
  if (crc32 content).toNat = check ∧ content.length % Nat.pow 2 32 = length then
    some (content, rest)
  else
    none

/-- The contents of all members, one behind the other.  Every member takes
some bytes, so their number bounds the steps. -/
def members? : (steps : Nat) → (reversed : List (List UInt8)) →
    List UInt8 → Option (List UInt8)
  | 0, _, _ => none
  | steps + 1, reversed, bytes => do
    let (content, rest) ← member? bytes
    let reversed := content :: reversed
    if rest.isEmpty then some reversed.reverse.flatten
    else members? steps reversed rest

def decode? (bytes : List UInt8) : Option (List UInt8) :=
  members? (bytes.length + 1) [] bytes

/-- A file with one member whose content is stored as it is. -/
def stored (content : List UInt8) : List UInt8 :=
  [0x1f, 0x8b, 8, 0, 0, 0, 0, 0, 0, 255] ++ Deflate.stored content ++
    LittleEndian.bytes 4 (crc32 content).toNat ++
    LittleEndian.bytes 4 content.length

end JsonIntake.Gzip
