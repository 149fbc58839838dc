import JsonIntake.Compression.Checksum
import JsonIntake.Compression.Deflate
import JsonIntake.Failure

/-!
# Zip archives

Only the first entry of an archive counts: a local header, the name of the
entry, extra fields, and the content, stored or deflated.
-/

namespace JsonIntake.Zip

/-- The number of `width` bytes at an offset; bytes that are missing count as
zero. -/
def numberAt (bytes : List UInt8) (offset width : Nat) : Nat :=
  LittleEndian.value ((bytes.drop offset).take width)

def signature : List UInt8 := [0x50, 0x4b, 0x03, 0x04]

/-- Length of the part of a local header that always has the same form. -/
def headerLength : Nat := 30

/-- In place of a size: the size stands in an extra field. -/
def sizeElsewhere : Nat := Nat.pow 2 32 - 1

/-- Number of the extra field for large sizes. -/
def largeSizeField : Nat := 1

/-- The size of the content according to the extra fields: the second number
in the body of the first field for large sizes that has room for it.  Every
field takes at least four bytes, so the length bounds the steps. -/
def sizeInExtra? : (steps : Nat) → List UInt8 → Option Nat
  | 0, _ => none
  | steps + 1, extra => do
    let (field, rest) ← takeNumber? 2 extra
    let (length, rest) ← takeNumber? 2 rest
    let (body, rest) ← splitExact? length rest
    if field = largeSizeField ∧ 16 ≤ length then
      some (numberAt body 8 8)
    else
      sizeInExtra? steps rest

/-- The extra fields stand behind the name of the entry. -/
def extraStart (archive : List UInt8) : Nat :=
  headerLength + numberAt archive 26 2

/-- The content stands behind the extra fields. -/
def dataStart (archive : List UInt8) : Nat :=
  extraStart archive + numberAt archive 28 2

def extraFields (archive : List UInt8) : List UInt8 :=
  (archive.drop (extraStart archive)).take
    (dataStart archive - extraStart archive)

/-- The size of the content, in the header or in an extra field. -/
def contentSize (archive : List UInt8) : Except CodecFault Nat :=
  let size := numberAt archive 18 4
  if size = sizeElsewhere then
    let extra := extraFields archive
    match sizeInExtra? (extra.length + 1) extra with
    | some size => .ok size
    | none => .error .zip64WithoutExtraField
  else .ok size

/-- The content of an entry in front of other data, by its flags and its
method. -/
def content (flags method size : Nat) (data : List UInt8) :
    Except CodecFault (List UInt8) :=
  match method with
  | 0 =>
    if flags / 8 % 2 = 1 then .error .storedWithoutSize
    else
      match splitExact? size data with
      | some (content, _) => .ok content
      | none => .error .truncatedStoredEntry
  | 8 =>
    match Deflate.inflate? data with
    | some (content, _) => .ok content
    | none => .error .corrupt
  | other => .error (.unsupportedMethod other)

/-- The content of the first entry. -/
def firstEntry (archive : List UInt8) : Except CodecFault (List UInt8) :=
  if archive.length < headerLength ∨ archive.take 4 ≠ signature then
    .error .missingLocalHeader
  else if archive.length < dataStart archive then
    .error .truncatedLocalHeader
  else do
    let size ← contentSize archive
    content (numberAt archive 6 2) (numberAt archive 8 2) size
      (archive.drop (dataStart archive))

/-- An archive with one stored entry. -/
def stored (name content : List UInt8) : List UInt8 :=
  let size := LittleEndian.bytes 4 (min content.length (Nat.pow 2 32 - 1))
  signature ++ LittleEndian.bytes 2 20 ++ LittleEndian.bytes 2 0 ++
    LittleEndian.bytes 2 0 ++ List.replicate 4 0 ++
    LittleEndian.bytes 4 (crc32 content).toNat ++ size ++ size ++
    LittleEndian.bytes 2 (min name.length 65535) ++
    LittleEndian.bytes 2 0 ++ name ++ content

end JsonIntake.Zip
