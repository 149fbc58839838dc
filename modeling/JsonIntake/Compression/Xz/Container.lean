import JsonIntake.Compression.Checksum
import JsonIntake.Compression.Xz.Chunks

/-!
# Xz

An xz file is a sequence of streams.  A stream is a header, blocks, an index
of the blocks and a footer that repeats the header.  Only blocks without
further filters are decoded.  A file may also have the older form: a header
and one run of symbols.
-/

namespace JsonIntake.Xz

/-- A number in groups of seven bits, least significant group first, of at
most nine bytes and without needless zero groups. -/
def readVariable : (steps : Nat) → List UInt8 → Option (Nat × List UInt8)
  | 0, _ => none
  | _ + 1, [] => none
  | steps + 1, byte :: rest =>
    if byte < 128 then some (byte.toNat, rest)
    else do
      let (more, rest) ← readVariable steps rest
      if more = 0 then none else some (byte.toNat - 128 + 128 * more, rest)

def readNumber (bytes : List UInt8) : Option (Nat × List UInt8) :=
  readVariable 9 bytes

/-- Number of bytes that fill up a multiple of four. -/
def paddingOf (length : Nat) : Nat := (4 - length % 4) % 4

/-- Zero bytes that have to stand behind `length` bytes. -/
def skipPadding? (length : Nat) (bytes : List UInt8) :
    Option (List UInt8) := do
  let (padding, rest) ← splitExact? (paddingOf length) bytes
  if padding.all (· = 0) then some rest else none

/-- Size of the check sum of every block, by the number of its kind. -/
def checkSize (kind : Nat) : Nat :=
  if kind = 0 then 0 else 4 * Nat.pow 2 ((kind - 1) / 3)

/-- The check sum of a content, if the kind is known. -/
def checkOf? (kind : Nat) (content : List UInt8) : Option (List UInt8) :=
  match kind with
  | 1 => some (LittleEndian.bytes 4 (crc32 content).toNat)
  | 4 => some (LittleEndian.bytes 8 (crc64 content).toNat)
  | 10 => some (Sha256.hash content)
  | _ => none

/-- What the index says about a block. -/
structure BlockRecord where
  /-- Size of the block without the padding. -/
  size : Nat
  contentSize : Nat
deriving DecidableEq

/-- The size of the dictionary, by a number: powers of two and the numbers
half way between them. -/
def dictionarySize? (n : Nat) : Option Nat :=
  if 40 < n then none
  else if n = 40 then some (Nat.pow 2 32 - 1)
  else some ((2 + n % 2) * Nat.pow 2 (n / 2 + 11))

/-- Smallest dictionary that is kept. -/
def minDictionary : Nat := 4096

/-- A number that stands in a header only if its flag does. -/
def readOptional (present : Bool) (bytes : List UInt8) :
    Option (Option Nat × List UInt8) :=
  if present then do
    let (n, rest) ← readNumber bytes
    some (some n, rest)
  else some (none, bytes)

/-- The header of a block: the sizes it tells, and the size of the
dictionary. -/
def readBlockHeader (header : List UInt8) :
    Option (Option Nat × Option Nat × Nat) := do
  let (flags, rest) ← takeNumber? 1 (header.drop 1)
  if flags % 64 ≠ 0 then none
  else
    let (packedSize, rest) ← readOptional (flags.testBit 6) rest
    let (contentSize, rest) ← readOptional (flags.testBit 7) rest
    let (filter, rest) ← readNumber rest
    let (width, rest) ← readNumber rest
    if filter ≠ 0x21 ∨ width ≠ 1 then none
    else
      let (setting, rest) ← takeNumber? 1 rest
      let dictionary ← dictionarySize? setting
      if rest.all (· = 0) then some (packedSize, contentSize, dictionary)
      else none

/-- A block whose first byte is not zero. -/
def readBlock (kind : Nat) (bytes : List UInt8) :
    Option (List UInt8 × BlockRecord × List UInt8) := do
  let (units, _) ← takeNumber? 1 bytes
  let headerSize := 4 * (units + 1)
  let (header, rest) ← splitExact? (headerSize - 4) bytes
  let (check, body) ← takeNumber? 4 rest
  if (crc32 header).toNat ≠ check then none
  else
    let (packedWanted, contentWanted, dictionary) ← readBlockHeader header
    let (output, rest) ←
      readChunks (max dictionary minDictionary) (body.length + 1) .initial #[]
        body
    let packedSize := body.length - rest.length
    let content := output.toList
    if packedWanted.any (· ≠ packedSize) ∨
        contentWanted.any (· ≠ output.size) then none
    else
      let rest ← skipPadding? packedSize rest
      let (sum, rest) ← splitExact? (checkSize kind) rest
      if (checkOf? kind content).any (· ≠ sum) then none
      else
        some (content, ⟨headerSize + packedSize + checkSize kind, output.size⟩,
          rest)

/-- Blocks up to the index, the last one first, with their records. -/
def readBlocks (kind : Nat) :
    (steps : Nat) → (contents : List (List UInt8)) →
      (records : List BlockRecord) → List UInt8 →
      Option (List (List UInt8) × List BlockRecord × List UInt8)
  | 0, _, _, _ => none
  | _ + 1, _, _, [] => none
  | steps + 1, contents, records, first :: rest =>
    if first = 0 then some (contents, records, first :: rest)
    else do
      let (content, record, rest) ← readBlock kind (first :: rest)
      readBlocks kind steps (content :: contents) (record :: records) rest

/-- The records in an index. -/
def readRecords : (count : Nat) → (reversed : List BlockRecord) →
    List UInt8 → Option (List BlockRecord × List UInt8)
  | 0, reversed, bytes => some (reversed.reverse, bytes)
  | count + 1, reversed, bytes => do
    let (size, bytes) ← readNumber bytes
    let (contentSize, bytes) ← readNumber bytes
    readRecords count (⟨size, contentSize⟩ :: reversed) bytes

/-- The bytes behind the index, and its size, if it has the given records. -/
def skipIndex? (records : List BlockRecord) (bytes : List UInt8) :
    Option (Nat × List UInt8) := do
  let (count, rest) ← readNumber (bytes.drop 1)
  if count ≠ records.length then none
  else
    let (found, rest) ← readRecords count [] rest
    let rest ← skipPadding? (bytes.length - rest.length) rest
    let size := bytes.length - rest.length
    let (check, rest) ← takeNumber? 4 rest
    if found = records ∧ (crc32 (bytes.take size)).toNat = check then
      some (size + 4, rest)
    else none

/-- First bytes of a stream. -/
def signature : List UInt8 := [0xfd, 0x37, 0x7a, 0x58, 0x5a, 0x00]

/-- Last bytes of a stream. -/
def endSignature : List UInt8 := [0x59, 0x5a]

/-- The stream in front: its contents, last one first, and the bytes behind
it. -/
def readStream (contents : List (List UInt8)) (bytes : List UInt8) :
    Option (List (List UInt8) × List UInt8) := do
  let (start, rest) ← splitExact? 6 bytes
  let (flags, rest) ← splitExact? 2 rest
  let (check, rest) ← takeNumber? 4 rest
  let kind ←
    match flags with
    | [0, kind] => if kind < 16 then some kind.toNat else none
    | _ => none
  if start ≠ signature ∨ (crc32 flags).toNat ≠ check then none
  else
    let (contents, records, rest) ←
      readBlocks kind (rest.length + 1) contents [] rest
    let (indexSize, rest) ← skipIndex? records.reverse rest
    let (check, rest) ← takeNumber? 4 rest
    let (tail, rest) ← splitExact? 6 rest
    let (ending, rest) ← splitExact? 2 rest
    let (units, _) ← takeNumber? 4 tail
    if (crc32 tail).toNat = check ∧ 4 * (units + 1) = indexSize ∧
        tail.drop 4 = flags ∧ ending = endSignature then
      some (contents, rest)
    else none

/-- All streams.  Behind a stream there may be zero bytes in groups of
four. -/
def readStreams : (steps : Nat) → (contents : List (List UInt8)) →
    List UInt8 → Option (List UInt8)
  | 0, _, _ => none
  | steps + 1, contents, bytes => do
    let (contents, rest) ← readStream contents bytes
    let next := rest.dropWhile (· = 0)
    if (rest.length - next.length) % 4 ≠ 0 then none
    else if next.isEmpty then some contents.reverse.flatten
    else readStreams steps contents next

/-- Sizes of dictionaries that files of the older form have: powers of two,
and the sums of two neighbouring ones. -/
def isUsualSize (size : Nat) : Bool :=
  size == Nat.pow 2 32 - 1 ||
    (List.range 33).any fun n =>
      size == Nat.pow 2 n || (1 ≤ n && size == Nat.pow 2 n + Nat.pow 2 (n - 1))

/-- A file of the older form: properties, the sizes of dictionary and content,
and symbols.  A content of unknown size ends with a mark.  No input byte
carries more than four hundred decisions, which bounds the steps there. -/
def decodeOlder? (bytes : List UInt8) : Option (List UInt8) := do
  let (first, rest) ← splitExact? 1 bytes
  let properties ← first.head?.bind Properties.ofByte?
  let (dictionary, rest) ← takeNumber? 4 rest
  let (size, rest) ← takeNumber? 8 rest
  let isKnown := size ≠ Nat.pow 2 64 - 1
  if 4 < properties.literalContext + properties.literalPosition ∨
      ¬ isUsualSize dictionary ∨ (isKnown ∧ Nat.pow 2 38 ≤ size) then none
  else
    let decoder ← RangeDecoder.start? (initialWeights properties) rest
    let target := if isKnown then some size else none
    let steps := if isKnown then size else 400 * (rest.length + 1)
    let (_, output, decoder) ←
      decodeSymbols properties 0 (max dictionary minDictionary) target steps
        .initial #[] decoder
    if decoder.isFinished then some output.toList else none

def decode? (bytes : List UInt8) : Option (List UInt8) :=
  match bytes with
  | [] => none
  | 0xfd :: _ => readStreams (bytes.length + 1) [] bytes
  | _ => decodeOlder? bytes

/-- Write a number in groups of seven bits. -/
def writeNumber : (steps : Nat) → Nat → List UInt8
  | 0, n => [UInt8.ofNat (n % 128)]
  | steps + 1, n =>
    if n < 128 then [UInt8.ofNat n]
    else UInt8.ofNat (128 + n % 128) :: writeNumber steps (n / 128)

/-- Bytes with zeros up to a multiple of four. -/
def padded (bytes : List UInt8) : List UInt8 :=
  bytes ++ List.replicate (paddingOf bytes.length) 0

/-- Bytes with their check sum behind them. -/
def checked (bytes : List UInt8) : List UInt8 :=
  bytes ++ LittleEndian.bytes 4 (crc32 bytes).toNat

/-- A stream with the given content in chunks of bytes as they are. -/
def stored (content : List UInt8) : List UInt8 :=
  let flags : List UInt8 := [0, 1]
  let header := checked [2, 0, 0x21, 1, 0x16, 0, 0, 0]
  let chunks := storedChunks (content.length + 1) 1 content
  let block := header ++ padded chunks ++
    LittleEndian.bytes 4 (crc32 content).toNat
  let size := header.length + chunks.length + 4
  let index := checked (padded
    (0 :: 1 :: writeNumber 8 size ++ writeNumber 8 content.length))
  let tail := LittleEndian.bytes 4 (index.length / 4 - 1) ++ flags
  signature ++ checked flags ++ block ++ index ++
    LittleEndian.bytes 4 (crc32 tail).toNat ++ tail ++ endSignature

end JsonIntake.Xz
