import JsonIntake.Compression.Bits

/-!
# Deflate

A deflate stream is a sequence of blocks.  A block holds bytes as they are, or
literals and matches in prefix codes, which are fixed or stand in front of the
block.  A match repeats output that may lie up to 32768 bytes back; what lies
in front of the output counts as zero.
-/

namespace JsonIntake.Deflate

open BitCursor (lowBit lowBits)

/-- Least length of a match and number of extra bits, by symbol. -/
def lengthTable : Array (Nat × Nat) := #[
  (3, 0), (4, 0), (5, 0), (6, 0), (7, 0), (8, 0), (9, 0), (10, 0),
  (11, 1), (13, 1), (15, 1), (17, 1), (19, 2), (23, 2), (27, 2), (31, 2),
  (35, 3), (43, 3), (51, 3), (59, 3), (67, 4), (83, 4), (99, 4), (115, 4),
  (131, 5), (163, 5), (195, 5), (227, 5), (258, 0)]

/-- Least distance of a match and number of extra bits, by symbol. -/
def distanceTable : Array (Nat × Nat) := #[
  (1, 0), (2, 0), (3, 0), (4, 0), (5, 1), (7, 1), (9, 2), (13, 2),
  (17, 3), (25, 3), (33, 4), (49, 4), (65, 5), (97, 5), (129, 6),
  (193, 6), (257, 7), (385, 7), (513, 8), (769, 8), (1025, 9), (1537, 9),
  (2049, 10), (3073, 10), (4097, 11), (6145, 11), (8193, 12),
  (12289, 12), (16385, 13), (24577, 13)]

/-- Longest code of a literal, length or distance. -/
def longestCode : Nat := 15

def fixedLiteralCode : PrefixCode :=
  PrefixCode.ofLengths longestCode
    (List.replicate 144 8 ++ List.replicate 112 9 ++ List.replicate 24 7 ++
      List.replicate 8 8)

def fixedDistanceCode : PrefixCode :=
  PrefixCode.ofLengths longestCode (List.replicate 32 5)

/-- A number from a table: the base of a symbol and its extra bits. -/
def extended (table : Array (Nat × Nat)) (symbol : Nat) : BitReader Nat :=
  fun cursor => do
    let (base, extra) ← table[symbol]?
    let (more, cursor) ← lowBits extra cursor
    some (base + more, cursor)

/-- Literals and matches up to the end of their block.  Every symbol takes at
least one bit, so the number of bits bounds the steps. -/
def readSymbols (literals distances : PrefixCode) :
    (steps : Nat) → Array UInt8 → BitReader (Array UInt8)
  | 0, _, _ => none
  | steps + 1, output, cursor => do
    let (symbol, cursor) ← literals.decode lowBit cursor
    if symbol < 256 then
      readSymbols literals distances steps
        (output.push (UInt8.ofNat symbol)) cursor
    else if symbol = 256 then some (output, cursor)
    else
      let (length, cursor) ← extended lengthTable (symbol - 257) cursor
      let (mark, cursor) ← distances.decode lowBit cursor
      let (distance, cursor) ← extended distanceTable mark cursor
      readSymbols literals distances steps (copyBack distance length output)
        cursor

/-- The order in which the lengths of the codes for lengths stand. -/
def lengthOrder : List Nat :=
  [16, 17, 18, 0, 8, 7, 9, 6, 10, 5, 11, 4, 12, 3, 13, 2, 14, 1, 15]

/-- Read `count` numbers of three bits. -/
def readShortLengths : (count : Nat) → BitReader (List Nat)
  | 0, cursor => some ([], cursor)
  | count + 1, cursor => do
    let (length, cursor) ← lowBits 3 cursor
    let (rest, cursor) ← readShortLengths count cursor
    some (length :: rest, cursor)

/-- Read code lengths until there are `total` of them; `reversed` holds those
already read, last one first. -/
def readLengths (code : PrefixCode) (total : Nat) :
    (steps : Nat) → (reversed : List Nat) → BitReader (List Nat)
  | 0, _, _ => none
  | steps + 1, reversed, cursor =>
    if reversed.length = total then some (reversed.reverse, cursor)
    else if total < reversed.length then none
    else do
      let (symbol, cursor) ← code.decode lowBit cursor
      match symbol with
      | 16 =>
        let last ← reversed.head?
        let (more, cursor) ← lowBits 2 cursor
        readLengths code total steps
          (List.replicate (3 + more) last ++ reversed) cursor
      | 17 =>
        let (more, cursor) ← lowBits 3 cursor
        readLengths code total steps
          (List.replicate (3 + more) 0 ++ reversed) cursor
      | 18 =>
        let (more, cursor) ← lowBits 7 cursor
        readLengths code total steps
          (List.replicate (11 + more) 0 ++ reversed) cursor
      | length => readLengths code total steps (length :: reversed) cursor

/-- A code that may stand in front of a block: a complete one, or one with a
single symbol or none. -/
def acceptCode (lengths : List Nat) : Option PrefixCode :=
  let code := PrefixCode.ofLengths longestCode lengths
  if code.isComplete ∨ code.size ≤ 1 then some code else none

/-- The codes in front of a block, for literals and for distances. -/
def readCodes : BitReader (PrefixCode × PrefixCode) := fun cursor => do
  let (literals, cursor) ← lowBits 5 cursor
  let (distances, cursor) ← lowBits 5 cursor
  let (lengths, cursor) ← lowBits 4 cursor
  if 29 < literals ∨ 29 < distances then none
  else
    let (short, cursor) ← readShortLengths (lengths + 4) cursor
    let placed := (List.range 19).map fun symbol =>
      (((lengthOrder.zip short).find? fun entry => entry.1 == symbol).map
        (·.2)).getD 0
    let code := PrefixCode.ofLengths 7 placed
    if ¬ code.isComplete then none
    else
      let total := literals + 257 + (distances + 1)
      let (all, cursor) ← readLengths code total (total + 1) [] cursor
      let literalCode ← acceptCode (all.take (literals + 257))
      let distanceCode ← acceptCode (all.drop (literals + 257))
      some ((literalCode, distanceCode), cursor)

/-- A block of bytes as they are: their number twice, once inverted, and the
bytes. -/
def readStored (output : Array UInt8) : BitReader (Array UInt8) :=
  fun cursor => do
    let (length, cursor) ← lowBits 16 cursor.alignToByte
    let (check, cursor) ← lowBits 16 cursor
    if length + check ≠ 65535 then none
    else cursor.copyBytes length output

/-- The blocks up to the last one. -/
def readBlocks :
    (steps : Nat) → Array UInt8 → BitReader (Array UInt8)
  | 0, _, _ => none
  | steps + 1, output, cursor => do
    let (last, cursor) ← lowBit cursor
    let (kind, cursor) ← lowBits 2 cursor
    let (output, cursor) ←
      match kind with
      | 0 => readStored output cursor
      | 1 =>
        readSymbols fixedLiteralCode fixedDistanceCode
          (cursor.remaining + 1) output cursor
      | 2 => do
        let ((literals, distances), cursor) ← readCodes cursor
        readSymbols literals distances (cursor.remaining + 1) output cursor
      | _ => none
    if last = 1 then some (output, cursor)
    else readBlocks steps output cursor

/-- The content of a stream at the front of some bytes, and the bytes behind
the stream. -/
def inflate? (bytes : List UInt8) : Option (List UInt8 × List UInt8) := do
  let start := BitCursor.ofList bytes
  let (output, cursor) ← readBlocks (start.remaining + 1) #[] start
  some (output.toList, cursor.restBytes)

/-- Largest number of bytes in one stored block. -/
def maxStored : Nat := 65535

/-- A stream of stored blocks with the given content. -/
def stored (content : List UInt8) : List UInt8 :=
  let block (last : UInt8) (bytes : List UInt8) : List UInt8 :=
    last :: LittleEndian.bytes 2 bytes.length ++
      LittleEndian.bytes 2 (65535 - bytes.length) ++ bytes
  let rec go : Nat → List UInt8 → List UInt8
    | 0, rest => block 1 (rest.take maxStored)
    | steps + 1, rest =>
      if rest.length ≤ maxStored then block 1 rest
      else block 0 (rest.take maxStored) ++ go steps (rest.drop maxStored)
  go (content.length / maxStored) content

end JsonIntake.Deflate
