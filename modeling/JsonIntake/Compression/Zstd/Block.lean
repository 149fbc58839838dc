import JsonIntake.Compression.Zstd.Huffman

/-!
# Compressed blocks

A compressed block has two parts: literals, which are bytes in a prefix code,
and sequences.  A sequence takes some literals and then repeats some output.
The tables of a block may be used again by the next one.
-/

namespace JsonIntake.Zstd

/-- The numbers that a code stands for: a base and a number of extra bits. -/
structure CodeKind where
  /-- Base and extra bits by code. -/
  table : Array (Nat × Nat)
  /-- Weights of the table that needs no description, and its size. -/
  weights : List Int
  log : Nat
  maxLog : Nat

def literalLengths : CodeKind :=
  { table := #[
      (0, 0), (1, 0), (2, 0), (3, 0), (4, 0), (5, 0), (6, 0), (7, 0),
      (8, 0), (9, 0), (10, 0), (11, 0), (12, 0), (13, 0), (14, 0),
      (15, 0), (16, 1), (18, 1), (20, 1), (22, 1), (24, 2), (28, 2),
      (32, 3), (40, 3), (48, 4), (64, 6), (128, 7), (256, 8), (512, 9),
      (1024, 10), (2048, 11), (4096, 12), (8192, 13), (16384, 14),
      (32768, 15), (65536, 16)]
    weights :=
      [4, 3, 2, 2, 2, 2, 2, 2, 2, 2, 2, 2, 2, 1, 1, 1, 2, 2, 2, 2, 2, 2, 2,
        2, 2, 3, 2, 1, 1, 1, 1, 1, -1, -1, -1, -1]
    log := 6
    maxLog := 9 }

def matchLengths : CodeKind :=
  { table :=
      ((List.range 32).map fun n => (n + 3, 0)).toArray ++ #[
      (35, 1), (37, 1), (39, 1), (41, 1), (43, 2), (47, 2), (51, 3),
      (59, 3), (67, 4), (83, 4), (99, 5), (131, 7), (259, 8), (515, 9),
      (1027, 10), (2051, 11), (4099, 12), (8195, 13), (16387, 14),
      (32771, 15), (65539, 16)]
    weights :=
      [1, 4, 3, 2, 2, 2, 2, 2, 2, 1, 1, 1, 1, 1, 1, 1, 1, 1, 1, 1, 1, 1, 1,
        1, 1, 1, 1, 1, 1, 1, 1, 1, 1, 1, 1, 1, 1, 1, 1, 1, 1, 1, 1, 1, 1, 1,
        -1, -1, -1, -1, -1, -1, -1]
    log := 6
    maxLog := 9 }

def offsets : CodeKind :=
  { table := ((List.range 32).map fun n => (Nat.pow 2 n, n)).toArray
    weights :=
      [1, 1, 1, 1, 1, 1, 2, 2, 2, 1, 1, 1, 1, 1, 1, 1, 1, 1, 1, 1, 1, 1, 1,
        1, -1, -1, -1, -1, -1]
    log := 5
    maxLog := 8 }

/-- What one block leaves to the next: tables, the last three offsets, and
all output of the frame. -/
structure Memory where
  huffman : Option HuffmanTable
  literalTable : Option FseTable
  offsetTable : Option FseTable
  matchTable : Option FseTable
  recent : Nat × Nat × Nat
  output : Array UInt8

def Memory.initial : Memory := ⟨none, none, none, none, (1, 4, 8), #[]⟩

/-- Greatest number of bytes in a block. -/
def maxBlock : Nat := 128 * 1024

/-- Literals that are coded, with a table in front or the one that was used
last. -/
def readCoded (huffman : Option HuffmanTable) (hasTable isSingle : Bool)
    (count : Nat) (bytes : List UInt8) :
    Option (Array UInt8 × HuffmanTable) := do
  let (table, rest) ←
    if hasTable then HuffmanTable.read? bytes
    else huffman.map fun table => (table, bytes)
  let output ←
    if isSingle then table.decodeStream count #[] rest
    else table.decodeFour count rest
  some (output, table)

/-- The literals of a block, the table to be used again, and the bytes behind
them. -/
def readLiterals (huffman : Option HuffmanTable) (bytes : List UInt8) :
    Option (Array UInt8 × Option HuffmanTable × List UInt8) := do
  let (first, _) ← takeNumber? 1 bytes
  let kind := first % 4
  let sizeForm := first / 4 % 4
  if kind < 2 then
    let (width, shift) :=
      match sizeForm with
      | 1 => (2, 4)
      | 3 => (3, 4)
      | _ => (1, 3)
    let (header, rest) ← takeNumber? width bytes
    let count := header / Nat.pow 2 shift
    if maxBlock < count then none
    else if kind = 0 then
      let (content, rest) ← splitExact? count rest
      some (content.toArray, huffman, rest)
    else
      match rest with
      | [] => none
      | byte :: rest => some (Array.replicate count byte, huffman, rest)
  else
    let (width, sizeBits) :=
      match sizeForm with
      | 2 => (4, 14)
      | 3 => (5, 18)
      | _ => (3, 10)
    let (header, rest) ← takeNumber? width bytes
    let count := header / 16 % Nat.pow 2 sizeBits
    let size := header / Nat.pow 2 (4 + sizeBits)
    if maxBlock < count ∨ count = 0 then none
    else
      let (coded, rest) ← splitExact? size rest
      let (content, table) ←
        readCoded huffman (kind == 2) (sizeForm == 0) count coded
      some (content, some table, rest)

/-- The table for one kind of code, by its mode: the one without description,
a single code, a description, or the one that was used last. -/
def chooseTable (kind : CodeKind) (last : Option FseTable) (mode : Nat)
    (bytes : List UInt8) : Option (FseTable × List UInt8) :=
  match mode with
  | 0 => some (FseTable.ofWeights kind.log kind.weights, bytes)
  | 1 =>
    match bytes with
    | code :: rest =>
      if code.toNat < kind.table.size then
        some (FseTable.single code.toNat, rest)
      else none
    | [] => none
  | 2 => FseTable.read? kind.maxLog (kind.table.size - 1) bytes
  | _ => last.map fun table => (table, bytes)

/-- How many sequences there are. -/
def readCount (bytes : List UInt8) : Option (Nat × List UInt8) := do
  let (first, rest) ← takeNumber? 1 bytes
  if first < 128 then some (first, rest)
  else if first < 255 then
    let (low, rest) ← takeNumber? 1 rest
    some ((first - 128) * 256 + low, rest)
  else
    let (count, rest) ← takeNumber? 2 rest
    some (count + 0x7f00, rest)

/-- Take a number of literals, then repeat output. -/
structure Sequence where
  literals : Nat
  matched : Nat
  /-- The offset, or one of the last offsets by number. -/
  offset : Nat

/-- The tables of a block, or the present states of their decoders. -/
structure Triple (α : Type) where
  literal : α
  offset : α
  matched : α

/-- The number of a state: the base of its code and extra bits. -/
def readNumber (kind : CodeKind) (table : FseTable) (state : Nat)
    (bits : BackwardBits) : Option (Nat × BackwardBits) := do
  let code ← table.symbolAt state
  let (base, extra) ← kind.table[code]?
  let (more, bits) ← bits.read extra
  some (base + more, bits)

/-- Sequences, last one first, up to the end of the bits. -/
def readSequences (tables : Triple FseTable) :
    (count : Nat) → Triple Nat → (reversed : List Sequence) →
      BackwardBits → Option (List Sequence)
  | 0, _, reversed, bits => if bits.remaining = 0 then some reversed else none
  | count + 1, states, reversed, bits => do
    let (offset, bits) ←
      readNumber offsets tables.offset states.offset bits
    let (matched, bits) ←
      readNumber matchLengths tables.matched states.matched bits
    let (literals, bits) ←
      readNumber literalLengths tables.literal states.literal bits
    let reversed := ⟨literals, matched, offset⟩ :: reversed
    if count = 0 then readSequences tables count states reversed bits
    else
      let (literal, bits) ← tables.literal.next states.literal bits
      let (matched, bits) ← tables.matched.next states.matched bits
      let (offset, bits) ← tables.offset.next states.offset bits
      readSequences tables count ⟨literal, offset, matched⟩ reversed bits

/-- The offset of a sequence, and the last offsets after it.  Numbers up to
three name a recent offset; without literals they name the one behind it. -/
def resolveOffset (sequence : Sequence) (recent : Nat × Nat × Nat) :
    Nat × Nat × Nat × Nat :=
  let (a, b, c) := recent
  if 3 < sequence.offset then
    let offset := sequence.offset - 3
    (offset, offset, a, b)
  else
    match sequence.offset + if sequence.literals = 0 then 1 else 0 with
    | 1 => (a, a, b, c)
    | 2 => (b, b, a, c)
    | 3 => (c, c, a, b)
    | _ => (a - 1, a - 1, a, b)

/-- Run sequences; the literals that are left come last. -/
def runSequences (literals : Array UInt8) :
    List Sequence → (taken : Nat) → Nat × Nat × Nat → Array UInt8 →
      Option ((Nat × Nat × Nat) × Array UInt8)
  | [], taken, recent, output =>
    some (recent, output ++ literals.extract taken literals.size)
  | sequence :: rest, taken, recent, output =>
    let stop := taken + sequence.literals
    if literals.size < stop then none
    else
      let output := output ++ literals.extract taken stop
      let (offset, recent) := resolveOffset sequence recent
      if offset = 0 ∨ output.size < offset then none
      else
        runSequences literals rest stop recent
          (copyBack offset sequence.matched output)

/-- The sequences behind the literals of a block, and the tables to be used
again. -/
def readSequencePart (memory : Memory) (bytes : List UInt8) :
    Option (List Sequence × Memory) := do
  let (count, rest) ← readCount bytes
  if count = 0 then
    if rest.isEmpty then some ([], memory) else none
  else
    let (modes, rest) ← takeNumber? 1 rest
    if modes % 4 ≠ 0 then none
    else
      let (literal, rest) ← chooseTable literalLengths memory.literalTable
        (modes / 64) rest
      let (offset, rest) ← chooseTable offsets memory.offsetTable
        (modes / 16 % 4) rest
      let (matched, rest) ← chooseTable matchLengths memory.matchTable
        (modes / 4 % 4) rest
      let bits ← BackwardBits.ofList? rest
      let (literalState, bits) ← literal.start bits
      let (offsetState, bits) ← offset.start bits
      let (matchState, bits) ← matched.start bits
      let reversed ← readSequences ⟨literal, offset, matched⟩ count
        ⟨literalState, offsetState, matchState⟩ [] bits
      some (reversed.reverse,
        { memory with
          literalTable := some literal
          offsetTable := some offset
          matchTable := some matched })

/-- Decode a compressed block. -/
def decodeBlock (memory : Memory) (bytes : List UInt8) : Option Memory := do
  let (literals, huffman, rest) ← readLiterals memory.huffman bytes
  let (sequences, memory) ← readSequencePart { memory with huffman } rest
  let (recent, output) ←
    runSequences literals sequences 0 memory.recent memory.output
  some { memory with recent, output }

end JsonIntake.Zstd
