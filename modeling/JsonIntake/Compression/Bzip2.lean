import JsonIntake.Compression.Bits
import JsonIntake.Compression.Checksum

/-!
# Bzip2

A bzip2 stream is a sequence of blocks.  The bytes of a block have been
shortened where four or more of them are equal, sorted by what follows them,
written as places in a list of recent bytes, and put into prefix codes that
change every fifty symbols.  Decoding takes these steps back one by one.
-/

namespace JsonIntake.Bzip2

/-! ## Flipped bits

The first encoders flipped single bits of a block before they sorted it, so
that long repetitions did not slow the sorting down.  The places of the bits
follow from a table of gaps, and flipping the same bits again gives the block
back.
-/

/-- The gaps between flipped bits.  Behind the last gap comes the first one
again. -/
def flipGaps : List Nat :=
  [619, 720, 127, 481, 931, 816, 813, 233, 566, 247, 985, 724, 205, 454,
    863, 491, 741, 242, 949, 214, 733, 859, 335, 708, 621, 574, 73, 654, 730,
    472, 419, 436, 278, 496, 867, 210, 399, 680, 480, 51, 878, 465, 811, 169,
    869, 675, 611, 697, 867, 561, 862, 687, 507, 283, 482, 129, 807, 591,
    733, 623, 150, 238, 59, 379, 684, 877, 625, 169, 643, 105, 170, 607, 520,
    932, 727, 476, 693, 425, 174, 647, 73, 122, 335, 530, 442, 853, 695, 249,
    445, 515, 909, 545, 703, 919, 874, 474, 882, 500, 594, 612, 641, 801,
    220, 162, 819, 984, 589, 513, 495, 799, 161, 604, 958, 533, 221, 400,
    386, 867, 600, 782, 382, 596, 414, 171, 516, 375, 682, 485, 911, 276, 98,
    553, 163, 354, 666, 933, 424, 341, 533, 870, 227, 730, 475, 186, 263,
    647, 537, 686, 600, 224, 469, 68, 770, 919, 190, 373, 294, 822, 808, 206,
    184, 943, 795, 384, 383, 461, 404, 758, 839, 887, 715, 67, 618, 276, 204,
    918, 873, 777, 604, 560, 951, 160, 578, 722, 79, 804, 96, 409, 713, 940,
    652, 934, 970, 447, 318, 353, 859, 672, 112, 785, 645, 863, 803, 350,
    139, 93, 354, 99, 820, 908, 609, 772, 154, 274, 580, 184, 79, 626, 630,
    742, 653, 282, 762, 623, 680, 81, 927, 626, 789, 125, 411, 521, 938, 300,
    821, 78, 343, 175, 128, 250, 170, 774, 972, 275, 999, 639, 495, 78, 352,
    126, 857, 956, 358, 619, 580, 124, 737, 594, 701, 612, 669, 112, 134,
    694, 363, 992, 809, 743, 168, 974, 944, 375, 748, 52, 600, 747, 642, 182,
    862, 81, 344, 805, 988, 739, 511, 655, 814, 334, 249, 515, 897, 955, 664,
    981, 649, 113, 974, 459, 893, 228, 433, 837, 553, 268, 926, 240, 102,
    654, 459, 51, 686, 754, 806, 760, 493, 403, 415, 394, 687, 700, 946, 670,
    656, 610, 738, 392, 760, 799, 887, 653, 978, 321, 576, 617, 626, 502,
    894, 679, 243, 440, 680, 879, 194, 572, 640, 724, 926, 56, 204, 700, 707,
    151, 457, 449, 797, 195, 791, 558, 945, 679, 297, 59, 87, 824, 713, 663,
    412, 693, 342, 606, 134, 108, 571, 364, 631, 212, 174, 643, 304, 329,
    343, 97, 430, 751, 497, 314, 983, 374, 822, 928, 140, 206, 73, 263, 980,
    736, 876, 478, 430, 305, 170, 514, 364, 692, 829, 82, 855, 953, 676, 246,
    369, 970, 294, 750, 807, 827, 150, 790, 288, 923, 804, 378, 215, 828,
    592, 281, 565, 555, 710, 82, 896, 831, 547, 261, 524, 462, 293, 465, 502,
    56, 661, 821, 976, 991, 658, 869, 905, 758, 745, 193, 768, 550, 608, 933,
    378, 286, 215, 979, 792, 961, 61, 688, 793, 644, 986, 403, 106, 366, 905,
    644, 372, 567, 466, 434, 645, 210, 389, 550, 919, 135, 780, 773, 635,
    389, 707, 100, 626, 958, 165, 504, 920, 176, 193, 713, 857, 265, 203, 50,
    668, 108, 645, 990, 626, 197, 510, 357, 358, 850, 858, 364, 936, 638]

/-- The gap in front, and the gaps that follow it. -/
def nextGap : List Nat → Nat × List Nat
  | gap :: gaps => (gap, gaps)
  | [] => (flipGaps.headD 0, flipGaps.tail)

/-- Bytes already taken, how many bytes of the present gap are left, and the
gaps behind it. -/
structure FlipState where
  output : Array UInt8
  left : Nat
  gaps : List Nat

/-- Take one more byte.  The last but one byte of every gap has its lowest bit
flipped. -/
def FlipState.push (state : FlipState) (byte : UInt8) : FlipState :=
  let (left, gaps) :=
    if state.left = 0 then nextGap state.gaps else (state.left, state.gaps)
  { output := state.output.push (if left = 2 then byte ^^^ 1 else byte)
    left := left - 1
    gaps }

/-- A block with its bits flipped. -/
def flipBits (bytes : List UInt8) : List UInt8 :=
  (bytes.foldl FlipState.push ⟨#[], 0, flipGaps⟩).output.toList

/-! ## Blocks -/

open BitCursor (highBit highBits)

/-- Longest code of a symbol. -/
def longestCode : Nat := 20

/-- Symbols between two choices of a code. -/
def groupSize : Nat := 50

/-- The bytes that occur in a block: sixteen bits tell which sixteenths of the
byte values occur, and sixteen more for each of those which values. -/
def readAlphabet : BitReader (List UInt8) := fun cursor => do
  let (groups, cursor) ← highBits 16 cursor
  let rec go : List Nat → BitReader (List UInt8)
    | [], cursor => some ([], cursor)
    | group :: rest, cursor =>
      if groups.testBit (15 - group) then do
        let (members, cursor) ← highBits 16 cursor
        let here := ((List.range 16).filter fun n =>
          members.testBit (15 - n)).map fun n => UInt8.ofNat (16 * group + n)
        let (others, cursor) ← go rest cursor
        some (here ++ others, cursor)
      else go rest cursor
  go (List.range 16) cursor

/-- A number in unary: that many ones and a zero, but at most `limit` ones. -/
def readUnary : (limit : Nat) → BitReader Nat
  | 0, cursor => do
    let (bit, cursor) ← cursor.highBit
    if bit = 0 then some (0, cursor) else none
  | limit + 1, cursor => do
    let (bit, cursor) ← cursor.highBit
    if bit = 0 then some (0, cursor)
    else
      let (more, cursor) ← readUnary limit cursor
      some (more + 1, cursor)

/-- The element at a place, and the list with that element moved to the
front. -/
def moveToFront {α : Type} (place : Nat) (recent : List α) :
    Option (α × List α) :=
  (recent[place]?).map fun element =>
    (element, element :: recent.eraseIdx place)

/-- Choices of codes, each one written as its place among the recent ones. -/
def readChoices (codes : Nat) :
    (count : Nat) → (recent reversed : List Nat) → BitReader (List Nat)
  | 0, _, reversed, cursor => some (reversed.reverse, cursor)
  | count + 1, recent, reversed, cursor => do
    let (place, cursor) ← readUnary (codes - 1) cursor
    let (choice, recent) ← moveToFront place recent
    readChoices codes count recent (choice :: reversed) cursor

/-- Change a code length by one, as often as the bits say. -/
def adjustLength : (steps : Nat) → (length : Nat) → BitReader Nat
  | 0, _, _ => none
  | steps + 1, length, cursor =>
    if length < 1 ∨ longestCode < length then none
    else do
      let (more, cursor) ← highBit cursor
      if more = 0 then some (length, cursor)
      else
        let (down, cursor) ← highBit cursor
        adjustLength steps (if down = 0 then length + 1 else length - 1)
          cursor

/-- The code lengths of the symbols, each one told by the steps from the one
before. -/
def readLengths :
    (count : Nat) → (length : Nat) → (reversed : List Nat) →
      BitReader (List Nat)
  | 0, _, reversed, cursor => some (reversed.reverse, cursor)
  | count + 1, length, reversed, cursor => do
    let (length, cursor) ← adjustLength (cursor.remaining + 1) length cursor
    readLengths count length (length :: reversed) cursor

/-- Prefix codes for an alphabet of `size` symbols. -/
def readCodes (size : Nat) :
    (count : Nat) → (reversed : List PrefixCode) →
      BitReader (List PrefixCode)
  | 0, reversed, cursor => some (reversed.reverse, cursor)
  | count + 1, reversed, cursor => do
    let (start, cursor) ← highBits 5 cursor
    let (lengths, cursor) ← readLengths size start [] cursor
    let code := PrefixCode.ofLengths longestCode lengths
    readCodes size count (code :: reversed) cursor

/-- Symbols up to the one that ends the block, last one first.  `code` is the
present code, for which `left` symbols are left, and `later` those that come
after it. -/
def readSymbols (ending : Nat) :
    (steps : Nat) → (code : PrefixCode) → (left : Nat) →
      (later : List PrefixCode) → (reversed : List Nat) →
      BitReader (List Nat)
  | 0, _, _, _, _, _ => none
  | steps + 1, code, left + 1, later, reversed, cursor => do
    let (symbol, cursor) ← code.decode highBit cursor
    if symbol = ending then some (reversed, cursor)
    else readSymbols ending steps code left later (symbol :: reversed) cursor
  | _ + 1, _, 0, [], _, _ => none
  | steps + 1, _, 0, code :: later, reversed, cursor => do
    let (symbol, cursor) ← code.decode highBit cursor
    if symbol = ending then some (reversed, cursor)
    else
      readSymbols ending steps code (groupSize - 1) later
        (symbol :: reversed) cursor

/-- Greatest weight of a digit in the number of repetitions. -/
def maxWeight : Nat := Nat.pow 2 21

/-- The bytes that symbols stand for.  The symbols zero and one are digits of
a number of repetitions of the byte that was used last; the others are places
among the recent bytes.  `pending` repetitions have been read, and the next
digit weighs `weight`. -/
def expandSymbols (maxBytes : Nat) :
    List Nat → (recent : List UInt8) → (pending weight : Nat) →
      Array UInt8 → Option (Array UInt8)
  | [], recent, pending, _, output =>
    if maxBytes < output.size + pending then none
    else
      match recent with
      | [] => none
      | byte :: _ => some (output ++ Array.replicate pending byte)
  | symbol :: symbols, recent, pending, weight, output =>
    if symbol ≤ 1 then
      if maxWeight ≤ weight then none
      else
        expandSymbols maxBytes symbols recent
          (pending + (symbol + 1) * weight) (2 * weight) output
    else if maxBytes ≤ output.size + pending then none
    else
      match recent with
      | [] => none
      | last :: _ =>
        match moveToFront (symbol - 1) recent with
        | none => none
        | some (byte, recent) =>
          expandSymbols maxBytes symbols recent 0 1
            ((output ++ Array.replicate pending last).push byte)

/-- For each place in the sorted order, the place of the byte that comes
behind it: equal bytes keep their order. -/
def successors (sorted : Array UInt8) : Array Nat :=
  let counts := sorted.foldl
    (fun (counts : Array Nat) byte => counts.modify byte.toNat (· + 1))
    (Array.replicate 256 0)
  let starts := (counts.foldl
    (fun (done : Array Nat × Nat) count =>
      (done.1.push done.2, done.2 + count)) (#[], 0)).1
  (sorted.foldl
    (fun (done : Array Nat × Array Nat × Nat) byte =>
      let (next, starts, index) := done
      let place := starts.getD byte.toNat 0
      (next.setIfInBounds place index,
        starts.setIfInBounds byte.toNat (place + 1), index + 1))
    (Array.replicate sorted.size 0, starts, 0)).1

/-- Walk through the sorted bytes in the order of the text. -/
def walk (sorted : Array UInt8) (next : Array Nat) :
    (count : Nat) → (place : Nat) → Array UInt8 → Array UInt8
  | 0, _, output => output
  | count + 1, place, output =>
    walk sorted next count (next.getD place 0)
      (output.push (sorted.getD place 0))

/-- The text whose sorted form is given, with the place where it starts. -/
def unsort (sorted : Array UInt8) (start : Nat) : List UInt8 :=
  let next := successors sorted
  (walk sorted next sorted.size (next.getD start 0) #[]).toList

/-- Write out the repetitions: after four equal bytes comes the number of
further ones.  `run` equal bytes have been seen last. -/
def expandRuns :
    (run : Nat) → (last : UInt8) → List UInt8 → Array UInt8 → Array UInt8
  | _, _, [], output => output
  | run, last, byte :: rest, output =>
    if run = 4 then
      expandRuns 0 last rest (output ++ Array.replicate byte.toNat last)
    else if byte = last ∧ run ≠ 0 then
      expandRuns (run + 1) byte rest (output.push byte)
    else expandRuns 1 byte rest (output.push byte)

/-- A block behind its mark, and its check sum. -/
def readBlock (maxBytes : Nat) : BitReader (List UInt8 × Nat) :=
  fun cursor => do
    let (check, cursor) ← highBits 32 cursor
    let (flipped, cursor) ← highBit cursor
    let (start, cursor) ← highBits 24 cursor
    let (alphabet, cursor) ← readAlphabet cursor
    let (codeCount, cursor) ← highBits 3 cursor
    let (choiceCount, cursor) ← highBits 15 cursor
    if alphabet.isEmpty ∨ codeCount < 2 ∨ 6 < codeCount ∨ choiceCount = 0 then
      none
    else
      let (choices, cursor) ←
        readChoices codeCount choiceCount (List.range codeCount) [] cursor
      let size := alphabet.length + 2
      let (codes, cursor) ← readCodes size codeCount [] cursor
      let used := choices.filterMap fun choice => codes[choice]?
      match used with
      | [] => none
      | first :: later =>
        let (reversed, cursor) ←
          readSymbols (size - 1) (cursor.remaining + 1) first groupSize later
            [] cursor
        let sorted ←
          expandSymbols maxBytes reversed.reverse alphabet 0 1 #[]
        if sorted.size ≤ start then none
        else
          let text := unsort sorted start
          let runs := if flipped = 1 then flipBits text else text
          let content := (expandRuns 0 0 runs #[]).toList
          if (crc32High content).toNat = check then
            some ((content, check), cursor)
          else none

def blockMark : Nat := 0x314159265359

def endMark : Nat := 0x177245385090

/-- The check sum of a stream after one more block. -/
def combine (checks : UInt32) (check : Nat) : UInt32 :=
  ((checks <<< 1) ||| (checks >>> 31)) ^^^ UInt32.ofNat check

/-- The blocks of a stream, last one first, and its end.  Every block takes
some bits, so their number bounds the steps. -/
def readBlocks (maxBytes : Nat) :
    (steps : Nat) → (checks : UInt32) → (reversed : List (List UInt8)) →
      BitReader (List (List UInt8))
  | 0, _, _, _ => none
  | steps + 1, checks, reversed, cursor => do
    let (mark, cursor) ← highBits 48 cursor
    if mark = blockMark then
      let ((content, check), cursor) ← readBlock maxBytes cursor
      readBlocks maxBytes steps (combine checks check) (content :: reversed)
        cursor
    else if mark = endMark then
      let (check, cursor) ← highBits 32 cursor
      if checks.toNat = check then some (reversed, cursor.alignToByte)
      else none
    else none

/-- The contents of all streams up to the end of the bytes. -/
def readStreams :
    (steps : Nat) → (reversed : List (List UInt8)) → BitCursor →
      Option (List UInt8)
  | 0, _, _ => none
  | steps + 1, reversed, cursor => do
    let (signature, cursor) ← highBits 24 cursor
    let (level, cursor) ← highBits 8 cursor
    if signature ≠ 0x425a68 ∨ level < 49 ∨ 57 < level then none
    else
      let (reversed, cursor) ←
        readBlocks ((level - 48) * 100000) (cursor.remaining + 1) 0 reversed
          cursor
      if cursor.remaining = 0 then some reversed.reverse.flatten
      else readStreams steps reversed cursor

def decode? (bytes : List UInt8) : Option (List UInt8) :=
  let start := BitCursor.ofList bytes
  readStreams (start.remaining + 1) [] start

/-- The bits of a number, most significant one first. -/
def bitsOf : (width : Nat) → Nat → List Bool
  | 0, _ => []
  | width + 1, n => n.testBit width :: bitsOf width n

/-- Bits as bytes, most significant one first; zeros fill the last byte. -/
def packBits : (steps : Nat) → List Bool → List UInt8
  | 0, _ => []
  | _ + 1, [] => []
  | steps + 1, bits =>
    let front := bits.take 8
    let padded := front ++ List.replicate (8 - front.length) false
    UInt8.ofNat (padded.foldl (fun n bit => 2 * n + bit.toNat) 0) ::
      packBits steps (bits.drop 8)

/-- Cut bytes into runs of at most three equal ones. -/
def shortRuns : List UInt8 → List (UInt8 × Nat)
  | [] => []
  | byte :: rest =>
    match shortRuns rest with
    | (next, count) :: runs =>
      if next = byte ∧ count < 3 then (byte, count + 1) :: runs
      else (byte, 1) :: (next, count) :: runs
    | [] => [(byte, 1)]

/-- The bits of a block that holds one byte up to three times.  All orders of
equal bytes are the same, so nothing has to be sorted. -/
def runBlock (byte : UInt8) (count : Nat) : List Bool :=
  let content := List.replicate count byte
  let group := byte.toNat / 16
  let digits :=
    match count with
    | 1 => [false]
    | 2 => [true, false]
    | _ => [false, false]
  -- Codes of one, two and two bits for the two digits and the end.
  let lengths := bitsOf 5 1 ++ [false, true, false, false, false]
  bitsOf 48 blockMark ++ bitsOf 32 (crc32High content).toNat ++ [false] ++
    bitsOf 24 0 ++ bitsOf 16 (Nat.pow 2 (15 - group)) ++
    bitsOf 16 (Nat.pow 2 (15 - byte.toNat % 16)) ++ bitsOf 3 2 ++ bitsOf 15 1 ++
    [false] ++ lengths ++ lengths ++ digits ++ [true, true]

/-- A stream with the given content, in blocks of short runs. -/
def stored (content : List UInt8) : List UInt8 :=
  let runs := shortRuns content
  let checks := runs.foldl
    (fun checks (byte, count) =>
      combine checks (crc32High (List.replicate count byte)).toNat) 0
  let bits := (runs.map fun (byte, count) => runBlock byte count).flatten ++
    bitsOf 48 endMark ++ bitsOf 32 checks.toNat
  [0x42, 0x5a, 0x68, 0x39] ++ packBits (bits.length + 1) bits

end JsonIntake.Bzip2
