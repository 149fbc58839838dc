/-!
# Bits and numbers in bytes

Compressed formats read single bits out of bytes, some the least significant
bit of a byte first, others the most significant one.  They also hold numbers
with the least significant byte first, and canonical prefix codes, which are
given by the lengths of their codes alone: codes of one length are consecutive
numbers in the order of their symbols, and longer codes come behind shorter
ones.
-/

namespace JsonIntake

/-! ## Bits -/

/-- A place in some bytes, counted in bits from their front. -/
structure BitCursor where
  bytes : Array UInt8
  position : Nat

/-- A reader takes what it needs from its place on and moves the place; it
fails at the end of the bytes, or where the format is broken. -/
abbrev BitReader (α : Type) : Type := BitCursor → Option (α × BitCursor)

namespace BitCursor

def ofList (bytes : List UInt8) : BitCursor := ⟨bytes.toArray, 0⟩

/-- Number of bits that are left. -/
def remaining (cursor : BitCursor) : Nat :=
  8 * cursor.bytes.size - cursor.position

/-- Skip the rest of a byte that has been read in part. -/
def alignToByte (cursor : BitCursor) : BitCursor :=
  { cursor with position := (cursor.position + 7) / 8 * 8 }

/-- The bytes behind the one that was read last. -/
def restBytes (cursor : BitCursor) : List UInt8 :=
  cursor.bytes.toList.drop ((cursor.position + 7) / 8)

/-- The next bit, when the least significant bit of a byte comes first. -/
def lowBit : BitReader Nat := fun cursor =>
  match cursor.bytes[cursor.position / 8]? with
  | none => none
  | some byte =>
    let bit := (byte >>> UInt8.ofNat (cursor.position % 8)) &&& 1
    some (bit.toNat, { cursor with position := cursor.position + 1 })

/-- The next bit, when the most significant bit of a byte comes first. -/
def highBit : BitReader Nat := fun cursor =>
  match cursor.bytes[cursor.position / 8]? with
  | none => none
  | some byte =>
    let bit := (byte >>> UInt8.ofNat (7 - cursor.position % 8)) &&& 1
    some (bit.toNat, { cursor with position := cursor.position + 1 })

/-- The next `count` bits, the first of which is the least significant. -/
def lowBits : (count : Nat) → BitReader Nat
  | 0, cursor => some (0, cursor)
  | count + 1, cursor => do
    let (bit, cursor) ← cursor.lowBit
    let (rest, cursor) ← lowBits count cursor
    some (bit + 2 * rest, cursor)

/-- The bits in `value` followed by the next `count` bits, the last of which
is the least significant. -/
def highBitsAfter : (count value : Nat) → BitReader Nat
  | 0, value, cursor => some (value, cursor)
  | count + 1, value, cursor => do
    let (bit, cursor) ← cursor.highBit
    highBitsAfter count (2 * value + bit) cursor

/-- The next `count` bits, the last of which is the least significant. -/
def highBits (count : Nat) : BitReader Nat := highBitsAfter count 0

/-- Append the next `count` bytes, from a byte boundary on, to an output. -/
def copyBytes : (count : Nat) → Array UInt8 → BitReader (Array UInt8)
  | 0, output, cursor => some (output, cursor)
  | count + 1, output, cursor =>
    match cursor.bytes[cursor.position / 8]? with
    | none => none
    | some byte =>
      copyBytes count (output.push byte)
        { cursor with position := cursor.position + 8 }

end BitCursor

/-- Append `count` bytes that repeat the output from `distance` bytes back;
the copy may run into its own bytes.  What lies in front of the output is
zero. -/
def copyBack (distance : Nat) : (count : Nat) → Array UInt8 → Array UInt8
  | 0, output => output
  | count + 1, output =>
    let byte :=
      if distance ≤ output.size then output.getD (output.size - distance) 0
      else 0
    copyBack distance count (output.push byte)

/-! ## Little-endian numbers -/

namespace LittleEndian

/-- The number that some bytes stand for. -/
def value : List UInt8 → Nat
  | [] => 0
  | byte :: rest => byte.toNat + 256 * value rest

/-- The `width` bytes of a number; what they cannot hold is dropped. -/
def bytes : (width : Nat) → Nat → List UInt8
  | 0, _ => []
  | width + 1, n => UInt8.ofNat n :: bytes width (n / 256)

@[simp] theorem length_bytes (width n : Nat) :
    (bytes width n).length = width := by
  induction width generalizing n with
  | zero => rfl
  | succ width ih => simp [bytes, ih]

theorem value_bytes {width n : Nat} (h : n < Nat.pow 256 width) :
    value (bytes width n) = n := by
  induction width generalizing n with
  | zero =>
      have hzero : n = 0 := by
        change n < 1 at h
        omega
      simp [bytes, value, hzero]
  | succ width ih =>
      have hrest : n / 256 < Nat.pow 256 width := by
        change n < Nat.pow 256 width * 256 at h
        omega
      simp only [bytes, value, ih hrest]
      rw [UInt8.toNat_ofNat']
      omega

end LittleEndian

/-- The first `count` bytes and the rest, if there are so many. -/
def splitExact? (count : Nat) (bytes : List UInt8) :
    Option (List UInt8 × List UInt8) :=
  let front := bytes.take count
  if front.length = count then some (front, bytes.drop count) else none

/-- A little-endian number of `width` bytes, and the rest. -/
def takeNumber? (width : Nat) (bytes : List UInt8) :
    Option (Nat × List UInt8) :=
  (splitExact? width bytes).map fun (front, rest) =>
    (LittleEndian.value front, rest)

/-! ## Prefix codes -/

structure PrefixCode where
  /-- Number of codes of one bit, of two bits, and so on. -/
  counts : List Nat
  /-- The symbols in the order of their codes. -/
  symbols : Array Nat

namespace PrefixCode

/-- The code in which symbol `i` has a code of `lengths[i]` bits, or none
where the length is zero. -/
def ofLengths (longest : Nat) (lengths : List Nat) : PrefixCode :=
  let used (length : Nat) : List Nat :=
    (lengths.zipIdx.filter fun entry => entry.1 == length).map (·.2)
  let groups := (List.range longest).map fun n => used (n + 1)
  { counts := groups.map List.length
    symbols := groups.flatten.toArray }

/-- Number of symbols that have a code. -/
def size (code : PrefixCode) : Nat := code.symbols.size

/-- Codes that are not given out yet; fewer than none if the lengths do not
fit together. -/
def unusedCodes (code : PrefixCode) : Int :=
  code.counts.foldl (fun (free : Int) (count : Nat) => 2 * free - count) 1

/-- Whether every sequence of bits starts with a code. -/
def isComplete (code : PrefixCode) : Bool := code.unusedCodes == 0

/-- Follow a code bit by bit.  `first` is the first code of the present
length, and `index` the number of shorter codes. -/
def decodeFrom (bit : BitReader Nat) (symbols : Array Nat) :
    (counts : List Nat) → (prior first index : Nat) → BitReader Nat
  | [], _, _, _, _ => none
  | count :: counts, prior, first, index, cursor => do
    let (next, cursor) ← bit cursor
    let code := 2 * prior + next
    if code < first + count then
      let symbol ← symbols[index + (code - first)]?
      some (symbol, cursor)
    else
      decodeFrom bit symbols counts code (2 * (first + count))
        (index + count) cursor

/-- The symbol of the next code. -/
def decode (code : PrefixCode) (bit : BitReader Nat) : BitReader Nat :=
  decodeFrom bit code.symbols code.counts 0 0 0

end PrefixCode

end JsonIntake
