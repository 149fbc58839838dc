import JsonIntake.Compression.Bits

/-!
# Checks of data

The formats check their contents with cyclic redundancy checks, with the
64-bit xxHash, or with SHA-256.
-/

namespace JsonIntake

/-! ## Cyclic redundancy checks

The remainder of the data by a polynomial over bits.  Most formats feed the
least significant bit of a byte first; one feeds the most significant bit
first.
-/

/-- Eight steps of a division whose least significant bit leaves first. -/
def crc32Byte (crc : UInt32) (byte : UInt8) : UInt32 :=
  (List.range 8).foldl
    (fun crc _ =>
      if crc &&& 1 = 1 then (crc >>> 1) ^^^ 0xedb88320 else crc >>> 1)
    (crc ^^^ byte.toUInt32)

/-- The 32-bit check of Gzip, Zip and Xz. -/
def crc32 (bytes : List UInt8) : UInt32 :=
  bytes.foldl crc32Byte 0xffffffff ^^^ 0xffffffff

def crc64Byte (crc : UInt64) (byte : UInt8) : UInt64 :=
  (List.range 8).foldl
    (fun crc _ =>
      if crc &&& 1 = 1 then (crc >>> 1) ^^^ 0xc96c5795d7870f42
      else crc >>> 1)
    (crc ^^^ byte.toUInt64)

/-- The 64-bit check of Xz. -/
def crc64 (bytes : List UInt8) : UInt64 :=
  bytes.foldl crc64Byte 0xffffffffffffffff ^^^ 0xffffffffffffffff

/-- Eight steps of a division whose most significant bit leaves first. -/
def crc32HighByte (crc : UInt32) (byte : UInt8) : UInt32 :=
  (List.range 8).foldl
    (fun crc _ =>
      if crc &&& 0x80000000 = 0x80000000 then (crc <<< 1) ^^^ 0x04c11db7
      else crc <<< 1)
    (crc ^^^ (byte.toUInt32 <<< 24))

/-- The 32-bit check of Bzip2. -/
def crc32High (bytes : List UInt8) : UInt32 :=
  bytes.foldl crc32HighByte 0xffffffff ^^^ 0xffffffff

end JsonIntake

/-! ## The 64-bit xxHash

Four accumulators take thirty-two bytes per round; the bytes that are left
are mixed in by words of eight, of four, and one by one.
-/

namespace JsonIntake.XxHash

def prime1 : UInt64 := 0x9e3779b185ebca87

def prime2 : UInt64 := 0xc2b2ae3d27d4eb4f

def prime3 : UInt64 := 0x165667b19e3779f9

def prime4 : UInt64 := 0x85ebca77c2b2ae63

def prime5 : UInt64 := 0x27d4eb2f165667c5

def rotateLeft (x : UInt64) (count : UInt64) : UInt64 :=
  (x <<< count) ||| (x >>> (64 - count))

/-- A word of bytes, least significant byte first. -/
def word (bytes : List UInt8) : UInt64 :=
  UInt64.ofNat (LittleEndian.value bytes)

def round (accumulator lane : UInt64) : UInt64 :=
  rotateLeft (accumulator + lane * prime2) 31 * prime1

/-- The four accumulators. -/
structure Lanes where
  a : UInt64
  b : UInt64
  c : UInt64
  d : UInt64

def Lanes.initial : Lanes := ⟨prime1 + prime2, prime2, 0, 0 - prime1⟩

/-- Take all full stripes of thirty-two bytes. -/
def takeStripes : (stripes : Nat) → Lanes → List UInt8 → Lanes × List UInt8
  | 0, lanes, bytes => (lanes, bytes)
  | stripes + 1, lanes, bytes =>
    let lane (index : Nat) := word ((bytes.drop (8 * index)).take 8)
    takeStripes stripes
      ⟨round lanes.a (lane 0), round lanes.b (lane 1),
        round lanes.c (lane 2), round lanes.d (lane 3)⟩
      (bytes.drop 32)

/-- The accumulators as one word. -/
def Lanes.converge (lanes : Lanes) : UInt64 :=
  let start := rotateLeft lanes.a 1 + rotateLeft lanes.b 7 +
    rotateLeft lanes.c 12 + rotateLeft lanes.d 18
  [lanes.a, lanes.b, lanes.c, lanes.d].foldl
    (fun hash lane => (hash ^^^ round 0 lane) * prime1 + prime4) start

/-- Mix in what is left behind the last full stripe; it is shorter than
`steps` bytes. -/
def takeRest : (steps : Nat) → UInt64 → List UInt8 → UInt64
  | 0, hash, _ => hash
  | steps + 1, hash, bytes =>
    match bytes with
    | [] => hash
    | byte :: rest =>
      if 8 ≤ bytes.length then
        let lane := round 0 (word (bytes.take 8))
        takeRest steps (rotateLeft (hash ^^^ lane) 27 * prime1 + prime4)
          (bytes.drop 8)
      else if 4 ≤ bytes.length then
        let lane := word (bytes.take 4) * prime1
        takeRest steps (rotateLeft (hash ^^^ lane) 23 * prime2 + prime3)
          (bytes.drop 4)
      else
        let lane := byte.toUInt64 * prime5
        takeRest steps (rotateLeft (hash ^^^ lane) 11 * prime1) rest

def avalanche (hash : UInt64) : UInt64 :=
  let hash := (hash ^^^ (hash >>> 33)) * prime2
  let hash := (hash ^^^ (hash >>> 29)) * prime3
  hash ^^^ (hash >>> 32)

/-- The hash of some bytes with the seed zero. -/
def hash (bytes : List UInt8) : UInt64 :=
  let length := bytes.length
  let (start, rest) :=
    if length < 32 then (prime5, bytes)
    else
      let (lanes, rest) := takeStripes (length / 32) Lanes.initial bytes
      (lanes.converge, rest)
  avalanche (takeRest 32 (start + UInt64.ofNat length) rest)

end JsonIntake.XxHash

/-! ## SHA-256 -/

namespace JsonIntake.Sha256

/-- The constants of the rounds: fractions of the cube roots of the first
primes. -/
def roundConstants : List UInt32 :=
  [0x428a2f98, 0x71374491, 0xb5c0fbcf, 0xe9b5dba5, 0x3956c25b, 0x59f111f1,
    0x923f82a4, 0xab1c5ed5, 0xd807aa98, 0x12835b01, 0x243185be, 0x550c7dc3,
    0x72be5d74, 0x80deb1fe, 0x9bdc06a7, 0xc19bf174, 0xe49b69c1, 0xefbe4786,
    0x0fc19dc6, 0x240ca1cc, 0x2de92c6f, 0x4a7484aa, 0x5cb0a9dc, 0x76f988da,
    0x983e5152, 0xa831c66d, 0xb00327c8, 0xbf597fc7, 0xc6e00bf3, 0xd5a79147,
    0x06ca6351, 0x14292967, 0x27b70a85, 0x2e1b2138, 0x4d2c6dfc, 0x53380d13,
    0x650a7354, 0x766a0abb, 0x81c2c92e, 0x92722c85, 0xa2bfe8a1, 0xa81a664b,
    0xc24b8b70, 0xc76c51a3, 0xd192e819, 0xd6990624, 0xf40e3585, 0x106aa070,
    0x19a4c116, 0x1e376c08, 0x2748774c, 0x34b0bcb5, 0x391c0cb3, 0x4ed8aa4a,
    0x5b9cca4f, 0x682e6ff3, 0x748f82ee, 0x78a5636f, 0x84c87814, 0x8cc70208,
    0x90befffa, 0xa4506ceb, 0xbef9a3f7, 0xc67178f2]

/-- The eight words of the hash: fractions of the square roots of the first
primes at the start. -/
structure Words where
  a : UInt32
  b : UInt32
  c : UInt32
  d : UInt32
  e : UInt32
  f : UInt32
  g : UInt32
  h : UInt32

def Words.initial : Words :=
  ⟨0x6a09e667, 0xbb67ae85, 0x3c6ef372, 0xa54ff53a, 0x510e527f, 0x9b05688c,
    0x1f83d9ab, 0x5be0cd19⟩

def Words.add (x y : Words) : Words :=
  ⟨x.a + y.a, x.b + y.b, x.c + y.c, x.d + y.d, x.e + y.e, x.f + y.f,
    x.g + y.g, x.h + y.h⟩

def rotateRight (x : UInt32) (count : UInt32) : UInt32 :=
  (x >>> count) ||| (x <<< (32 - count))

/-- Sixteen words of four bytes, most significant byte first. -/
def blockWords (bytes : List UInt8) : List UInt32 :=
  (List.range 16).map fun i =>
    ((bytes.drop (4 * i)).take 4).foldl
      (fun word byte => (word <<< 8) ||| byte.toUInt32) 0

/-- The words of all rounds: sixteen from the block, the others from those
before them. -/
def schedule (words : Array UInt32) : Array UInt32 :=
  (List.range 48).foldl
    (fun (words : Array UInt32) i =>
      let at15 := words.getD (i + 1) 0
      let at2 := words.getD (i + 14) 0
      let s0 := rotateRight at15 7 ^^^ rotateRight at15 18 ^^^ (at15 >>> 3)
      let s1 := rotateRight at2 17 ^^^ rotateRight at2 19 ^^^ (at2 >>> 10)
      words.push (words.getD i 0 + s0 + words.getD (i + 9) 0 + s1))
    words

def round (words : Words) (constant word : UInt32) : Words :=
  let s1 := rotateRight words.e 6 ^^^ rotateRight words.e 11 ^^^
    rotateRight words.e 25
  let choice := (words.e &&& words.f) ^^^ (~~~words.e &&& words.g)
  let t1 := words.h + s1 + choice + constant + word
  let s0 := rotateRight words.a 2 ^^^ rotateRight words.a 13 ^^^
    rotateRight words.a 22
  let majority := (words.a &&& words.b) ^^^ (words.a &&& words.c) ^^^
    (words.b &&& words.c)
  ⟨t1 + s0 + majority, words.a, words.b, words.c, words.d + t1, words.e,
    words.f, words.g⟩

/-- Take one block of sixty-four bytes. -/
def takeBlock (words : Words) (bytes : List UInt8) : Words :=
  let scheduled := (schedule (blockWords bytes).toArray).toList
  words.add ((roundConstants.zip scheduled).foldl
    (fun words (constant, word) => round words constant word) words)

def takeBlocks : (blocks : Nat) → Words → List UInt8 → Words
  | 0, words, _ => words
  | blocks + 1, words, bytes =>
    takeBlocks blocks (takeBlock words bytes) (bytes.drop 64)

/-- The bytes of a word, most significant one first. -/
def bigEndian (width n : Nat) : List UInt8 :=
  (List.range width).map fun i => UInt8.ofNat (n / Nat.pow 256 (width - 1 - i))

/-- The hash of some bytes. -/
def hash (bytes : List UInt8) : List UInt8 :=
  let length := bytes.length
  let zeros := (119 - length % 64) % 64
  let padded := bytes ++ 0x80 :: List.replicate zeros 0 ++
    bigEndian 8 (8 * length)
  let words := takeBlocks (padded.length / 64) Words.initial padded
  [words.a, words.b, words.c, words.d, words.e, words.f, words.g,
    words.h].flatMap fun word => bigEndian 4 word.toNat

end JsonIntake.Sha256
