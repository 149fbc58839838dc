import JsonIntake.Compression.Bits
import JsonIntake.Compression.Zstd.Fse

/-!
# Prefix codes of literals

A code is given by a weight per symbol: the code of a symbol is the shorter,
the larger its weight is.  The weight of the last symbol follows from the
others.  Codes are read from the end of a stream, by a table with a place for
every sequence of as many bits as the longest code has.
-/

namespace JsonIntake.Zstd

/-- The symbol of a place in the table, and the length of its code. -/
structure HuffmanEntry where
  symbol : UInt8
  bits : Nat

structure HuffmanTable where
  /-- Length of the longest code. -/
  longest : Nat
  entries : Array HuffmanEntry

namespace HuffmanTable

/-- Longest code that is allowed. -/
def maxLength : Nat := 12

/-- The table for the weights of all symbols but the last one. -/
def ofWeights? (weights : List Nat) : Option HuffmanTable :=
  let used (weight : Nat) : Nat := if weight = 0 then 0 else Nat.pow 2 (weight - 1)
  let total := weights.foldl (fun sum weight => sum + used weight) 0
  if total = 0 ∨ (weights.any fun weight => maxLength < weight) then none
  else
    let longest := total.log2 + 1
    let missing := Nat.pow 2 longest - total
    let last := missing.log2 + 1
    let all := weights ++ [last]
    let ones := all.count 1
    if maxLength < longest ∨ Nat.pow 2 missing.log2 ≠ missing ∨ ones < 2 ∨
        ones % 2 = 1 ∨ 256 < all.length then none
    else
      let entries := (List.range longest).flatMap fun n =>
        let members := all.zipIdx.filter fun entry => entry.1 == n + 1
        members.flatMap fun (_, symbol) =>
          List.replicate (Nat.pow 2 n) (HuffmanEntry.mk (UInt8.ofNat symbol)
            (longest - n))
      some ⟨longest, entries.toArray⟩

/-- Weights written in half a byte each. -/
def directWeights (count : Nat) (bytes : List UInt8) : List Nat :=
  (bytes.flatMap fun byte => [byte.toNat / 16, byte.toNat % 16]).take count

/-- Weights in the states of two decoders that take turns.  `first` is the
state whose turn it is.  When the bits end, the other state gives the last
weight. -/
def readStates (table : FseTable) :
    (steps : Nat) → (first second : Nat) → (reversed : List Nat) →
      BackwardBits → Option (List Nat)
  | 0, _, _, _, _ => none
  | steps + 1, first, second, reversed, bits => do
    let weight ← table.symbolAt first
    let reversed := weight :: reversed
    match table.next first bits with
    | some (next, bits) =>
      readStates table steps second next reversed bits
    | none =>
      let final ← table.symbolAt second
      some (final :: reversed).reverse

/-- Greatest number of weights that are written. -/
def maxWeights : Nat := 255

/-- Weights that are packed with a table of their own. -/
def packedWeights? (bytes : List UInt8) : Option (List Nat) := do
  let (table, rest) ← FseTable.read? 6 255 bytes
  let bits ← BackwardBits.ofList? rest
  let (first, bits) ← table.start bits
  let (second, bits) ← table.start bits
  let weights ← readStates table (maxWeights + 1) first second [] bits
  if maxWeights < weights.length then none else some weights

/-- The description of a table, and the bytes behind it. -/
def read? (bytes : List UInt8) : Option (HuffmanTable × List UInt8) := do
  let (header, rest) ← takeNumber? 1 bytes
  if 128 ≤ header then
    let count := header - 127
    let (packed, rest) ← splitExact? ((count + 1) / 2) rest
    let table ← ofWeights? (directWeights count packed)
    some (table, rest)
  else
    let (packed, rest) ← splitExact? header rest
    let weights ← packedWeights? packed
    let table ← ofWeights? weights
    some (table, rest)

/-- Decode `count` symbols, which have to use up the bits. -/
def decodeSymbols (table : HuffmanTable) :
    (count : Nat) → Array UInt8 → BackwardBits → Option (Array UInt8)
  | 0, output, bits => if bits.remaining = 0 then some output else none
  | count + 1, output, bits =>
    match table.entries[bits.peek table.longest]? with
    | none => none
    | some entry =>
      if bits.remaining < entry.bits then none
      else
        decodeSymbols table count (output.push entry.symbol)
          { bits with remaining := bits.remaining - entry.bits }

/-- Append the `count` symbols of a stream. -/
def decodeStream (table : HuffmanTable) (count : Nat)
    (output : Array UInt8) (bytes : List UInt8) : Option (Array UInt8) := do
  let bits ← BackwardBits.ofList? bytes
  table.decodeSymbols count output bits

/-- The `count` symbols of four streams.  The sizes of the first three stand
in front. -/
def decodeFour (table : HuffmanTable) (count : Nat) (bytes : List UInt8) :
    Option (Array UInt8) := do
  let (size1, rest) ← takeNumber? 2 bytes
  let (size2, rest) ← takeNumber? 2 rest
  let (size3, rest) ← takeNumber? 2 rest
  let (stream1, rest) ← splitExact? size1 rest
  let (stream2, rest) ← splitExact? size2 rest
  let (stream3, stream4) ← splitExact? size3 rest
  let part := (count + 3) / 4
  if count < 6 ∨ count < 3 * part then none
  else
    let output ← table.decodeStream part #[] stream1
    let output ← table.decodeStream part output stream2
    let output ← table.decodeStream part output stream3
    table.decodeStream (count - 3 * part) output stream4

end HuffmanTable

end JsonIntake.Zstd
