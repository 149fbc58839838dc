import JsonIntake.Compression.Bits

/-!
# Finite state entropy

A decoder has a table of states.  Each state gives a symbol, and the next
state is a base plus some bits of the stream.  The stream is read from its
last bit to its first.
-/

namespace JsonIntake.Zstd

/-- Bits that are read from the last one to the first: the bytes, and the
number of bits that are left. -/
structure BackwardBits where
  bytes : Array UInt8
  remaining : Nat

namespace BackwardBits

/-- The stream in some bytes.  The highest bit that is set in the last byte
marks the end of the stream. -/
def ofList? (bytes : List UInt8) : Option BackwardBits :=
  match bytes.getLast? with
  | none => none
  | some last =>
    if last = 0 then none
    else some ⟨bytes.toArray, 8 * (bytes.length - 1) + last.toNat.log2⟩

/-- The bit at a place counted from the front. -/
def bitAt (bits : BackwardBits) (index : Nat) : Nat :=
  let byte := bits.bytes.getD (index / 8) 0
  ((byte >>> UInt8.ofNat (index % 8)) &&& 1).toNat

/-- The next `count` bits as a number, without moving on; bits in front of
the stream are zero. -/
def peek (bits : BackwardBits) (count : Nat) : Nat :=
  (List.range count).foldl
    (fun n i =>
      2 * n + if i < bits.remaining then bits.bitAt (bits.remaining - 1 - i)
        else 0)
    0

/-- The next `count` bits as a number. -/
def read (bits : BackwardBits) (count : Nat) : Option (Nat × BackwardBits) :=
  if bits.remaining < count then none
  else
    some (bits.peek count, { bits with remaining := bits.remaining - count })

end BackwardBits

/-- What a state stands for, and how the next one is found. -/
structure FseState where
  symbol : Nat
  /-- Number of bits to add to the base. -/
  bits : Nat
  base : Nat

structure FseTable where
  /-- The table has two to this power states. -/
  log : Nat
  states : Array FseState

namespace FseTable

/-- The table in which every state gives one symbol. -/
def single (symbol : Nat) : FseTable := ⟨0, #[⟨symbol, 0, 0⟩]⟩

/-- The places of a table of `size` states in the order in which symbols are
spread over it. -/
def spreadOrder (size : Nat) : List Nat :=
  let step := size / 2 + size / 8 + 3
  (List.range size).map fun k => k * step % size

/-- The table for weights that add up to its size.  A symbol of weight minus
one, which counts as one, has a state at the end of the table. -/
def ofWeights (log : Nat) (weights : List Int) : FseTable :=
  let size := Nat.pow 2 log
  let rare := (weights.zipIdx.filter fun entry => entry.1 < 0).map (·.2)
  let high := size - rare.length
  let spread := weights.zipIdx.flatMap fun (weight, symbol) =>
    List.replicate weight.toNat symbol
  let places := (spreadOrder size).filter fun place => place < high
  let common := (places.zip spread).foldl
    (fun (symbols : Array Nat) (place, symbol) =>
      symbols.setIfInBounds place symbol)
    (Array.replicate size 0)
  let symbols := rare.zipIdx.foldl
    (fun (symbols : Array Nat) (symbol, index) =>
      symbols.setIfInBounds (size - 1 - index) symbol) common
  let counts := (weights.map Int.natAbs).toArray
  let states := (symbols.foldl
    (fun (done : Array FseState × Array Nat) symbol =>
      let next := done.2.getD symbol 1
      let bits := log - next.log2
      (done.1.push ⟨symbol, bits, next * Nat.pow 2 bits - size⟩,
        done.2.modify symbol (· + 1)))
    (#[], counts)).1
  ⟨log, states⟩

/-- Zero weights behind a zero weight: two bits tell how many, and three of
them that more such bits follow. -/
def readZeros : (steps : Nat) → BitReader Nat
  | 0, _ => none
  | steps + 1, cursor => do
    let (count, cursor) ← cursor.lowBits 2
    if count = 3 then
      let (more, cursor) ← readZeros steps cursor
      some (3 + more, cursor)
    else some (count, cursor)

/-- Weights until they add up; `left` is what they still have to add up
to. -/
def readWeights :
    (steps : Nat) → (left : Nat) → (reversed : List Int) →
      BitReader (List Int)
  | 0, _, _, _ => none
  | _ + 1, 0, reversed, cursor => some (reversed.reverse, cursor)
  | steps + 1, left, reversed, cursor => do
    -- Small numbers are written with one bit less.
    let width := (left + 1).log2 + 1
    let short := Nat.pow 2 width - 1 - (left + 1)
    let (low, cursor) ← cursor.lowBits (width - 1)
    let (value, cursor) ←
      if low < short then some (low, cursor)
      else do
        let (top, cursor) ← cursor.lowBit
        some (if top = 1 then low + Nat.pow 2 (width - 1) - short else low, cursor)
    let weight : Int := (value : Int) - 1
    if left < weight.natAbs then none
    else
      let reversed := weight :: reversed
      if weight = 0 then
        let (zeros, cursor) ← readZeros (cursor.remaining + 1) cursor
        readWeights steps left (List.replicate zeros 0 ++ reversed) cursor
      else readWeights steps (left - weight.natAbs) reversed cursor

/-- The description of a table for symbols up to `maxSymbol`, and the bytes
behind it. -/
def read? (maxLog maxSymbol : Nat) (bytes : List UInt8) :
    Option (FseTable × List UInt8) := do
  let (low, cursor) ← (BitCursor.ofList bytes).lowBits 4
  let log := low + 5
  if maxLog < log then none
  else
    let (weights, cursor) ←
      readWeights (cursor.remaining + 1) (Nat.pow 2 log) [] cursor
    if maxSymbol + 1 < weights.length then none
    else some (ofWeights log weights, cursor.restBytes)

/-- The first state of a stream. -/
def start (table : FseTable) (bits : BackwardBits) :
    Option (Nat × BackwardBits) :=
  bits.read table.log

def symbolAt (table : FseTable) (state : Nat) : Option Nat :=
  (table.states[state]?).map FseState.symbol

/-- The state behind another one. -/
def next (table : FseTable) (state : Nat) (bits : BackwardBits) :
    Option (Nat × BackwardBits) := do
  let entry ← table.states[state]?
  let (more, bits) ← bits.read entry.bits
  some (entry.base + more, bits)

end FseTable

end JsonIntake.Zstd
