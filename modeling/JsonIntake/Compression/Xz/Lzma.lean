import JsonIntake.Compression.Bits
import JsonIntake.Compression.Xz.RangeDecoder

/-!
# Literals and matches

The symbols of the decoder are literals, matches with a distance of their own,
and matches at one of the last four distances.  Which weights a decision has
depends on the kinds of the last symbols, on the position, and for a literal
on the bytes around it.
-/

namespace JsonIntake.Xz

/-- Bits of the byte before and of the position that literals depend on, and
bits of the position that other decisions depend on. -/
structure Properties where
  literalContext : Nat
  literalPosition : Nat
  position : Nat

namespace Properties

/-- The properties in one byte. -/
def ofByte? (byte : UInt8) : Option Properties :=
  let n := byte.toNat
  if 225 ≤ n then none else some ⟨n % 9, n / 9 % 5, n / 45⟩

end Properties

/-- The kinds of the last symbols, and the last four distances, each one less
than the number of bytes to go back. -/
structure History where
  state : Nat
  last0 : Nat
  last1 : Nat
  last2 : Nat
  last3 : Nat

def History.initial : History := ⟨0, 0, 0, 0, 0⟩

/-! The numbers of the decisions. -/

def matchBase : Nat := 0

def repeatBase : Nat := 192

def repeatFirstBase : Nat := 204

def repeatSecondBase : Nat := 216

def repeatThirdBase : Nat := 228

def repeatLongBase : Nat := 240

def slotBase : Nat := 432

def specialBase : Nat := 688

def alignBase : Nat := 803

def matchLengthBase : Nat := 819

def repeatLengthBase : Nat := 1333

def literalBase : Nat := 1847

/-- All weights at the start. -/
def initialWeights (properties : Properties) : Array Nat :=
  let contexts :=
    Nat.pow 2 (properties.literalContext + properties.literalPosition)
  Array.replicate (literalBase + 768 * contexts) RangeDecoder.evenWeight

/-- The output byte some bytes back, where one byte back is the last one. -/
def byteBack (output : Array UInt8) (distance : Nat) : Nat :=
  if distance ≤ output.size then
    (output.getD (output.size - distance) 0).toNat
  else 0

/-- A literal behind a match: as long as its bits are those of the byte at the
last distance, that byte's next bit chooses the weights. -/
def matchedLiteral (base expected : Nat) :
    (depth : Nat) → (node : Nat) → RangeDecoder → Option (Nat × RangeDecoder)
  | 0, node, decoder => some (node, decoder)
  | depth + 1, node, decoder => do
    let wanted := expected / Nat.pow 2 depth % 2
    let (bit, decoder) ← decoder.decide (base + 256 * (1 + wanted) + node)
    if bit = wanted then
      matchedLiteral base expected depth (2 * node + bit) decoder
    else RangeDecoder.descend base depth (2 * node + bit) decoder

/-- A literal; `start` is where the dictionary begins in the output. -/
def literal (properties : Properties) (start : Nat) (history : History)
    (output : Array UInt8) (decoder : RangeDecoder) :
    Option (UInt8 × RangeDecoder) := do
  let position := output.size - start
  let previous := if position = 0 then 0 else byteBack output 1
  let context :=
    position % Nat.pow 2 properties.literalPosition *
        Nat.pow 2 properties.literalContext +
      previous / Nat.pow 2 (8 - properties.literalContext)
  let base := literalBase + 768 * context
  let (node, decoder) ←
    if history.state < 7 then RangeDecoder.descend base 8 1 decoder
    else
      matchedLiteral base (byteBack output (history.last0 + 1)) 8 1 decoder
  some (UInt8.ofNat (node - 256), decoder)

/-- The length of a match. -/
def matchLength (base positionState : Nat) (decoder : RangeDecoder) :
    Option (Nat × RangeDecoder) := do
  let (long, decoder) ← decoder.decide base
  if long = 0 then
    let (n, decoder) ← decoder.tree (base + 2 + 8 * positionState) 3
    some (2 + n, decoder)
  else
    let (longer, decoder) ← decoder.decide (base + 1)
    if longer = 0 then
      let (n, decoder) ← decoder.tree (base + 130 + 8 * positionState) 3
      some (10 + n, decoder)
    else
      let (n, decoder) ← decoder.tree (base + 258) 8
      some (18 + n, decoder)

/-- The distance of a match of a given length, less one. -/
def matchDistance (length : Nat) (decoder : RangeDecoder) :
    Option (Nat × RangeDecoder) := do
  let (slot, decoder) ←
    decoder.tree (slotBase + 64 * min (length - 2) 3) 6
  if slot < 4 then some (slot, decoder)
  else
    let extra := slot / 2 - 1
    let base := (2 + slot % 2) * Nat.pow 2 extra
    if slot < 14 then
      let (low, decoder) ←
        decoder.reverseTree (specialBase + base - slot) extra 1
      some (base + low, decoder)
    else
      let (high, decoder) ← decoder.direct (extra - 4) 0
      let (low, decoder) ← decoder.reverseTree alignBase 4 1
      some (base + 16 * high + low, decoder)

/-- What a symbol asks for. -/
inductive Symbol where
  | literal (byte : UInt8)
  | copy (length : Nat)
  | ending

/-- The distance that marks the end. -/
def endDistance : Nat := Nat.pow 2 32 - 1

/-- A match at one of the last distances. -/
def repeated (positionState : Nat) (history : History)
    (decoder : RangeDecoder) :
    Option (Symbol × History × RangeDecoder) := do
  let state := history.state
  let ⟨_, a, b, c, d⟩ := history
  let long (history : History) (decoder : RangeDecoder) :
      Option (Symbol × History × RangeDecoder) := do
    let (length, decoder) ←
      matchLength repeatLengthBase positionState decoder
    some (.copy length,
      { history with state := if state < 7 then 8 else 11 }, decoder)
  let (other, decoder) ← decoder.decide (repeatFirstBase + state)
  if other = 0 then
    let (isLong, decoder) ←
      decoder.decide (repeatLongBase + 16 * state + positionState)
    if isLong = 0 then
      some (.copy 1, { history with state := if state < 7 then 9 else 11 },
        decoder)
    else long history decoder
  else
    let (other, decoder) ← decoder.decide (repeatSecondBase + state)
    if other = 0 then long ⟨state, b, a, c, d⟩ decoder
    else
      let (other, decoder) ← decoder.decide (repeatThirdBase + state)
      if other = 0 then long ⟨state, c, a, b, d⟩ decoder
      else long ⟨state, d, a, b, c⟩ decoder

/-- The next symbol. -/
def symbol (properties : Properties) (start : Nat) (history : History)
    (output : Array UInt8) (decoder : RangeDecoder) :
    Option (Symbol × History × RangeDecoder) := do
  let state := history.state
  let positionState :=
    (output.size - start) % Nat.pow 2 properties.position
  let (isMatch, decoder) ←
    decoder.decide (matchBase + 16 * state + positionState)
  if isMatch = 0 then
    let (byte, decoder) ← literal properties start history output decoder
    let state :=
      if state < 4 then 0 else if state < 10 then state - 3 else state - 6
    some (.literal byte, { history with state }, decoder)
  else
    let (isRepeated, decoder) ← decoder.decide (repeatBase + state)
    if isRepeated = 1 then repeated positionState history decoder
    else
      let (length, decoder) ←
        matchLength matchLengthBase positionState decoder
      let (distance, decoder) ← matchDistance length decoder
      let history : History :=
        ⟨if state < 7 then 7 else 10, distance, history.last0,
          history.last1, history.last2⟩
      some (if distance = endDistance then .ending else .copy length,
        history, decoder)

/-- Decode until the output has `target` bytes, or else up to the end mark.
A match may reach back `window` bytes, but not beyond `start`.  Every symbol
but the last takes a step. -/
def decodeSymbols (properties : Properties) (start window : Nat)
    (target : Option Nat) :
    (steps : Nat) → History → Array UInt8 → RangeDecoder →
      Option (History × Array UInt8 × RangeDecoder)
  | 0, history, output, decoder =>
    if target = some output.size then some (history, output, decoder)
    else none
  | steps + 1, history, output, decoder =>
    if target = some output.size then some (history, output, decoder)
    else do
      let (next, history, decoder) ←
        symbol properties start history output decoder
      match next with
      | .literal byte =>
        decodeSymbols properties start window target steps history
          (output.push byte) decoder
      | .copy length =>
        let reach := min window (output.size - start)
        if reach ≤ history.last0 ∨
            (target.any fun size => size < output.size + length) then none
        else
          decodeSymbols properties start window target steps history
            (copyBack (history.last0 + 1) length output) decoder
      | .ending =>
        if target.isSome then none else some (history, output, decoder)

end JsonIntake.Xz
