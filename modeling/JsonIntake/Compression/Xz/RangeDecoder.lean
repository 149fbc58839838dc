/-!
# Range decoding

Binary decisions are packed into one long number.  Each decision has a weight,
the estimated probability of a zero, which moves a little towards what was
decided.
-/

namespace JsonIntake.Xz

structure RangeDecoder where
  input : Array UInt8
  position : Nat
  range : UInt32
  code : UInt32
  /-- The weights of all decisions, out of 2048. -/
  weights : Array Nat

namespace RangeDecoder

def evenWeight : Nat := 1024

/-- Begin with an input under the given weights.  Its first byte is zero, and
the next four are the start of the number. -/
def start? (weights : Array Nat) (input : List UInt8) :
    Option RangeDecoder :=
  match input with
  | 0 :: a :: b :: c :: d :: _ =>
    let code := [a, b, c, d].foldl
      (fun (code : UInt32) byte => (code <<< 8) ||| byte.toUInt32) 0
    some ⟨input.toArray, 5, 0xffffffff, code, weights⟩
  | _ => none

/-- Take in another byte when the range has become small. -/
def normalize (decoder : RangeDecoder) : Option RangeDecoder :=
  if decoder.range < 0x1000000 then
    match decoder.input[decoder.position]? with
    | none => none
    | some byte =>
      some
        { decoder with
          position := decoder.position + 1
          range := decoder.range <<< 8
          code := (decoder.code <<< 8) ||| byte.toUInt32 }
  else some decoder

/-- Whether the whole input has been used up. -/
def isFinished (decoder : RangeDecoder) : Bool :=
  decoder.position == decoder.input.size && decoder.code == 0

/-- Make the decision with a number. -/
def decide (index : Nat) (decoder : RangeDecoder) :
    Option (Nat × RangeDecoder) := do
  let weight := decoder.weights.getD index evenWeight
  let bound := (decoder.range >>> 11) * UInt32.ofNat weight
  if decoder.code < bound then
    let decoder ← normalize
      { decoder with
        range := bound
        weights :=
          decoder.weights.setIfInBounds index (weight + (2048 - weight) / 32) }
    some (0, decoder)
  else
    let decoder ← normalize
      { decoder with
        range := decoder.range - bound
        code := decoder.code - bound
        weights := decoder.weights.setIfInBounds index (weight - weight / 32) }
    some (1, decoder)

/-- Decisions down a binary tree, from a node on; the result is the node that
is reached. -/
def descend (base : Nat) :
    (depth : Nat) → (node : Nat) → RangeDecoder → Option (Nat × RangeDecoder)
  | 0, node, decoder => some (node, decoder)
  | depth + 1, node, decoder => do
    let (bit, decoder) ← decoder.decide (base + node)
    descend base depth (2 * node + bit) decoder

/-- A number of `depth` bits, most significant bit first. -/
def tree (base depth : Nat) (decoder : RangeDecoder) :
    Option (Nat × RangeDecoder) := do
  let (node, decoder) ← descend base depth 1 decoder
  some (node - Nat.pow 2 depth, decoder)

/-- A number of `depth` bits, least significant bit first. -/
def reverseTree (base : Nat) :
    (depth : Nat) → (node : Nat) → RangeDecoder → Option (Nat × RangeDecoder)
  | 0, _, decoder => some (0, decoder)
  | depth + 1, node, decoder => do
    let (bit, decoder) ← decoder.decide (base + node)
    let (rest, decoder) ← reverseTree base depth (2 * node + bit) decoder
    some (bit + 2 * rest, decoder)

/-- Bits without a weight, behind those in `value`. -/
def direct :
    (count : Nat) → (value : Nat) → RangeDecoder → Option (Nat × RangeDecoder)
  | 0, value, decoder => some (value, decoder)
  | count + 1, value, decoder => do
    let half := decoder.range >>> 1
    if decoder.code < half then
      let decoder ← normalize { decoder with range := half }
      direct count (2 * value) decoder
    else
      let decoder ← normalize
        { decoder with range := half, code := decoder.code - half }
      direct count (2 * value + 1) decoder

end RangeDecoder

end JsonIntake.Xz
