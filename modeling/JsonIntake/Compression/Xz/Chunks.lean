import JsonIntake.Compression.Bits
import JsonIntake.Compression.Xz.Lzma

/-!
# Chunks

Compressed data comes in chunks: bytes as they are, or symbols under
properties and weights that a chunk may set anew.
-/

namespace JsonIntake.Xz

/-- What one chunk leaves to the next. -/
structure ChunkState where
  /-- Where the dictionary begins in the output, once there is one. -/
  start : Option Nat
  properties : Option Properties
  history : History
  weights : Array Nat

def ChunkState.initial : ChunkState := ⟨none, none, .initial, #[]⟩

/-- Properties that may stand in a chunk. -/
def chunkProperties? (byte : UInt8) : Option Properties := do
  let properties ← Properties.ofByte? byte
  if 4 < properties.literalContext + properties.literalPosition then none
  else some properties

/-- Set the state anew under some properties. -/
def ChunkState.reset (state : ChunkState) (properties : Properties) :
    ChunkState :=
  { state with
    properties := some properties
    history := .initial
    weights := initialWeights properties }

/-- A chunk of symbols behind its control byte. -/
def readSymbolChunk (window control : Nat) (state : ChunkState)
    (output : Array UInt8) (bytes : List UInt8) :
    Option (ChunkState × Array UInt8 × List UInt8) := do
  let (high, bytes) ← takeNumber? 1 bytes
  let (low, bytes) ← takeNumber? 1 bytes
  let size := control % 32 * 65536 + high * 256 + low + 1
  let (high, bytes) ← takeNumber? 1 bytes
  let (low, bytes) ← takeNumber? 1 bytes
  let packedSize := high * 256 + low + 1
  let (state, bytes) ←
    if 0xc0 ≤ control then
      match bytes with
      | byte :: rest => do
        let properties ← chunkProperties? byte
        some (state.reset properties, rest)
      | [] => none
    else do
      let properties ← state.properties
      if 0xa0 ≤ control then some (state.reset properties, bytes)
      else some (state, bytes)
  let properties ← state.properties
  let start ← state.start
  let (packed, rest) ← splitExact? packedSize bytes
  let history := state.history
  let decoder ← RangeDecoder.start? state.weights packed
  let (history, output, decoder) ←
    decodeSymbols properties start window (some (output.size + size)) size
      history output decoder
  if decoder.isFinished then
    some (⟨some start, some properties, history, decoder.weights⟩, output,
      rest)
  else none

/-- Chunks up to the end mark.  Every chunk takes at least one byte, so the
length of the input bounds the steps. -/
def readChunks (window : Nat) : (steps : Nat) → ChunkState → Array UInt8 →
    List UInt8 → Option (Array UInt8 × List UInt8)
  | 0, _, _, _ => none
  | _ + 1, _, _, [] => none
  | steps + 1, state, output, byte :: rest =>
    let control := byte.toNat
    if control = 0 then some (output, rest)
    else do
      let setsDictionary := control = 1 ∨ 0xe0 ≤ control
      if state.start.isNone ∧ ¬ setsDictionary then none
      else
        let state :=
          if setsDictionary then
            { state with start := some output.size, properties := none }
          else state
        if 0x80 ≤ control then
          let (state, output, rest) ←
            readSymbolChunk window control state output rest
          readChunks window steps state output rest
        else if 2 < control then none
        else
          let (high, rest) ← takeNumber? 1 rest
          let (low, rest) ← takeNumber? 1 rest
          let (content, rest) ← splitExact? (high * 256 + low + 1) rest
          readChunks window steps state (content.foldl Array.push output) rest

/-- Largest number of bytes in a chunk of bytes as they are. -/
def maxStored : Nat := 65536

/-- Chunks with the given content as it is.  The first one sets the
dictionary. -/
def storedChunks : (steps : Nat) → (control : UInt8) → List UInt8 →
    List UInt8
  | 0, _, _ => [0]
  | _ + 1, _, [] => [0]
  | steps + 1, control, content =>
    let chunk := content.take maxStored
    let size := chunk.length - 1
    control :: UInt8.ofNat (size / 256) :: UInt8.ofNat size :: chunk ++
      storedChunks steps 2 (content.drop maxStored)

end JsonIntake.Xz
