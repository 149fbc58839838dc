import JsonIntake.Compression.Checksum
import JsonIntake.Compression.Zstd.Block

/-!
# Zstandard

A zstandard file is a sequence of frames.  A frame is a header, blocks, and
perhaps a check sum; some frames only have to be skipped.
-/

namespace JsonIntake.Zstd

def frameMark : Nat := 0xfd2fb528

/-- The marks of frames to be skipped differ in their lowest four bits. -/
def isSkippable (mark : Nat) : Bool := mark / 16 == 0x184d2a5

/-- Largest window that is decoded. -/
def maxWindow : Nat := Nat.pow 2 27

structure FrameHeader where
  /-- Greatest number of bytes in a block. -/
  blockLimit : Nat
  contentSize : Option Nat
  hasCheck : Bool

/-- The size of the window from its descriptor: a power of two and some
eighths of it. -/
def windowSize (descriptor : Nat) : Nat :=
  let base := Nat.pow 2 (10 + descriptor / 8)
  base + base / 8 * (descriptor % 8)

/-- The header of a frame, behind its mark. -/
def readHeader (bytes : List UInt8) :
    Option (FrameHeader × List UInt8) := do
  let (descriptor, rest) ← takeNumber? 1 bytes
  let isSingle := descriptor / 32 % 2 == 1
  let (window, rest) ←
    if isSingle then some (0, rest)
    else do
      let (window, rest) ← takeNumber? 1 rest
      some (windowSize window, rest)
  let dictionaryWidth :=
    match descriptor % 4 with
    | 3 => 4
    | width => width
  let (dictionary, rest) ← takeNumber? dictionaryWidth rest
  let sizeWidth :=
    match descriptor / 64 with
    | 0 => if isSingle then 1 else 0
    | 1 => 2
    | 2 => 4
    | _ => 8
  let (size, rest) ← takeNumber? sizeWidth rest
  let size := if sizeWidth = 2 then size + 256 else size
  let window := if isSingle then size else window
  if descriptor / 8 % 2 = 1 ∨ dictionary ≠ 0 ∨ maxWindow < window then none
  else
    some
      ({ blockLimit := min window maxBlock
         contentSize := if sizeWidth = 0 then none else some size
         hasCheck := descriptor / 4 % 2 == 1 }, rest)

/-- The blocks up to the last one.  Every block takes at least three bytes,
so the length of the input bounds the steps.  A compressed block of no bytes
adds nothing, but it may stand only in a frame of unknown size. -/
def readBlocks (frame : FrameHeader) : (steps : Nat) → Memory →
    List UInt8 → Option (Array UInt8 × List UInt8)
  | 0, _, _ => none
  | steps + 1, memory, bytes => do
    let (header, rest) ← takeNumber? 3 bytes
    let size := header / 8
    if frame.blockLimit < size then none
    else
      let (memory, rest) ←
        match header / 2 % 4 with
        | 0 => do
          let (content, rest) ← splitExact? size rest
          some ({ memory with
            output := content.foldl Array.push memory.output }, rest)
        | 1 =>
          match rest with
          | byte :: rest =>
            some ({ memory with
              output := memory.output ++ Array.replicate size byte }, rest)
          | [] => none
        | 2 =>
          if size = 0 ∧ frame.contentSize.isNone then some (memory, rest)
          else do
            let (content, rest) ← splitExact? size rest
            let decoded ← decodeBlock memory content
            if memory.output.size + frame.blockLimit < decoded.output.size then
              none
            else some (decoded, rest)
        | _ => none
      if header % 2 = 1 then some (memory.output, rest)
      else readBlocks frame steps memory rest

/-- The content of a frame behind its mark, and the bytes behind it. -/
def readFrame (bytes : List UInt8) : Option (List UInt8 × List UInt8) := do
  let (header, rest) ← readHeader bytes
  let (output, rest) ←
    readBlocks header (rest.length + 1) Memory.initial rest
  let content := output.toList
  if header.contentSize.any fun size => size != output.size then none
  else if header.hasCheck then
    let (check, rest) ← takeNumber? 4 rest
    if (XxHash.hash content).toNat % Nat.pow 2 32 = check then some (content, rest)
    else none
  else some (content, rest)

/-- The contents of all frames.  There has to be at least one frame. -/
def readFrames : (steps : Nat) → (reversed : List (List UInt8)) →
    List UInt8 → Option (List UInt8)
  | 0, _, _ => none
  | steps + 1, reversed, bytes => do
    let (mark, rest) ← takeNumber? 4 bytes
    let (reversed, rest) ←
      if mark = frameMark then do
        let (content, rest) ← readFrame rest
        some (content :: reversed, rest)
      else if isSkippable mark then do
        let (size, rest) ← takeNumber? 4 rest
        let (_, rest) ← splitExact? size rest
        some (reversed, rest)
      else none
    if rest.isEmpty then some reversed.reverse.flatten
    else readFrames steps reversed rest

def decode? (bytes : List UInt8) : Option (List UInt8) :=
  readFrames (bytes.length + 1) [] bytes

/-- Blocks of bytes as they are; the last one is marked. -/
def storedBlocks : (steps : Nat) → List UInt8 → List UInt8
  | 0, _ => []
  | steps + 1, content =>
    let block := content.take maxBlock
    let rest := content.drop maxBlock
    let mark := if rest.isEmpty then 1 else 0
    LittleEndian.bytes 3 (8 * block.length + mark) ++ block ++
      if rest.isEmpty then [] else storedBlocks steps rest

/-- A frame with the given content in blocks of bytes as they are. -/
def stored (content : List UInt8) : List UInt8 :=
  LittleEndian.bytes 4 frameMark ++ [0, 0x50] ++
    storedBlocks (content.length + 1) content

end JsonIntake.Zstd
