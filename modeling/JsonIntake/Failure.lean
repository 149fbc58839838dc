import JsonIntake.Compression.Kind
import JsonIntake.Size
import JsonIntake.Table.Decode

/-!
# Failures

Everything that can stop a read, as causes with the facts they are about, and
the message of each.
-/

namespace JsonIntake

/-- Why a file could not be used. -/
inductive FileFault where
  | notFound
  | notDirectory
  | isDirectory
deriving DecidableEq, Repr

def FileFault.message : FileFault → String
  | .notFound => "No such file or directory (os error 2)"
  | .notDirectory => "Not a directory (os error 20)"
  | .isDirectory => "Is a directory (os error 21)"

/-- What is wrong with compressed data. -/
inductive CodecFault where
  /-- The data breaks the rules of its format. -/
  | corrupt
  | missingLocalHeader
  | truncatedLocalHeader
  | zip64WithoutExtraField
  | storedWithoutSize
  | truncatedStoredEntry
  | unsupportedMethod (method : Nat)
deriving DecidableEq, Repr

/-- What the fault adds to the message; nothing if the format alone is at
fault. -/
def CodecFault.detail : CodecFault → Option String
  | .corrupt => none
  | .missingLocalHeader => some "missing local file header"
  | .truncatedLocalHeader => some "truncated local file header"
  | .zip64WithoutExtraField => some "zip64 size without a zip64 extra field"
  | .storedWithoutSize => some "stored entry without a size in its header"
  | .truncatedStoredEntry => some "truncated stored entry"
  | .unsupportedMethod method =>
    some ("unsupported zip method " ++ toString method)

/-- How a batch departs from the columns of the batches before it. -/
inductive SchemaConflict where
  | columnCount (expected found : Nat)
  | missingColumn (name : String)
  | columnType (name : String) (expected found : ColumnType)
deriving DecidableEq, Repr

def SchemaConflict.message : SchemaConflict → String
  | .columnCount expected found =>
    "expected " ++ toString expected ++ " columns, found " ++ toString found
  | .missingColumn name => "column " ++ Text.quoted name ++ " is missing"
  | .columnType name expected found =>
    "column " ++ Text.quoted name ++ " is " ++ expected.text ++
      " in earlier batches but " ++ found.text ++ " here"

/-- Options that contradict themselves or ask for what a source cannot
do. -/
inductive OptionFault where
  | zeroTuning
  | budgetTooSmall (budget subchunk : Nat)
  | notByteCount (setting raw : String)
  | rangeNeedsLines
  | noDeviceReads (label : String)
  | other (reason : String)
deriving DecidableEq, Repr

def OptionFault.message : OptionFault → String
  | .zeroTuning =>
    "num_subchunks and estimated_compression_ratio must be non-zero"
  | .budgetTooSmall budget subchunk =>
    "max_batch_bytes (" ++ toString budget ++
      ") must be at least two sub-chunks (" ++ toString subchunk ++
      " bytes each)"
  | .notByteCount setting raw =>
    setting ++ "=" ++ Text.quoted raw ++ " is not a byte count"
  | .rangeNeedsLines => "byte_range requires JSON Lines input"
  | .noDeviceReads label => label ++ " source does not support device reads"
  | .other reason => reason

/-- What stops a read. -/
inductive Failure where
  | file (fault : FileFault)
  | sourceExhausted (offset available : Nat)
  | outOfRange (offset size : Nat)
  | unsupportedCompression (kind : Compression)
  | decompression (kind : Compression) (fault : CodecFault)
  | noSafeSplitPoint (offset searched : Nat)
  | malformedRecord (record : Nat) (message : String)
  | schemaMismatch (batch : Nat) (conflict : SchemaConflict)
  | columnar (fault : ColumnarFault)
  | invalidOptions (fault : OptionFault)
  /-- A position that lies in none of the sources. -/
  | positionOutside (offset : Nat)
  /-- A buffer larger than an allocation can be. -/
  | capacityExceeded (capacity : Nat)
  /-- A sum, difference or product of sizes that is no word. -/
  | overflow

namespace Failure

def message : Failure → String
  | .file fault => "IO error: " ++ fault.message
  | .sourceExhausted offset available =>
    "requested offset " ++ toString offset ++
      " is past the end of all sources (" ++ toString available ++
      " bytes available)"
  | .outOfRange offset size =>
    "read at offset " ++ toString offset ++
      " is out of range for a source of " ++ toString size ++ " bytes"
  | .unsupportedCompression kind => "unsupported compression: " ++ kind.label
  | .decompression kind fault =>
    let detail :=
      match fault.detail with
      | some text => ": " ++ text
      | none => ""
    kind.label ++ " decompression failed" ++ detail
  | .noSafeSplitPoint offset searched =>
    "no record delimiter within " ++ toString searched ++
      " bytes of offset " ++ toString offset ++ "; cannot split batch"
  | .malformedRecord record text =>
    "malformed JSON record " ++ toString record ++ ": " ++ text
  | .schemaMismatch batch conflict =>
    "batch " ++ toString batch ++
      " does not match the schema of batch 0: " ++ conflict.message
  | .columnar fault => "Arrow error: " ++ fault.message
  | .invalidOptions fault => "invalid reader options: " ++ fault.message
  | .positionOutside offset =>
    "offset " ++ toString offset ++ " lies in no source"
  | .capacityExceeded capacity =>
    "a buffer of " ++ toString capacity ++ " bytes is too large"
  | .overflow => "a size leaves the range of words"

/-- The result of plain arithmetic, which has to be a word. -/
def orOverflow {α : Type} : Option α → Except Failure α
  | some result => .ok result
  | none => .error .overflow

end Failure

end JsonIntake
