import JsonIntake.Compression.Bzip2
import JsonIntake.Compression.Gzip
import JsonIntake.Compression.Kind
import JsonIntake.Compression.Snappy
import JsonIntake.Compression.Xz.Container
import JsonIntake.Compression.Zip
import JsonIntake.Compression.Zstd.Frame
import JsonIntake.Tuning

/-!
# Samples

Small inputs and settings for trying out reads, and contents wrapped in the
compressed formats that sources may have.  Nothing is made smaller: every
format has a way to hold bytes as they are.
-/

namespace JsonIntake.Fixture

/-! ## Records -/

/-- Four records with columns of different types. -/
def sampleBlock : String :=
  String.join
    ["\x7b\"id\":1,\"name\":\"alpha\",\"score\":0.5,\"tags\":[\"a\"]\x7d\n",
      "\x7b\"id\":2,\"name\":\"beta\",\"score\":1.5,\"tags\":[]\x7d\n",
      "\x7b\"id\":3,\"name\":null,\"score\":2.5,\"tags\":[\"b\",\"c\"]\x7d\n",
      "\x7b\"id\":4,\"name\":\"delta\",\"score\":null,\"tags\":null\x7d\n"]

/-- Records in the sample block. -/
def sampleBlockRecords : Nat := 4

/-- A block doubled a number of times. -/
def repeatBlock (block : List UInt8) : (doublings : Nat) → List UInt8
  | 0 => block
  | doublings + 1 =>
    let half := repeatBlock block doublings
    half ++ half

/-- The record of a number. -/
def numberedRecord (n : Nat) : String := "\x7b\"n\":" ++ toString n ++ "\x7d\n"

/-- Records numbered from `start` on, if the numbers are words. -/
def numberedRecords? (start count : Nat) : Option String := do
  let stop ← Size.add? start count
  some (String.join
    ((List.range (stop - start)).map fun i => numberedRecord (start + i)))

/-- Settings for small inputs: sub-chunks may be as short as one byte. -/
def smallTuning (budget : Nat) : Tuning :=
  { Tuning.default with minSubchunkSize := 1, maxBatchBytes := budget }

/-- A number with at least three digits. -/
def threeDigits (n : Nat) : String :=
  let digits := (toString n).toList
  String.ofList (List.replicate (3 - digits.length) '0' ++ digits)

/-- Contents as files with numbered names. -/
def numberedFiles (name extension : String) (contents : List (List UInt8)) :
    List (String × List UInt8) :=
  contents.zipIdx.map fun (content, index) =>
    (name ++ "_" ++ threeDigits index ++ "." ++ extension, content)

/-! ## Packed contents -/

/-- Name of the entry of a packed archive. -/
def entryName : List UInt8 := "data.jsonl".toUTF8.toList

/-- A content in the form of a kind, if the kind is a format. -/
def pack? (kind : Compression) (content : List UInt8) :
    Option (List UInt8) :=
  match kind with
  | .none => Option.none
  | .auto => Option.none
  | .gzip => some (Gzip.stored content)
  | .zip => some (Zip.stored entryName content)
  | .snappy => some (Snappy.stored content)
  | .zstd => some (Zstd.stored content)
  | .bzip2 => some (Bzip2.stored content)
  | .xz => some (Xz.stored content)

/-- Why a content cannot be packed. -/
def unpackableMessage (kind : Compression) : String :=
  "cannot build a " ++ kind.label ++ " fixture"

end JsonIntake.Fixture
