import JsonIntake.Failure
import JsonIntake.Json.Value
import JsonIntake.Number.Decimal

/-!
# Tuning of batches

The numbers that decide how a read is cut into batches.  The budget bounds a
batch; it is divided into sub-chunks, the unit in which record boundaries are
searched.
-/

namespace JsonIntake

structure Tuning where
  numSubchunks : Nat
  minSubchunkSize : Nat
  /-- Factor from the compressed to the estimated size. -/
  compressionRatio : Nat
  maxPreallocated : Nat
  /-- Budget of one batch in bytes. -/
  maxBatchBytes : Nat
deriving DecidableEq, Repr

namespace Tuning

/-- The budget is the largest offset that fits in 32 bits with a sign. -/
def default : Tuning :=
  { numSubchunks := 10
    minSubchunkSize := 10000
    compressionRatio := 4
    maxPreallocated := 3
    maxBatchBytes := 2147483647 }

/-- Name of the environment variable for the budget. -/
def batchSizeVariable : String := "IRONJSON_BATCH_SIZE"

def withMaxBatchBytes (tuning : Tuning) (bytes : Nat) : Tuning :=
  { tuning with maxBatchBytes := bytes }

/-- Size of the stretch that is searched at once for a record boundary. -/
def subchunkSize (tuning : Tuning) : Nat :=
  max (tuning.maxBatchBytes / max tuning.numSubchunks 1)
    tuning.minSubchunkSize

/-- Number of scratch buffers. -/
def preallocated (tuning : Tuning) : Nat :=
  max (min tuning.maxPreallocated tuning.numSubchunks) 1

/-- A batch has to hold two sub-chunks, so that a cut can move forward by
one. -/
def validate (tuning : Tuning) : Except Failure Unit :=
  if tuning.numSubchunks = 0 ∨ tuning.compressionRatio = 0 then
    .error (.invalidOptions .zeroTuning)
  else
    match Size.mul? 2 tuning.subchunkSize with
    | none => .error .overflow
    | some least =>
      if tuning.maxBatchBytes < least then
        .error (.invalidOptions
          (.budgetTooSmall tuning.maxBatchBytes tuning.subchunkSize))
      else .ok ()

/-- Blanks around a setting: the white space of Unicode. -/
def isSpace (c : Char) : Bool :=
  let code := c.toNat
  (9 ≤ code && code ≤ 13) || code = 0x20 || code = 0x85 || code = 0xa0 ||
    code = 0x1680 || (0x2000 ≤ code && code ≤ 0x200a) || code = 0x2028 ||
    code = 0x2029 || code = 0x202f || code = 0x205f || code = 0x3000

/-- A number of bytes: decimal digits, perhaps behind a plus sign, with
blanks around them. -/
def byteCount? (raw : String) : Option Nat :=
  let trimmed :=
    ((raw.toList.dropWhile isSpace).reverse.dropWhile isSpace).reverse
  let digits :=
    match trimmed with
    | '+' :: rest => rest
    | rest => rest
  if digits.isEmpty ∨ ¬ digits.all Char.isDigit then none
  else
    let value := Decimal.digitsValue digits
    if value ≤ Size.maximum then some value else none

/-- The settings with the budget taken from a look-up, if it has one. -/
def withOverrides (tuning : Tuning) (lookup : String → Option String) :
    Except Failure Tuning := do
  let tuning ←
    match lookup batchSizeVariable with
    | none => .ok tuning
    | some raw =>
      match byteCount? raw with
      | some bytes => .ok (tuning.withMaxBatchBytes bytes)
      | none =>
        .error (.invalidOptions (.notByteCount batchSizeVariable raw))
  tuning.validate
  .ok tuning

/-- The default settings under a value of the environment variable. -/
def ofEnvironment (setting : Option String) : Except Failure Tuning :=
  default.withOverrides fun name =>
    if name = batchSizeVariable then setting else none

/-- The names of the settings, in order. -/
def names : List String :=
  ["num_subchunks", "min_subchunk_size", "estimated_compression_ratio",
    "max_subchunks_prealloced", "max_batch_bytes"]

def toList (tuning : Tuning) : List Nat :=
  [tuning.numSubchunks, tuning.minSubchunkSize, tuning.compressionRatio,
    tuning.maxPreallocated, tuning.maxBatchBytes]

/-- Change the setting of a name. -/
def set (tuning : Tuning) (name : String) (value : Nat) : Tuning :=
  match name with
  | "num_subchunks" => { tuning with numSubchunks := value }
  | "min_subchunk_size" => { tuning with minSubchunkSize := value }
  | "estimated_compression_ratio" => { tuning with compressionRatio := value }
  | "max_subchunks_prealloced" => { tuning with maxPreallocated := value }
  | "max_batch_bytes" => { tuning with maxBatchBytes := value }
  | _ => tuning

/-- Settings in written form: an object with some of the names, whose other
members do not count, or the values of the first settings in order.  What is
not given keeps its default. -/
def ofJson? : Json.Value → Option Tuning
  | .object members =>
    members.foldlM
      (fun tuning (name, value) =>
        if names.contains name then
          match value with
          | .number (.natural value) => some (tuning.set name value)
          | _ => none
        else some tuning)
      default
  | .array values =>
    if names.length < values.length then none
    else
      (names.zip values).foldlM
        (fun tuning (name, value) =>
          match value with
          | .number (.natural value) => some (tuning.set name value)
          | _ => none)
        default
  | _ => none

end Tuning

end JsonIntake
