import JsonIntake.Compression.Bzip2
import JsonIntake.Compression.Gzip
import JsonIntake.Compression.Snappy
import JsonIntake.Compression.Xz.Container
import JsonIntake.Compression.Zip
import JsonIntake.Compression.Zstd.Frame

/-!
# Compressed sources

One call takes a whole compressed region to its content.  A source over such a
region stands for that content.  Its size may be an estimate until the content
is needed for the first time.  A first read that reaches the end takes the
content along; any other read keeps it for later.
-/

namespace JsonIntake

/-! ## Decompression -/

/-- The content, or the failure that a broken region stands for. -/
def Compression.orCorrupt (kind : Compression)
    (content : Option (List UInt8)) : Except Failure (List UInt8) :=
  match content with
  | some bytes => .ok bytes
  | Option.none => .error (.decompression kind .corrupt)

def decompress (kind : Compression) (region : List UInt8) :
    Except Failure (List UInt8) :=
  match kind with
  | .none => .error (.unsupportedCompression kind)
  | .auto => .error (.unsupportedCompression kind)
  | .gzip => kind.orCorrupt (Gzip.decode? region)
  | .zip => (Zip.firstEntry region).mapError (.decompression kind)
  | .snappy => kind.orCorrupt (Snappy.decode? region)
  | .zstd => kind.orCorrupt (Zstd.decode? region)
  | .bzip2 => kind.orCorrupt (Bzip2.decode? region)
  | .xz => kind.orCorrupt (Xz.decode? region)

/-! ## Reads -/

/-- The number of bytes that a read of `size` bytes from `offset` gets out of
`available` bytes. -/
def clampRead (offset size available : Nat) : Except Failure Nat :=
  if available < offset then .error (.outOfRange offset available)
  else .ok (min size (available - offset))

/-- The bytes of a read. -/
structure ReadBytes where
  bytes : List UInt8
  /-- Whether the bytes were handed over rather than borrowed. -/
  owned : Bool
deriving DecidableEq

/-- Read from content that is at hand. -/
def sliceRead (content : List UInt8) (offset size : Nat) (owned : Bool) :
    Except Failure ReadBytes := do
  let count ← clampRead offset size content.length
  .ok ⟨(content.drop offset).take count, owned⟩

structure CompressedSource where
  region : List UInt8
  kind : Compression
  /-- The exact size or the current estimate. -/
  size : Nat
  exact : Bool
  /-- The content, if it is kept for later reads. -/
  kept : Option (List UInt8)
deriving DecidableEq

namespace CompressedSource

/-- Wrap a region.  Kinds whose size cannot be estimated are decompressed at
once. -/
def make (region : List UInt8) (kind : Compression) (ratio : Nat) :
    Except Failure CompressedSource :=
  if ¬ kind.isCompressed then .error (.unsupportedCompression kind)
  else
    match kind.sizeStrategy with
    | .estimate =>
      .ok
        { region, kind
          size := Compression.estimatedSize region.length ratio
          exact := false
          kept := none }
    | .eager => do
      let content ← decompress kind region
      .ok
        { region, kind
          size := content.length
          exact := true
          kept := some content }

def isMaterialized (source : CompressedSource) : Bool := source.kept.isSome

/-- The same source with its exact size. -/
def withExactSize (source : CompressedSource) (content : List UInt8) :
    CompressedSource :=
  { source with size := content.length, exact := true }

/-- Decompress and keep the content, unless it is kept already; the result is
the exact size. -/
def materialize (source : CompressedSource) :
    Except Failure Nat × CompressedSource :=
  match source.kept with
  | some _ => (.ok source.size, source)
  | none =>
    match decompress source.kind source.region with
    | .error failure => (.error failure, source)
    | .ok content =>
      (.ok content.length,
        { source.withExactSize content with kept := some content })

/-- Read up to `size` bytes from `offset`. -/
def hostRead (source : CompressedSource) (offset size : Nat) :
    Except Failure ReadBytes × CompressedSource :=
  match source.kept with
  | some content => (sliceRead content offset size false, source)
  | none =>
    match decompress source.kind source.region with
    | .error failure => (.error failure, source)
    | .ok content =>
      let known := source.withExactSize content
      match clampRead offset size content.length with
      | .error failure => (.error failure, known)
      | .ok count =>
        if offset + count = content.length then
          (sliceRead content offset size true, known)
        else
          (sliceRead content offset size false,
            { known with kept := some content })

end CompressedSource

end JsonIntake
