import JsonIntake.Source.Basic

/-!
# The sources of a read

The sources of one read, in order, form one logical byte stream.  Positions
in it are found through the current sizes of the sources.
-/

namespace JsonIntake

/-- The part of a logical range that lies in one source. -/
structure Fragment where
  source : Nat
  range : ByteRange
deriving DecidableEq, Repr

structure SourceSet where
  sources : List Source
  compression : Compression

namespace SourceSet

/-- Collect sources, each one wrapped as its compression asks. -/
def make (sources : List Source) (compression : Compression) (ratio : Nat) :
    Except Failure SourceSet := do
  let sources ← sources.mapM fun source =>
    source.withCompression compression ratio
  .ok ⟨sources, compression⟩

def length (set : SourceSet) : Nat := set.sources.length

def isEmpty (set : SourceSet) : Bool := set.sources.isEmpty

def get? (set : SourceSet) (index : Nat) : Option Source :=
  set.sources[index]?

def sizes (set : SourceSet) : List Nat := set.sources.map Source.size

/-- Sum of the current sizes. -/
def totalSize (set : SourceSet) : Except Failure Nat :=
  Failure.orOverflow (Size.sum? set.sizes)

def sizesAreExact (set : SourceSet) : Bool :=
  set.sources.all Source.isSizeExact

/-- Exclusive end offsets for sources that start at `start`. -/
def endsFrom? (start : Nat) : List Nat → Option (List Nat)
  | [] => some []
  | size :: rest => do
    let stop ← Size.add? start size
    let later ← endsFrom? stop rest
    some (stop :: later)

/-- Exclusive end offset of every source. -/
def ends (set : SourceSet) : Except Failure (List Nat) :=
  Failure.orOverflow (endsFrom? 0 set.sizes)

/-- The pieces of a range in sources that start at `start`, the first of
which has number `index`. -/
def fragmentsFrom (range : ByteRange) (index start : Nat) :
    List Nat → List Fragment
  | [] => []
  | size :: rest =>
    let span : ByteRange := ⟨start, size⟩
    let later := fragmentsFrom range (index + 1) span.stop rest
    match span.intersect range with
    | some hit => ⟨index, ⟨hit.offset - start, hit.size⟩⟩ :: later
    | none => later

/-- The pieces of a range that lie in the sources, by the current sizes. -/
def fragments (set : SourceSet) (range : ByteRange) : List Fragment :=
  fragmentsFrom range 0 0 set.sizes

/-- Make the sizes of the sources exact, up to the first failure. -/
def exactSources : List Source → Option Failure × List Source
  | [] => (none, [])
  | source :: rest =>
    match source.exactSize with
    | (.error failure, source) => (some failure, source :: rest)
    | (.ok _, source) =>
      let (failure, rest) := exactSources rest
      (failure, source :: rest)

/-- Replace every estimate by the exact size; the result is the total. -/
def materialize (set : SourceSet) : Except Failure Nat × SourceSet :=
  let (failure, sources) := exactSources set.sources
  let set := { set with sources }
  match failure with
  | some failure => (.error failure, set)
  | none => (set.totalSize, set)

/-- Append up to `size` bytes of one source to a buffer. -/
def copyTo (set : SourceSet) (index offset size : Nat) (target : Buffer) :
    Except Failure Buffer × SourceSet :=
  match set.sources[index]? with
  | none => (.error (.positionOutside offset), set)
  | some source =>
    let (result, source) := source.copyTo offset size target
    (result.map (·.2), { set with sources := set.sources.set index source })

end SourceSet

end JsonIntake
