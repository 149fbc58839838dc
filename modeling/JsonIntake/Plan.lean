import JsonIntake.Device
import JsonIntake.Source.Set
import JsonIntake.Tuning

/-!
# Plans

A plan cuts a range of the stream into batches that fit the budget.  Cuts lie
at record boundaries: behind a delimiter or at the end of a source.  The
boundary is searched in the sub-chunk before the place where the cut is wanted
and then, once, in the sub-chunk behind it.
-/

namespace JsonIntake

structure Batch where
  index : Nat
  range : ByteRange
  /-- The pieces of the range by the sizes known when it was planned. -/
  fragments : List Fragment
deriving DecidableEq, Repr

structure Plan where
  batches : List Batch
  /-- Sum of the source sizes before any decompression. -/
  estimatedSize : Nat
  /-- Sum of the exact sizes, where they were known or had to be. -/
  exactSize : Option Nat
  subchunkSize : Nat
  /-- Cuts that were found only behind the wanted place. -/
  shiftedCuts : Nat
deriving DecidableEq, Repr

namespace Plan

def length (plan : Plan) : Nat := plan.batches.length

def isEmpty (plan : Plan) : Bool := plan.batches.isEmpty

/-- The plan as lines of text. -/
def text (plan : Plan) : String :=
  let heading :=
    "BatchPlan: " ++ toString plan.length ++ " batch(es), estimated " ++
      toString plan.estimatedSize ++ " bytes, sub-chunk " ++
      toString plan.subchunkSize ++ " bytes\n"
  let lines := plan.batches.map fun batch =>
    "  [" ++ toString batch.index ++ "] " ++ batch.range.text ++ " over " ++
      toString batch.fragments.length ++ " source(s)\n"
  heading ++ String.join lines

end Plan

/-- The number of the source that holds a logical position, and the position
in it. -/
def locate (ends : List Nat) (position : Nat) : Nat × Nat :=
  let before := ends.takeWhile fun stop => stop ≤ position
  (before.length, position - before.getLast?.getD 0)

/-- Number of bytes in front of the end of the last delimiter. -/
def lastDelimiterEnd? (delimiter : UInt8) (bytes : List UInt8) : Option Nat :=
  let behind := bytes.reverse.takeWhile fun byte => byte ≠ delimiter
  if behind.length < bytes.length then some (bytes.length - behind.length)
  else none

/-- Number of bytes in front of the end of the first delimiter. -/
def firstDelimiterEnd? (delimiter : UInt8) (bytes : List UInt8) :
    Option Nat :=
  let before := bytes.takeWhile fun byte => byte ≠ delimiter
  if before.length < bytes.length then some (before.length + 1) else none

/-- Sources and scratch buffers during the search for boundaries. -/
structure Probe where
  set : SourceSet
  pool : BufferPool

namespace Probe

/-- Copy a stretch of the stream into the next scratch buffer.  It has to lie
in one source. -/
def stage (probe : Probe) (ends : List Nat) (start size : Nat) :
    Except Failure Buffer × Probe :=
  let (index, offset) := locate ends start
  let (slot, pool) := probe.pool.advance
  let (result, set) := probe.set.copyTo index offset size (pool.get slot)
  let pool :=
    match result with
    | .ok buffer => { pool with buffers := pool.buffers.setIfInBounds slot buffer }
    | .error _ => pool
  (result, ⟨set, pool⟩)

/-- The last record boundary in `(low, high]`, if there is one.  Only the
bytes behind the last source end are searched; they lie in one source. -/
def lastBoundary (probe : Probe) (ends : List Nat) (low high : Nat)
    (delimiter : UInt8) : Except Failure (Option Nat) × Probe :=
  let sourceEnd :=
    (ends.filter fun stop => low < stop && stop ≤ high).max?
  let start := sourceEnd.getD low
  if start < high then
    match probe.stage ends start (high - start) with
    | (.error failure, probe) => (.error failure, probe)
    | (.ok buffer, probe) =>
      match lastDelimiterEnd? delimiter buffer.toList with
      | some length =>
        match Size.add? start length with
        | none => (.error .overflow, probe)
        | some cut => (.ok (some cut), probe)
      | none => (.ok sourceEnd, probe)
  else (.ok sourceEnd, probe)

/-- There is no boundary in the sub-chunks before and behind `target`. -/
def noBoundary (target subchunk : Nat) : Failure :=
  match Size.mul? 2 subchunk with
  | none => .overflow
  | some searched => .noSafeSplitPoint target searched

/-- Where to cut when a batch should end at `target`, and whether the cut was
shifted forward. -/
def cutNear (probe : Probe) (ends : List Nat)
    (start target stop subchunk : Nat) (delimiter : UInt8) :
    Except Failure (Nat × Bool) × Probe :=
  let low := max (target - subchunk) start
  match probe.lastBoundary ends low target delimiter with
  | (.error failure, probe) => (.error failure, probe)
  | (.ok (some cut), probe) => (.ok (cut, false), probe)
  | (.ok none, probe) =>
    match Size.add? target subchunk with
    | none => (.error .overflow, probe)
    | some ahead =>
      match probe.lastBoundary ends target (min ahead stop) delimiter with
      | (.error failure, probe) => (.error failure, probe)
      | (.ok (some cut), probe) => (.ok (cut, true), probe)
      | (.ok none, probe) => (.error (noBoundary target subchunk), probe)

/-- Ranges that tile `[start, stop)`, and the number of shifted cuts.  Every
cut moves forward, so the length of the range bounds the steps. -/
def cutRanges (budget nominal subchunk : Nat) (ends : List Nat) (stop : Nat)
    (delimiter : UInt8) :
    (steps : Nat) → Probe → (start : Nat) →
      Except Failure (List ByteRange × Nat) × Probe
  | 0, probe, _ => (.ok ([], 0), probe)
  | steps + 1, probe, start =>
    if stop ≤ start then (.ok ([], 0), probe)
    else
      let (choice, probe) :=
        if stop - start ≤ budget then (.ok (stop, false), probe)
        else
          match Size.add? start nominal with
          | none => (.error .overflow, probe)
          | some target =>
            probe.cutNear ends start target stop subchunk delimiter
      match choice with
      | .error failure => (.error failure, probe)
      | .ok (cut, shifted) =>
        match cutRanges budget nominal subchunk ends stop delimiter steps
            probe cut with
        | (.error failure, probe) => (.error failure, probe)
        | (.ok (ranges, count), probe) =>
          (.ok (ByteRange.between start cut :: ranges,
            if shifted then count + 1 else count), probe)

end Probe

namespace Plan

/-- Number the ranges and find their pieces. -/
def batchesOf (set : SourceSet) (ranges : List ByteRange) : List Batch :=
  ranges.zipIdx.map fun (range, index) =>
    ⟨index, range, set.fragments range⟩

/-- The plan with one batch. -/
def single (set : SourceSet) (range : ByteRange) (estimated subchunk : Nat) :
    Plan :=
  { batches := batchesOf set [range]
    estimatedSize := estimated
    exactSize := if set.sizesAreExact then some estimated else none
    subchunkSize := subchunk
    shiftedCuts := 0 }

/-- What it takes to cut: the ends of the sources, the part of the budget in
front of its last sub-chunk, and scratch buffers. -/
def prepare (set : SourceSet) (tuning : Tuning) :
    Except Failure (List Nat × Nat × BufferPool) := do
  let subchunk := tuning.subchunkSize
  let ends ← set.ends
  let nominal ← Failure.orOverflow (Size.sub? tuning.maxBatchBytes subchunk)
  match BufferPool.make? tuning.preallocated subchunk with
  | none => .error (.capacityExceeded subchunk)
  | some pool => .ok (ends, nominal, pool)

/-- Cut a range by exact sizes. -/
def cut (set : SourceSet) (range : ByteRange) (delimiter : UInt8)
    (tuning : Tuning) (estimated : Nat) : Except Failure Plan × SourceSet :=
  let subchunk := tuning.subchunkSize
  match set.materialize with
  | (.error failure, set) => (.error failure, set)
  | (.ok total, set) =>
    if total < range.offset then
      (.error (.sourceExhausted range.offset total), set)
    else
      match prepare set tuning with
      | .error failure => (.error failure, set)
      | .ok (ends, nominal, pool) =>
        let stop := min range.stop total
        let (result, probe) :=
          Probe.cutRanges tuning.maxBatchBytes nominal subchunk ends stop
            delimiter (stop - range.offset) ⟨set, pool⟩ range.offset
        (result.map fun (ranges, shifted) =>
          { batches := batchesOf probe.set ranges
            estimatedSize := estimated
            exactSize := some total
            subchunkSize := subchunk
            shiftedCuts := shifted }, probe.set)

/-- Plan the batches of a range.  Only lines can be cut; a document is one
batch, and so is what fits the budget by the current sizes. -/
def make (set : SourceSet) (range : ByteRange) (delimiter : UInt8)
    (lines : Bool) (tuning : Tuning) : Except Failure Plan × SourceSet :=
  match tuning.validate, set.totalSize with
  | .error failure, _ => (.error failure, set)
  | .ok (), .error failure => (.error failure, set)
  | .ok (), .ok estimated =>
    let requested := min range.stop estimated - range.offset
    if ¬ lines ∨ requested ≤ tuning.maxBatchBytes then
      (.ok (single set range estimated tuning.subchunkSize), set)
    else cut set range delimiter tuning estimated

end Plan

end JsonIntake
