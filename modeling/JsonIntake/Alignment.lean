import JsonIntake.Plan

/-!
# Alignment to records

A range of the stream is moved to the records that start in it: both of its
ends go to the next record start.
-/

namespace JsonIntake

namespace SourceSet

/-- Number of bytes that are searched at a time. -/
def scanStep : Nat := 64 * 1024

/-- The position behind the first delimiter from `position` on, or the end of
the source that holds `position`.  Every step moves forward, so the distance
to the end of the stream bounds their number. -/
def nextRecordStart (ends : List Nat) (total : Nat) (delimiter : UInt8) :
    (steps : Nat) → SourceSet → (position : Nat) →
      Except Failure Nat × SourceSet
  | 0, set, _ => (.ok total, set)
  | steps + 1, set, position =>
    if total ≤ position then (.ok total, set)
    else
      let (index, offset) := locate ends position
      let sourceEnd := ends.getD index total
      let step := min scanStep (sourceEnd - position)
      match set.copyTo index offset step Buffer.empty with
      | (.error failure, set) => (.error failure, set)
      | (.ok buffer, set) =>
        match firstDelimiterEnd? delimiter buffer.toList with
        | some length => (.ok (position + length), set)
        | none =>
          if position + step = sourceEnd then (.ok sourceEnd, set)
          else
            nextRecordStart ends total delimiter steps set (position + step)

/-- The first record start at `position` or later. -/
def recordStartFrom (set : SourceSet) (ends : List Nat) (total : Nat)
    (delimiter : UInt8) (position : Nat) : Except Failure Nat × SourceSet :=
  if position = 0 then (.ok 0, set)
  else
    nextRecordStart ends total delimiter (total + 1 - (position - 1)) set
      (position - 1)

/-- The range of the records that start in `range`. -/
def align (set : SourceSet) (range : ByteRange) (delimiter : UInt8) :
    Except Failure ByteRange × SourceSet :=
  match set.materialize with
  | (.error failure, set) => (.error failure, set)
  | (.ok total, set) =>
    if total < range.offset then
      (.error (.sourceExhausted range.offset total), set)
    else
      match set.ends with
      | .error failure => (.error failure, set)
      | .ok ends =>
        match set.recordStartFrom ends total delimiter range.offset with
        | (.error failure, set) => (.error failure, set)
        | (.ok start, set) =>
          let (stop, set) :=
            if total ≤ range.stop then
              (.ok (if range.stop = 0 then 0 else total), set)
            else set.recordStartFrom ends total delimiter range.stop
          (stop.map fun stop => ByteRange.between start (max stop start),
            set)

end SourceSet

end JsonIntake
