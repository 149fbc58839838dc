import JsonIntake.Source.Set

/-!
# Ingestion

A range of the logical stream is copied into one buffer.  After a source that
ends inside the range comes a record delimiter, so that no record is made of
the bytes of two sources.
-/

namespace JsonIntake

/-- Room that always suffices for `size` bytes out of `sources` sources. -/
def ingestCapacity (size sources : Nat) : Nat :=
  Size.addSaturating size sources

/-- What a copy leaves behind, whether it succeeded or not. -/
structure Ingestion where
  /-- The logical position behind the last source that was visited. -/
  reached : Except Failure Nat
  buffer : Buffer
  sources : List Source

namespace Ingestion

/-- The same copy with one more source in front that was visited before. -/
def after (source : Source) (later : Ingestion) : Ingestion :=
  { later with sources := source :: later.sources }

end Ingestion

/-- Copy what is left of a range from sources that start at `position`. -/
def ingestFrom (offset : Nat) (delimiter : UInt8) :
    (position remaining : Nat) → Buffer → List Source → Ingestion
  | position, _, buffer, [] => ⟨.ok position, buffer, []⟩
  | position, remaining, buffer, source :: rest =>
    if remaining = 0 ∧ offset ≤ position then
      ⟨.ok position, buffer, source :: rest⟩
    else
      -- An estimate does not tell whether the range starts in the source.
      let (size, source) :=
        if position < offset then source.exactSize
        else (.ok source.size, source)
      match size with
      | .error failure => ⟨.error failure, buffer, source :: rest⟩
      | .ok size =>
        match Size.add? position size with
        | none => ⟨.error .overflow, buffer, source :: rest⟩
        | some stop =>
          if stop ≤ offset then
            (ingestFrom offset delimiter stop remaining buffer rest).after
              source
          else
            let start := offset - position
            match source.copyTo start remaining buffer with
            | (.error failure, source) =>
              ⟨.error failure, buffer, source :: rest⟩
            | (.ok (copied, buffer), source) =>
              -- The copy may have replaced an estimate.
              match Size.add? position source.size with
              | none => ⟨.error .overflow, buffer, source :: rest⟩
              | some stop =>
                let remaining := remaining - copied
                let moreData := rest.any fun later => 0 < later.size
                let buffer :=
                  if 0 < copied ∧ source.size ≤ start + copied ∧
                      0 < remaining ∧ moreData then
                    buffer.push delimiter
                  else buffer
                (ingestFrom offset delimiter stop remaining buffer
                  rest).after source

/-- The outcome of a copy into a buffer. -/
structure Ingested where
  count : Except Failure Nat
  buffer : Buffer
  set : SourceSet

/-- Fill a buffer with a range of the stream; the count is the number of
bytes in it.  A range that starts behind the end is refused. -/
def ingest (buffer : Buffer) (set : SourceSet) (range : ByteRange)
    (delimiter : UInt8) : Ingested :=
  let copy := ingestFrom range.offset delimiter 0 range.size buffer.clear
    set.sources
  let count :=
    match copy.reached with
    | .error failure => .error failure
    | .ok reached =>
      if reached < range.offset then
        .error (.sourceExhausted range.offset reached)
      else .ok copy.buffer.size
  ⟨count, copy.buffer, { set with sources := copy.sources }⟩

end JsonIntake
