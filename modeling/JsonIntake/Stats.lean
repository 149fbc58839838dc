import JsonIntake.Json.Value
import JsonIntake.Number.Decimal
import JsonIntake.Size

/-!
# Statistics of a read

The counters tell what a read did, not what its table holds: the bytes that
were copied include the delimiters between sources, and the normalized bytes
are counted after the quotes have been normalized.
-/

namespace JsonIntake

structure ReadStats where
  sources : Nat
  batches : Nat
  /-- Size of the input before anything is decompressed. -/
  estimatedBytes : Nat
  bytesIngested : Nat
  delimitersInserted : Nat
  bytesNormalized : Nat
  rows : Nat
  /-- Records that became rows of nulls. -/
  malformedRecords : Nat
  /-- Cuts that were found only behind the wanted place. -/
  shiftedCuts : Nat
  elapsedMs : Nat
deriving DecidableEq, Repr

namespace ReadStats

def empty : ReadStats := ⟨0, 0, 0, 0, 0, 0, 0, 0, 0, 0⟩

/-- Add the counters of one batch: the bytes of the stream it covers, the
bytes in its buffer before and after normalization, and its rows. -/
def recordBatch? (stats : ReadStats)
    (covered ingested normalized rows malformed : Nat) :
    Option ReadStats := do
  let batches ← Size.add? stats.batches 1
  let bytesIngested ← Size.add? stats.bytesIngested ingested
  let delimitersInserted ←
    Size.add? stats.delimitersInserted (ingested - covered)
  let bytesNormalized ← Size.add? stats.bytesNormalized normalized
  let rows ← Size.add? stats.rows rows
  let malformedRecords ← Size.add? stats.malformedRecords malformed
  some
    { stats with
      batches, bytesIngested, delimitersInserted, bytesNormalized, rows
      malformedRecords }

/-- What has been counted has been counted exactly. -/
theorem recordBatch?_eq_some {stats after : ReadStats}
    {covered ingested normalized rows malformed : Nat}
    (hrecord : stats.recordBatch? covered ingested normalized rows
      malformed = some after) :
    after =
      { stats with
        batches := stats.batches + 1
        bytesIngested := stats.bytesIngested + ingested
        delimitersInserted :=
          stats.delimitersInserted + (ingested - covered)
        bytesNormalized := stats.bytesNormalized + normalized
        rows := stats.rows + rows
        malformedRecords := stats.malformedRecords + malformed } := by
  simp only [recordBatch?, Option.bind_eq_bind, Option.bind_eq_some_iff,
    Size.add?_eq_some_iff] at hrecord
  obtain ⟨_, ⟨-, rfl⟩, _, ⟨-, rfl⟩, _, ⟨-, rfl⟩, _, ⟨-, rfl⟩, _, ⟨-, rfl⟩, _,
    ⟨-, rfl⟩, hafter⟩ := hrecord
  exact (Option.some.inj hafter).symm

/-- Whole seconds, and the nanoseconds beyond them. -/
def elapsed (stats : ReadStats) : Nat × Nat :=
  (stats.elapsedMs / 1000, stats.elapsedMs % 1000 * 1000000)

/-- The elapsed time in seconds. -/
def elapsedSeconds (stats : ReadStats) : Binary64 :=
  let (seconds, nanos) := stats.elapsed
  (Binary.ofNat seconds).add ((Binary.ofNat nanos).div (.ofNat (Nat.pow 10 9)))

/-- The counters with their names. -/
def counters (stats : ReadStats) : List (String × Nat) :=
  [("sources", stats.sources),
    ("batches", stats.batches),
    ("estimated_bytes", stats.estimatedBytes),
    ("bytes_ingested", stats.bytesIngested),
    ("delimiters_inserted", stats.delimitersInserted),
    ("bytes_normalized", stats.bytesNormalized),
    ("rows", stats.rows),
    ("malformed_records", stats.malformedRecords),
    ("shifted_cuts", stats.shiftedCuts),
    ("elapsed_ms", stats.elapsedMs)]

/-- The counters as members of an object, ordered by name. -/
def members (stats : ReadStats) : List (String × Json.Value) :=
  stats.counters.foldl
    (fun members (name, count) =>
      Json.Value.insertMember name (.number (.natural count)) members)
    []

def toJson (stats : ReadStats) : Json.Value := .object stats.members

/-- The counters as a file of their own. -/
def fileText (stats : ReadStats) : String :=
  let lines := stats.counters.map fun (name, count) =>
    "  \"" ++ name ++ "\": " ++ toString count
  "\x7b\n" ++ String.intercalate ",\n" lines ++ "\n\x7d"

/-- The counters as a report to be shown: the time, and the other counters by
name. -/
def report (stats : ReadStats) : String :=
  let lines := (stats.members.filter fun member =>
      member.1 != "elapsed_ms").map fun (name, _) =>
    name ++ ": " ++ toString ((stats.counters.lookup name).getD 0) ++ "\n"
  "\n=========== JSON Read Stats ===========\n" ++
    "Elapsed: " ++ Decimal.fixed 3 stats.elapsedSeconds ++ "s (" ++
    toString stats.elapsedMs ++ " ms)\n" ++
    "---------------------------------------\n" ++ String.join lines ++
    "=======================================\n\n"

end ReadStats

end JsonIntake
