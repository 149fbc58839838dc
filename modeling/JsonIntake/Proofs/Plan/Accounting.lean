import JsonIntake.Proofs.Plan.Tiling
import JsonIntake.Proofs.Stream.Ingestion

/-!
# What the batches of a plan have to count

A batch covers the bytes of its range that the stream has.  Its buffer holds
these and a delimiter between each two sources that it has something of.  How
much a batch covers can be told by the sizes that are known after it has been
ingested: a range that was copied to its end leaves no estimate in front of
that end, and behind it estimates do no harm.
-/

namespace JsonIntake

/-! ## Pieces of a range -/

theorem length_joinPieces (delimiter : UInt8) (pieces : List (List UInt8)) :
    (joinPieces delimiter pieces).length =
      pieces.flatten.length +
        ((pieces.filter fun piece => piece ≠ []).length - 1) := by
  induction pieces with
  | nil => rfl
  | cons piece pieces ih =>
      rw [List.flatten_cons, List.length_append]
      by_cases hpiece : piece = []
      · simpa [hpiece] using ih
      rw [List.filter_cons_of_pos (by simpa using hpiece), List.length_cons]
      by_cases hpieces : ∀ piece ∈ pieces, piece = []
      · have hflatten : pieces.flatten = [] :=
          List.flatten_eq_nil_iff.mpr hpieces
        have hfilter : (pieces.filter fun piece => piece ≠ []) = [] :=
          List.filter_eq_nil_iff.mpr fun other hother => by
            simp [hpieces other hother]
        rw [joinPieces_cons_of_empty hpieces, hflatten, hfilter]
        rfl
      · have hfilter : 0 < (pieces.filter fun piece => piece ≠ []).length := by
          rw [List.length_filter_pos_iff]
          simpa using hpieces
        rw [joinPieces_cons hpiece hpieces, List.length_append,
          List.length_cons, ih]
        omega

theorem length_filter_le_flatten (pieces : List (List UInt8)) :
    (pieces.filter fun piece => piece ≠ []).length ≤
      pieces.flatten.length := by
  induction pieces with
  | nil => exact Nat.le_refl _
  | cons piece pieces ih =>
      rw [List.flatten_cons, List.length_append]
      by_cases hpiece : piece = []
      · simpa [hpiece] using ih
      · have hpositive := List.length_pos_iff.mpr hpiece
        rw [List.filter_cons_of_pos (by simpa using hpiece), List.length_cons]
        omega

theorem length_flatten_slices (start stop : Nat)
    (contents : List (List UInt8)) :
    (slices start stop contents).flatten.length =
      min stop contents.flatten.length - start := by
  induction contents generalizing start stop with
  | nil => simp [slices]
  | cons content rest ih =>
      rw [slices, List.flatten_cons, List.flatten_cons, List.length_append,
        List.length_append, ih, List.length_drop, List.length_take]
      omega

namespace ByteRange

/-- Number of bytes of a range that the stream has. -/
def covered (contents : List (List UInt8)) (range : ByteRange) : Nat :=
  min range.stop contents.flatten.length - range.offset

/-- How often one source with bytes in the range follows another. -/
def seams (contents : List (List UInt8)) (range : ByteRange) : Nat :=
  ((slices range.offset range.stop contents).filter
    fun piece => piece ≠ []).length - 1

variable {contents : List (List UInt8)}

/-- Every piece has a byte. -/
theorem seams_le_pred (range : ByteRange) (contents : List (List UInt8)) :
    range.seams contents ≤ range.covered contents - 1 := by
  have hpieces :=
    length_filter_le_flatten (slices range.offset range.stop contents)
  rw [length_flatten_slices] at hpieces
  exact Nat.sub_le_sub_right hpieces 1

theorem slices_stop (range : ByteRange)
    (hlength : contents.flatten.length < Size.limit) :
    slices range.offset (range.offset + range.size) contents =
      slices range.offset range.stop contents := by
  rw [← slices_min, ← range.min_stop_eq hlength, slices_min]

theorem length_joinPieces_slices (range : ByteRange) (delimiter : UInt8)
    (contents : List (List UInt8)) :
    (joinPieces delimiter
      (slices range.offset range.stop contents)).length =
        range.covered contents + range.seams contents := by
  rw [length_joinPieces, length_flatten_slices, covered, seams]

end ByteRange

/-! ## One batch -/

/-- The buffer of an ingestion has the pieces of the range in it, and the
sizes that are known afterwards tell how much of the stream the range
covers. -/
theorem SourceSet.Sound.ingest_covered {set : SourceSet} (hsound : set.Sound)
    (hvisible : set.Visible) (hfits : set.Fits) (hdelivers : set.Delivers)
    (range : ByteRange) (delimiter : UInt8) (buffer : Buffer) :
    (ingest buffer set range delimiter).buffer.toList =
        joinPieces delimiter
          (slices range.offset range.stop set.contents) ∧
      min range.stop (ingest buffer set range delimiter).set.sizes.sum -
          range.offset = range.covered set.contents ∧
      set.Reads (ingest buffer set range delimiter).set := by
  have hcopies := hsound.copies hvisible hfits range delimiter buffer
  have hlength := hsound.length_lt
  have hreads : set.Reads (ingest buffer set range delimiter).set :=
    hcopies.sources
  refine ⟨?_, ?_, hreads⟩
  · obtain ⟨tail, hbuffer, htail⟩ := hcopies.buffer
    obtain rfl := htail.of_exact hdelivers
    have hslices := range.slices_stop hlength
    rw [contents] at hslices
    rw [Nat.sub_zero, hslices, Buffer.toList_clear, List.nil_append,
      List.append_nil] at hbuffer
    exact hbuffer
  · have hsizes := hcopies.sizes
    have htotal := (hreads.fits hfits).sizes_lt
    rw [Nat.sub_zero] at hsizes
    rw [ByteRange.covered, range.min_stop_eq htotal,
      range.min_stop_eq hlength]
    exact congrArg (· - range.offset) hsizes

/-! ## All batches -/

namespace Tiling

variable {IsCut : Nat → Prop} {budget start stop : Nat}
  {ranges : List ByteRange} {contents : List (List UInt8)}

theorem length_le (htiling : Tiling IsCut budget stop start ranges) :
    start + ranges.length ≤ stop := by
  induction htiling with
  | done => exact Nat.le_refl _
  | step hlt hle hbudget hcut hrest ih =>
      rw [List.length_cons]
      omega

theorem sum_covered (htiling : Tiling IsCut budget stop start ranges)
    (hstop : stop ≤ contents.flatten.length)
    (hlength : contents.flatten.length < Size.limit) :
    (ranges.map (ByteRange.covered contents)).sum = stop - start := by
  induction htiling with
  | done => simp
  | @step start cut rest hlt hle hbudget hcut hrest ih =>
      have hend := (ByteRange.between start cut).min_stop_eq hlength
      have hlater := hrest.length_le
      have hhead : (ByteRange.between start cut).covered contents =
          cut - start := by
        rw [ByteRange.covered, hend]
        simp only [ByteRange.between]
        omega
      rw [List.map_cons, List.sum_cons, ih, hhead]
      omega

end Tiling

namespace Plan

variable {set next : SourceSet} {range : ByteRange} {delimiter : UInt8}
  {lines : Bool} {tuning : Tuning} {plan : Plan}

/-- A plan has one batch or tiles its range, whatever the settings are under
which it was made. -/
theorem tiling_of_make (hsound : set.Sound)
    (hmake : make set range delimiter lines tuning = (.ok plan, next)) :
    (next = set ∧ plan.batches.map Batch.range = [range]) ∨
      (set.Reads next ∧ next.Exact ∧
        range.offset ≤ set.contents.flatten.length ∧
        Tiling (IsBoundary delimiter set.contents) tuning.maxBatchBytes
          (min range.stop set.contents.flatten.length) range.offset
          (plan.batches.map Batch.range)) := by
  obtain ⟨hvalidate, hsizes, ⟨-, rfl, rfl⟩ | ⟨-, hlarge, hcut⟩⟩ :=
    make_cases hmake
  · exact .inl ⟨rfl, map_range_batchesOf _ _⟩
  · have hvalid := Tuning.valid_of_validate (by omega) hvalidate
    exact .inr (cut_tiling hsound hvalid hcut)

/-- The batches of a plan cover what their range covers. -/
theorem sum_covered (hsound : set.Sound)
    (hmake : make set range delimiter lines tuning = (.ok plan, next)) :
    ((plan.batches.map Batch.range).map
        (ByteRange.covered set.contents)).sum =
      range.covered set.contents := by
  rcases tiling_of_make hsound hmake with
    ⟨-, hsingle⟩ | ⟨-, -, -, htiling⟩
  · rw [hsingle]
    exact List.sum_singleton
  · exact htiling.sum_covered (Nat.min_le_right _ _) hsound.length_lt

end Plan

end JsonIntake
