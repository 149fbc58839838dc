import JsonIntake.Proofs.Plan.Accounting
import JsonIntake.Proofs.Source.Known

/-!
# Ingestion of sources whose sizes are known

Where every size is exact, an ingestion copies what its range has of each
content, with one delimiter between each two pieces that are not empty.  It
fails only for a range that begins behind the stream.  How a source holds its
content does not matter, and the room that is set aside for the buffer
suffices.
-/

namespace JsonIntake

theorem length_slices (start stop : Nat) (contents : List (List UInt8)) :
    (slices start stop contents).length = contents.length := by
  induction contents generalizing start stop with
  | nil => rfl
  | cons content rest ih => rw [slices, List.length_cons, ih, List.length_cons]

namespace ByteRange

theorem covered_le_size (range : ByteRange)
    (contents : List (List UInt8)) :
    range.covered contents ≤ range.size := by
  unfold covered stop Size.addSaturating
  omega

theorem seams_le_length (range : ByteRange)
    (contents : List (List UInt8)) :
    range.seams contents ≤ contents.length := by
  have hpieces := List.length_filter_le (fun piece : List UInt8 => piece ≠ [])
    (slices range.offset range.stop contents)
  rw [length_slices] at hpieces
  unfold seams
  omega

end ByteRange

namespace SourceSet

variable {set : SourceSet} {range : ByteRange} {delimiter : UInt8}

theorem length_contents (set : SourceSet) :
    set.contents.length = set.length :=
  List.length_map _

theorem Exact.sound (hexact : set.Exact)
    (hopened : ∀ source ∈ set.sources, source.Opened 0)
    (hlength : set.contents.flatten.length < Size.limit) : set.Sound where
  sources source hsource := by
    have hknown := Source.exactSize_of_exact (hexact source hsource)
    exact (hopened source hsource).sound
      ((hopened source hsource).grounded.readable_of_exactSize hknown)
  length_lt := hlength

/-- A range that begins behind the stream is refused with the length of the
stream. -/
theorem Sound.ingest_count_outside (hsound : set.Sound)
    (hvisible : set.Visible) (hfits : set.Fits) (buffer : Buffer)
    (houtside : set.contents.flatten.length < range.offset) :
    (ingest buffer set range delimiter).count =
      .error (.sourceExhausted range.offset
        set.contents.flatten.length) := by
  obtain ⟨reached, hreached, hle, hexhausted⟩ :=
    (hsound.copies hvisible hfits range delimiter buffer).reached
  have htotal : set.contents.flatten.length =
      (set.sources.map Source.content).flatten.length := rfl
  obtain rfl : reached = set.contents.flatten.length := by
    by_contra hne
    have hinside := hexhausted (by omega)
    omega
  simp only [ingest, hreached, if_pos houtside]

/-- What an ingestion gives depends on the contents alone. -/
structure IngestsExactly (contents : List (List UInt8)) (range : ByteRange)
    (delimiter : UInt8) (ingested : Ingested) : Prop where
  count : ingested.count =
    if contents.flatten.length < range.offset then
      .error (.sourceExhausted range.offset contents.flatten.length)
    else .ok ingested.buffer.size
  buffer : ingested.buffer.toList =
    joinPieces delimiter (slices range.offset range.stop contents)

theorem Sound.ingestsExactly (hsound : set.Sound) (hexact : set.Exact)
    (range : ByteRange) (delimiter : UInt8) (buffer : Buffer) :
    IngestsExactly set.contents range delimiter
      (ingest buffer set range delimiter) := by
  have hvisible := hsound.visible hexact
  have hfits := hsound.fits hexact
  have hdelivers : set.Delivers := fun source hsource =>
    (hsound.sources source hsource).delivers (hexact source hsource)
  constructor
  · by_cases houtside : set.contents.flatten.length < range.offset
    · rw [if_pos houtside]
      exact hsound.ingest_count_outside hvisible hfits buffer houtside
    · rw [if_neg houtside]
      exact hsound.ingest_count hvisible hfits _ _ buffer
        (Nat.le_of_not_lt houtside)
  · exact (hsound.ingest_covered hvisible hfits hdelivers range delimiter
      buffer).1

theorem IngestsExactly.unique {contents : List (List UInt8)}
    {first second : Ingested}
    (hfirst : IngestsExactly contents range delimiter first)
    (hsecond : IngestsExactly contents range delimiter second) :
    first.count = second.count ∧ first.buffer = second.buffer := by
  have hbuffer : first.buffer = second.buffer :=
    Buffer.ext_toList (hfirst.buffer.trans hsecond.buffer.symm)
  refine ⟨?_, hbuffer⟩
  rw [hfirst.count, hsecond.count, hbuffer]

theorem IngestsExactly.size_le {contents : List (List UInt8)}
    {ingested : Ingested}
    (hingested : IngestsExactly contents range delimiter ingested) :
    ingested.buffer.size ≤ range.size + contents.length := by
  have hsize := range.length_joinPieces_slices delimiter contents
  rw [← hingested.buffer, Buffer.length_toList] at hsize
  have hcovered := range.covered_le_size contents
  have hseams := range.seams_le_length contents
  omega

/-- An ingestion of sources of exact sizes fails exactly if the range begins
behind the stream.  Otherwise the buffer has the pieces of the range that are
not empty, with one delimiter between each two, and the count is its size,
which is at most that of the range with one byte for each source; so if it is
a word, the room that is set aside suffices.  Other sources with the same
contents, and other buffers to begin with, make no difference. -/
theorem ingest_exact (set : SourceSet)
    (hopened : ∀ source ∈ set.sources, source.Opened 0)
    (hexact : set.Exact)
    (hlength : set.contents.flatten.length < Size.limit)
    (range : ByteRange) (delimiter : UInt8) (buffer : Buffer) :
    let total := set.contents.flatten.length
    let pieces := slices range.offset range.stop set.contents
    let ingested := ingest buffer set range delimiter
    (ingested.count = .error (.sourceExhausted range.offset total) ↔
        total < range.offset) ∧
      (range.offset ≤ total →
        ingested.count = .ok ingested.buffer.size ∧
          ingested.buffer.toList =
            [delimiter].intercalate (pieces.filter fun piece => piece ≠ []) ∧
          ingested.buffer.size ≤ range.size + set.length ∧
          (ingested.buffer.size < Size.limit →
            ingested.buffer.size ≤ ingestCapacity range.size set.length)) ∧
      ∀ (other : SourceSet) (prior : Buffer),
        (∀ source ∈ other.sources, source.Opened 0) → other.Exact →
        other.contents = set.contents →
        (ingest prior other range delimiter).count = ingested.count ∧
          (ingest prior other range delimiter).buffer = ingested.buffer := by
  intro total pieces ingested
  have hingested : IngestsExactly set.contents range delimiter ingested :=
    (hexact.sound hopened hlength).ingestsExactly hexact range delimiter buffer
  have hcount := hingested.count
  refine ⟨?_, ?_, ?_⟩
  · rw [hcount]
    by_cases houtside : total < range.offset
    · rw [if_pos houtside]
      exact iff_of_true rfl houtside
    · rw [if_neg houtside]
      exact iff_of_false nofun houtside
  · intro hinside
    rw [if_neg (Nat.not_lt_of_le hinside)] at hcount
    have hsize := hingested.size_le
    rw [set.length_contents] at hsize
    refine ⟨hcount, hingested.buffer, hsize, fun hword => ?_⟩
    unfold ingestCapacity Size.addSaturating Size.maximum
    omega
  · intro other prior hother hotherExact hcontents
    have hsound := hotherExact.sound hother (by rwa [hcontents])
    have hsame := hsound.ingestsExactly hotherExact range delimiter prior
    rw [hcontents] at hsame
    exact hsame.unique hingested

/-- A range over bytes in memory, an empty buffer on the device and a region
that was decompressed before, beside the same contents in memory. -/
theorem ingest_exact_three_sources :
    ∃ region : CompressedSource,
      Source.exactSize (.compressed
          ⟨[8, 28, 123, 34, 97, 34, 58, 49, 125, 10], .snappy, 40, false,
            none⟩) = (.ok 8, .compressed region) ∧
        (ingest (.ofList [0])
            ⟨[.host [91, 93, 10], .device .empty, .compressed region], .none⟩
            ⟨1, 6⟩ 44).count = .ok 7 ∧
        (ingest .empty
            ⟨[.host [91, 93, 10], .host [],
              .host [123, 34, 97, 34, 58, 49, 125, 10]], .none⟩
            ⟨1, 6⟩ 44).buffer.toList = [93, 10, 44, 123, 34, 97, 34] := by
  have hregion : Source.Opened 0 (.compressed
      ⟨[8, 28, 123, 34, 97, 34, 58, 49, 125, 10], .snappy, 8, true,
        some [123, 34, 97, 34, 58, 49, 125, 10]⟩) := by
    have hmake : CompressedSource.make
        [8, 28, 123, 34, 97, 34, 58, 49, 125, 10] .snappy 4 = .ok _ := rfl
    exact .sized (.compressed (Nat.zero_le 4) hmake)
  obtain ⟨-, hinside, hsame⟩ := ingest_exact
    ⟨[.host [91, 93, 10], .device .empty, .compressed
      ⟨[8, 28, 123, 34, 97, 34, 58, 49, 125, 10], .snappy, 8, true,
        some [123, 34, 97, 34, 58, 49, 125, 10]⟩], .none⟩
    (by
      rintro source (_ | ⟨_, _ | ⟨_, _ | ⟨_, ⟨⟩⟩⟩⟩)
      · exact .host _
      · exact .device _
      · exact hregion)
    (by rintro source (_ | ⟨_, _ | ⟨_, _ | ⟨_, ⟨⟩⟩⟩⟩) <;> rfl)
    (by decide) ⟨1, 6⟩ 44 (.ofList [0])
  obtain ⟨hcount, hbytes, -⟩ := hinside (by decide)
  obtain ⟨-, hbuffer⟩ := hsame
    ⟨[.host [91, 93, 10], .host [],
      .host [123, 34, 97, 34, 58, 49, 125, 10]], .none⟩ .empty
    (by rintro source (_ | ⟨_, _ | ⟨_, _ | ⟨_, ⟨⟩⟩⟩⟩) <;> exact .host _)
    (by rintro source (_ | ⟨_, _ | ⟨_, _ | ⟨_, ⟨⟩⟩⟩⟩) <;> rfl) rfl
  refine ⟨_, rfl, hcount, ?_⟩
  rw [hbuffer, hbytes]
  rfl

end SourceSet

end JsonIntake
