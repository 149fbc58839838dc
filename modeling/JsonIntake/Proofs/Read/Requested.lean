import JsonIntake.Proofs.Read.Alignment
import JsonIntake.Proofs.Records.Isolation
import JsonIntake.Proofs.Table.Cells
import JsonIntake.Read

/-!
# The records that a read is asked for

The options say which lines of the stream are asked for, all of them or those
that start in a range, and how a line becomes a record.  Both depend on the
contents of the sources only, so the requested records can be named without
looking at batches.  The range that is planned has just these records.
-/

namespace JsonIntake

namespace ReadOptions

/-- What the tokenizer is given for some ingested lines. -/
def lineText (options : ReadOptions) (bytes : List UInt8) : List UInt8 :=
  if options.normalize then normalText (some options.delimiter) bytes
  else bytes

/-- The records of some ingested lines. -/
def recordsOf (options : ReadOptions) (bytes : List UInt8) :
    List (List UInt8) :=
  recordLines options.delimiter (options.lineText bytes)

/-- What the tokenizer is given of an ingested batch. -/
def prepare (options : ReadOptions) (buffer : Buffer) : Buffer :=
  if options.normalize then
    (normalizeQuotes
      (if options.lines then some options.delimiter else none) buffer).output
  else buffer

def requestedLines (options : ReadOptions) (contents : List (List UInt8)) :
    List StreamLine :=
  match options.byteRange with
  | none => streamLines options.delimiter contents
  | some range => linesIn options.delimiter contents range

/-- The records of the requested lines, in the order of the stream. -/
def requestedRecords (options : ReadOptions)
    (contents : List (List UInt8)) : List (List UInt8) :=
  readLines options.recordsOf (options.requestedLines contents)

variable {options : ReadOptions}

theorem linewise_recordsOf (options : ReadOptions) :
    Linewise options.delimiter options.recordsOf := by
  by_cases hnormalize : options.normalize = true
  · have hrecords :
        options.recordsOf = normalRecords options.delimiter := by
      funext bytes
      rw [recordsOf, lineText, if_pos hnormalize, normalRecords]
    rw [hrecords]
    exact linewise_normalRecords options.delimiter
  · have hrecords : options.recordsOf = recordLines options.delimiter := by
      funext bytes
      rw [recordsOf, lineText, if_neg hnormalize]
    rw [hrecords]
    exact linewise_recordLines options.delimiter

theorem recordLines_prepare (hlines : options.lines = true)
    (buffer : Buffer) :
    recordLines options.delimiter (options.prepare buffer).toList =
      options.recordsOf buffer.toList := by
  rw [recordsOf, lineText, prepare, if_pos hlines]
  split
  · rw [normalizeQuotes_output]
  · rfl

theorem delimiter_not_mem_lineText {line : List UInt8}
    (hline : options.delimiter ∉ line) :
    options.delimiter ∉ options.lineText line := by
  have hquotes : options.delimiter ≠ 34 ∧ options.delimiter ≠ 92 := by
    unfold delimiter
    split <;> decide
  unfold lineText
  split
  · rw [normalText_of_not_mem hline]
    exact not_mem_normalText hquotes.1 hquotes.2 hline
  · exact hline

/-- Bytes have no more records than bytes. -/
theorem length_recordsOf_le (options : ReadOptions) (bytes : List UInt8) :
    (options.recordsOf bytes).length ≤ bytes.length := by
  apply options.linewise_recordsOf.length_le
  intro line hline
  cases line with
  | nil => simp [options.linewise_recordsOf.nil]
  | cons byte rest =>
      have hone :=
        length_recordLines_le_one options.delimiter
          (delimiter_not_mem_lineText hline)
      exact hone.trans (Nat.le_add_left 1 rest.length)

end ReadOptions

/-! ## The planned range -/

section LinesIn

variable {delimiter : UInt8} {contents : List (List UInt8)}
  {range : ByteRange} {β : Type} {make : List UInt8 → List β}

/-- Lines that start at the end of the stream are empty, so it does not matter
how far beyond it a range goes. -/
theorem readLines_linesIn_min (hmake : Linewise delimiter make)
    (hoffset : range.offset ≤ contents.flatten.length) :
    readLines make (linesIn delimiter contents range) =
      readLines make (linesIn delimiter contents
        (.between range.offset
          (min (range.offset + range.size) contents.flatten.length))) := by
  have hinside :
      linesIn delimiter contents
          (.between range.offset
            (min (range.offset + range.size) contents.flatten.length)) =
        (linesIn delimiter contents range).filter fun line =>
          line.start < contents.flatten.length := by
    unfold linesIn
    rw [List.filter_filter]
    apply List.filter_congr
    intro line hline
    rw [Bool.eq_iff_iff]
    simp only [Bool.and_eq_true, decide_eq_true_eq]
    simp only [ByteRange.between]
    omega
  rw [hinside, readLines_filter hmake]
  intro line hline hdropped
  have hle := stop_le_of_mem_streamLinesFrom (List.mem_filter.mp hline).1
  rw [decide_eq_false_iff_not] at hdropped
  apply List.eq_nil_of_length_eq_zero
  omega

/-- The lines of a range are read by reading the aligned range. -/
theorem readLines_linesIn (hmake : Linewise delimiter make)
    (htotal : contents.flatten.length < Size.limit)
    (hoffset : range.offset ≤ contents.flatten.length) {first last : Nat}
    (hfirst : IsLeast (recordStartsFrom delimiter contents range.offset)
      first)
    (hlast : IsLeast (recordStartsFrom delimiter contents
      (min range.stop contents.flatten.length)) last)
    (hle : first ≤ last) :
    readLines make (linesIn delimiter contents range) =
      readRange make contents first last := by
  rw [range.min_stop_eq htotal] at hlast
  rw [readLines_linesIn_min hmake hoffset,
    ← readLines_between hmake hfirst.1.1 hlast.1.1 hle]
  congr 1
  have hstop :
      range.offset +
          (min (range.offset + range.size) contents.flatten.length -
            range.offset) =
        min (range.offset + range.size) contents.flatten.length := by
    omega
  apply linesIn_eq_of_isLeast
    (.between range.offset
      (min (range.offset + range.size) contents.flatten.length)) hfirst
  rwa [ByteRange.between, hstop]

end LinesIn

namespace SourceSet

variable {set : SourceSet} {options : ReadOptions}

theorem Sound.align_outside (hsound : set.Sound) (delimiter : UInt8)
    {range : ByteRange}
    (houtside : set.contents.flatten.length < range.offset) :
    ∃ next,
      set.align range delimiter =
        (.error (.sourceExhausted range.offset set.contents.flatten.length),
          next) := by
  obtain ⟨known, hknown, -⟩ := hsound.materialize
  exact ⟨known, by simp only [SourceSet.align, hknown, if_pos houtside]⟩

/-- The records of the range that is planned are the requested ones.  There is
no such range only if the requested one begins behind the stream. -/
theorem Sound.requestedRange (hsound : set.Sound) (hvisible : set.Visible)
    (hfits : set.Fits) (hlines : options.lines = true) :
    (∃ range next, requestedRange set options = (.ok range, next) ∧
      set.Reads next ∧ next.Visible ∧ next.Fits ∧
      range.offset ≤ set.contents.flatten.length ∧
      readRange options.recordsOf set.contents range.offset
          (range.offset + range.size) =
        options.requestedRecords set.contents) ∨
      ∃ offset total next, requestedRange set options =
        (.error (.sourceExhausted offset total), next) := by
  have hlinewise := options.linewise_recordsOf
  have htotal := hsound.length_lt
  unfold JsonIntake.requestedRange ReadOptions.requestedRecords
    ReadOptions.requestedLines
  cases options.byteRange with
  | none =>
      -- The range of a whole read goes beyond every stream.
      refine .inl ⟨_, set, rfl, hsound.refl, hvisible, hfits,
        Nat.zero_le _, ?_⟩
      exact (readRange_toEnd htotal).trans
        (readLines_streamLinesFrom hlinewise _).symm
  | some range =>
      simp only [hlines, if_true]
      by_cases hoffset : range.offset ≤ set.contents.flatten.length
      · obtain ⟨first, last, next, halign, hfirst, hlast, hle, hreads,
          hexact⟩ := hsound.align range options.delimiter hoffset
        have hafter := hreads.sound hsound
        have hstart : first ≤ set.contents.flatten.length :=
          hfirst.2 ⟨isRecordStart_length, hoffset⟩
        have hstop : first + (last - first) = last := by omega
        refine .inl ⟨_, next, halign, hreads, hafter.visible hexact,
          hafter.fits hexact, hstart, ?_⟩
        rw [readLines_linesIn hlinewise htotal hoffset hfirst hlast hle]
        simp only [ByteRange.between, hstop]
      · obtain ⟨next, hnext⟩ :=
          hsound.align_outside options.delimiter (Nat.lt_of_not_le hoffset)
        exact .inr ⟨_, _, next, hnext⟩

end SourceSet

/-! ## Contents and ratios -/

namespace Source

/-- The content of a wrapped region depends on the region and the kind. -/
theorem content?_of_make {region : List UInt8} {kind : Compression}
    {ratio : Nat} {source : CompressedSource}
    (hmake : CompressedSource.make region kind ratio = .ok source) :
    content? (.compressed source) = decompress kind region := by
  obtain ⟨hkind, hregion⟩ := CompressedSource.make_eq hmake
  rw [content?, hkind, hregion]

/-- The ratio is for estimates: it has no part in what is read. -/
theorem content?_withCompression {source first second : Source}
    {kind : Compression} {ratio other : Nat}
    (hfirst : source.withCompression kind ratio = .ok first)
    (hsecond : source.withCompression kind other = .ok second) :
    second.content? = first.content? := by
  unfold withCompression at hfirst hsecond
  dsimp only at hfirst hsecond
  split at hfirst
  · next hresolved =>
      rw [hresolved] at hsecond
      cases hfirst
      cases hsecond
      rfl
  · next hresolved =>
      rw [hresolved] at hsecond
      cases hfirst
      cases hsecond
      rfl
  · next hplain hresolved =>
      rw [hresolved] at hsecond
      split at hsecond
      · next hnone => exact absurd hnone nofun
      · next hcompressed => exact absurd rfl (hplain _)
      · next hkind _ =>
          cases hkind
          obtain ⟨region, hregion, htail⟩ := Except.bind_eq_ok.mp hfirst
          obtain ⟨wrapped, hwrapped, h⟩ := Except.bind_eq_ok.mp htail
          cases h
          obtain ⟨same, hsame, htail⟩ := Except.bind_eq_ok.mp hsecond
          obtain ⟨again, hagain, h⟩ := Except.bind_eq_ok.mp htail
          cases h
          cases hregion.symm.trans hsame
          rw [content?_of_make hwrapped, content?_of_make hagain]

theorem map_content_withCompression {sources first second : List Source}
    {kind : Compression} {ratio other : Nat}
    (hfirst : List.Forall₂ (fun source wrapped =>
      withCompression source kind ratio = .ok wrapped) sources first)
    (hsecond : List.Forall₂ (fun source wrapped =>
      withCompression source kind other = .ok wrapped) sources second) :
    second.map content = first.map content := by
  induction hfirst generalizing second with
  | nil =>
      cases hsecond
      rfl
  | cons hhead htail ih =>
      cases hsecond with
      | cons hhead' htail' =>
          rw [List.map_cons, List.map_cons, ih htail', content,
            content?_withCompression hhead hhead', content]

end Source

theorem SourceSet.contents_make {sources : List Source}
    {compression : Compression} {ratio other : Nat}
    {first second : SourceSet}
    (hfirst : SourceSet.make sources compression ratio = .ok first)
    (hsecond : SourceSet.make sources compression other = .ok second) :
    second.contents = first.contents := by
  obtain ⟨wrapped, hwrapped, h⟩ := Except.bind_eq_ok.mp hfirst
  cases h
  obtain ⟨again, hagain, h⟩ := Except.bind_eq_ok.mp hsecond
  cases h
  exact Source.map_content_withCompression (Except.mapM_eq_ok.mp hwrapped)
    (Except.mapM_eq_ok.mp hagain)

end JsonIntake
