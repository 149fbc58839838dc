import JsonIntake.Proofs.Plan.Safety
import JsonIntake.Proofs.Stream.Visits

/-!
# Where sums of sizes overflow

An estimate may be the largest word, and then nothing can be added to it.
There is no overflow if all sizes together are a word and if each source ends
at a word behind the contents of those in front.  The first is needed for the
totals, the ends and the plans, and the second for the copies: where the
sources can be read, there is a range for each of them that asks for its end.
The pieces of a range never overflow, for the end of a range is the largest
word at most.
-/

namespace JsonIntake

/-! ## What sources answer -/

theorem decompress_ne_overflow (kind : Compression) (region : List UInt8) :
    decompress kind region ≠ .error .overflow := by
  have hcorrupt : ∀ content : Option (List UInt8),
      kind.orCorrupt content ≠ .error .overflow := by
    rintro (_ | bytes) <;> exact nofun
  cases kind with
  | none => exact nofun
  | auto => exact nofun
  | zip =>
      unfold decompress
      cases Zip.firstEntry region <;> exact nofun
  | gzip => exact hcorrupt _
  | snappy => exact hcorrupt _
  | zstd => exact hcorrupt _
  | bzip2 => exact hcorrupt _
  | xz => exact hcorrupt _

theorem clampRead_ne_overflow (offset size available : Nat) :
    clampRead offset size available ≠ .error .overflow := by
  unfold clampRead
  split <;> exact nofun

theorem sliceRead_ne_overflow {content : List UInt8} {offset size : Nat}
    {owned : Bool} :
    sliceRead content offset size owned ≠ .error .overflow := by
  unfold sliceRead clampRead
  split <;> exact nofun

namespace CompressedSource

theorem materialize_ne_overflow (source : CompressedSource) :
    source.materialize.1 ≠ .error .overflow := by
  have hregion := decompress_ne_overflow source.kind source.region
  unfold materialize
  split
  · exact nofun
  · split
    · next failure hfailure =>
        rintro ⟨⟩
        exact hregion hfailure
    · exact nofun

theorem hostRead_ne_overflow (source : CompressedSource)
    (offset size : Nat) :
    (source.hostRead offset size).1 ≠ .error .overflow := by
  have hregion := decompress_ne_overflow source.kind source.region
  unfold hostRead
  split
  · exact sliceRead_ne_overflow
  · split
    · next failure hfailure =>
        rintro ⟨⟩
        exact hregion hfailure
    · next content _ =>
        have hclamp := clampRead_ne_overflow offset size content.length
        dsimp only
        split
        · next failure hfailure =>
            rintro ⟨⟩
            exact hclamp hfailure
        · split <;> exact sliceRead_ne_overflow

end CompressedSource

namespace Source

variable {source next : Source} {least offset size copied : Nat}
  {target filled : Buffer}

theorem exactSize_ne_overflow (source : Source) :
    source.exactSize.1 ≠ .error .overflow := by
  cases source with
  | file source => exact nofun
  | host bytes => exact nofun
  | device buffer => exact nofun
  | compressed source =>
      unfold exactSize
      dsimp only
      split
      · exact nofun
      · exact source.materialize_ne_overflow

theorem askSize_ne_overflow (source : Source) (offset position : Nat) :
    (askSize offset position source).1 ≠ .error .overflow := by
  unfold askSize
  split
  · exact source.exactSize_ne_overflow
  · exact nofun

theorem hostRead_ne_overflow (source : Source) (offset size : Nat) :
    (source.hostRead offset size).1 ≠ .error .overflow := by
  cases source with
  | file source =>
      unfold hostRead FileSource.read clampRead
      dsimp only
      split <;> exact nofun
  | host bytes => exact sliceRead_ne_overflow
  | device buffer => exact sliceRead_ne_overflow
  | compressed source => exact source.hostRead_ne_overflow offset size

theorem copyTo_ne_overflow (source : Source) (offset size : Nat)
    (target : Buffer) :
    (source.copyTo offset size target).1 ≠ .error .overflow := by
  unfold copyTo
  split
  · cases source with
    | device buffer =>
        unfold deviceRead sliceRead clampRead
        dsimp only
        split <;> exact nofun
    | file source => exact nofun
    | host bytes => exact nofun
    | compressed source => exact nofun
  · have hread := source.hostRead_ne_overflow offset size
    dsimp only
    cases hresult : (source.hostRead offset size).1 with
    | error failure =>
        rw [hresult] at hread
        rintro ⟨⟩
        exact hread rfl
    | ok read => exact nofun

theorem Sound.hostRead_outside (hsound : source.Sound) (size : Nat)
    (houtside : source.content.length < offset) :
    (source.hostRead offset size).1 =
      .error (.outOfRange offset source.content.length) := by
  cases source with
  | file source =>
      rw [← hsound.size_eq rfl, Source.size] at houtside ⊢
      rw [Source.hostRead, FileSource.read, clampRead_of_lt size houtside]
      rfl
  | host bytes => exact sliceRead_of_lt bytes size false houtside
  | device buffer => exact sliceRead_of_lt buffer.toList size true houtside
  | compressed source =>
      have hholds : source.Holds (content (.compressed source)) := hsound
      obtain ⟨next, hnext, -⟩ := hholds.hostRead_outside size houtside
      rw [Source.hostRead, hnext]

theorem Sound.copyTo_outside (hsound : source.Sound) (size : Nat)
    (target : Buffer) (houtside : source.content.length < offset) :
    (source.copyTo offset size target).1 =
      .error (.outOfRange offset source.content.length) := by
  have hread := hsound.hostRead_outside size houtside
  unfold Source.copyTo
  split
  · cases source with
    | device buffer =>
        rw [deviceRead, sliceRead_of_lt buffer.toList size true houtside]
        rfl
    | file source => contradiction
    | host bytes => contradiction
    | compressed source => contradiction
  · dsimp only
    rw [hread]
    rfl

/-- A copy stays inside the content. -/
theorem Opened.copied_le (hopened : source.Opened least)
    (hcopy : source.copyTo offset size target = (.ok (copied, filled), next)) :
    copied ≤ size ∧ offset + copied ≤ source.content.length := by
  have hsound := hopened.sound (hopened.grounded.readable_of_copyTo hcopy)
  rcases Nat.lt_or_ge source.content.length offset with hbehind | hinside
  · have hfailed := hsound.copyTo_outside size target hbehind
    rw [hcopy] at hfailed
    cases hfailed
  · obtain ⟨after, hresult, -⟩ := hsound.copyTo size target hinside
    rw [hcopy] at hresult
    cases hresult
    omega

end Source

/-! ## Places -/

/-- The place in a source is counted from an end that is not behind the
position. -/
theorem locate_add (ends : List Nat) (position : Nat) :
    (ends.take (locate ends position).1).getLast?.getD 0 +
        (locate ends position).2 = position := by
  have htake : ends.take (locate ends position).1 =
      ends.takeWhile fun stop => stop ≤ position :=
    (List.prefix_iff_eq_take.mp (List.takeWhile_prefix _)).symm
  have hle : (ends.takeWhile fun stop => stop ≤ position).getLast?.getD 0 ≤
      position := by
    cases hlast : (ends.takeWhile fun stop => stop ≤ position).getLast? with
    | none => exact Nat.zero_le position
    | some stop =>
        have hmem := List.mem_of_getLast? hlast
        simpa using List.all_eq_true.mp List.all_takeWhile stop hmem
  rw [htake, locate]
  dsimp only
  omega

namespace SourceSet

/-- A piece is what a source has of a range, and the source begins in front of
it. -/
theorem exists_span_of_mem_fragmentsFrom {range : ByteRange}
    {index start : Nat} {sizes : List Nat} {piece : Fragment}
    (hpiece : piece ∈ fragmentsFrom range index start sizes) :
    ∃ (place : Nat) (span hit : ByteRange),
      piece.source = index + place ∧ sizes[place]? = some span.size ∧
        span.intersect range = some hit ∧
        span.offset + piece.range.offset = hit.offset ∧
        piece.range.size = hit.size := by
  induction sizes generalizing index start with
  | nil => cases hpiece
  | cons size rest ih =>
      have hlater :
          piece ∈ fragmentsFrom range (index + 1)
            (⟨start, size⟩ : ByteRange).stop rest →
          ∃ (place : Nat) (span hit : ByteRange),
            piece.source = index + place ∧
              (size :: rest)[place]? = some span.size ∧
              span.intersect range = some hit ∧
              span.offset + piece.range.offset = hit.offset ∧
              piece.range.size = hit.size := by
        intro hrest
        obtain ⟨place, span, hit, hsource, hsize, hhit⟩ := ih hrest
        exact ⟨place + 1, span, hit, by omega, hsize, hhit⟩
      rw [fragmentsFrom] at hpiece
      split at hpiece
      · next hit hhit =>
          rcases List.mem_cons.mp hpiece with rfl | hrest
          · refine ⟨0, ⟨start, size⟩, hit, rfl, rfl, hhit, ?_, rfl⟩
            unfold ByteRange.intersect at hhit
            dsimp only at hhit
            split at hhit
            · cases hhit
              simp only [ByteRange.between]
              omega
            · cases hhit
          · exact hlater hrest
      · exact hlater hpiece

theorem endsFrom?_of_lt {sizes : List Nat} {start : Nat}
    (hfits : start + sizes.sum < Size.limit) :
    ∃ ends, endsFrom? start sizes = some ends := by
  induction sizes generalizing start with
  | nil => exact ⟨[], rfl⟩
  | cons size rest ih =>
      rw [List.sum_cons, ← Nat.add_assoc] at hfits
      obtain ⟨later, hlater⟩ := ih hfits
      refine ⟨(start + size) :: later, ?_⟩
      rw [endsFrom?, Size.add?_of_lt (by omega)]
      simp only [hlater, Option.bind_eq_bind, Option.bind_some]

theorem ends_of_lt {set : SourceSet} (hsizes : set.sizes.sum < Size.limit) :
    ∃ ends, set.ends = .ok ends := by
  obtain ⟨ends, hends⟩ :=
    endsFrom?_of_lt (by omega : 0 + set.sizes.sum < Size.limit)
  exact ⟨ends, by rw [SourceSet.ends, hends, Failure.orOverflow]⟩

end SourceSet

/-! ## Copies -/

section Copies

variable {offset position remaining size : Nat} {delimiter : UInt8}
  {buffer : Buffer} {source known : Source} {sources rest : List Source}
  {set : SourceSet} {range : ByteRange}

theorem ingest_count_eq_overflow_iff :
    (ingest buffer set range delimiter).count = .error .overflow ↔
      (ingestFrom range.offset delimiter 0 range.size buffer.clear
        set.sources).reached = .error .overflow := by
  unfold ingest
  dsimp only
  split
  · next failure hreached => rw [hreached]
  · next reached hreached =>
      rw [hreached]
      refine iff_of_false ?_ nofun
      split <;> exact nofun

/-- Where the sizes fit in order, no copy overflows. -/
theorem reached_ne_overflow {least : Nat}
    (hopened : ∀ source ∈ sources, source.Opened least)
    (hfit : Source.FitInOrder position sources) :
    (ingestFrom offset delimiter position remaining buffer
      sources).reached ≠ .error .overflow := by
  induction sources generalizing position remaining buffer with
  | nil => exact nofun
  | cons source rest ih =>
      rw [List.forall_mem_cons] at hopened
      obtain ⟨hhead, hrest⟩ := hfit
      have hweight : source.content.length ≤ source.weight :=
        Nat.le_max_right _ _
      by_cases hstop : remaining = 0 ∧ offset ≤ position
      · rw [ingestFrom_stop hstop]
        exact nofun
      rcases hask : askSize offset position source with ⟨failure | size, known⟩
      · rw [ingestFrom_refused hstop hask]
        rintro ⟨⟩
        exact source.askSize_ne_overflow offset position
          (congrArg Prod.fst hask)
      obtain ⟨hknown, hcontent, hsize, hbehind, hinside⟩ :=
        hopened.1.askSize_eq_ok hask
      have hword : position + size < Size.limit := by omega
      by_cases hskip : position + size ≤ offset
      · rw [ingestFrom_skip hstop hask hword hskip]
        exact ih hopened.2
          (hrest.in_front (Nat.add_le_add_left (hbehind hskip) position))
      have hreach : offset < position + size := Nat.lt_of_not_le hskip
      rcases hcopy : known.copyTo (offset - position) remaining buffer with
        ⟨failure | ⟨copied, filled⟩, after⟩
      · rw [ingestFrom_failed hstop hask hword hreach hcopy]
        rintro ⟨⟩
        exact known.copyTo_ne_overflow _ _ _ (congrArg Prod.fst hcopy)
      · have hsound :=
          hknown.sound (hknown.grounded.readable_of_copyTo hcopy)
        have hstart : offset - position ≤ known.content.length := by
          rw [hcontent]
          exact hinside hreach
        obtain ⟨next, hnext, hreads, hexact⟩ :=
          hsound.copyTo remaining buffer hstart
        obtain rfl : next = after := congrArg Prod.snd (hnext.symm.trans hcopy)
        have hafter : next.size = source.content.length := by
          rw [hreads.sound.size_eq hexact, hreads.content_eq, hcontent]
        rw [ingestFrom_copy hstop hask hword hreach hcopy (by omega)]
        exact ih hopened.2 (hafter ▸ hrest)

/-- A source that is asked for its size ends at a word, or the copy
overflows. -/
theorem lt_of_reached_ne_overflow
    (hgo : ¬ (remaining = 0 ∧ offset ≤ position))
    (hsize : askSize offset position source = (.ok size, known))
    (hne : (ingestFrom offset delimiter position remaining buffer
      (source :: rest)).reached ≠ .error .overflow) :
    position + size < Size.limit := by
  by_contra hbeyond
  rw [ingestFrom_beyond hgo hsize (Nat.le_of_not_lt hbeyond)] at hne
  exact hne rfl

/-- A source in front of the range is passed by. -/
theorem reached_rest_ne_overflow (hsound : source.Sound)
    (hlength : position + source.content.length < Size.limit)
    (hbehind : position + source.content.length ≤ offset)
    (hne : (ingestFrom offset delimiter position remaining buffer
      (source :: rest)).reached ≠ .error .overflow) :
    (ingestFrom offset delimiter (position + source.content.length)
      remaining buffer rest).reached ≠ .error .overflow := by
  by_cases hstop : remaining = 0 ∧ offset ≤ position
  · cases rest with
    | nil => exact nofun
    | cons later rest =>
        rw [ingestFrom_stop (by omega)]
        exact nofun
  by_cases hbefore : position < offset
  · obtain ⟨known, hknown⟩ := hsound.askSize_behind hbefore
    rwa [ingestFrom_skip hstop hknown hlength hbehind] at hne
  · -- The range begins here, so the source is empty, but it may seem larger.
    have hempty : source.content = [] :=
      List.eq_nil_of_length_eq_zero (by omega)
    have hask : askSize offset position source = (.ok source.size, source) :=
      if_neg hbefore
    have hword := lt_of_reached_ne_overflow hstop hask hne
    rw [hempty, List.length_nil, Nat.add_zero]
    by_cases hskip : position + source.size ≤ offset
    · have hzero : source.size = 0 := by omega
      rwa [ingestFrom_skip hstop hask hword hskip, hzero] at hne
    · obtain ⟨after, hcopy, hreads, hexact⟩ :=
        hsound.copyTo remaining buffer
          (by omega : offset - position ≤ source.content.length)
      have hsize : after.size = 0 := by
        rw [hreads.sound.size_eq hexact, hreads.content_eq, hempty]
        rfl
      rw [hempty, List.drop_nil, List.take_nil, List.length_nil,
        Nat.zero_sub, Nat.min_zero, Buffer.append_nil] at hcopy
      rwa [ingestFrom_copy hstop hask hword (Nat.lt_of_not_le hskip) hcopy
        (by omega), hsize, if_neg (by simp)] at hne

/-- If no copy overflows, the sizes fit in order. -/
theorem fitInOrder_of_reached_ne_overflow (delimiter : UInt8)
    (buffer : Buffer) (hsound : ∀ source ∈ sources, source.Sound)
    (hne : ∀ offset remaining, position ≤ offset →
      (ingestFrom offset delimiter position remaining buffer
        sources).reached ≠ .error .overflow) :
    Source.FitInOrder position sources := by
  induction sources generalizing position with
  | nil => trivial
  | cons source rest ih =>
      rw [List.forall_mem_cons] at hsound
      have hsize : position + source.size < Size.limit :=
        lt_of_reached_ne_overflow (by omega : ¬ (1 = 0 ∧ position ≤ position))
          (if_neg (Nat.lt_irrefl position))
          (hne position 1 (Nat.le_refl _))
      obtain ⟨known, hknown⟩ :=
        hsound.1.askSize_behind (Nat.lt_succ_self position)
      have hlength : position + source.content.length < Size.limit :=
        lt_of_reached_ne_overflow
          (by omega : ¬ (1 = 0 ∧ position + 1 ≤ position)) hknown
          (hne (position + 1) 1 (Nat.le_succ _))
      refine ⟨?_, ih hsound.2 fun offset remaining hbehind => ?_⟩
      · unfold Source.weight
        omega
      · exact reached_rest_ne_overflow hsound.1 hlength hbehind
          (hne offset remaining (by omega))

end Copies

/-! ## Plans -/

namespace SourceSet

variable {set : SourceSet} {least : Nat}

theorem exactSources_ne_overflow (sources : List Source) :
    (exactSources sources).1 ≠ some .overflow := by
  induction sources with
  | nil => exact nofun
  | cons source rest ih =>
      have hsize := source.exactSize_ne_overflow
      unfold exactSources
      split
      · next failure known hknown =>
          rw [hknown] at hsize
          rintro ⟨⟩
          exact hsize rfl
      · exact ih

/-- Either all sources can be read, or making their sizes exact fails, but not
because of a sum. -/
theorem sound_or_materialize_error
    (hopened : ∀ source ∈ set.sources, source.Opened least)
    (hfit : Source.FitInOrder 0 set.sources) :
    set.Sound ∨
      ∃ failure next, set.materialize = (.error failure, next) ∧
        failure ≠ .overflow := by
  by_cases hreadable : ∀ source ∈ set.sources, source.Readable
  · have hlength := hfit.length_lt (by decide)
    rw [Nat.zero_add] at hlength
    exact .inl ⟨fun source hsource =>
      (hopened source hsource).sound (hreadable source hsource), hlength⟩
  · have hne := exactSources_ne_overflow set.sources
    cases hfirst : (exactSources set.sources).1 with
    | none =>
        exact absurd (readable_of_exactSources
          (fun source hsource => (hopened source hsource).grounded) hfirst)
          hreadable
    | some failure =>
        refine .inr ⟨failure, set.materialize.2, ?_, ?_⟩
        · simp only [materialize, hfirst]
        · rintro rfl
          exact hne hfirst

end SourceSet

namespace Plan

variable {set : SourceSet} {range : ByteRange} {delimiter : UInt8}
  {lines : Bool} {tuning : Tuning} {least estimated : Nat}

theorem cut_ne_overflow
    (hopened : ∀ source ∈ set.sources, source.Opened least)
    (hfit : Source.FitInOrder 0 set.sources) (hvalid : tuning.Valid) :
    (cut set range delimiter tuning estimated).1 ≠ .error .overflow := by
  intro hover
  rcases SourceSet.sound_or_materialize_error hopened hfit with
    hsound | ⟨failure, next, hfailure, hne⟩
  · rcases cut_error hsound hvalid hover with
      ⟨offset, total, hexhausted⟩ | ⟨offset, searched, hnowhere⟩
    · cases hexhausted
    · cases hnowhere
  · simp only [cut, hfailure] at hover
    cases hover
    exact hne rfl

theorem make_ne_overflow
    (hopened : ∀ source ∈ set.sources, source.Opened least)
    (hsizes : set.sizes.sum < Size.limit)
    (hfit : Source.FitInOrder 0 set.sources) (hvalid : tuning.Valid) :
    (make set range delimiter lines tuning).1 ≠ .error .overflow := by
  rw [make_of_valid hvalid hsizes]
  split
  · exact nofun
  · exact cut_ne_overflow hopened hfit hvalid

end Plan

namespace SourceSet

/-- Whatever is computed from the sizes of the sources is a word.  Sums do not
overflow; where a difference is taken without a check, nothing is taken from
less. -/
structure NeverOverflows (set : SourceSet) : Prop where
  totalSize : set.totalSize ≠ .error .overflow
  ends : set.ends ≠ .error .overflow
  fragments (range : ByteRange) :
    ∀ piece ∈ set.fragments range, ∃ span hit : ByteRange,
      set.sizes[piece.source]? = some span.size ∧
        span.intersect range = some hit ∧
        span.offset + piece.range.offset = hit.offset ∧
        piece.range.size = hit.size
  locate (ends : List Nat) (position : Nat) :
    (ends.take (locate ends position).1).getLast?.getD 0 +
        (locate ends position).2 = position
  plan (range : ByteRange) (delimiter : UInt8) (lines : Bool)
    {tuning : Tuning} (hvalid : tuning.Valid) :
    (Plan.make set range delimiter lines tuning).1 ≠ .error .overflow
  copies {source next : Source} (hsource : source ∈ set.sources)
    {offset size copied : Nat} {target filled : Buffer}
    (hcopy : source.copyTo offset size target =
      (.ok (copied, filled), next)) :
    copied ≤ size ∧ offset + copied < Size.limit
  ingest (buffer : Buffer) (range : ByteRange) (delimiter : UInt8) :
    (ingest buffer set range delimiter).count ≠ .error .overflow

/-- Nothing overflows if the sizes and the ends of the sources are words.  If
nothing overflows, the sizes are a word together, and as far as the sources
can be read their ends are words as well. -/
theorem neverOverflows_iff {set : SourceSet}
    (hopened : ∀ source ∈ set.sources, source.Opened 0) :
    (set.sizes.sum < Size.limit ∧ Source.FitInOrder 0 set.sources →
        set.NeverOverflows) ∧
      (set.NeverOverflows →
        set.sizes.sum < Size.limit ∧
          ((∀ source ∈ set.sources, source.Readable) →
            Source.FitInOrder 0 set.sources)) := by
  constructor
  · rintro ⟨hsizes, hfit⟩
    refine
      { totalSize := ?_
        ends := ?_
        fragments := fun range piece hpiece => ?_
        locate := locate_add
        plan := fun _ _ _ _ hvalid =>
          Plan.make_ne_overflow hopened hsizes hfit hvalid
        copies := fun hsource _ _ _ _ _ hcopy => ?_
        ingest := fun buffer range delimiter => ?_ }
    · rw [totalSize_of_lt hsizes]
      rintro ⟨⟩
    · obtain ⟨ends, hends⟩ := ends_of_lt hsizes
      rw [hends]
      rintro ⟨⟩
    · obtain ⟨place, span, hit, hsource, hsize, hhit⟩ :=
        exists_span_of_mem_fragmentsFrom hpiece
      rw [Nat.zero_add] at hsource
      exact ⟨span, hit, hsource ▸ hsize, hhit⟩
    · obtain ⟨hcopied, hinside⟩ := (hopened _ hsource).copied_le hcopy
      exact ⟨hcopied,
        Nat.lt_of_le_of_lt hinside (hfit.content_lt hsource)⟩
    · exact mt ingest_count_eq_overflow_iff.mp
        (reached_ne_overflow hopened hfit)
  · intro hnever
    refine ⟨?_, fun hreadable => ?_⟩
    · by_contra hlarge
      have htotal := hnever.totalSize
      rw [totalSize_eq, if_neg hlarge] at htotal
      exact htotal rfl
    · have hsound : ∀ source ∈ set.sources, source.Sound :=
        fun source hsource =>
          (hopened source hsource).sound (hreadable source hsource)
      refine fitInOrder_of_reached_ne_overflow 10 .empty hsound
        fun offset remaining _ => ?_
      have hcount := hnever.ingest .empty ⟨offset, remaining⟩ 10
      rw [Ne, ingest_count_eq_overflow_iff] at hcount
      exact hcount

/-- A line in memory and a compressed line behind it. -/
theorem neverOverflows_two_sources :
    ∃ source,
      CompressedSource.make [8, 28, 123, 34, 97, 34, 58, 49, 125, 10]
          .snappy 4 = .ok source ∧
        NeverOverflows ⟨[.host [10], .compressed source], .none⟩ := by
  refine ⟨_, rfl, (neverOverflows_iff ?_).1 ⟨by decide, by decide +kernel,
    by decide +kernel, trivial⟩⟩
  rintro source (_ | ⟨_, _ | ⟨_, ⟨⟩⟩⟩)
  · exact .host _
  · have hmake : CompressedSource.make
        [8, 28, 123, 34, 97, 34, 58, 49, 125, 10] .snappy 4 = .ok _ := rfl
    exact .compressed (by decide) hmake

/-- With the largest ratio the estimate is the largest word, and one byte in
front of it is too much.  So there is no total, and no copy of the whole
stream, although its contents are nine bytes long. -/
theorem neverOverflows_largest_ratio :
    ∃ source,
      CompressedSource.make [8, 28, 123, 34, 97, 34, 58, 49, 125, 10]
          .snappy Size.maximum = .ok source ∧
        ∃ set : SourceSet, set = ⟨[.host [10], .compressed source], .none⟩ ∧
          ¬ set.NeverOverflows ∧
          set.contents = [[10], [123, 34, 97, 34, 58, 49, 125, 10]] ∧
          set.totalSize = .error .overflow ∧
          set.ends = .error .overflow ∧
          Tuning.default.Valid ∧
          (Plan.make set (.toEnd 0) 10 true .default).1 =
            .error .overflow ∧
          (ingest .empty set (.toEnd 0) 10).count =
            .error .overflow := by
  refine ⟨_, rfl, _, rfl, fun hnever => ?_, by decide +kernel, rfl, rfl,
    ⟨by decide, by decide, by decide, by decide⟩, rfl, rfl⟩
  exact hnever.totalSize rfl

end SourceSet

end JsonIntake
