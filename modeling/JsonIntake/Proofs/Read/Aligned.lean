import JsonIntake.Proofs.Plan.Safety
import JsonIntake.Proofs.Read.Requested

/-!
# Alignment picks the record starts of a range

A range inside the stream is aligned by moving both of its ends to the next
record start, and only a range that begins behind the stream cannot be
aligned.  What the sources know about their sizes does not matter.  Since a
record start is its own next one, an aligned range stays as it is, and ranges
that meet are aligned to ranges that meet.
-/

namespace JsonIntake

/-- Both ends of `range` moved to the next record start.  The end of the stream
is a record start, so a range that goes beyond it ends there. -/
structure IsAligned (delimiter : UInt8) (contents : List (List UInt8))
    (range aligned : ByteRange) : Prop where
  first : IsLeast (recordStartsFrom delimiter contents range.offset)
    aligned.offset
  last : IsLeast (recordStartsFrom delimiter contents
    (min range.stop contents.flatten.length)) (aligned.offset + aligned.size)

section Aligned

variable {delimiter : UInt8} {contents : List (List UInt8)}
  {range aligned other : ByteRange} {position first last start : Nat}

/-- A record start is its own next one. -/
theorem isLeast_self
    (hfirst : IsLeast (recordStartsFrom delimiter contents position) first) :
    IsLeast (recordStartsFrom delimiter contents first) first :=
  ⟨⟨hfirst.1.1, Nat.le_refl first⟩, fun _ hother => hother.2⟩

theorem isLeast_le_length (hposition : position ≤ contents.flatten.length)
    (hfirst : IsLeast (recordStartsFrom delimiter contents position) first) :
    first ≤ contents.flatten.length :=
  hfirst.2 ⟨isRecordStart_length, hposition⟩

theorem isLeast_mono {later next : Nat} (hle : position ≤ later)
    (hfirst : IsLeast (recordStartsFrom delimiter contents position) first)
    (hnext : IsLeast (recordStartsFrom delimiter contents later) next) :
    first ≤ next :=
  hfirst.2 ⟨hnext.1.1, hle.trans hnext.1.2⟩

namespace IsAligned

theorem unique (haligned : IsAligned delimiter contents range aligned)
    (hother : IsAligned delimiter contents range other) : aligned = other := by
  obtain ⟨offset, size⟩ := aligned
  obtain ⟨offset', size'⟩ := other
  have hfirst : offset = offset' := haligned.first.unique hother.first
  have hlast : offset + size = offset' + size' :=
    haligned.last.unique hother.last
  rw [ByteRange.mk.injEq]
  omega

theorem stop_eq (haligned : IsAligned delimiter contents range aligned)
    (hlength : contents.flatten.length < Size.limit) :
    aligned.stop = aligned.offset + aligned.size := by
  have hlast := isLeast_le_length (Nat.min_le_right _ _) haligned.last
  unfold ByteRange.stop Size.addSaturating Size.maximum
  omega

theorem mem_iff (haligned : IsAligned delimiter contents range aligned)
    (hlength : contents.flatten.length < Size.limit)
    (hstart : IsRecordStart delimiter contents start)
    (hinside : start < contents.flatten.length) :
    aligned.offset ≤ start ∧ start < aligned.stop ↔
      range.offset ≤ start ∧ start < range.stop := by
  rw [haligned.stop_eq hlength, ← le_start_iff haligned.first hstart,
    ← start_lt_iff haligned.last hstart, Nat.lt_min, and_iff_left hinside]

theorem again (haligned : IsAligned delimiter contents range aligned)
    (hlength : contents.flatten.length < Size.limit) :
    IsAligned delimiter contents aligned aligned where
  first := isLeast_self haligned.first
  last := by
    have hlast := isLeast_le_length (Nat.min_le_right _ _) haligned.last
    rw [haligned.stop_eq hlength, Nat.min_eq_left hlast]
    exact isLeast_self haligned.last

theorem between {front back : Nat}
    (hfront : IsLeast (recordStartsFrom delimiter contents first) front)
    (hback : IsLeast (recordStartsFrom delimiter contents last) back)
    (hle : first ≤ last) (hlast : last ≤ contents.flatten.length)
    (hlength : contents.flatten.length < Size.limit) :
    IsAligned delimiter contents (.between first last)
      (.between front back) where
  first := hfront
  last := by
    have hordered : front ≤ back := isLeast_mono hle hfront hback
    rw [ByteRange.stop_between hle (Nat.lt_of_le_of_lt hlast hlength),
      Nat.min_eq_left hlast]
    simp only [ByteRange.between, Nat.add_sub_cancel' hordered]
    exact hback

end IsAligned

end Aligned

namespace SourceSet

variable {set : SourceSet} {delimiter : UInt8} {range : ByteRange}

theorem Sound.align_isAligned (hsound : set.Sound) (delimiter : UInt8)
    (hoffset : range.offset ≤ set.contents.flatten.length) :
    ∃ aligned next,
      set.align range delimiter = (.ok aligned, next) ∧
      IsAligned delimiter set.contents range aligned ∧ set.Reads next := by
  obtain ⟨first, last, next, halign, hfirst, hlast, hle, hreads, -⟩ :=
    hsound.align range delimiter hoffset
  refine ⟨_, next, halign, ⟨hfirst, ?_⟩, hreads⟩
  rwa [ByteRange.between, Nat.add_sub_cancel' hle]

/-- Whatever is the aligned range is what alignment gives. -/
theorem Sound.align_eq_ok_iff {aligned : ByteRange} (hsound : set.Sound) :
    (set.align range delimiter).1 = .ok aligned ↔
      range.offset ≤ set.contents.flatten.length ∧
        IsAligned delimiter set.contents range aligned := by
  by_cases hoffset : range.offset ≤ set.contents.flatten.length
  · obtain ⟨found, next, halign, hfound, -⟩ :=
      hsound.align_isAligned delimiter hoffset
    rw [halign]
    constructor
    · rintro ⟨⟩
      exact ⟨hoffset, hfound⟩
    · rintro ⟨-, haligned⟩
      exact congrArg Except.ok (hfound.unique haligned)
  · obtain ⟨next, halign⟩ :=
      hsound.align_outside delimiter (Nat.lt_of_not_le hoffset)
    rw [halign]
    exact iff_of_false nofun fun haligned => hoffset haligned.1

theorem Sound.align_eq_error_iff {failure : Failure} (hsound : set.Sound) :
    (set.align range delimiter).1 = .error failure ↔
      set.contents.flatten.length < range.offset ∧
        failure = .sourceExhausted range.offset
          set.contents.flatten.length := by
  by_cases hoffset : range.offset ≤ set.contents.flatten.length
  · obtain ⟨found, next, halign, -, -⟩ :=
      hsound.align_isAligned delimiter hoffset
    rw [halign]
    exact iff_of_false nofun (by omega)
  · obtain ⟨next, halign⟩ :=
      hsound.align_outside delimiter (Nat.lt_of_not_le hoffset)
    rw [halign, Except.error.injEq, eq_comm]
    exact (and_iff_right (Nat.lt_of_not_le hoffset)).symm

/-- Alignment moves positions, one at a time: ranges that meet are aligned to
ranges that meet. -/
theorem Sound.align_between {first middle last : Nat} (hsound : set.Sound)
    (delimiter : UInt8) (hmiddle : first ≤ middle) (hlast : middle ≤ last)
    (hlength : last ≤ set.contents.flatten.length) :
    ∃ front cut back, front ≤ cut ∧ cut ≤ back ∧
      (set.align (.between first middle) delimiter).1 =
        .ok (.between front cut) ∧
      (set.align (.between middle last) delimiter).1 =
        .ok (.between cut back) ∧
      (set.align (.between first last) delimiter).1 =
        .ok (.between front back) := by
  obtain ⟨front, -, -, hfront, -⟩ :=
    hsound.recordStartFrom delimiter (hmiddle.trans (hlast.trans hlength))
  obtain ⟨cut, -, -, hcut, -⟩ :=
    hsound.recordStartFrom delimiter (hlast.trans hlength)
  obtain ⟨back, -, -, hback, -⟩ :=
    hsound.recordStartFrom delimiter hlength
  have hordered := isLeast_mono hmiddle hfront hcut
  have hordered' := isLeast_mono hlast hcut hback
  have hwords := hsound.length_lt
  refine ⟨front, cut, back, hordered, hordered', ?_, ?_, ?_⟩
  · exact hsound.align_eq_ok_iff.mpr ⟨hmiddle.trans (hlast.trans hlength),
      .between hfront hcut hmiddle (hlast.trans hlength) hwords⟩
  · exact hsound.align_eq_ok_iff.mpr ⟨hlast.trans hlength,
      .between hcut hback hlast hlength hwords⟩
  · exact hsound.align_eq_ok_iff.mpr ⟨hmiddle.trans (hlast.trans hlength),
      .between hfront hback (hmiddle.trans hlast) hlength hwords⟩

/-- Alignment gives the range between the next record starts, unless the range
begins behind the stream.  A record start in front of the end of the stream
lies in the aligned range exactly if it lies in the range.  Aligning once more
changes nothing, and ranges that meet stay together. -/
theorem align_picks_recordStarts (set : SourceSet) (delimiter : UInt8)
    (range : ByteRange)
    (hopened : ∀ source ∈ set.sources, source.Opened 0)
    (hreadable : ∀ source ∈ set.sources, source.Readable)
    (hlength : set.contents.flatten.length < Size.limit) :
    (∀ failure, (set.align range delimiter).1 = .error failure ↔
        set.contents.flatten.length < range.offset ∧
          failure = .sourceExhausted range.offset
            set.contents.flatten.length) ∧
      (∀ aligned, (set.align range delimiter).1 = .ok aligned ↔
        range.offset ≤ set.contents.flatten.length ∧
          IsAligned delimiter set.contents range aligned) ∧
      (∀ aligned next, set.align range delimiter = (.ok aligned, next) →
        (∀ start, IsRecordStart delimiter set.contents start →
          start < set.contents.flatten.length →
          (aligned.offset ≤ start ∧ start < aligned.stop ↔
            range.offset ≤ start ∧ start < range.stop)) ∧
        (set.align aligned delimiter).1 = .ok aligned ∧
        (next.align aligned delimiter).1 = .ok aligned) ∧
      (∀ first middle last, first ≤ middle → middle ≤ last →
        last ≤ set.contents.flatten.length →
        ∃ front cut back, front ≤ cut ∧ cut ≤ back ∧
          (set.align (.between first middle) delimiter).1 =
            .ok (.between front cut) ∧
          (set.align (.between middle last) delimiter).1 =
            .ok (.between cut back) ∧
          (set.align (.between first last) delimiter).1 =
            .ok (.between front back)) := by
  have hsound : set.Sound :=
    ⟨fun source hsource =>
      (hopened source hsource).sound (hreadable source hsource), hlength⟩
  refine ⟨fun _ => hsound.align_eq_error_iff, fun _ => hsound.align_eq_ok_iff,
    ?_, fun _ _ _ => hsound.align_between delimiter⟩
  intro aligned next halign
  obtain ⟨hoffset, haligned⟩ :=
    hsound.align_eq_ok_iff.mp (congrArg Prod.fst halign)
  have hinside :=
    isLeast_le_length hoffset haligned.first
  have hagain := haligned.again hlength
  refine ⟨fun start hstart => haligned.mem_iff hlength hstart,
    hsound.align_eq_ok_iff.mpr ⟨hinside, hagain⟩, ?_⟩
  -- What the first call has found out about sizes does not matter.
  obtain ⟨found, known, hfound, -, hreads⟩ :=
    hsound.align_isAligned delimiter hoffset
  obtain ⟨-, rfl⟩ := Prod.mk.inj (halign.symm.trans hfound)
  rw [← hreads.contents_eq] at hinside hagain
  exact (hreads.sound hsound).align_eq_ok_iff.mpr ⟨hinside, hagain⟩

/-- A range from the middle of a record to that of another one, over an empty
source and a compressed one whose size is not known in front. -/
theorem align_picks_recordStarts_compressed :
    ∃ set next,
      set = SourceSet.mk [.host [123, 125, 10, 91], .host [], .compressed
        ⟨[8, 28, 123, 34, 97, 34, 58, 49, 125, 10], .snappy, 40, false, none⟩]
        .none ∧
      set.align (.between 1 5) 10 = (.ok (.between 3 12), next) ∧
      IsAligned 10 set.contents (.between 1 5) (.between 3 12) ∧
      (next.align (.between 3 12) 10).1 = .ok (.between 3 12) ∧
      (set.align (.toEnd 13) 10).1 = .error (.sourceExhausted 13 12) := by
  obtain ⟨next, halign⟩ : ∃ next,
      (SourceSet.mk [.host [123, 125, 10, 91], .host [], .compressed
        ⟨[8, 28, 123, 34, 97, 34, 58, 49, 125, 10], .snappy, 40, false, none⟩]
        .none).align (.between 1 5) 10 = (.ok (.between 3 12), next) :=
    ⟨_, rfl⟩
  generalize hset : SourceSet.mk _ _ = set at halign
  have hopened : ∀ source ∈ set.sources, source.Opened 0 := by
    rw [← hset]
    rintro source (_ | ⟨_, _ | ⟨_, _ | ⟨_, ⟨⟩⟩⟩⟩)
    · exact .host _
    · exact .host _
    · have hmake :
          CompressedSource.make [8, 28, 123, 34, 97, 34, 58, 49, 125, 10]
              .snappy 4 =
            .ok ⟨[8, 28, 123, 34, 97, 34, 58, 49, 125, 10], .snappy, 40,
              false, none⟩ := rfl
      exact .compressed (Nat.zero_le 4) hmake
  have hreadable : ∀ source ∈ set.sources, source.Readable := by
    rw [← hset]
    rintro source (_ | ⟨_, _ | ⟨_, _ | ⟨_, ⟨⟩⟩⟩⟩) <;> rfl
  have htotal : set.contents.flatten.length = 12 := by
    rw [← hset]
    rfl
  have hlength : set.contents.flatten.length < Size.limit := by
    rw [htotal]
    decide
  obtain ⟨-, hok, hagain, -⟩ :=
    align_picks_recordStarts set 10 (.between 1 5) hopened hreadable hlength
  obtain ⟨herror, -⟩ :=
    align_picks_recordStarts set 10 (.toEnd 13) hopened hreadable hlength
  refine ⟨set, next, rfl, halign,
    ((hok _).mp (congrArg Prod.fst halign)).2, (hagain _ _ halign).2.2,
    (herror _).mpr ?_⟩
  rw [htotal]
  exact ⟨by decide, rfl⟩

end SourceSet

end JsonIntake
