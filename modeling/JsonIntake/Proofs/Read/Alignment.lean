import JsonIntake.Alignment
import JsonIntake.Proofs.Read.Batching
import JsonIntake.Proofs.Stream.Lines
import Mathlib.Order.Bounds.Basic

/-!
# Aligned ranges partition the records

Alignment moves both ends of a range to the next record start.  A record
start lies in a range exactly if it lies in the aligned range, so the records
that are read are those of the lines that start in the range.  Ranges that
follow each other read every line once.
-/

namespace JsonIntake

/-- The record starts from a position on. -/
def recordStartsFrom (delimiter : UInt8) (contents : List (List UInt8))
    (position : Nat) : Set Nat :=
  {start | IsRecordStart delimiter contents start ∧ position ≤ start}

section RecordStarts

variable {delimiter : UInt8} {contents : List (List UInt8)}
  {position stop answer : Nat}

/-- No record starts in a stretch without source ends and delimiters. -/
theorem not_isRecordStart_of_not_mem {size : Nat}
    (hends : ∀ later ∈ contentEnds 0 contents, position < later →
      stop < later)
    (hnone : delimiter ∉ (contents.flatten.drop position).take size)
    (hposition : position < stop) (hsize : stop ≤ position + size) :
    ¬ IsRecordStart delimiter contents stop := by
  rintro (hzero | hboundary)
  · omega
  · exact not_isBoundary_of_not_mem hends hnone hposition hsize hboundary

/-- A delimiter that a scan has found is followed by the next record start. -/
theorem isLeast_of_delimiter {front back : List UInt8} {size : Nat}
    (hends : ∀ later ∈ contentEnds 0 contents, position < later →
      stop ≤ later)
    (hsize : position + size ≤ stop)
    (hbytes : (contents.flatten.drop position).take size =
      front ++ delimiter :: back)
    (hfront : delimiter ∉ front) :
    IsLeast (recordStartsFrom delimiter contents (position + 1))
      (position + (front.length + 1)) := by
  have hlength := congrArg List.length hbytes
  rw [List.length_take, List.length_append, List.length_cons] at hlength
  have hindex : front.length < size := by omega
  constructor
  · refine ⟨.inr (.inr ⟨by omega, ?_⟩), by omega⟩
    have hbyte := getElem?_drop_take contents.flatten position hindex
    rw [hbytes, List.getElem?_append_right (Nat.le_refl _), Nat.sub_self,
      List.getElem?_cons_zero] at hbyte
    exact hbyte.symm
  · rintro other ⟨hother, hle⟩
    by_contra hlt
    have hshort :
        (contents.flatten.drop position).take front.length = front := by
      have htake := congrArg (List.take front.length) hbytes
      rw [List.take_take, Nat.min_eq_left (Nat.le_of_lt hindex),
        List.take_left] at htake
      exact htake
    rw [← hshort] at hfront
    refine not_isRecordStart_of_not_mem ?_ hfront (by omega) (by omega) hother
    intro later hlater hbehind
    have hstop := hends later hlater hbehind
    omega

/-- A scan that has reached the end of a source without a delimiter has found
the next record start. -/
theorem isLeast_of_sourceEnd {size : Nat}
    (hstop : stop ∈ contentEnds 0 contents)
    (hends : ∀ later ∈ contentEnds 0 contents, position < later →
      stop ≤ later)
    (hsize : position + size = stop) (hposition : position < stop)
    (hnone : delimiter ∉ (contents.flatten.drop position).take size) :
    IsLeast (recordStartsFrom delimiter contents (position + 1)) stop := by
  constructor
  · exact ⟨.inr (.inl hstop), hposition⟩
  · rintro other ⟨hother, hle⟩
    by_contra hlt
    refine not_isRecordStart_of_not_mem ?_ hnone (by omega) (by omega) hother
    intro later hlater hbehind
    have hle' := hends later hlater hbehind
    omega

/-- A stretch that was passed over has no record start in it. -/
theorem isLeast_of_passed {size : Nat}
    (hends : ∀ later ∈ contentEnds 0 contents, position < later →
      position + size < later)
    (hnone : delimiter ∉ (contents.flatten.drop position).take size)
    (hlater : IsLeast
      (recordStartsFrom delimiter contents (position + size + 1)) answer) :
    IsLeast (recordStartsFrom delimiter contents (position + 1)) answer := by
  obtain ⟨⟨hstart, hbehind⟩, hleast⟩ := hlater
  constructor
  · exact ⟨hstart, by omega⟩
  · rintro other ⟨hother, hle⟩
    by_cases hpassed : other ≤ position + size
    · refine absurd hother
        (not_isRecordStart_of_not_mem ?_ hnone (by omega) hpassed)
      intro later hlater hbehind'
      have hlt := hends later hlater hbehind'
      omega
    · exact hleast ⟨hother, by omega⟩

variable {first start : Nat}

/-- No record starts between a position and the next record start. -/
theorem le_start_iff
    (hfirst : IsLeast (recordStartsFrom delimiter contents position) first)
    (hstart : IsRecordStart delimiter contents start) :
    position ≤ start ↔ first ≤ start :=
  ⟨fun hle => hfirst.2 ⟨hstart, hle⟩, fun hle => hfirst.1.2.trans hle⟩

theorem start_lt_iff
    (hfirst : IsLeast (recordStartsFrom delimiter contents position) first)
    (hstart : IsRecordStart delimiter contents start) :
    start < position ↔ start < first := by
  rw [← Nat.not_le, le_start_iff hfirst hstart, Nat.not_le]

end RecordStarts

namespace SourceSet

variable {set : SourceSet} {delimiter : UInt8} {position : Nat}

theorem Sound.nextRecordStart (hsound : set.Sound) (delimiter : UInt8)
    {steps : Nat}
    (hposition : position < set.contents.flatten.length)
    (hsteps : set.contents.flatten.length - position ≤ steps) :
    ∃ answer next,
      nextRecordStart (contentEnds 0 set.contents)
          set.contents.flatten.length delimiter steps set position =
        (.ok answer, next) ∧
      IsLeast (recordStartsFrom delimiter set.contents (position + 1))
        answer ∧
      set.Reads next := by
  induction steps generalizing set position with
  | zero => omega
  | succ steps ih =>
      obtain ⟨stop, hget, hlt, hends⟩ := exists_sourceEnd hposition
      have hstop : stop ∈ contentEnds 0 set.contents :=
        List.mem_of_getElem? hget
      have htotal := le_of_mem_contentEnds_flatten hstop
      have hgetD :
          (contentEnds 0 set.contents).getD
            (locate (contentEnds 0 set.contents) position).1
            set.contents.flatten.length = stop := by
        rw [List.getD_eq_getElem?_getD, hget, Option.getD_some]
      have hpositive : 0 < min scanStep (stop - position) := by
        unfold scanStep
        omega
      have hinside : position + min scanStep (stop - position) ≤ stop := by
        omega
      obtain ⟨next, hcopy, hreads⟩ :=
        hsound.copyTo_located (min scanStep (stop - position)) Buffer.empty
          hposition (fun later hlater hbehind =>
            hinside.trans (hends later hlater hbehind))
      simp only [nextRecordStart, if_neg (Nat.not_le_of_lt hposition), hgetD,
        hcopy]
      generalize hsize : min scanStep (stop - position) = size at *
      rw [Buffer.toList_append, Buffer.toList_empty, List.nil_append]
      cases hlength : firstDelimiterEnd? delimiter
          ((set.contents.flatten.drop position).take size) with
      | some length =>
          obtain ⟨front, back, hbytes, hfront, rfl⟩ :=
            firstDelimiterEnd?_eq_some hlength
          exact ⟨_, next, rfl,
            isLeast_of_delimiter hends hinside hbytes hfront, hreads⟩
      | none =>
          have hnone := firstDelimiterEnd?_eq_none hlength
          by_cases hend : position + size = stop
          · exact ⟨stop, next, by simp only [if_pos hend],
              isLeast_of_sourceEnd hstop hends hend hlt hnone, hreads⟩
          · have hcontents := hreads.contents_eq
            obtain ⟨answer, last, hanswer, hleast, hreads'⟩ :=
              ih (hreads.sound hsound)
                (by rw [hcontents]; omega :
                  position + size < next.contents.flatten.length)
                (by rw [hcontents]; omega)
            rw [hcontents] at hanswer hleast
            refine ⟨answer, last, by simp only [if_neg hend, hanswer],
              isLeast_of_passed ?_ hnone hleast, hreads.trans hreads'⟩
            intro later hlater hbehind
            have hle := hends later hlater hbehind
            omega

theorem Sound.recordStartFrom (hsound : set.Sound) (delimiter : UInt8)
    (hposition : position ≤ set.contents.flatten.length) :
    ∃ answer next,
      set.recordStartFrom (contentEnds 0 set.contents)
          set.contents.flatten.length delimiter position =
        (.ok answer, next) ∧
      IsLeast (recordStartsFrom delimiter set.contents position) answer ∧
      set.Reads next := by
  unfold SourceSet.recordStartFrom
  by_cases hzero : position = 0
  · refine ⟨0, set, if_pos hzero, ⟨⟨.inl rfl, by omega⟩, ?_⟩, hsound.refl⟩
    intro other hother
    exact Nat.zero_le other
  · rw [if_neg hzero]
    have hnext :=
      hsound.nextRecordStart delimiter
        (by omega : position - 1 < set.contents.flatten.length)
        (by omega : _ ≤ set.contents.flatten.length + 1 - (position - 1))
    rwa [Nat.sub_add_cancel (by omega)] at hnext

/-- The end of a range behind the stream is the end of the stream. -/
theorem Sound.recordStop (hsound : set.Sound) (delimiter : UInt8)
    (stop : Nat) :
    ∃ last next,
      (if set.contents.flatten.length ≤ stop then
          (Except.ok (if stop = 0 then 0 else set.contents.flatten.length),
            set)
        else
          set.recordStartFrom (contentEnds 0 set.contents)
            set.contents.flatten.length delimiter stop) =
        (Except.ok last, next) ∧
      IsLeast (recordStartsFrom delimiter set.contents
        (min stop set.contents.flatten.length)) last ∧
      set.Reads next := by
  by_cases hbehind : set.contents.flatten.length ≤ stop
  · have hlast :
        (if stop = 0 then 0 else set.contents.flatten.length) =
          set.contents.flatten.length := by
      split <;> omega
    refine ⟨set.contents.flatten.length, set, by rw [if_pos hbehind, hlast],
      ⟨⟨isRecordStart_length, Nat.min_le_right _ _⟩, ?_⟩, hsound.refl⟩
    rintro other ⟨-, hother⟩
    omega
  · rw [if_neg hbehind, Nat.min_eq_left (by omega)]
    exact hsound.recordStartFrom delimiter (by omega)

/-- Both ends of a range go to the next record start. -/
theorem Sound.align (hsound : set.Sound) (range : ByteRange)
    (delimiter : UInt8)
    (hoffset : range.offset ≤ set.contents.flatten.length) :
    ∃ first last next,
      set.align range delimiter = (.ok (.between first last), next) ∧
      IsLeast (recordStartsFrom delimiter set.contents range.offset) first ∧
      IsLeast (recordStartsFrom delimiter set.contents
        (min range.stop set.contents.flatten.length)) last ∧
      first ≤ last ∧ set.Reads next ∧ next.Exact := by
  have hlength := hsound.length_lt
  obtain ⟨known, hknown, hreads, hexact⟩ := hsound.materialize
  have hafter := hreads.sound hsound
  have hends := hafter.ends_eq hexact
  have hcontents := hreads.contents_eq
  obtain ⟨first, middle, hfirst, hfirstLeast, hreads'⟩ :=
    hafter.recordStartFrom delimiter
      (by rw [hcontents]; omega : range.offset ≤ _)
  obtain ⟨last, next, hlast, hlastLeast, hreads''⟩ :=
    (hreads'.sound hafter).recordStop delimiter range.stop
  have hcontents' := hreads'.contents_eq.trans hcontents
  rw [hcontents'] at hlast hlastLeast
  rw [hcontents] at hfirst hfirstLeast hends
  have hle : first ≤ last := by
    apply hfirstLeast.2
    refine ⟨hlastLeast.1.1, Nat.le_trans ?_ hlastLeast.1.2⟩
    have hstop := range.offset_le_stop (by omega)
    omega
  refine ⟨first, last, next, ?_, hfirstLeast, hlastLeast, hle,
    hreads.trans (hreads'.trans hreads''),
    hreads''.exact (hreads'.exact hexact)⟩
  simp only [SourceSet.align, hknown, if_neg (Nat.not_lt_of_le hoffset),
    hends, hfirst, hlast, Except.map, Nat.max_eq_left hle]

end SourceSet

/-! ## Reading by ranges -/

/-- The ranges between cuts, from `start` on. -/
def rangesFrom (start : Nat) : List Nat → List ByteRange
  | [] => []
  | cut :: rest => .between start cut :: rangesFrom cut rest

section Ranges

variable {delimiter : UInt8} {contents : List (List UInt8)} {β : Type}
  {make : List UInt8 → List β}

theorem readLines_rangesFrom (delimiter : UInt8) (make : List UInt8 → List β)
    (contents : List (List UInt8)) {start last : Nat} {cuts : List Nat}
    (hincreasing : (start :: cuts).Pairwise (· < ·))
    (hlast : (start :: cuts).getLast? = some last) :
    readLines make
        ((streamLines delimiter contents).filter fun line =>
          line.start < start) ++
        (rangesFrom start cuts).flatMap (fun range =>
          readLines make (linesIn delimiter contents range)) =
      readLines make
        ((streamLines delimiter contents).filter fun line =>
          line.start < last) := by
  induction cuts generalizing start with
  | nil =>
      obtain rfl : start = last := by simpa using hlast
      simp [rangesFrom]
  | cons cut rest ih =>
      rw [List.pairwise_cons] at hincreasing
      have hlt := hincreasing.1 cut List.mem_cons_self
      rw [List.getLast?_cons_cons] at hlast
      have hrange :
          linesIn delimiter contents (.between start cut) =
            (streamLines delimiter contents).filter fun line =>
              start ≤ line.start && line.start < cut := by
        have hstop : start + (cut - start) = cut := by omega
        unfold linesIn ByteRange.between
        rw [hstop]
      rw [rangesFrom, List.flatMap_cons, ← List.append_assoc, hrange,
        ← readLines_append,
        ← filter_start_lt (pairwise_streamLines delimiter contents)
          (Nat.le_of_lt hlt)]
      exact ih hincreasing.2 hlast

/-- Ranges from the front to the end of the stream read every line once. -/
theorem flatMap_rangesFrom (hmake : Linewise delimiter make)
    {cuts : List Nat} (hincreasing : (0 :: cuts).Pairwise (· < ·))
    (hlast : (0 :: cuts).getLast? = some contents.flatten.length) :
    (rangesFrom 0 cuts).flatMap (fun range =>
        readLines make (linesIn delimiter contents range)) =
      contents.flatMap make := by
  have hlines :=
    readLines_rangesFrom delimiter make contents hincreasing hlast
  have hbefore :
      readLines make
          ((streamLinesFrom delimiter 0 contents).filter fun line =>
            line.start < 0 + contents.flatten.length) =
        readRange make contents 0 contents.flatten.length :=
    readLines_before hmake 0 isRecordStart_length
  have hnone :
      (streamLines delimiter contents).filter
        (fun line => line.start < 0) = [] := by
    rw [List.filter_eq_nil_iff]
    intro line hline
    simp
  rw [readRange_all contents (Nat.le_refl _), Nat.zero_add] at hbefore
  rw [hnone] at hlines
  unfold streamLines at hlines
  rw [hbefore] at hlines
  exact hlines

theorem le_getLast_of_increasing {cuts : List Nat} {cut last : Nat}
    (hincreasing : cuts.Pairwise (· < ·)) (hlast : cuts.getLast? = some last)
    (hcut : cut ∈ cuts) : cut ≤ last := by
  obtain ⟨front, rfl⟩ := List.getLast?_eq_some_iff.mp hlast
  rcases List.mem_append.mp hcut with hfront | hend
  · exact Nat.le_of_lt
      ((List.pairwise_append.mp hincreasing).2.2 cut hfront last
        List.mem_cons_self)
  · exact Nat.le_of_eq (List.mem_singleton.mp hend)

theorem stop_le_of_mem_rangesFrom {start last : Nat} {cuts : List Nat}
    {range : ByteRange} (hincreasing : (start :: cuts).Pairwise (· < ·))
    (hlast : (start :: cuts).getLast? = some last)
    (hrange : range ∈ rangesFrom start cuts) :
    range.offset + range.size ≤ last := by
  induction cuts generalizing start with
  | nil => exact absurd hrange List.not_mem_nil
  | cons cut rest ih =>
      rw [List.pairwise_cons] at hincreasing
      rw [List.getLast?_cons_cons] at hlast
      rcases List.mem_cons.mp hrange with rfl | hrest
      · have hlt := hincreasing.1 cut List.mem_cons_self
        have hle : cut ≤ last :=
          le_getLast_of_increasing hincreasing.2 hlast List.mem_cons_self
        simp only [ByteRange.between]
        omega
      · exact ih hincreasing.2 hlast hrest

/-- A line starts in a range exactly if it starts in the aligned range. -/
theorem linesIn_eq_of_isLeast (range : ByteRange) {first last : Nat}
    (hfirst : IsLeast (recordStartsFrom delimiter contents range.offset)
      first)
    (hlast : IsLeast (recordStartsFrom delimiter contents
      (range.offset + range.size)) last) :
    linesIn delimiter contents range =
      (streamLines delimiter contents).filter fun line =>
        first ≤ line.start && line.start < last := by
  unfold linesIn
  apply List.filter_congr
  intro line hline
  have hstart := isRecordStart_of_mem_streamLines hline
  simp only [le_start_iff hfirst hstart, start_lt_iff hlast hstart]

end Ranges

namespace SourceSet

variable {set : SourceSet} {delimiter : UInt8}

/-- A range inside the stream can be aligned, and every plan of the aligned
range has the records of the lines that start in the range. -/
theorem Sound.align_planRecords {range : ByteRange} (hsound : set.Sound)
    (hrange : range.offset + range.size ≤ set.contents.flatten.length) :
    ∃ aligned next,
      set.align range delimiter = (.ok aligned, next) ∧
      ∀ tuning plan planned, tuning.Valid →
        Plan.make next aligned delimiter true tuning = (.ok plan, planned) →
        (planned.planRecords delimiter plan.batches).1 =
          .ok (readLines (normalRecords delimiter)
            (linesIn delimiter set.contents range)) := by
  have hlength := hsound.length_lt
  obtain ⟨first, last, next, halign, hfirst, hlast, hle, hreads, hexact⟩ :=
    hsound.align range delimiter (by omega)
  have hstop :
      min range.stop set.contents.flatten.length =
        range.offset + range.size := by
    unfold ByteRange.stop Size.addSaturating Size.maximum
    omega
  rw [hstop] at hlast
  refine ⟨.between first last, next, halign, ?_⟩
  intro tuning plan planned hvalid hmake
  have hafter := hreads.sound hsound
  have hoffset : first ≤ set.contents.flatten.length :=
    hfirst.2 ⟨isRecordStart_length, by omega⟩
  obtain ⟨end', hrecords, -⟩ :=
    hafter.planRecords_make (hafter.visible hexact) (hafter.fits hexact)
      hvalid (by rw [hreads.contents_eq]; exact hoffset) hmake
  have hsize : first + (last - first) = last := by omega
  rw [hrecords, hreads.contents_eq, linesIn_eq_of_isLeast range hfirst hlast,
    readLines_between (linewise_normalRecords delimiter) hfirst.1.1 hlast.1.1
      hle]
  simp only [ByteRange.between, hsize]

/-- Reads of ranges between increasing cuts partition the records: each has
those of the lines that start in its range, whatever the settings.  One behind
the other they are the records of a whole read, if no source that has content
is believed to be empty.  Where such sources come first, a whole read in one
batch lacks their records. -/
theorem rangeReads_partition (set : SourceSet) (delimiter : UInt8)
    {cuts : List Nat}
    (hopened : ∀ source ∈ set.sources, source.Opened 0)
    (hreadable : ∀ source ∈ set.sources, source.Readable)
    (hlength : set.contents.flatten.length < Size.limit)
    (hincreasing : (0 :: cuts).Pairwise (· < ·))
    (hlast : (0 :: cuts).getLast? = some set.contents.flatten.length) :
    (∀ range ∈ rangesFrom 0 cuts,
      ∃ aligned next,
        set.align range delimiter = (.ok aligned, next) ∧
        ∀ tuning plan planned, tuning.Valid →
          Plan.make next aligned delimiter true tuning =
            (.ok plan, planned) →
          (planned.planRecords delimiter plan.batches).1 =
            .ok (readLines (normalRecords delimiter)
              (linesIn delimiter set.contents range))) ∧
      (set.Visible → set.Fits →
        ∀ tuning plan planned, tuning.Valid →
          Plan.make set (.toEnd 0) delimiter true tuning =
            (.ok plan, planned) →
          (planned.planRecords delimiter plan.batches).1 =
            .ok ((rangesFrom 0 cuts).flatMap fun range =>
              readLines (normalRecords delimiter)
                (linesIn delimiter set.contents range))) ∧
      (∀ unseen rest, set.sources = unseen ++ rest →
        (∀ source ∈ unseen, source.size = 0) →
        (∀ source ∈ rest, source.Visible) → set.Fits →
        ∀ tuning plan planned, set.sizes.sum ≤ tuning.maxBatchBytes →
          Plan.make set (.toEnd 0) delimiter true tuning =
            (.ok plan, planned) →
          (planned.planRecords delimiter plan.batches).1 =
            .ok (rest.flatMap fun source =>
              normalRecords delimiter source.content)) := by
  have hsound : set.Sound :=
    ⟨fun source hsource =>
      (hopened source hsource).sound (hreadable source hsource), hlength⟩
  refine ⟨?_, ?_, ?_⟩
  · intro range hrange
    exact hsound.align_planRecords
      (stop_le_of_mem_rangesFrom hincreasing hlast hrange)
  · intro hvisible hfits tuning plan planned hvalid hmake
    obtain ⟨last, hrecords, -⟩ :=
      hsound.planRecords_make hvisible hfits hvalid (Nat.zero_le _) hmake
    rw [hrecords, readRange_toEnd hlength,
      flatMap_rangesFrom (linewise_normalRecords delimiter) hincreasing hlast]
  · intro unseen rest hsources hunseen hvisible hfits tuning plan planned hsmall
      hmake
    exact planRecords_make_unseen hsound hfits hsources hunseen hvisible hsmall
      hmake

/-- A cut inside the first of two sources: its only line starts in the first
range. -/
theorem rangeReads_partition_two_ranges :
    ∃ aligned next,
      (⟨[.host [123, 39, 97, 39, 58, 49, 125, 10],
          .device ⟨#[123, 34, 98, 34, 58, 50, 125]⟩], .none⟩ :
        SourceSet).align (.between 0 5) 10 = (.ok aligned, next) ∧
      ∀ tuning plan planned, tuning.Valid →
        Plan.make next aligned 10 true tuning = (.ok plan, planned) →
        (planned.planRecords 10 plan.batches).1 =
          .ok [[123, 34, 97, 34, 58, 49, 125]] := by
  have hcuts : List.Pairwise (· < ·) [0, 5, 15] := by decide
  refine (rangeReads_partition
    ⟨[.host [123, 39, 97, 39, 58, 49, 125, 10],
      .device ⟨#[123, 34, 98, 34, 58, 50, 125]⟩], .none⟩ 10
    ?_ ?_ (by decide) hcuts (by decide)).1 (.between 0 5) List.mem_cons_self
  · rintro source (_ | ⟨_, _ | ⟨_, ⟨⟩⟩⟩)
    · exact .host _
    · exact .device _
  · rintro source (_ | ⟨_, _ | ⟨_, ⟨⟩⟩⟩) <;> rfl

/-- A source that is wrapped with the ratio zero is believed to be empty.  Its
line is read by range, but not by a whole read. -/
theorem rangeReads_partition_ratio_zero :
    ∃ source aligned next plan planned whole after,
      CompressedSource.make [8, 28, 123, 34, 97, 34, 58, 49, 125, 10]
          .snappy 0 = .ok source ∧
        SourceSet.align ⟨[.compressed source], .none⟩ (.between 0 8) 10 =
          (.ok aligned, next) ∧
        Plan.make next aligned 10 true .default = (.ok plan, planned) ∧
        (planned.planRecords 10 plan.batches).1 =
          .ok [[123, 34, 97, 34, 58, 49, 125]] ∧
        Plan.make ⟨[.compressed source], .none⟩ (.toEnd 0) 10 true .default =
          (.ok whole, after) ∧
        (after.planRecords 10 whole.batches).1 = .ok [] :=
  ⟨_, _, _, _, _, _, _, rfl, rfl, rfl, rfl, rfl, rfl⟩

end SourceSet

end JsonIntake
