import JsonIntake.Proofs.Plan.Tiling
import JsonIntake.Proofs.Source.Opened

/-!
# Batches of a plan

What does not seem to fit the budget is cut.  The batches of the cut follow
each other from the front of the range to its end, or to the end of the stream
if that comes first.  None is empty or larger than the budget, each but the
last holds more than the budget without two sub-chunks, and each cut is a
boundary.  The larger ones among them are those whose cut was shifted.
-/

namespace JsonIntake

namespace ByteRange

theorem stop_between {start stop : Nat} (hstart : start ≤ stop)
    (hlimit : stop < Size.limit) : (between start stop).stop = stop := by
  unfold between ByteRange.stop Size.addSaturating Size.maximum
  dsimp only
  omega

end ByteRange

/-- The ranges of batches that cut the stream from `start` to `stop`, and the
number of their shifted cuts. -/
structure SafeTiling (delimiter : UInt8) (contents : List (List UInt8))
    (budget subchunk start stop : Nat) (ranges : List ByteRange)
    (shifted : Nat) : Prop where
  contiguous : ranges.map ByteRange.offset ++ [stop] =
    start :: ranges.map ByteRange.stop
  eq_nil_iff : ranges = [] ↔ start = stop
  nonempty : ∀ range ∈ ranges, 0 < range.size
  within : ∀ range ∈ ranges, range.size ≤ budget
  filled : ∀ range ∈ ranges.dropLast, budget - 2 * subchunk < range.size
  boundary : ∀ range ∈ ranges, range.stop < stop →
    IsBoundary delimiter contents range.stop
  shifted_eq : shifted = ranges.dropLast.countP fun range =>
    budget - subchunk < range.size

namespace SafeTiling

variable {delimiter : UInt8} {contents : List (List UInt8)}
  {budget subchunk start stop count : Nat} {ranges : List ByteRange}

theorem nil :
    SafeTiling delimiter contents budget subchunk stop stop [] 0 where
  contiguous := rfl
  eq_nil_iff := by simp
  nonempty := nofun
  within := nofun
  filled := nofun
  boundary := nofun
  shifted_eq := rfl

theorem single (hlt : start < stop) (hfits : stop - start ≤ budget)
    (hlimit : stop < Size.limit) :
    SafeTiling delimiter contents budget subchunk start stop
      [.between start stop] 0 where
  contiguous := by
    rw [List.map_singleton, List.map_singleton,
      ByteRange.stop_between (Nat.le_of_lt hlt) hlimit]
    rfl
  eq_nil_iff := by simp [Nat.ne_of_lt hlt]
  nonempty := by simpa [ByteRange.between] using Nat.sub_pos_of_lt hlt
  within := by simpa [ByteRange.between] using hfits
  filled := nofun
  boundary := by
    simp [ByteRange.stop_between (Nat.le_of_lt hlt) hlimit]
  shifted_eq := rfl

/-- A cut in front of `stop` leaves something, so the range before it is not
the last one. -/
theorem cons {cut : Nat} {shifted : Bool} (hlow : start < cut)
    (hhigh : cut < stop) (hlimit : stop < Size.limit)
    (hfilled : budget - 2 * subchunk < cut - start)
    (hsize : cut - start ≤ budget)
    (hshifted : shifted = true ↔ budget - subchunk < cut - start)
    (hboundary : IsBoundary delimiter contents cut)
    (hrest : SafeTiling delimiter contents budget subchunk cut stop ranges
      count) :
    SafeTiling delimiter contents budget subchunk start stop
      (.between start cut :: ranges)
      (if shifted then count + 1 else count) := by
  have hstop : (ByteRange.between start cut).stop = cut :=
    ByteRange.stop_between (Nat.le_of_lt hlow) (Nat.lt_trans hhigh hlimit)
  have hranges : ranges ≠ [] := fun hnil =>
    Nat.ne_of_lt hhigh (hrest.eq_nil_iff.mp hnil)
  have hlast :
      (.between start cut :: ranges).dropLast =
        .between start cut :: ranges.dropLast :=
    List.dropLast_cons_of_ne_nil hranges
  constructor
  case contiguous =>
    rw [List.map_cons, List.map_cons, List.cons_append, hrest.contiguous,
      hstop]
    rfl
  case eq_nil_iff =>
    have hne : start ≠ stop := by omega
    simp [hne]
  case nonempty =>
    exact List.forall_mem_cons.mpr ⟨Nat.sub_pos_of_lt hlow, hrest.nonempty⟩
  case within => exact List.forall_mem_cons.mpr ⟨hsize, hrest.within⟩
  case filled =>
    rw [hlast]
    exact List.forall_mem_cons.mpr ⟨hfilled, hrest.filled⟩
  case boundary =>
    refine List.forall_mem_cons.mpr ⟨fun _ => ?_, hrest.boundary⟩
    rwa [hstop]
  case shifted_eq =>
    rw [hlast, List.countP_cons, ← hrest.shifted_eq]
    have hcount :
        decide (budget - subchunk < (ByteRange.between start cut).size) =
          shifted := by
      rw [Bool.eq_iff_iff, hshifted, decide_eq_true_iff]
      rfl
    rw [hcount]
    cases shifted with
    | false => rfl
    | true => rfl

end SafeTiling

theorem CutRun.safeTiling {delimiter : UInt8} {contents : List (List UInt8)}
    {budget subchunk stop start count : Nat} {ranges : List ByteRange}
    (hbudget : 2 * subchunk ≤ budget) (hlimit : stop < Size.limit)
    (hrun : CutRun delimiter contents budget subchunk stop start
      (.ok (ranges, count))) :
    SafeTiling delimiter contents budget subchunk start stop ranges
      count := by
  generalize hresult : Except.ok (ranges, count) = result at hrun
  induction hrun generalizing ranges count with
  | done =>
      cases hresult
      exact .nil
  | last hlt hfits =>
      cases hresult
      exact .single hlt hfits hlimit
  | cut hlarge hnear hrest ih =>
      cases hresult
      obtain ⟨hlow, hhigh, hfilled, hsize, hshifted, hboundary⟩ :=
        hnear.cut_spec hbudget hlarge
      exact .cons hlow hhigh hlimit hfilled hsize hshifted hboundary (ih rfl)
  | later hlarge hnear hrest ih => exact absurd hresult nofun
  | stuck hlarge hnear => exact absurd hresult nofun

theorem CutRun.failure_eq {delimiter : UInt8}
    {contents : List (List UInt8)} {budget subchunk stop start : Nat}
    {failure : Failure}
    (hrun : CutRun delimiter contents budget subchunk stop start
      (.error failure)) :
    ∃ target, failure = .noSafeSplitPoint target (2 * subchunk) := by
  generalize hresult : Except.error failure = result at hrun
  induction hrun with
  | done => exact absurd hresult nofun
  | last hlt hfits => exact absurd hresult nofun
  | cut hlarge hnear hrest ih => exact absurd hresult nofun
  | later hlarge hnear hrest ih => exact ih hresult
  | stuck hlarge hnear =>
      cases hresult
      cases hnear with
      | nowhere hbefore hbehind => exact ⟨_, rfl⟩

namespace Plan

variable {set : SourceSet} {range : ByteRange} {delimiter : UInt8}
  {lines : Bool} {tuning : Tuning}

theorem map_index_batchesOf (set : SourceSet) (ranges : List ByteRange) :
    (batchesOf set ranges).map Batch.index =
      List.range (batchesOf set ranges).length := by
  unfold batchesOf
  rw [List.map_map, List.length_map, List.length_zipIdx,
    List.range_eq_range']
  exact List.zipIdx_map_snd 0 ranges

/-- Without a total there is no plan. -/
theorem make_overflow (hvalid : tuning.Valid)
    (hsizes : Size.limit ≤ set.sizes.sum) :
    make set range delimiter lines tuning = (.error .overflow, set) := by
  have htotal : set.totalSize = .error .overflow := by
    rw [SourceSet.totalSize_eq, if_neg (Nat.not_lt.mpr hsizes)]
  simp only [make, hvalid.validate, htotal]

theorem cut_outside (hsound : set.Sound) (delimiter : UInt8)
    (tuning : Tuning) (estimated : Nat)
    (houtside : set.contents.flatten.length < range.offset) :
    ∃ known,
      cut set range delimiter tuning estimated =
        (.error (.sourceExhausted range.offset set.contents.flatten.length),
          known) := by
  obtain ⟨known, hknown, -⟩ := hsound.materialize
  exact ⟨known, by simp only [cut, hknown, if_pos houtside]⟩

/-- Cutting fails only if the range begins behind the stream, or at a place
near which there is no boundary. -/
theorem cut_error {failure : Failure} {estimated : Nat}
    (hsound : set.Sound) (hvalid : tuning.Valid)
    (hcut : (cut set range delimiter tuning estimated).1 = .error failure) :
    (∃ offset total, failure = .sourceExhausted offset total) ∨
      ∃ offset searched, failure = .noSafeSplitPoint offset searched := by
  by_cases hoffset : range.offset ≤ set.contents.flatten.length
  · obtain ⟨result, next, hresult, -, -, hrun⟩ :=
      cut_of_sound hsound hvalid delimiter estimated hoffset
    rw [hresult] at hcut
    cases result with
    | ok result => cases hcut
    | error fault =>
        obtain ⟨target, rfl⟩ := hrun.failure_eq
        cases hcut
        exact .inr ⟨_, _, rfl⟩
  · obtain ⟨known, hresult⟩ :=
      cut_outside hsound delimiter tuning estimated
        (Nat.lt_of_not_le hoffset)
    rw [hresult] at hcut
    cases hcut
    exact .inl ⟨_, _, rfl⟩

/-- A plan fails only if the sizes have no sum, if the range begins behind the
stream, or at a place near which there is no boundary. -/
theorem make_error {failure : Failure} {next : SourceSet}
    (hsound : set.Sound) (hvalid : tuning.Valid)
    (hmake : make set range delimiter lines tuning =
      (.error failure, next)) :
    failure = .overflow ∨
      (∃ offset total, failure = .sourceExhausted offset total) ∨
      ∃ offset searched, failure = .noSafeSplitPoint offset searched := by
  rcases Nat.lt_or_ge set.sizes.sum Size.limit with hsizes | hsizes
  · rw [make_of_valid hvalid hsizes] at hmake
    split at hmake
    · cases hmake
    · exact .inr (cut_error hsound hvalid (congrArg Prod.fst hmake))
  · rw [make_overflow hvalid hsizes] at hmake
    cases hmake
    exact .inl rfl

/-- The steps that are allowed suffice: further ones change nothing. -/
theorem cutRanges_steps (hsound : set.Sound) (hvalid : tuning.Valid)
    (pool : BufferPool) {start stop steps : Nat}
    (hstop : stop ≤ set.contents.flatten.length)
    (hsteps : stop - start ≤ steps) :
    Probe.cutRanges tuning.maxBatchBytes
        (tuning.maxBatchBytes - tuning.subchunkSize)
        tuning.subchunkSize (contentEnds 0 set.contents) stop delimiter
        steps ⟨set, pool⟩ start =
      Probe.cutRanges tuning.maxBatchBytes
        (tuning.maxBatchBytes - tuning.subchunkSize)
        tuning.subchunkSize (contentEnds 0 set.contents) stop delimiter
        (stop - start) ⟨set, pool⟩ start := by
  rcases Nat.le_total start stop with hstart | hstart
  · have hprobe : (⟨set, pool⟩ : Probe).set.Sound := hsound
    obtain ⟨result, next, hrun, -⟩ :=
      Probe.cutRanges_of_sound hprobe delimiter hvalid.budget hstop hstart
    exact (hrun steps hsteps).trans (hrun _ (Nat.le_refl _)).symm
  · rw [Probe.cutRanges_of_le hstart, Probe.cutRanges_of_le hstart]

/-- Sizes without a sum have no plan.  What seems to fit the budget is planned
as the one batch that it is.  Else the range is cut in no more steps than it
has bytes, and the plan is a safe tiling; it fails if the range begins behind
the stream, or at a place near which there is no boundary. -/
theorem make_safe (set : SourceSet) (range : ByteRange) (delimiter : UInt8)
    (hopened : ∀ source ∈ set.sources, source.Opened 0)
    (hreadable : ∀ source ∈ set.sources, source.Readable)
    (hlength : set.contents.flatten.length < Size.limit)
    (hvalid : tuning.Valid) :
    (Size.limit ≤ set.sizes.sum →
        make set range delimiter true tuning = (.error .overflow, set)) ∧
      (set.sizes.sum < Size.limit →
        min range.stop set.sizes.sum - range.offset ≤ tuning.maxBatchBytes →
        make set range delimiter true tuning =
          (.ok
            { batches := [⟨0, range, set.fragments range⟩]
              estimatedSize := set.sizes.sum
              exactSize :=
                if set.sizesAreExact then some set.sizes.sum else none
              subchunkSize := tuning.subchunkSize
              shiftedCuts := 0 }, set)) ∧
      (set.sizes.sum < Size.limit →
        tuning.maxBatchBytes < min range.stop set.sizes.sum - range.offset →
        (∃ known ends,
          set.materialize = (.ok set.contents.flatten.length, known) ∧
          known.ends = .ok ends ∧
          ∀ pool steps,
            min range.stop set.contents.flatten.length - range.offset ≤
                steps →
            Probe.cutRanges tuning.maxBatchBytes
                (tuning.maxBatchBytes - tuning.subchunkSize)
                tuning.subchunkSize ends
                (min range.stop set.contents.flatten.length) delimiter steps
                ⟨known, pool⟩ range.offset =
              Probe.cutRanges tuning.maxBatchBytes
                (tuning.maxBatchBytes - tuning.subchunkSize)
                tuning.subchunkSize ends
                (min range.stop set.contents.flatten.length) delimiter
                (min range.stop set.contents.flatten.length - range.offset)
                ⟨known, pool⟩ range.offset) ∧
        match (make set range delimiter true tuning).1 with
        | .ok plan =>
          plan.batches.map Batch.index = List.range plan.length ∧
            SafeTiling delimiter set.contents tuning.maxBatchBytes
              tuning.subchunkSize range.offset
              (min range.stop set.contents.flatten.length)
              (plan.batches.map Batch.range) plan.shiftedCuts
        | .error failure =>
          failure =
              .sourceExhausted range.offset set.contents.flatten.length ∨
            ∃ target,
              failure =
                .noSafeSplitPoint target (2 * tuning.subchunkSize)) := by
  have hsound : set.Sound :=
    ⟨fun source hsource =>
      (hopened source hsource).sound (hreadable source hsource), hlength⟩
  refine ⟨make_overflow hvalid, ?_, ?_⟩
  · intro hsizes hfits
    rw [make_of_valid hvalid hsizes, if_pos (.inr hfits)]
    rfl
  intro hsizes hlarge
  refine ⟨?_, ?_⟩
  · obtain ⟨known, hknown, hreads, hexact⟩ := hsound.materialize
    have hafter := hreads.sound hsound
    refine ⟨known, _, hknown, hafter.ends_eq hexact, ?_⟩
    intro pool steps hsteps
    exact cutRanges_steps hafter hvalid pool
      (by rw [hreads.contents_eq]; exact Nat.min_le_right _ _) hsteps
  rw [make_of_large hvalid hsizes hlarge]
  by_cases hoffset : range.offset ≤ set.contents.flatten.length
  · obtain ⟨result, next, hcut, -, -, hrun⟩ :=
      cut_of_sound hsound hvalid delimiter set.sizes.sum hoffset
    rw [hcut]
    cases result with
    | error failure => exact .inr hrun.failure_eq
    | ok result =>
        obtain ⟨ranges, shifted⟩ := result
        refine ⟨map_index_batchesOf next ranges, ?_⟩
        rw [map_range_batchesOf]
        exact hrun.safeTiling hvalid.budget
          (Nat.lt_of_le_of_lt (Nat.min_le_right _ _) hlength)
  · obtain ⟨known, hcut⟩ :=
      cut_outside hsound delimiter tuning set.sizes.sum
        (Nat.lt_of_not_le hoffset)
    rw [hcut]
    exact .inl rfl

/-- Two sources that do not fit the budget together are cut where they meet,
behind the wanted place. -/
theorem make_safe_two_batches :
    ∃ plan next,
      make
          ⟨[.host [123, 39, 97, 39, 58, 49, 125, 10],
            .device ⟨#[123, 34, 98, 34, 58, 50, 125]⟩], .none⟩
          (.toEnd 0) 10 true ⟨2, 0, 1, 1, 8⟩ = (.ok plan, next) ∧
        plan.batches.map Batch.index = [0, 1] ∧
        SafeTiling 10
          [[123, 39, 97, 39, 58, 49, 125, 10],
            [123, 34, 98, 34, 58, 50, 125]] 8 4 0 15
          [⟨0, 8⟩, ⟨8, 7⟩] 1 := by
  refine ⟨_, _, rfl, ?_⟩
  have hvalid : Tuning.Valid ⟨2, 0, 1, 1, 8⟩ :=
    ⟨by decide, by decide, by decide, by decide⟩
  refine ((make_safe
    ⟨[.host [123, 39, 97, 39, 58, 49, 125, 10],
      .device ⟨#[123, 34, 98, 34, 58, 50, 125]⟩], .none⟩
    (.toEnd 0) 10 ?_ ?_ (by decide) hvalid).2.2 (by decide) (by decide)).2
  · rintro source (_ | ⟨_, _ | ⟨_, ⟨⟩⟩⟩)
    · exact .host _
    · exact .device _
  · rintro source (_ | ⟨_, _ | ⟨_, ⟨⟩⟩⟩) <;> rfl

end Plan

end JsonIntake
