import JsonIntake.Proofs.Stream.Boundary

/-!
# Plans tile their range

Settings that pass their check leave room for a cut: a batch is wanted to end
one sub-chunk before the budget is used up, and the search for its end looks
at one sub-chunk on each side of that place.  Every cut is a boundary in front
of the end of the range, and no batch is larger than the budget.
-/

namespace JsonIntake

namespace Tuning

/-- Settings that pass the check, with a budget that is a word. -/
structure Valid (tuning : Tuning) : Prop where
  subchunks_pos : 0 < tuning.numSubchunks
  ratio_pos : 0 < tuning.compressionRatio
  budget : 2 * tuning.subchunkSize ≤ tuning.maxBatchBytes
  budget_lt : tuning.maxBatchBytes < Size.limit

variable {tuning : Tuning}

theorem Valid.validate (hvalid : tuning.Valid) :
    tuning.validate = .ok () := by
  have hbudget := hvalid.budget
  have hlimit := hvalid.budget_lt
  have hsubchunks := hvalid.subchunks_pos
  have hratio := hvalid.ratio_pos
  unfold Tuning.validate
  rw [if_neg (by omega), Size.mul?_of_lt (by omega)]
  exact if_neg (by omega)

theorem valid_of_validate (hbudget : tuning.maxBatchBytes < Size.limit)
    (hvalidate : tuning.validate = .ok ()) : tuning.Valid := by
  unfold Tuning.validate at hvalidate
  split at hvalidate
  · cases hvalidate
  next hcounts =>
    rcases Nat.lt_or_ge (2 * tuning.subchunkSize) Size.limit with
      hword | hoverflow
    · simp only [Size.mul?_of_lt hword] at hvalidate
      split at hvalidate
      · cases hvalidate
      · cases hvalidate
        exact ⟨by omega, by omega, by omega, hbudget⟩
    · rw [Size.mul?_eq_none_iff.mpr hoverflow] at hvalidate
      cases hvalidate

theorem Valid.nominal_eq (hvalid : tuning.Valid) :
    Size.sub? tuning.maxBatchBytes tuning.subchunkSize =
      some (tuning.maxBatchBytes - tuning.subchunkSize) := by
  have hbudget := hvalid.budget
  exact Size.sub?_of_le (by omega)

end Tuning

/-! ## One cut -/

/-- The search for a cut near `target`: before it, then behind it. -/
inductive IsCutNear (delimiter : UInt8) (contents : List (List UInt8))
    (start target stop subchunk : Nat) :
    Except Failure (Nat × Bool) → Prop
  | before {cut : Nat}
      (hcut : IsLastBoundary delimiter contents
        (max (target - subchunk) start) target (some cut)) :
      IsCutNear delimiter contents start target stop subchunk
        (.ok (cut, false))
  | behind {cut : Nat}
      (hnone : IsLastBoundary delimiter contents
        (max (target - subchunk) start) target none)
      (hcut : IsLastBoundary delimiter contents target
        (min (target + subchunk) stop) (some cut)) :
      IsCutNear delimiter contents start target stop subchunk
        (.ok (cut, true))
  | nowhere
      (hbefore : IsLastBoundary delimiter contents
        (max (target - subchunk) start) target none)
      (hbehind : IsLastBoundary delimiter contents target
        (min (target + subchunk) stop) none) :
      IsCutNear delimiter contents start target stop subchunk
        (.error (.noSafeSplitPoint target (2 * subchunk)))

namespace Probe

variable {start target stop subchunk : Nat}

theorem noBoundary_of_lt (target : Nat) (hword : 2 * subchunk < Size.limit) :
    noBoundary target subchunk =
      .noSafeSplitPoint target (2 * subchunk) := by
  rw [noBoundary, Size.mul?_of_lt hword]

theorem cutNear_of_sound {probe : Probe} (hsound : probe.set.Sound)
    (delimiter : UInt8) (hstart : start ≤ target) (htarget : target ≤ stop)
    (hstop : stop ≤ probe.set.contents.flatten.length)
    (hahead : target + subchunk < Size.limit)
    (hsearched : 2 * subchunk < Size.limit) :
    ∃ choice next,
      probe.cutNear (contentEnds 0 probe.set.contents) start target stop
        subchunk delimiter = (choice, next) ∧
      IsCutNear delimiter probe.set.contents start target stop subchunk
        choice ∧
      probe.set.Reads next.set := by
  obtain ⟨first, middle, hfirst, hbefore, hreads⟩ :=
    lastBoundary_of_sound hsound delimiter
      (by omega : max (target - subchunk) start ≤ target) (by omega)
  cases first with
  | some cut =>
      refine ⟨.ok (cut, false), middle, ?_, .before hbefore, hreads⟩
      simp only [cutNear, hfirst]
  | none =>
      have hcontents := hreads.contents_eq
      obtain ⟨second, next, hsecond, hbehind, hreads'⟩ :=
        lastBoundary_of_sound (hreads.sound hsound) delimiter
          (by omega : target ≤ min (target + subchunk) stop)
          (by rw [hcontents]; omega)
      rw [hcontents] at hsecond hbehind
      have hadd := Size.add?_of_lt hahead
      cases second with
      | some cut =>
          refine ⟨.ok (cut, true), next, ?_, .behind hbefore hbehind,
            hreads.trans hreads'⟩
          simp only [cutNear, hfirst, hadd, hsecond]
      | none =>
          refine ⟨.error (.noSafeSplitPoint target (2 * subchunk)), next, ?_,
            .nowhere hbefore hbehind, hreads.trans hreads'⟩
          simp only [cutNear, hfirst, hadd, hsecond,
            noBoundary_of_lt target hsearched]

end Probe

/-- A cut lies in front of `stop`, where at least the budget is left. -/
theorem IsCutNear.cut_spec {delimiter : UInt8}
    {contents : List (List UInt8)} {start budget subchunk stop cut : Nat}
    {shifted : Bool}
    (hnear : IsCutNear delimiter contents start
      (start + (budget - subchunk)) stop subchunk (.ok (cut, shifted)))
    (hbudget : 2 * subchunk ≤ budget) (hlarge : budget < stop - start) :
    start < cut ∧ cut < stop ∧
      budget - 2 * subchunk < cut - start ∧ cut - start ≤ budget ∧
      (shifted = true ↔ budget - subchunk < cut - start) ∧
      IsBoundary delimiter contents cut := by
  cases hnear with
  | before hcut =>
      obtain ⟨hlow, hhigh, hboundary, -⟩ := hcut
      exact ⟨by omega, by omega, by omega, by omega, by simp; omega,
        hboundary⟩
  | behind hnone hcut =>
      obtain ⟨hlow, hhigh, hboundary, -⟩ := hcut
      exact ⟨by omega, by omega, by omega, by omega, by simp; omega,
        hboundary⟩

/-! ## All cuts -/

/-- The ranges from `start` to `stop` and the number of shifted cuts, or the
failure of the first cut that cannot be made.  A cut is made where more than
the budget is left. -/
inductive CutRun (delimiter : UInt8) (contents : List (List UInt8))
    (budget subchunk stop : Nat) :
    Nat → Except Failure (List ByteRange × Nat) → Prop
  | done : CutRun delimiter contents budget subchunk stop stop (.ok ([], 0))
  | last {start : Nat} (hlt : start < stop) (hfits : stop - start ≤ budget) :
      CutRun delimiter contents budget subchunk stop start
        (.ok ([.between start stop], 0))
  | cut {start cut count : Nat} {shifted : Bool} {ranges : List ByteRange}
      (hlarge : budget < stop - start)
      (hnear : IsCutNear delimiter contents start
        (start + (budget - subchunk)) stop subchunk (.ok (cut, shifted)))
      (hrest : CutRun delimiter contents budget subchunk stop cut
        (.ok (ranges, count))) :
      CutRun delimiter contents budget subchunk stop start
        (.ok (.between start cut :: ranges,
          if shifted then count + 1 else count))
  | later {start cut : Nat} {shifted : Bool} {failure : Failure}
      (hlarge : budget < stop - start)
      (hnear : IsCutNear delimiter contents start
        (start + (budget - subchunk)) stop subchunk (.ok (cut, shifted)))
      (hrest : CutRun delimiter contents budget subchunk stop cut
        (.error failure)) :
      CutRun delimiter contents budget subchunk stop start (.error failure)
  | stuck {start : Nat} {failure : Failure}
      (hlarge : budget < stop - start)
      (hnear : IsCutNear delimiter contents start
        (start + (budget - subchunk)) stop subchunk (.error failure)) :
      CutRun delimiter contents budget subchunk stop start (.error failure)

/-- Ranges that follow each other from `start` to `stop`.  Each one holds
something, none is larger than the budget, and where one ends before `stop`
is a place to cut. -/
inductive Tiling (IsCut : Nat → Prop) (budget stop : Nat) :
    Nat → List ByteRange → Prop
  | done : Tiling IsCut budget stop stop []
  | step {start cut : Nat} {rest : List ByteRange} (hlt : start < cut)
      (hle : cut ≤ stop) (hbudget : cut - start ≤ budget)
      (hcut : cut = stop ∨ IsCut cut)
      (hrest : Tiling IsCut budget stop cut rest) :
      Tiling IsCut budget stop start (.between start cut :: rest)

theorem CutRun.tiling {delimiter : UInt8} {contents : List (List UInt8)}
    {budget subchunk stop start count : Nat} {ranges : List ByteRange}
    (hbudget : 2 * subchunk ≤ budget)
    (hrun : CutRun delimiter contents budget subchunk stop start
      (.ok (ranges, count))) :
    Tiling (IsBoundary delimiter contents) budget stop start ranges := by
  generalize hresult : Except.ok (ranges, count) = result at hrun
  induction hrun generalizing ranges count with
  | done =>
      cases hresult
      exact .done
  | last hlt hfits =>
      cases hresult
      exact .step hlt (Nat.le_refl _) hfits (.inl rfl) .done
  | cut hlarge hnear hrest ih =>
      cases hresult
      obtain ⟨hlow, hhigh, -, hsize, -, hboundary⟩ :=
        hnear.cut_spec hbudget hlarge
      exact .step hlow (Nat.le_of_lt hhigh) hsize (.inr hboundary) (ih rfl)
  | later hlarge hnear hrest ih => exact absurd hresult nofun
  | stuck hlarge hnear => exact absurd hresult nofun

namespace Probe

variable {probe : Probe} {delimiter : UInt8}
  {budget nominal subchunk stop start : Nat} {ends : List Nat}

theorem cutRanges_of_le (hdone : stop ≤ start) (steps : Nat) :
    cutRanges budget nominal subchunk ends stop delimiter steps probe start =
      (.ok ([], 0), probe) := by
  cases steps with
  | zero => rfl
  | succ steps => rw [cutRanges, if_pos hdone]

theorem cutRanges_of_fits (hlt : start < stop) (hfits : stop - start ≤ budget)
    (steps : Nat) :
    cutRanges budget nominal subchunk ends stop delimiter (steps + 1) probe
        start =
      (.ok ([.between start stop], 0), probe) := by
  rw [cutRanges, if_neg (by omega), if_pos hfits]
  simp only [cutRanges_of_le (Nat.le_refl stop), Bool.false_eq_true, if_false]

theorem cutRanges_of_stuck {failure : Failure} {middle : Probe}
    (hlarge : budget < stop - start)
    (hword : start + nominal < Size.limit)
    (hcut : probe.cutNear ends start (start + nominal) stop subchunk
      delimiter = (.error failure, middle)) (steps : Nat) :
    cutRanges budget nominal subchunk ends stop delimiter (steps + 1) probe
        start =
      (.error failure, middle) := by
  rw [cutRanges, if_neg (by omega), if_neg (by omega), Size.add?_of_lt hword]
  simp only [hcut]

theorem cutRanges_of_cut {cut : Nat} {shifted : Bool} {middle : Probe}
    (hlarge : budget < stop - start)
    (hword : start + nominal < Size.limit)
    (hcut : probe.cutNear ends start (start + nominal) stop subchunk
      delimiter = (.ok (cut, shifted), middle)) (steps : Nat) :
    cutRanges budget nominal subchunk ends stop delimiter (steps + 1) probe
        start =
      match cutRanges budget nominal subchunk ends stop delimiter steps
          middle cut with
      | (.error failure, last) => (.error failure, last)
      | (.ok (ranges, count), last) =>
        (.ok (.between start cut :: ranges,
          if shifted then count + 1 else count), last) := by
  rw [cutRanges, if_neg (by omega), if_neg (by omega), Size.add?_of_lt hword]
  rcases hrest : cutRanges budget nominal subchunk ends stop delimiter steps
      middle cut with ⟨failure | ⟨ranges, count⟩, last⟩ <;>
    simp only [hcut, hrest]

/-- Every step cuts off a range that is not empty.  So no more steps are taken
than there are bytes left, and further ones would change nothing. -/
theorem cutRanges_of_sound (hsound : probe.set.Sound) (delimiter : UInt8)
    (hbudget : 2 * subchunk ≤ budget)
    (hstop : stop ≤ probe.set.contents.flatten.length)
    (hstart : start ≤ stop) :
    ∃ result next,
      (∀ steps, stop - start ≤ steps →
        cutRanges budget (budget - subchunk) subchunk
          (contentEnds 0 probe.set.contents) stop delimiter steps probe start =
            (result, next)) ∧
      probe.set.Reads next.set ∧
      CutRun delimiter probe.set.contents budget subchunk stop start
        result := by
  induction hleft : stop - start using Nat.strongRecOn
    generalizing probe start with
  | ind left ih =>
  subst hleft
  rcases Nat.eq_or_lt_of_le hstart with rfl | hlt
  · exact ⟨.ok ([], 0), probe, fun steps _ => cutRanges_of_le hstart steps,
      hsound.refl, .done⟩
  by_cases hfits : stop - start ≤ budget
  · refine ⟨.ok ([.between start stop], 0), probe, ?_, hsound.refl,
      .last hlt hfits⟩
    rintro (_ | steps) hsteps
    · omega
    · exact cutRanges_of_fits hlt hfits steps
  have hlarge : budget < stop - start := Nat.lt_of_not_le hfits
  have hlength := hsound.length_lt
  have hword : start + (budget - subchunk) < Size.limit := by omega
  obtain ⟨choice, middle, hcut, hnear, hreads⟩ :=
    cutNear_of_sound hsound delimiter
      (Nat.le_add_right start (budget - subchunk))
      (by omega : start + (budget - subchunk) ≤ stop) hstop
      (by omega : start + (budget - subchunk) + subchunk < Size.limit)
      (by omega)
  cases choice with
  | error failure =>
      refine ⟨.error failure, middle, ?_, hreads, .stuck hlarge hnear⟩
      rintro (_ | steps) hsteps
      · omega
      · exact cutRanges_of_stuck hlarge hword hcut steps
  | ok choice =>
      obtain ⟨cut, shifted⟩ := choice
      obtain ⟨hlow, hhigh, -⟩ := hnear.cut_spec hbudget hlarge
      have hcontents := hreads.contents_eq
      obtain ⟨result, last, hrest, hreads', hrun⟩ :=
        ih (stop - cut) (by omega) (hreads.sound hsound)
          (by rwa [hcontents]) (Nat.le_of_lt hhigh) rfl
      rw [hcontents] at hrest hrun
      have hrestSteps : ∀ steps, stop - start ≤ steps + 1 →
          cutRanges budget (budget - subchunk) subchunk
            (contentEnds 0 probe.set.contents) stop delimiter steps middle
            cut = (result, last) :=
        fun steps hsteps => hrest steps (by omega)
      cases result with
      | error failure =>
          refine ⟨.error failure, last, ?_, hreads.trans hreads',
            .later hlarge hnear hrun⟩
          rintro (_ | steps) hsteps
          · omega
          · simp only [cutRanges_of_cut hlarge hword hcut,
              hrestSteps steps hsteps]
      | ok result =>
          obtain ⟨ranges, count⟩ := result
          refine ⟨_, last, ?_, hreads.trans hreads',
            .cut hlarge hnear hrun⟩
          rintro (_ | steps) hsteps
          · omega
          · simp only [cutRanges_of_cut hlarge hword hcut,
              hrestSteps steps hsteps]

end Probe

/-! ## Plans -/

theorem ByteRange.offset_le_stop (range : ByteRange)
    (hoffset : range.offset < Size.limit) : range.offset ≤ range.stop := by
  unfold stop Size.addSaturating Size.maximum
  omega

/-- A range that goes beyond the stream ends with it. -/
theorem ByteRange.min_stop_eq (range : ByteRange) {total : Nat}
    (htotal : total < Size.limit) :
    min range.stop total = min (range.offset + range.size) total := by
  unfold ByteRange.stop Size.addSaturating Size.maximum
  omega

namespace Plan

theorem map_range_batchesOf (set : SourceSet) (ranges : List ByteRange) :
    (batchesOf set ranges).map Batch.range = ranges := by
  unfold batchesOf
  rw [List.map_map]
  exact List.zipIdx_map_fst 0 ranges

variable {set next : SourceSet} {range : ByteRange} {delimiter : UInt8}
  {lines : Bool} {tuning : Tuning} {plan : Plan} {estimated : Nat}

theorem make?_of_valid (hvalid : tuning.Valid) (count : Nat) :
    ∃ pool, BufferPool.make? count tuning.subchunkSize = some pool := by
  have hbudget := hvalid.budget
  have hlimit := hvalid.budget_lt
  have hroom : tuning.subchunkSize ≤ Buffer.maxCapacity := by
    unfold Buffer.maxCapacity Size.half
    unfold Size.limit at hlimit
    omega
  exact ⟨_, by rw [BufferPool.make?, Buffer.withCapacity?, if_pos hroom]; rfl⟩

theorem prepare_of_sound (hsound : set.Sound) (hexact : set.Exact)
    (hvalid : tuning.Valid) :
    ∃ pool, prepare set tuning =
      .ok (contentEnds 0 set.contents,
        tuning.maxBatchBytes - tuning.subchunkSize, pool) := by
  obtain ⟨pool, hpool⟩ := make?_of_valid hvalid tuning.preallocated
  refine ⟨pool, ?_⟩
  rw [prepare, hsound.ends_eq hexact, hvalid.nominal_eq, hpool]
  rfl

/-- A range that begins in the stream is cut as far as the stream goes. -/
theorem cut_of_sound (hsound : set.Sound) (hvalid : tuning.Valid)
    (delimiter : UInt8) (estimated : Nat)
    (hoffset : range.offset ≤ set.contents.flatten.length) :
    ∃ result next,
      cut set range delimiter tuning estimated =
        (result.map fun (ranges, shifted) =>
          { batches := batchesOf next ranges
            estimatedSize := estimated
            exactSize := some set.contents.flatten.length
            subchunkSize := tuning.subchunkSize
            shiftedCuts := shifted }, next) ∧
      set.Reads next ∧ next.Exact ∧
      CutRun delimiter set.contents tuning.maxBatchBytes tuning.subchunkSize
        (min range.stop set.contents.flatten.length) range.offset result := by
  obtain ⟨known, hknown, hreads, hexact⟩ := hsound.materialize
  have hcontents := hreads.contents_eq
  have hafter := hreads.sound hsound
  obtain ⟨pool, hprepare⟩ := prepare_of_sound hafter hexact hvalid
  have hprobe : (⟨known, pool⟩ : Probe).set.Sound := hafter
  have hbound : range.offset ≤ range.stop :=
    range.offset_le_stop (Nat.lt_of_le_of_lt hoffset hsound.length_lt)
  obtain ⟨result, probe, hresult, hreads', hrun⟩ :=
    Probe.cutRanges_of_sound hprobe delimiter hvalid.budget
      (by simp only [hcontents]; omega :
        min range.stop set.contents.flatten.length ≤ _)
      (by omega : range.offset ≤ _)
  have hcut := hresult _ (Nat.le_refl _)
  simp only [hcontents] at hrun
  refine ⟨result, probe.set, ?_, hreads.trans hreads', hreads'.exact hexact,
    hrun⟩
  simp only [cut, hknown, if_neg (Nat.not_lt.mpr hoffset), hprepare, hcut]

theorem cut_tiling (hsound : set.Sound) (hvalid : tuning.Valid)
    (hcut : cut set range delimiter tuning estimated = (.ok plan, next)) :
    set.Reads next ∧ next.Exact ∧
      range.offset ≤ set.contents.flatten.length ∧
      Tiling (IsBoundary delimiter set.contents) tuning.maxBatchBytes
        (min range.stop set.contents.flatten.length) range.offset
        (plan.batches.map Batch.range) := by
  by_cases hoffset : range.offset ≤ set.contents.flatten.length
  · obtain ⟨result, last, hresult, hreads, hexact, hrun⟩ :=
      cut_of_sound hsound hvalid delimiter estimated hoffset
    rw [hresult] at hcut
    cases result with
    | error failure => exact absurd hcut (by simp [Except.map])
    | ok result =>
        obtain ⟨ranges, shifted⟩ := result
        obtain ⟨hplan, rfl⟩ := Prod.mk.inj hcut
        obtain rfl := Except.ok.inj hplan
        refine ⟨hreads, hexact, hoffset, ?_⟩
        rw [map_range_batchesOf]
        exact hrun.tiling hvalid.budget
  · obtain ⟨known, hknown, -⟩ := hsound.materialize
    simp only [cut, hknown, if_pos (Nat.lt_of_not_le hoffset)] at hcut
    exact absurd hcut nofun

theorem make_of_valid (hvalid : tuning.Valid)
    (hsizes : set.sizes.sum < Size.limit) :
    make set range delimiter lines tuning =
      if ¬ lines ∨
          min range.stop set.sizes.sum - range.offset ≤
            tuning.maxBatchBytes then
        (.ok (single set range set.sizes.sum tuning.subchunkSize), set)
      else cut set range delimiter tuning set.sizes.sum := by
  rw [make, hvalid.validate, SourceSet.totalSize_of_lt hsizes]

theorem make_of_large (hvalid : tuning.Valid)
    (hsizes : set.sizes.sum < Size.limit)
    (hlarge : tuning.maxBatchBytes <
      min range.stop set.sizes.sum - range.offset) :
    make set range delimiter true tuning =
      cut set range delimiter tuning set.sizes.sum := by
  rw [make_of_valid hvalid hsizes, if_neg]
  exact not_or.mpr ⟨not_not.mpr rfl, Nat.not_le.mpr hlarge⟩

/-- A plan is one batch, unless lines seem to exceed the budget and are cut. -/
theorem make_cases
    (hmake : make set range delimiter lines tuning = (.ok plan, next)) :
    tuning.validate = .ok () ∧ set.sizes.sum < Size.limit ∧
      (((lines = true → min range.stop set.sizes.sum - range.offset ≤
            tuning.maxBatchBytes) ∧
          next = set ∧
          plan = single set range set.sizes.sum tuning.subchunkSize) ∨
        (lines = true ∧
          tuning.maxBatchBytes <
            min range.stop set.sizes.sum - range.offset ∧
          cut set range delimiter tuning set.sizes.sum =
            (.ok plan, next))) := by
  unfold make at hmake
  split at hmake
  · cases hmake
  · cases hmake
  next hvalidate htotal =>
    obtain ⟨hsizes, rfl⟩ := SourceSet.totalSize_eq_ok_iff.mp htotal
    refine ⟨hvalidate, hsizes, ?_⟩
    dsimp only at hmake
    split at hmake
    · next hsmall =>
        cases hmake
        exact .inl ⟨hsmall.neg_resolve_left, rfl, rfl⟩
    · next hlarge =>
        rw [not_or, not_not, Nat.not_le] at hlarge
        exact .inr ⟨hlarge.1, hlarge.2, hmake⟩

/-- What seems to fit the budget is planned as one batch. -/
theorem make_small (hsmall : set.sizes.sum ≤ tuning.maxBatchBytes)
    (hmake : make set range delimiter lines tuning = (.ok plan, next)) :
    next = set ∧ plan.batches.map Batch.range = [range] := by
  obtain ⟨-, -, ⟨-, rfl, rfl⟩ | ⟨-, hlarge, -⟩⟩ := make_cases hmake
  · exact ⟨rfl, map_range_batchesOf _ _⟩
  · omega

/-- A plan has one batch, or its batches tile the part of the range that the
stream has. -/
theorem make_tiling (hsound : set.Sound) (hvalid : tuning.Valid)
    (hmake : make set range delimiter lines tuning = (.ok plan, next)) :
    (next = set ∧ plan.batches.map Batch.range = [range]) ∨
      (set.Reads next ∧ next.Exact ∧
        range.offset ≤ set.contents.flatten.length ∧
        Tiling (IsBoundary delimiter set.contents) tuning.maxBatchBytes
          (min range.stop set.contents.flatten.length) range.offset
          (plan.batches.map Batch.range)) := by
  obtain ⟨-, -, ⟨-, rfl, rfl⟩ | ⟨-, -, hcut⟩⟩ := make_cases hmake
  · exact .inl ⟨rfl, map_range_batchesOf _ _⟩
  · exact .inr (cut_tiling hsound hvalid hcut)

end Plan

end JsonIntake
