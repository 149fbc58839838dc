import JsonIntake.Proofs.Plan.Safety
import JsonIntake.Proofs.Stream.Lines
import JsonIntake.Proofs.Table.Joining
import Mathlib.Data.Nat.Find
import Mathlib.Order.Bounds.Basic

/-!
# Where a plan cuts

A batch that would leave more than the budget is cut at the last record start
of the sub-chunk before the wanted place, or else at the last one of the
sub-chunk behind it.  Neither sub-chunk is clipped: settings that pass their
check leave room for the one behind the front of the batch, and for the other
before the end of the range.  So a plan fails exactly if such cuts lead to a
place near which no record starts, and never where record starts lie close
enough to each other.
-/

namespace JsonIntake

/-- The record starts in `(low, high]`. -/
def recordStartsIn (delimiter : UInt8) (contents : List (List UInt8))
    (low high : Nat) : Set Nat :=
  {start | IsRecordStart delimiter contents start ∧
    low < start ∧ start ≤ high}

/-- The best place for a cut that is wanted at `target`. -/
inductive IsBestCut (delimiter : UInt8) (contents : List (List UInt8))
    (target subchunk cut : Nat) : Prop
  | before
      (hcut : IsGreatest (recordStartsIn delimiter contents
        (target - subchunk) target) cut)
  | behind
      (hnone : recordStartsIn delimiter contents (target - subchunk) target =
        ∅)
      (hcut : IsGreatest (recordStartsIn delimiter contents target
        (target + subchunk)) cut)

/-- The front of a batch that leaves more than the budget and cannot be
cut. -/
structure IsStuck (delimiter : UInt8) (contents : List (List UInt8))
    (budget subchunk stop start : Nat) : Prop where
  large : budget < stop - start
  nowhere : recordStartsIn delimiter contents
    (start + (budget - subchunk) - subchunk)
    (start + (budget - subchunk) + subchunk) = ∅

/-- Batches that leave more than the budget, each with the best cut, lead from
one position to another. -/
inductive CutsTo (delimiter : UInt8) (contents : List (List UInt8))
    (budget subchunk stop : Nat) : Nat → Nat → Prop
  | here {start : Nat} : CutsTo delimiter contents budget subchunk stop start
      start
  | cut {start cut last : Nat} (hlarge : budget < stop - start)
      (hcut : IsBestCut delimiter contents (start + (budget - subchunk))
        subchunk cut)
      (hrest : CutsTo delimiter contents budget subchunk stop cut last) :
      CutsTo delimiter contents budget subchunk stop start last

/-- Neighbouring record starts are at most `width` apart. -/
def StartsWithin (delimiter : UInt8) (contents : List (List UInt8))
    (width : Nat) : Prop :=
  ∀ first second, IsRecordStart delimiter contents first →
    IsRecordStart delimiter contents second → first < second →
    (∀ between, first < between → between < second →
      ¬ IsRecordStart delimiter contents between) →
    second - first ≤ width

/-! ## Windows -/

section Window

variable {delimiter : UInt8} {contents : List (List UInt8)}
  {low middle high cut target subchunk width : Nat}

theorem isRecordStart_of_pos (hpositive : 0 < cut) :
    IsRecordStart delimiter contents cut ↔
      IsBoundary delimiter contents cut :=
  or_iff_right (Nat.ne_of_gt hpositive)

theorem IsLastBoundary.isGreatest
    (hlast : IsLastBoundary delimiter contents low high (some cut)) :
    IsGreatest (recordStartsIn delimiter contents low high) cut := by
  obtain ⟨hlow, hhigh, hboundary, hbehind⟩ := hlast
  refine ⟨⟨.inr hboundary, hlow, hhigh⟩, ?_⟩
  rintro other ⟨hother, hotherLow, hotherHigh⟩
  by_contra hlt
  rw [isRecordStart_of_pos (by omega)] at hother
  exact hbehind other (Nat.lt_of_not_le hlt) hotherHigh hother

theorem IsLastBoundary.eq_empty
    (hlast : IsLastBoundary delimiter contents low high none) :
    recordStartsIn delimiter contents low high = ∅ := by
  apply Set.eq_empty_of_forall_notMem
  rintro position ⟨hstart, hlow, hhigh⟩
  rw [isRecordStart_of_pos (by omega)] at hstart
  exact hlast position hlow hhigh hstart

theorem recordStartsIn_mono {from' to' : Nat} (hlow : from' ≤ low)
    (hhigh : high ≤ to') :
    recordStartsIn delimiter contents low high ⊆
      recordStartsIn delimiter contents from' to' := by
  rintro position ⟨hstart, hfrom, hto⟩
  exact ⟨hstart, by omega, by omega⟩

theorem recordStartsIn_eq_empty
    (hfirst : recordStartsIn delimiter contents low middle = ∅)
    (hsecond : recordStartsIn delimiter contents middle high = ∅) :
    recordStartsIn delimiter contents low high = ∅ := by
  apply Set.eq_empty_of_forall_notMem
  rintro position ⟨hstart, hlow, hhigh⟩
  rcases Nat.lt_or_ge middle position with hbehind | hbefore
  · exact hsecond.le ⟨hstart, hbehind, hhigh⟩
  · exact hfirst.le ⟨hstart, hlow, hbefore⟩

theorem IsBestCut.mem
    (hcut : IsBestCut delimiter contents target subchunk cut) :
    cut ∈ recordStartsIn delimiter contents (target - subchunk)
      (target + subchunk) := by
  cases hcut with
  | before hcut =>
      exact recordStartsIn_mono (Nat.le_refl _) (Nat.le_add_right _ _) hcut.1
  | behind hnone hcut =>
      exact recordStartsIn_mono (Nat.sub_le _ _) (Nat.le_refl _) hcut.1

theorem IsBestCut.unique {other : Nat}
    (hcut : IsBestCut delimiter contents target subchunk cut)
    (hother : IsBestCut delimiter contents target subchunk other) :
    cut = other := by
  cases hcut with
  | before hcut =>
      cases hother with
      | before hother => exact hcut.unique hother
      | behind hnone => exact absurd (hnone.le hcut.1) id
  | behind hnone hcut =>
      cases hother with
      | before hother => exact absurd (hnone.le hother.1) id
      | behind _ hother => exact hcut.unique hother

/-- Every window in the stream that is as wide as record starts are apart has
one.  The last record start in front of the window and the first one behind
its front are neighbours. -/
theorem StartsWithin.nonempty
    (hwithin : StartsWithin delimiter contents width) (low : Nat)
    (hlow : low < contents.flatten.length) :
    (recordStartsIn delimiter contents low (low + width)).Nonempty := by
  have hbehind : ∃ position,
      low < position ∧ IsRecordStart delimiter contents position :=
    ⟨_, hlow, isRecordStart_length⟩
  have hfirst : IsRecordStart delimiter contents
      (Nat.findGreatest (IsRecordStart delimiter contents) low) :=
    Nat.findGreatest_spec (Nat.zero_le low) (.inl rfl)
  have hle := Nat.findGreatest_le (P := IsRecordStart delimiter contents) low
  obtain ⟨hlt, hsecond⟩ := Nat.find_spec hbehind
  have hgap := hwithin _ _ hfirst hsecond (by omega) (by
    intro between hafter hbefore hstart
    rcases Nat.lt_or_ge low between with hinside | hfront
    · exact Nat.find_min hbehind hbefore ⟨hinside, hstart⟩
    · exact Nat.findGreatest_is_greatest hafter hfront hstart)
  exact ⟨_, hsecond, hlt, by omega⟩

end Window

/-! ## Cuts -/

section Cuts

variable {delimiter : UInt8} {contents : List (List UInt8)}
  {budget subchunk stop start cut last count : Nat} {shifted : Bool}
  {failure : Failure} {ranges : List ByteRange}

/-- The search looks at whole sub-chunks. -/
theorem window_unclipped (hbudget : 2 * subchunk ≤ budget)
    (hlarge : budget < stop - start) :
    max (start + (budget - subchunk) - subchunk) start =
        start + (budget - subchunk) - subchunk ∧
      min (start + (budget - subchunk) + subchunk) stop =
        start + (budget - subchunk) + subchunk := by
  omega

theorem IsCutNear.isBestCut
    (hnear : IsCutNear delimiter contents start
      (start + (budget - subchunk)) stop subchunk (.ok (cut, shifted)))
    (hbudget : 2 * subchunk ≤ budget) (hlarge : budget < stop - start) :
    IsBestCut delimiter contents (start + (budget - subchunk)) subchunk cut ∧
      (shifted = true →
        recordStartsIn delimiter contents
          (start + (budget - subchunk) - subchunk)
          (start + (budget - subchunk)) = ∅) := by
  obtain ⟨hlow, hhigh⟩ := window_unclipped hbudget hlarge
  cases hnear with
  | before hcut =>
      rw [hlow] at hcut
      exact ⟨.before hcut.isGreatest, nofun⟩
  | behind hnone hcut =>
      rw [hlow] at hnone
      rw [hhigh] at hcut
      exact ⟨.behind hnone.eq_empty hcut.isGreatest,
        fun _ => hnone.eq_empty⟩

theorem IsCutNear.isStuck
    (hnear : IsCutNear delimiter contents start
      (start + (budget - subchunk)) stop subchunk (.error failure))
    (hbudget : 2 * subchunk ≤ budget) (hlarge : budget < stop - start) :
    IsStuck delimiter contents budget subchunk stop start ∧
      failure = .noSafeSplitPoint (start + (budget - subchunk))
        (2 * subchunk) := by
  obtain ⟨hlow, hhigh⟩ := window_unclipped hbudget hlarge
  cases hnear with
  | nowhere hbefore hbehind =>
      rw [hlow] at hbefore
      rw [hhigh] at hbehind
      exact ⟨⟨hlarge, recordStartsIn_eq_empty hbefore.eq_empty
        hbehind.eq_empty⟩, rfl⟩

/-- Every batch that leaves more than the budget has the best cut. -/
theorem CutRun.isBestCut (hbudget : 2 * subchunk ≤ budget)
    (hlimit : stop < Size.limit)
    (hrun : CutRun delimiter contents budget subchunk stop start
      (.ok (ranges, count))) :
    ∀ range ∈ ranges, budget < stop - range.offset →
      IsBestCut delimiter contents (range.offset + (budget - subchunk))
        subchunk range.stop := by
  generalize hresult : Except.ok (ranges, count) = result at hrun
  induction hrun generalizing ranges count with
  | done =>
      cases hresult
      exact nofun
  | @last start hlt hfits =>
      cases hresult
      rw [List.forall_mem_singleton]
      intro hlarge
      exact absurd hfits (Nat.not_le_of_lt hlarge)
  | cut hlarge hnear hrest ih =>
      cases hresult
      obtain ⟨hlow, hhigh, -⟩ := hnear.cut_spec hbudget hlarge
      refine List.forall_mem_cons.mpr ⟨fun _ => ?_, ih rfl⟩
      rw [ByteRange.stop_between (Nat.le_of_lt hlow)
        (Nat.lt_trans hhigh hlimit)]
      exact (hnear.isBestCut hbudget hlarge).1
  | later hlarge hnear hrest ih => exact absurd hresult nofun
  | stuck hlarge hnear => exact absurd hresult nofun

theorem CutRun.exists_stuck (hbudget : 2 * subchunk ≤ budget)
    (hrun : CutRun delimiter contents budget subchunk stop start
      (.error failure)) :
    ∃ last, CutsTo delimiter contents budget subchunk stop start last ∧
      IsStuck delimiter contents budget subchunk stop last ∧
      failure = .noSafeSplitPoint (last + (budget - subchunk))
        (2 * subchunk) := by
  generalize hresult : Except.error failure = result at hrun
  induction hrun with
  | done => exact absurd hresult nofun
  | last hlt hfits => exact absurd hresult nofun
  | cut hlarge hnear hrest ih => exact absurd hresult nofun
  | later hlarge hnear hrest ih =>
      obtain ⟨last, hcuts, hstuck⟩ := ih hresult
      exact ⟨last, .cut hlarge (hnear.isBestCut hbudget hlarge).1 hcuts,
        hstuck⟩
  | stuck hlarge hnear =>
      cases hresult
      exact ⟨_, .here, hnear.isStuck hbudget hlarge⟩

theorem IsStuck.not_isBestCut
    (hstuck : IsStuck delimiter contents budget subchunk stop start) :
    ¬ IsBestCut delimiter contents (start + (budget - subchunk)) subchunk
      cut :=
  fun hcut => hstuck.nowhere.le hcut.mem

/-- The best cuts are the only ones, so a place where no cut is possible is
found if they lead to it. -/
theorem CutRun.eq_error {result : Except Failure (List ByteRange × Nat)}
    (hbudget : 2 * subchunk ≤ budget)
    (hcuts : CutsTo delimiter contents budget subchunk stop start last)
    (hstuck : IsStuck delimiter contents budget subchunk stop last)
    (hrun : CutRun delimiter contents budget subchunk stop start result) :
    result = .error (.noSafeSplitPoint (last + (budget - subchunk))
      (2 * subchunk)) := by
  induction hcuts generalizing result with
  | here =>
      have hlarge' := hstuck.large
      cases hrun with
      | done => omega
      | last hlt hfits => omega
      | cut hlarge hnear =>
          exact absurd (hnear.isBestCut hbudget hlarge).1
            hstuck.not_isBestCut
      | later hlarge hnear =>
          exact absurd (hnear.isBestCut hbudget hlarge).1
            hstuck.not_isBestCut
      | stuck hlarge hnear =>
          exact congrArg _ (hnear.isStuck hbudget hlarge).2
  | cut hlarge' hcut hcuts ih =>
      cases hrun with
      | done => omega
      | last hlt hfits => omega
      | cut hlarge hnear hrest =>
          obtain rfl := hcut.unique (hnear.isBestCut hbudget hlarge).1
          exact absurd (ih hstuck hrest) nofun
      | later hlarge hnear hrest =>
          obtain rfl := hcut.unique (hnear.isBestCut hbudget hlarge).1
          exact ih hstuck hrest
      | stuck hlarge hnear =>
          exact absurd hcut (hnear.isStuck hbudget hlarge).1.not_isBestCut

/-- Where record starts are at most two sub-chunks apart, every batch can be
cut. -/
theorem StartsWithin.not_isStuck
    (hwithin : StartsWithin delimiter contents (2 * subchunk))
    (hbudget : 2 * subchunk ≤ budget)
    (hstop : stop ≤ contents.flatten.length) :
    ¬ IsStuck delimiter contents budget subchunk stop start := by
  rintro ⟨hlarge, hnowhere⟩
  obtain ⟨position, hposition⟩ :=
    hwithin.nonempty (start + (budget - subchunk) - subchunk) (by omega)
  have hwidth : start + (budget - subchunk) - subchunk + 2 * subchunk =
      start + (budget - subchunk) + subchunk := by omega
  rw [hwidth] at hposition
  exact hnowhere.le hposition

/-- Where record starts are at most one sub-chunk apart, every cut is made
before the wanted place. -/
theorem CutRun.count_eq_zero
    (hwithin : StartsWithin delimiter contents subchunk)
    (hbudget : 2 * subchunk ≤ budget)
    (hstop : stop ≤ contents.flatten.length)
    (hrun : CutRun delimiter contents budget subchunk stop start
      (.ok (ranges, count))) :
    count = 0 := by
  generalize hresult : Except.ok (ranges, count) = result at hrun
  induction hrun generalizing ranges count with
  | done =>
      cases hresult
      rfl
  | last hlt hfits =>
      cases hresult
      rfl
  | @cut start cut _ shifted _ hlarge hnear hrest ih =>
      cases hresult
      cases shifted with
      | false => exact ih rfl
      | true =>
          have hnone := (hnear.isBestCut hbudget hlarge).2 rfl
          obtain ⟨position, hposition⟩ :=
            hwithin.nonempty (start + (budget - subchunk) - subchunk)
              (by omega)
          rw [Nat.sub_add_cancel (by omega)] at hposition
          exact absurd (hnone.le hposition) id
  | later hlarge hnear hrest ih => exact absurd hresult nofun
  | stuck hlarge hnear => exact absurd hresult nofun

theorem StartsWithin.mono {width wider : Nat} (hle : width ≤ wider)
    (hwithin : StartsWithin delimiter contents width) :
    StartsWithin delimiter contents wider :=
  fun first second hfirst hsecond hlt hnone =>
    (hwithin first second hfirst hsecond hlt hnone).trans hle

end Cuts

namespace Plan

variable {set : SourceSet} {range : ByteRange} {delimiter : UInt8}
  {tuning : Tuning}

end Plan

end JsonIntake
