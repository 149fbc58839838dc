import JsonIntake.Alignment
import JsonIntake.Proofs.Plan.Tiling
import JsonIntake.Proofs.Source.Known
import JsonIntake.Proofs.Table.Joining

/-!
# Plans without batches

A range that seems to fit the budget is one batch, even if nothing lies in it.
A range that has to be cut is cut by exact sizes, and where these leave nothing
of it there is no batch at all.  After an alignment the sizes are exact
already, so this comes about only where an estimate exceeds the budget and the
stream turns out to be empty.
-/

namespace JsonIntake

/-! ## Cuts -/

namespace Probe

variable {probe next : Probe} {budget nominal subchunk stop start : Nat}
  {ends : List Nat} {delimiter : UInt8} {ranges : List ByteRange}
  {count : Nat}

/-- Something is cut off exactly if something is left. -/
theorem cutRanges_eq_nil_iff
    (hcut : cutRanges budget nominal subchunk ends stop delimiter
      (stop - start) probe start = (.ok (ranges, count), next)) :
    ranges = [] ↔ stop ≤ start := by
  by_cases hdone : stop ≤ start
  · have hsteps : stop - start = 0 := by omega
    rw [hsteps] at hcut
    cases hcut
    simp [hdone]
  · obtain ⟨steps, hsteps⟩ : ∃ steps, stop - start = steps + 1 :=
      ⟨stop - start - 1, by omega⟩
    rw [hsteps, cutRanges, if_neg hdone] at hcut
    dsimp only at hcut
    split at hcut
    · cases hcut
    · split at hcut
      · cases hcut
      · cases hcut
        simp [hdone]

end Probe

namespace Plan

variable {set next : SourceSet} {range : ByteRange} {delimiter : UInt8}
  {lines : Bool} {tuning : Tuning} {plan : Plan}

theorem batchesOf_eq_nil_iff {ranges : List ByteRange} :
    batchesOf set ranges = [] ↔ ranges = [] := by
  simp [batchesOf]

theorem cut_eq_nil_iff
    {estimated : Nat}
    (hcut : cut set range delimiter tuning estimated = (.ok plan, next)) :
    plan.batches = [] ↔
      ∃ total known, set.materialize = (.ok total, known) ∧
        min range.stop total ≤ range.offset := by
  unfold cut at hcut
  dsimp only at hcut
  split at hcut
  · exact absurd (Prod.mk.inj hcut).1 nofun
  · next total known hknown =>
      rw [hknown]
      split at hcut
      · exact absurd (Prod.mk.inj hcut).1 nofun
      · split at hcut
        · exact absurd (Prod.mk.inj hcut).1 nofun
        · next hprepare =>
            obtain ⟨hplan, -⟩ := Prod.mk.inj hcut
            obtain ⟨⟨ranges, shifted⟩, hranges, rfl⟩ :=
              Except.map_eq_ok.mp hplan
            rw [batchesOf_eq_nil_iff,
              Probe.cutRanges_eq_nil_iff (Prod.ext hranges rfl)]
            simp

/-- A plan is empty exactly if the range seems to exceed the budget and nothing
of it is left by exact sizes. -/
theorem make_eq_nil_iff
    (hmake : make set range delimiter lines tuning = (.ok plan, next)) :
    plan.batches = [] ↔
      lines = true ∧
        tuning.maxBatchBytes <
          min range.stop set.sizes.sum - range.offset ∧
        ∃ total known, set.materialize = (.ok total, known) ∧
          min range.stop total ≤ range.offset := by
  obtain ⟨-, -, ⟨hsmall, -, rfl⟩ | ⟨hlines, hlarge, hcut⟩⟩ :=
    make_cases hmake
  · have hsingle :
        ¬ (single set range set.sizes.sum tuning.subchunkSize).batches = [] :=
      mt batchesOf_eq_nil_iff.mp (List.cons_ne_nil _ _)
    refine iff_of_false hsingle ?_
    rintro ⟨hlines, hlarge, -⟩
    exact Nat.not_le_of_lt hlarge (hsmall hlines)
  · rw [cut_eq_nil_iff hcut, and_iff_right hlines, and_iff_right hlarge]

end Plan

/-! ## Sizes that stay exact -/

namespace SourceSet

variable {set next : SourceSet} {delimiter : UInt8}

theorem exact_nextRecordStart (ends : List Nat) (total steps position : Nat)
    (hexact : set.Exact) :
    (nextRecordStart ends total delimiter steps set position).2.Exact := by
  induction steps generalizing set position with
  | zero => exact hexact
  | succ steps ih =>
      unfold nextRecordStart
      split
      · exact hexact
      · dsimp only
        have hcopied := exact_copyTo (locate ends position).1
          (locate ends position).2
          (min scanStep (ends.getD (locate ends position).1 total - position))
          .empty hexact
        split
        · next hcopy => rwa [hcopy] at hcopied
        · next hcopy =>
            rw [hcopy] at hcopied
            split
            · exact hcopied
            · split
              · exact hcopied
              · exact ih _ hcopied

theorem exact_recordStartFrom (delimiter : UInt8) (ends : List Nat)
    (total position : Nat) (hexact : set.Exact) :
    (set.recordStartFrom ends total delimiter position).2.Exact := by
  unfold recordStartFrom
  split
  · exact hexact
  · exact exact_nextRecordStart ends total _ _ hexact

/-- An aligned range belongs to sources of exact sizes. -/
theorem exact_of_align {range aligned : ByteRange}
    (hkeeps : ∀ source ∈ set.sources, source.KeepsSize)
    (halign : set.align range delimiter = (.ok aligned, next)) :
    next.Exact := by
  unfold align at halign
  split at halign
  · exact absurd (Prod.mk.inj halign).1 nofun
  · next total known hknown =>
      have hexact := exact_of_materialize hkeeps hknown
      split at halign
      · exact absurd (Prod.mk.inj halign).1 nofun
      split at halign
      · exact absurd (Prod.mk.inj halign).1 nofun
      next ends hends =>
        have hfirst := exact_recordStartFrom delimiter ends total range.offset
          hexact
        split at halign
        · exact absurd (Prod.mk.inj halign).1 nofun
        · next start middle hstart =>
            rw [hstart] at hfirst
            dsimp only at halign
            obtain ⟨-, rfl⟩ := Prod.mk.inj halign
            by_cases htotal : total ≤ range.stop
            · simpa only [htotal, if_true] using hfirst
            · simpa only [htotal, if_false] using
                exact_recordStartFrom _ _ _ _ hfirst

end SourceSet

end JsonIntake
