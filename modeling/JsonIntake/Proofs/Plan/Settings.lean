import JsonIntake.Proofs.Plan.Tiling

/-!
# Where the check of the settings has an answer

The check of the settings compares the budget with twice the sub-chunk size,
and this product is the only step of it that may leave the words.  As long as
a sub-chunk is shorter than half of all words, the settings that pass are those
with room for two sub-chunks in the budget, and what the planner leaves of the
budget in front of the last sub-chunk is at least one sub-chunk.  Longer
sub-chunks never have room, but the check overflows where it should refuse
them.
-/

namespace JsonIntake

namespace Tuning

/-- All settings are words. -/
def Words (tuning : Tuning) : Prop :=
  ∀ setting ∈ tuning.toList, setting < Size.limit

instance (tuning : Tuning) : Decidable tuning.Words :=
  inferInstanceAs (Decidable (∀ setting ∈ tuning.toList, _))

/-- The check comes to its product, and twice the sub-chunk size is no
word. -/
structure Overflows (tuning : Tuning) : Prop where
  subchunks_pos : 0 < tuning.numSubchunks
  ratio_pos : 0 < tuning.compressionRatio
  half_le : Size.half ≤ tuning.subchunkSize

variable {tuning : Tuning}

theorem Words.budget_lt (hwords : tuning.Words) :
    tuning.maxBatchBytes < Size.limit :=
  hwords _ (by simp [toList])

theorem subchunkSize_eq (hsubchunks : 0 < tuning.numSubchunks) :
    tuning.subchunkSize =
      max (tuning.maxBatchBytes / tuning.numSubchunks)
        tuning.minSubchunkSize := by
  rw [subchunkSize, Nat.max_eq_left hsubchunks]

theorem Words.valid_iff (hwords : tuning.Words) :
    tuning.Valid ↔
      1 ≤ tuning.numSubchunks ∧ 1 ≤ tuning.compressionRatio ∧
        2 * max (tuning.maxBatchBytes / tuning.numSubchunks)
          tuning.minSubchunkSize ≤ tuning.maxBatchBytes := by
  constructor
  · intro hvalid
    have hbudget := hvalid.budget
    rw [subchunkSize_eq hvalid.subchunks_pos] at hbudget
    exact ⟨hvalid.subchunks_pos, hvalid.ratio_pos, hbudget⟩
  · rintro ⟨hsubchunks, hratio, hbudget⟩
    rw [← subchunkSize_eq hsubchunks] at hbudget
    exact ⟨hsubchunks, hratio, hbudget, hwords.budget_lt⟩

theorem Overflows.not_valid (hoverflows : tuning.Overflows) :
    ¬ tuning.Valid := by
  intro hvalid
  have hlimit : Size.limit = 2 * Size.half := rfl
  have hlarge := hoverflows.half_le
  have hbudget := hvalid.budget
  have hword := hvalid.budget_lt
  omega

/-- What the check may answer, and when the answer is an overflow. -/
theorem validate_cases (tuning : Tuning) :
    (tuning.Overflows ∧ tuning.validate = .error .overflow) ∨
      (¬ tuning.Overflows ∧
        (tuning.validate = .ok () ∨
          ∃ fault, tuning.validate = .error (.invalidOptions fault))) := by
  have hlimit : Size.limit = 2 * Size.half := rfl
  unfold validate
  split
  · next hzero =>
      refine .inr ⟨fun hoverflows => ?_, .inr ⟨_, rfl⟩⟩
      have hsubchunks := hoverflows.subchunks_pos
      have hratio := hoverflows.ratio_pos
      omega
  · next hcounts =>
      rcases Nat.lt_or_ge tuning.subchunkSize Size.half with hsmall | hlarge
      · rw [Size.mul?_of_lt (by omega)]
        refine .inr ⟨fun hoverflows =>
          Nat.not_le.mpr hsmall hoverflows.half_le, ?_⟩
        dsimp only
        split
        · exact .inr ⟨_, rfl⟩
        · exact .inl rfl
      · rw [Size.mul?_eq_none_iff.mpr (by omega)]
        exact .inl ⟨⟨by omega, by omega, hlarge⟩, rfl⟩

theorem validate_eq_overflow_iff :
    tuning.validate = .error .overflow ↔ tuning.Overflows := by
  rcases tuning.validate_cases with
    ⟨hoverflows, hanswer⟩ | ⟨hexact, hanswer | ⟨fault, hanswer⟩⟩
  · exact iff_of_true hanswer hoverflows
  · exact iff_of_false (by rw [hanswer]; exact nofun) hexact
  · exact iff_of_false (by rw [hanswer]; exact nofun) hexact

theorem Words.validate_eq_ok_iff (hwords : tuning.Words) :
    tuning.validate = .ok () ↔ tuning.Valid :=
  ⟨valid_of_validate hwords.budget_lt, Valid.validate⟩

theorem Words.validate_eq_invalid_iff (hwords : tuning.Words) :
    (∃ fault, tuning.validate = .error (.invalidOptions fault)) ↔
      ¬ tuning.Valid ∧ ¬ tuning.Overflows := by
  rw [← hwords.validate_eq_ok_iff, ← validate_eq_overflow_iff]
  rcases tuning.validate_cases with
    ⟨-, hanswer⟩ | ⟨-, hanswer | ⟨fault, hanswer⟩⟩ <;> simp [hanswer]

/-- Settings pass the check if they have room for two sub-chunks, and settings
without are refused, unless twice the sub-chunk size is no word.  Then the
check overflows.  Settings with room leave the planner a difference of budget
and sub-chunk size that is no shorter than a sub-chunk. -/
theorem validate_outcomes (hwords : tuning.Words) :
    (tuning.Valid ↔
        1 ≤ tuning.numSubchunks ∧ 1 ≤ tuning.compressionRatio ∧
          2 * max (tuning.maxBatchBytes / tuning.numSubchunks)
            tuning.minSubchunkSize ≤ tuning.maxBatchBytes) ∧
      (tuning.validate = .ok () ↔ tuning.Valid) ∧
      ((∃ fault, tuning.validate = .error (.invalidOptions fault)) ↔
        ¬ tuning.Valid ∧ ¬ tuning.Overflows) ∧
      (tuning.validate = .error .overflow ↔ tuning.Overflows) ∧
      (tuning.Overflows → ¬ tuning.Valid) ∧
      (tuning.Valid →
        Size.mul? 2 tuning.subchunkSize = some (2 * tuning.subchunkSize) ∧
          Size.sub? tuning.maxBatchBytes tuning.subchunkSize =
            some (tuning.maxBatchBytes - tuning.subchunkSize) ∧
          tuning.subchunkSize ≤
            tuning.maxBatchBytes - tuning.subchunkSize) := by
  refine ⟨hwords.valid_iff, hwords.validate_eq_ok_iff,
    hwords.validate_eq_invalid_iff, validate_eq_overflow_iff,
    Overflows.not_valid, fun hvalid => ?_⟩
  have hroom := hvalid.budget
  have hbudget := hvalid.budget_lt
  exact ⟨Size.mul?_of_lt (by omega), hvalid.nominal_eq, by omega⟩

/-- The largest budget in two sub-chunks: one byte more would be too much. -/
theorem validate_outcomes_largest_budget :
    let tuning : Tuning := ⟨2, 0, 1, 1, Size.maximum⟩
    tuning.Words ∧ tuning.validate = .ok () ∧ ¬ tuning.Overflows ∧
      Size.sub? Size.maximum tuning.subchunkSize = some Size.half := by
  intro tuning
  have hwords : tuning.Words := by decide
  obtain ⟨hvalid, hok, -, -, hoverflows, hroom⟩ := validate_outcomes hwords
  have hfits : tuning.Valid := hvalid.mpr ⟨by decide, by decide, by decide⟩
  exact ⟨hwords, hok.mpr hfits, fun hover => hoverflows hover hfits,
    (hroom hfits).2.1.trans (by decide)⟩

/-- Two sub-chunks of half of all words fit no budget, but the default one is
not refused for that. -/
theorem validate_half_of_all_words :
    let tuning : Tuning := { Tuning.default with minSubchunkSize := Size.half }
    tuning.Words ∧ tuning.Overflows ∧
      tuning.maxBatchBytes <
        2 * max (tuning.maxBatchBytes / tuning.numSubchunks)
          tuning.minSubchunkSize ∧
      tuning.validate = .error .overflow :=
  ⟨by decide, ⟨by decide, by decide, by decide⟩, by decide, rfl⟩

end Tuning

end JsonIntake
