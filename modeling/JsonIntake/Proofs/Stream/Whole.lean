import JsonIntake.Proofs.Source.Known
import JsonIntake.Proofs.Stream.Ingestion

/-!
# Ingesting a whole stream

Ingestion of a whole stream passes over the sources of size zero in front of
it without a look at them, be they readable or not.  Every other source is
copied, so it can be read if the ingestion succeeds.  Either way the buffer
holds the contents of all sources, since a region that cannot be read has
none.
-/

namespace JsonIntake

/-- The buffer is filled up with all contents. -/
def FillsUp (delimiter : UInt8) (before after : Buffer)
    (contents : List (List UInt8)) : Prop :=
  ∃ tail, after.toList =
      before.toList ++ joinPieces delimiter contents ++ tail ∧
    IsTrailer delimiter contents False tail

section Whole

variable {delimiter : UInt8} {position remaining least reached copied : Nat}
  {before filled after : Buffer} {contents : List (List UInt8)}
  {source : Source} {sources rest : List Source}

theorem fillsUp_of_empty (hempty : ∀ content ∈ contents, content = []) :
    FillsUp delimiter before before contents :=
  ⟨[], by simp [joinPieces_of_empty hempty],
    .inl rfl, fun _ => rfl, fun _ => rfl⟩

theorem FillsUp.cons_nil (hrest : FillsUp delimiter before after contents) :
    FillsUp delimiter before after ([] :: contents) := by
  obtain ⟨tail, hafter, htail⟩ := hrest
  refine ⟨tail, ?_, htail.cases, fun hnone => ?_, nofun⟩
  · rwa [joinPieces_nil_cons]
  · exact htail.of_empty (List.forall_mem_cons.mp hnone).2

/-- Behind a source that was copied comes a delimiter if more is wanted and
promised. -/
theorem FillsUp.cons_copied
    (hmore : ¬ (rest.any fun later => 0 < later.size) = true →
      ∀ content ∈ rest.map Source.content, content = [])
    (hroom : (rest.map Source.content).flatten.length ≤ remaining)
    (hcopied : 0 < copied ↔ source.content ≠ [])
    (hfilled : filled.toList = before.toList ++ source.content)
    (hrest : FillsUp delimiter
      (if 0 < copied ∧ source.content.length ≤ copied ∧ 0 < remaining ∧
          (rest.any fun later => 0 < later.size) = true then
        filled.push delimiter
      else filled) after (rest.map Source.content))
    (hall : source.content.length ≤ copied) :
    FillsUp delimiter before after ((source :: rest).map Source.content) := by
  obtain ⟨tail, hafter, htail⟩ := hrest
  rw [List.map_cons]
  split at hafter
  · next hpush =>
      refine trailer_of_delimiter (hcopied.mp hpush.1) ?_ htail id nofun
      rw [hafter, Buffer.toList_push, hfilled]
  · next hpush =>
      refine trailer_of_no_delimiter ?_ htail id fun hpiece => ?_
      · rw [hafter, hfilled]
      · by_cases hwanted : 0 < remaining
        · apply hmore
          intro hany
          exact hpush ⟨hcopied.mpr hpiece, hall, hwanted, hany⟩
        · rw [Nat.eq_zero_of_not_pos hwanted, Nat.le_zero,
            List.length_eq_zero_iff, List.flatten_eq_nil_iff] at hroom
          exact hroom

/-- A source that was not skipped can be read if the copy succeeds. -/
theorem readable_of_reached (hgrounded : source.Grounded)
    (hstop : ¬ (remaining = 0 ∧ 0 ≤ position))
    (hword : position + source.size < Size.limit)
    (hreach : 0 < position + source.size)
    (hreached : (ingestFrom 0 delimiter position remaining before
      (source :: rest)).reached = .ok reached) : source.Readable := by
  rcases hcopy : source.copyTo (0 - position) remaining before with
    ⟨failure | copied, after⟩
  · rw [ingestFrom_failed hstop (if_neg (Nat.not_lt_zero position)) hword
      hreach hcopy] at hreached
    cases hreached
  · exact hgrounded.readable_of_copyTo hcopy

/-- A copy of all contents that succeeds has found them all. -/
theorem ingestFrom_whole (hleast : 0 < least)
    (hopened : ∀ source ∈ sources, source.Opened least)
    (hroom : (sources.map Source.content).flatten.length ≤ remaining)
    (hfits : position + (sources.map Source.weight).sum < Size.limit)
    (hreached : (ingestFrom 0 delimiter position remaining before
      sources).reached = .ok reached) :
    FillsUp delimiter before
      (ingestFrom 0 delimiter position remaining before sources).buffer
      (sources.map Source.content) := by
  induction sources generalizing position remaining before with
  | nil => exact fillsUp_of_empty nofun
  | cons source rest ih =>
      by_cases hstop : remaining = 0 ∧ 0 ≤ position
      · rw [hstop.1, Nat.le_zero, List.length_eq_zero_iff,
          List.flatten_eq_nil_iff] at hroom
        rw [ingestFrom_stop hstop]
        exact fillsUp_of_empty hroom
      rw [List.forall_mem_cons] at hopened
      rw [List.map_cons, List.sum_cons] at hfits
      rw [List.map_cons, List.flatten_cons, List.length_append] at hroom
      have hweight : source.content.length ≤ source.weight :=
        Nat.le_max_right _ _
      have hbound : source.size ≤ source.weight := Nat.le_max_left _ _
      have hsize : askSize 0 position source = (.ok source.size, source) :=
        if_neg (Nat.not_lt_zero position)
      have hword : position + source.size < Size.limit := by omega
      by_cases hskip : position + source.size ≤ 0
      · have hempty : source.content = [] :=
          hopened.1.visible_of_pos hleast (by omega)
        rw [ingestFrom_skip hstop hsize hword hskip] at hreached ⊢
        rw [List.map_cons, hempty]
        exact (ih hopened.2 (by omega) (by omega) hreached).cons_nil
      · have hreach := Nat.lt_of_not_le hskip
        have hreadable :=
          readable_of_reached hopened.1.grounded hstop hword hreach hreached
        have hinside : 0 - position ≤ source.content.length := by omega
        obtain ⟨known, hknown, hreads, hexact⟩ :=
          (hopened.1.sound hreadable).copyTo remaining before hinside
        have hlength : known.size = source.content.length := by
          rw [hreads.sound.size_eq hexact, hreads.content_eq]
        have hcopied : min remaining (source.content.length - (0 - position)) =
            source.content.length := by
          omega
        have hfilled : (before.append ((source.content.drop
            (0 - position)).take remaining)).toList =
              before.toList ++ source.content := by
          rw [Buffer.toList_append, Nat.zero_sub, List.drop_zero,
            List.take_of_length_le (by omega)]
        rw [ingestFrom_copy hstop hsize hword hreach hknown (by omega)]
          at hreached ⊢
        rw [hlength, hcopied, Nat.zero_sub, Nat.zero_add] at hreached ⊢
        rw [Nat.zero_sub] at hfilled
        refine FillsUp.cons_copied
          (any_size_of_visible fun later hlater =>
            (hopened.2 later hlater).visible_of_pos hleast)
          (by omega) List.length_pos_iff hfilled
          (ih hopened.2 (by omega) (by omega) hreached) (Nat.le_refl _)

end Whole

namespace SourceSet

variable {set : SourceSet} {delimiter : UInt8} {least count : Nat}

/-- A whole stream whose ingestion succeeds is read line by line as its
contents are. -/
theorem ingest_whole_linewise {β : Type} {make : List UInt8 → List β}
    (hmake : Linewise delimiter make) (hleast : 0 < least)
    (hopened : ∀ source ∈ set.sources, source.Opened least)
    (hfits : set.Fits) (buffer : Buffer)
    (hcount : (ingest buffer set (.toEnd 0) delimiter).count = .ok count) :
    make (ingest buffer set (.toEnd 0) delimiter).buffer.toList =
      set.contents.flatMap make := by
  have hlength : set.contents.flatten.length < Size.limit :=
    Nat.lt_of_le_of_lt (Source.length_contents_le set.sources) hfits
  have hroom : (set.sources.map Source.content).flatten.length ≤
      (ByteRange.toEnd 0).size := by
    simp only [contents, ByteRange.toEnd, Size.maximum] at hlength ⊢
    omega
  unfold ingest at hcount
  dsimp only at hcount
  split at hcount
  · cases hcount
  · next reached hreached =>
      obtain ⟨tail, hbuffer, htail⟩ :=
        ingestFrom_whole hleast hopened hroom (by rwa [Nat.zero_add]) hreached
      rw [← hmake.joinPieces]
      simp only [ingest]
      refine (congrArg make hbuffer).trans ?_
      rw [Buffer.toList_clear, List.nil_append]
      rcases htail.cases with rfl | rfl
      · rw [List.append_nil]
        rfl
      · exact hmake.concat_delimiter _

end SourceSet

end JsonIntake
