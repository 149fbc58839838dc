import JsonIntake.Proofs.Stream.Visits

/-!
# What is cached does not matter to a copy

Two copies of one range may start from sources that know more or less of
their contents.  Wherever a copy stands, the sources behind it have their
exact sizes, so both copies stand at the same position, and both take the same
bytes out of a source that can be read and fail at the same broken one.  Only
an estimate that promises bytes where there are none makes a difference: one
copy ends with a delimiter that the other one does not write.
-/

namespace JsonIntake

namespace Source

/-- A source after some use of it.  One that is broken is never known
better. -/
structure Used (origin now : Source) : Prop where
  opened : now.Opened 1
  cases : (origin.Readable ∧ origin.Reads now) ∨
    (¬ origin.Readable ∧ now = origin)

variable {origin now source : Source}

theorem Used.refl (hopened : source.Opened 1) : source.Used source where
  opened := hopened
  cases := by
    by_cases hreadable : source.Readable
    · exact .inl ⟨hreadable, .refl (hopened.sound hreadable)⟩
    · exact .inr ⟨hreadable, rfl⟩

theorem Used.content_eq (hused : origin.Used now) :
    now.content = origin.content := by
  rcases hused.cases with ⟨-, hreads⟩ | ⟨-, rfl⟩
  · exact hreads.content_eq
  · rfl

theorem Used.reads (hused : origin.Used now) (hreadable : origin.Readable) :
    origin.Reads now := by
  rcases hused.cases with ⟨-, hreads⟩ | ⟨hbroken, -⟩
  · exact hreads
  · exact absurd hreadable hbroken

theorem Used.eq_of_broken (hused : origin.Used now)
    (hbroken : ¬ origin.Readable) : now = origin := by
  rcases hused.cases with ⟨hreadable, -⟩ | ⟨-, hsame⟩
  · exact absurd hreadable hbroken
  · exact hsame

theorem Used.weight_le (hused : origin.Used now) :
    now.weight ≤ origin.weight := by
  rcases hused.cases with ⟨-, hreads⟩ | ⟨-, rfl⟩
  · unfold weight
    rw [hreads.content_eq]
    rcases hreads.exact with rfl | hexact
    · exact Nat.le_refl _
    · rw [hreads.sound.size_eq hexact, hreads.content_eq, Nat.max_self]
      exact Nat.le_max_right _ _
  · exact Nat.le_refl _

/-- A broken source gives the same failure whenever its content is needed,
and does not change. -/
theorem Opened.exists_failure {least : Nat} (hopened : source.Opened least)
    (hbroken : ¬ source.Readable) :
    ∃ failure, source.content? = .error failure ∧
      source.exactSize = (.error failure, source) ∧
      ∀ offset size target,
        source.copyTo offset size target = (.error failure, source) := by
  cases source with
  | file source => exact absurd rfl hbroken
  | host bytes => exact absurd rfl hbroken
  | device buffer => exact absurd rfl hbroken
  | compressed source =>
      have hknown := mt hopened.grounded hbroken
      rw [not_or] at hknown
      have hnothing : source.kept = none :=
        Option.not_isSome_iff_eq_none.mp hknown.2
      cases hbytes : decompress source.kind source.region with
      | ok bytes => exact absurd (readable_of_decompress hbytes) hbroken
      | error failure =>
          refine ⟨failure, hbytes, ?_, ?_⟩
          · simp only [exactSize, if_neg hknown.1,
              CompressedSource.materialize, hnothing, hbytes]
          · intro offset size target
            simp [Source.copyTo, supportsDeviceRead, hostRead,
              CompressedSource.hostRead, hnothing, hbytes, Except.map]

abbrev AllUsed : List Source → List Source → Prop :=
  List.Forall₂ Used

variable {origins sources : List Source}

theorem allUsed_refl (hopened : ∀ source ∈ sources, source.Opened 1) :
    AllUsed sources sources := by
  induction sources with
  | nil => exact .nil
  | cons source rest ih =>
      rw [List.forall_mem_cons] at hopened
      exact .cons (.refl hopened.1) (ih hopened.2)

theorem sum_weight_le_of_allUsed (hused : AllUsed origins sources) :
    (sources.map weight).sum ≤ (origins.map weight).sum := by
  induction hused with
  | nil => exact Nat.le_refl _
  | cons hhead htail ih =>
      rw [List.map_cons, List.map_cons, List.sum_cons, List.sum_cons]
      exact Nat.add_le_add hhead.weight_le ih

theorem Used.size_eq {one other : Source} (hone : origin.Used one)
    (hother : origin.Used other) (hexact : origin.isSizeExact = true) :
    one.size = other.size := by
  by_cases hreadable : origin.Readable
  · have hreads := hone.reads hreadable
    have hreads' := hother.reads hreadable
    rw [hreads.sound.size_eq (hreads.isSizeExact hexact),
      hreads'.sound.size_eq (hreads'.isSizeExact hexact), hone.content_eq,
      hother.content_eq]
  · rw [hone.eq_of_broken hreadable, hother.eq_of_broken hreadable]

theorem map_size_eq_of_allUsed {ones others : List Source}
    (hones : AllUsed origins ones) (hothers : AllUsed origins others)
    (hexact : ∀ origin ∈ origins, origin.isSizeExact = true) :
    ones.map size = others.map size := by
  induction hones generalizing others with
  | nil =>
      cases hothers
      rfl
  | cons hone hones ih =>
      cases hothers with
      | cons hother hothers =>
          rw [List.forall_mem_cons] at hexact
          rw [List.map_cons, List.map_cons, ih hothers hexact.2,
            hone.size_eq hother hexact.1]

/-- If no source promises any bytes, there are none. -/
theorem content_eq_nil_of_any (hused : AllUsed origins sources)
    (hnone : ¬ (sources.any fun later => 0 < later.size) = true) :
    ∀ origin ∈ origins, origin.content = [] := by
  induction hused with
  | nil => exact nofun
  | cons hhead htail ih =>
      rw [List.any_cons, Bool.or_eq_true, not_or] at hnone
      refine List.forall_mem_cons.mpr ⟨?_, ih hnone.2⟩
      rw [← hhead.content_eq]
      apply hhead.opened.visible_of_pos (by decide)
      have hsize := hnone.1
      rw [decide_eq_true_eq] at hsize
      omega

end Source

open Source (AllUsed Used)

/-! ## Buffers -/

/-- The same bytes.  If not all sizes are exact, one of the buffers may have a
delimiter more at its end. -/
def SameBytes (exact : Prop) (delimiter : UInt8) (one other : Buffer) :
    Prop :=
  one = other ∨
    (¬ exact ∧ (one = other.push delimiter ∨ other = one.push delimiter))

theorem sameBytes_withPiece {buffer : Buffer} {delimiter : UInt8}
    {start remaining : Nat} {content : List UInt8} {exact : Prop}
    {more again : Bool} (hmore : exact → more = again) :
    SameBytes exact delimiter
      (buffer.withPiece delimiter start remaining content more)
      (buffer.withPiece delimiter start remaining content again) := by
  by_cases hexact : exact
  · rw [hmore hexact]
    exact .inl rfl
  unfold Buffer.withPiece
  dsimp only
  split
  · split
    · exact .inl rfl
    · exact .inr ⟨hexact, .inl rfl⟩
  · split
    · exact .inr ⟨hexact, .inr rfl⟩
    · exact .inl rfl

/-! ## Two copies -/

/-- Two copies from the same sources either fail at the same broken source or
leave the same bytes behind. -/
structure CopiesAgree (exact : Prop) (delimiter : UInt8)
    (origins : List Source) (one other : Ingestion) : Prop where
  ones : AllUsed origins one.sources
  others : AllUsed origins other.sources
  outcome :
    (∃ origin ∈ origins, ∃ failure, origin.content? = .error failure ∧
      one.reached = .error failure ∧ other.reached = .error failure) ∨
    (∃ reached, one.reached = .ok reached ∧ other.reached = .ok reached ∧
      SameBytes exact delimiter one.buffer other.buffer)

theorem CopiesAgree.after {exact : Prop} {delimiter : UInt8}
    {origins : List Source} {origin known again : Source}
    {one other : Ingestion}
    (hagree : CopiesAgree exact delimiter origins one other)
    (hknown : origin.Used known) (hagain : origin.Used again) :
    CopiesAgree exact delimiter (origin :: origins) (one.after known)
      (other.after again) where
  ones := .cons hknown hagree.ones
  others := .cons hagain hagree.others
  outcome := by
    rcases hagree.outcome with ⟨broken, hmem, hfailed⟩ | hdone
    · exact .inl ⟨broken, List.mem_cons_of_mem _ hmem, hfailed⟩
    · exact .inr hdone

section Agreement

variable {exact : Prop} {offset position remaining : Nat} {delimiter : UInt8}
  {buffer full : Buffer} {origin one other source : Source}
  {origins ones others : List Source}

/-- Behind a source that can be read, the buffers may differ only if one copy
sees no later size, and then no content is left. -/
theorem copiesAgree_visit (hgo : ¬ (remaining = 0 ∧ offset ≤ position))
    (hreadable : origin.Readable) (hone : origin.Used one)
    (hother : origin.Used other) (hones : AllUsed origins ones)
    (hothers : AllUsed origins others)
    (hword : position + origin.weight < Size.limit)
    (hexact : exact → ∀ source ∈ origins, source.isSizeExact = true)
    (hsame : SameBytes exact delimiter buffer full)
    (hrest : buffer = full ∨
      ∀ source ∈ origin :: origins, source.content = [])
    (hlater : ∀ left filled again, SameBytes exact delimiter filled again →
      (filled = again ∨ ∀ source ∈ origins, source.content = []) →
      CopiesAgree exact delimiter origins
        (ingestFrom offset delimiter (position + origin.content.length) left
          filled ones)
        (ingestFrom offset delimiter (position + origin.content.length) left
          again others)) :
    CopiesAgree exact delimiter (origin :: origins)
      (ingestFrom offset delimiter position remaining buffer (one :: ones))
      (ingestFrom offset delimiter position remaining full
        (other :: others)) := by
  have hreads := hone.reads hreadable
  have hreads' := hother.reads hreadable
  have hle := hone.weight_le
  have hle' := hother.weight_le
  obtain ⟨known, hknown, hfirst, hvisit⟩ :=
    ingestFrom_visit delimiter buffer hgo hone.opened hreads.sound (by omega)
  obtain ⟨again, hagain, hsecond, hvisit'⟩ :=
    ingestFrom_visit delimiter full hgo hother.opened hreads'.sound (by omega)
  rw [hvisit, hvisit', hone.content_eq, hother.content_eq]
  apply CopiesAgree.after ?_
    ⟨hknown, .inl ⟨hreadable, hreads.trans hfirst⟩⟩
    ⟨hagain, .inl ⟨hreadable, hreads'.trans hsecond⟩⟩
  rcases hrest with rfl | hempty
  · have hmore : exact →
        (ones.any fun later => 0 < later.size) =
          others.any fun later => 0 < later.size := by
      intro h
      have hsizes := Source.map_size_eq_of_allUsed hones hothers (hexact h)
      simpa only [List.any_map, Function.comp_def] using
        congrArg (fun sizes => sizes.any fun size => 0 < size) hsizes
    apply hlater _ _ _ (sameBytes_withPiece hmore)
    by_cases hboth :
        (ones.any fun later => 0 < later.size) =
          others.any fun later => 0 < later.size
    · rw [hboth]
      exact .inl rfl
    · right
      by_cases hnone : (ones.any fun later => 0 < later.size) = true
      · rw [hnone] at hboth
        exact Source.content_eq_nil_of_any hothers (Ne.symm hboth)
      · exact Source.content_eq_nil_of_any hones hnone
  · rw [List.forall_mem_cons] at hempty
    have hshort : origin.content.length ≤ offset - position := by
      rw [hempty.1]
      exact Nat.zero_le _
    rw [Buffer.withPiece_of_length_le hshort,
      Buffer.withPiece_of_length_le hshort]
    exact hlater _ _ _ hsame (.inr hempty.2)

/-- A broken source ends both copies, unless both skip it. -/
theorem copiesAgree_broken (hgo : ¬ (remaining = 0 ∧ offset ≤ position))
    (hused : source.Used source) (hbroken : ¬ source.Readable)
    (hword : position + source.size < Size.limit)
    (hones : AllUsed origins ones) (hothers : AllUsed origins others)
    (hlater : CopiesAgree exact delimiter origins
      (ingestFrom offset delimiter (position + source.size) remaining buffer
        ones)
      (ingestFrom offset delimiter (position + source.size) remaining full
        others)) :
    CopiesAgree exact delimiter (source :: origins)
      (ingestFrom offset delimiter position remaining buffer
        (source :: ones))
      (ingestFrom offset delimiter position remaining full
        (source :: others)) := by
  obtain ⟨failure, hfailure, hexact, hcopy⟩ :=
    hused.opened.exists_failure hbroken
  have hfailed : ∀ one other : Buffer,
      CopiesAgree exact delimiter (source :: origins)
        ⟨.error failure, one, source :: ones⟩
        ⟨.error failure, other, source :: others⟩ := by
    intro one other
    exact ⟨.cons hused hones, .cons hused hothers,
      .inl ⟨source, List.mem_cons_self, failure, hfailure, rfl, rfl⟩⟩
  by_cases hbefore : position < offset
  · have hask : askSize offset position source = (.error failure, source) := by
      rw [askSize, if_pos hbefore, hexact]
    rw [ingestFrom_refused hgo hask, ingestFrom_refused hgo hask]
    exact hfailed buffer full
  · have hask : askSize offset position source = (.ok source.size, source) :=
      if_neg hbefore
    by_cases hskip : position + source.size ≤ offset
    · rw [ingestFrom_skip hgo hask hword hskip,
        ingestFrom_skip hgo hask hword hskip]
      exact hlater.after hused hused
    · have hreach := Nat.lt_of_not_le hskip
      rw [ingestFrom_failed hgo hask hword hreach (hcopy ..),
        ingestFrom_failed hgo hask hword hreach (hcopy ..)]
      exact hfailed buffer full

end Agreement

/-- Two copies of one range agree.  Their buffers may differ from the start
if there is no content left. -/
theorem ingestFrom_agree {exact : Prop} (offset : Nat) (delimiter : UInt8)
    {position remaining : Nat} {buffer full : Buffer}
    {origins ones others : List Source} (hones : AllUsed origins ones)
    (hothers : AllUsed origins others)
    (hfits : position + (origins.map Source.weight).sum < Size.limit)
    (hexact : exact → ∀ origin ∈ origins, origin.isSizeExact = true)
    (hsame : SameBytes exact delimiter buffer full)
    (hrest : buffer = full ∨ ∀ origin ∈ origins, origin.content = []) :
    CopiesAgree exact delimiter origins
      (ingestFrom offset delimiter position remaining buffer ones)
      (ingestFrom offset delimiter position remaining full others) := by
  induction hones generalizing position remaining buffer full others with
  | nil =>
      cases hothers
      exact ⟨.nil, .nil, .inr ⟨position, rfl, rfl, hsame⟩⟩
  | @cons origin one origins ones hone hones ih =>
      cases hothers with
      | @cons _ other _ others hother hothers =>
      rw [List.map_cons, List.sum_cons] at hfits
      have hlater : exact → ∀ origin ∈ origins, origin.isSizeExact = true :=
        fun h => (List.forall_mem_cons.mp (hexact h)).2
      by_cases hstop : remaining = 0 ∧ offset ≤ position
      · rw [ingestFrom_stop hstop, ingestFrom_stop hstop]
        exact ⟨.cons hone hones, .cons hother hothers,
          .inr ⟨position, rfl, rfl, hsame⟩⟩
      by_cases hreadable : origin.Readable
      · have hlength : origin.content.length ≤ origin.weight :=
          Nat.le_max_right _ _
        apply copiesAgree_visit hstop hreadable hone hother hones hothers
          (by omega) hlater hsame hrest
        intro left filled again hsame hrest
        exact ih hothers (by omega) hlater hsame hrest
      · obtain rfl := hone.eq_of_broken hreadable
        obtain rfl := hother.eq_of_broken hreadable
        have hsize : other.size ≤ other.weight := Nat.le_max_left _ _
        apply copiesAgree_broken hstop hone hreadable (by omega) hones hothers
        apply ih hothers (by omega) hlater hsame
        rw [List.forall_mem_cons] at hrest
        exact hrest.imp_right And.right

namespace SourceSet

variable {origins : List Source} {one other : SourceSet} {exact : Prop}

/-- A range is ingested alike, whatever is known of the sources before. -/
theorem ingest_agree (exact : Prop) (hones : AllUsed origins one.sources)
    (hothers : AllUsed origins other.sources)
    (hfits : (origins.map Source.weight).sum < Size.limit)
    (hexact : exact → ∀ origin ∈ origins, origin.isSizeExact = true)
    (buffer : Buffer) (range : ByteRange) (delimiter : UInt8) :
    let copied := ingest buffer one range delimiter
    let again := ingest buffer other range delimiter
    AllUsed origins copied.set.sources ∧ AllUsed origins again.set.sources ∧
      ((∃ failure,
          ((∃ origin ∈ origins, origin.content? = .error failure) ∨
            ∃ reached, failure = .sourceExhausted range.offset reached) ∧
          copied.count = .error failure ∧ again.count = .error failure) ∨
        (copied.count = .ok copied.buffer.size ∧
          again.count = .ok again.buffer.size ∧
          SameBytes exact delimiter copied.buffer again.buffer)) := by
  intro copied again
  have hagree : CopiesAgree exact delimiter origins
      (ingestFrom range.offset delimiter 0 range.size buffer.clear one.sources)
      (ingestFrom range.offset delimiter 0 range.size buffer.clear
        other.sources) :=
    ingestFrom_agree range.offset delimiter hones hothers
      (by rwa [Nat.zero_add]) hexact (.inl rfl) (.inl rfl)
  refine ⟨hagree.ones, hagree.others, ?_⟩
  rcases hagree.outcome with ⟨origin, hmem, failure, hbroken, hone, hother⟩ |
    ⟨reached, hone, hother, hsame⟩
  · left
    refine ⟨failure, .inl ⟨origin, hmem, hbroken⟩, ?_, ?_⟩
    · simp only [copied, ingest, hone]
    · simp only [again, ingest, hother]
  by_cases hshort : reached < range.offset
  · left
    refine ⟨_, .inr ⟨reached, rfl⟩, ?_, ?_⟩
    · simp only [copied, ingest, hone, if_pos hshort]
    · simp only [again, ingest, hother, if_pos hshort]
  · right
    refine ⟨?_, ?_, hsame⟩
    · simp only [copied, ingest, hone, if_neg hshort]
    · simp only [again, ingest, hother, if_neg hshort]

end SourceSet

end JsonIntake
