import JsonIntake.Proofs.Plan.Accounting
import JsonIntake.Proofs.Stream.Visits
import JsonIntake.Proofs.Stream.Whole

/-!
# Ingestion before the sizes are known

An ingestion of the whole stream goes by estimates.  An estimate that is too
large costs at most a delimiter that nothing follows.  An estimate of zero
says that a source is empty: in front of the first copied byte the source is
passed over, and behind a copied content it does not call for a delimiter.  So
every content is found and set apart exactly if no content depends on such an
estimate.
-/

namespace JsonIntake

/-- The contents in order, with delimiters around them, and at least one
between each two that are not empty. -/
inductive Spaced (delimiter : UInt8) : List (List UInt8) → List UInt8 → Prop
  | nil : Spaced delimiter [] []
  | delimiter {contents : List (List UInt8)} {bytes : List UInt8}
      (hrest : Spaced delimiter contents bytes) :
      Spaced delimiter contents (delimiter :: bytes)
  | empty {contents : List (List UInt8)} {bytes : List UInt8}
      (hrest : Spaced delimiter contents bytes) :
      Spaced delimiter ([] :: contents) bytes
  | last (content : List UInt8) {contents : List (List UInt8)}
      {bytes : List UInt8} (hempty : ∀ later ∈ contents, later = [])
      (hrest : Spaced delimiter contents bytes) :
      Spaced delimiter (content :: contents) (content ++ bytes)
  | apart (content : List UInt8) {contents : List (List UInt8)}
      {bytes : List UInt8} (hrest : Spaced delimiter contents bytes) :
      Spaced delimiter (content :: contents) (content ++ delimiter :: bytes)

section Spaced

variable {delimiter : UInt8} {contents : List (List UInt8)}
  {bytes tail : List UInt8}

theorem Spaced.length_le (hspaced : Spaced delimiter contents bytes) :
    (joinPieces delimiter contents).length ≤ bytes.length := by
  induction hspaced with
  | nil => exact Nat.le_refl 0
  | delimiter _ ih => exact Nat.le_succ_of_le ih
  | empty _ ih => rwa [joinPieces_nil_cons]
  | last content hempty _ _ =>
      rw [joinPieces_cons_of_empty hempty, List.length_append]
      exact Nat.le_add_right _ _
  | @apart content contents bytes _ ih =>
      rw [List.length_append, List.length_cons]
      by_cases hcontent : content = []
      · rw [hcontent, joinPieces_nil_cons]
        omega
      by_cases hempty : ∀ later ∈ contents, later = []
      · rw [joinPieces_cons_of_empty hempty]
        omega
      · rw [joinPieces_cons hcontent hempty, List.length_append,
          List.length_cons]
        omega

theorem spaced_joinPieces (htail : tail = [] ∨ tail = [delimiter]) :
    Spaced delimiter contents (joinPieces delimiter contents ++ tail) := by
  induction contents with
  | nil =>
      rcases htail with rfl | rfl
      · exact .nil
      · exact .delimiter .nil
  | cons content rest ih =>
      by_cases hcontent : content = []
      · rw [hcontent, joinPieces_nil_cons]
        exact .empty ih
      by_cases hempty : ∀ later ∈ rest, later = []
      · rw [joinPieces_of_empty hempty] at ih
        rw [joinPieces_cons_of_empty hempty]
        exact .last content hempty ih
      · rw [joinPieces_cons hcontent hempty, List.append_assoc,
          List.cons_append]
        exact .apart content ih

/-- The bytes of the contents, and one delimiter for each that is not
empty. -/
def delimitedLength (contents : List (List UInt8)) : Nat :=
  contents.flatten.length +
    (contents.filter fun content => content ≠ []).length

@[simp] theorem delimitedLength_nil_cons :
    delimitedLength ([] :: contents) = delimitedLength contents := by
  simp [delimitedLength]

theorem delimitedLength_cons {content : List UInt8} (hcontent : content ≠ []) :
    delimitedLength (content :: contents) =
      content.length + delimitedLength contents + 1 := by
  rw [delimitedLength, delimitedLength, List.flatten_cons, List.length_append,
    List.filter_cons_of_pos (by simpa using hcontent), List.length_cons]
  omega

theorem flatten_lt_delimitedLength
    (hsome : ¬ ∀ content ∈ contents, content = []) :
    contents.flatten.length < delimitedLength contents := by
  refine Nat.lt_add_of_pos_right (List.length_pos_iff.mpr fun hnil => ?_)
  apply hsome
  intro content hcontent
  have hnone := List.filter_eq_nil_iff.mp hnil content hcontent
  simpa using hnone

/-- Spaced contents are at most one delimiter short of one for each. -/
theorem Spaced.delimitedLength_le (hspaced : Spaced delimiter contents bytes) :
    delimitedLength contents ≤ bytes.length + 1 := by
  have hlength := hspaced.length_le
  rw [length_joinPieces] at hlength
  unfold delimitedLength
  omega

end Spaced

/-- A copy that has come to `position` gets to every content that is not
empty, and if another one follows, it sees behind the first that there is
more. -/
def Source.Announced (position : Nat) : List Source → Prop
  | [] => True
  | source :: rest =>
    if source.content = [] then Announced position rest
    else
      0 < position + source.size ∧
        ((∀ later ∈ rest, later.size = 0) →
          ∀ later ∈ rest, later.content = []) ∧
        Announced (position + source.content.length) rest

section Announced

variable {position : Nat} {sources : List Source}

theorem Source.announced_of_empty
    (hempty : ∀ source ∈ sources, source.content = []) :
    Announced position sources := by
  induction sources with
  | nil => trivial
  | cons source rest ih =>
      rw [List.forall_mem_cons] at hempty
      rw [Announced, if_pos hempty.1]
      exact ih hempty.2

/-- Where no source with content seems to be empty, every content is
announced. -/
theorem Source.announced_of_visible
    (hvisible : ∀ source ∈ sources, source.Visible) :
    Announced position sources := by
  induction sources generalizing position with
  | nil => trivial
  | cons source rest ih =>
      rw [List.forall_mem_cons] at hvisible
      rw [Announced]
      split
      · exact ih hvisible.2
      · next hcontent =>
          refine ⟨?_, ?_, ih hvisible.2⟩
          · have hsize : source.size ≠ 0 :=
              fun hzero => hcontent (hvisible.1 hzero)
            omega
          · intro hzero later hlater
            exact hvisible.2 later hlater (hzero later hlater)

end Announced

/-! ## A whole copy -/

/-- What a copy of all contents leaves behind.  It finds and separates them
where they are announced.  Else it has fewer bytes than that takes. -/
structure Spreads (delimiter : UInt8) (position : Nat) (before : Buffer)
    (sources : List Source) (copy : Ingestion) : Prop where
  reached : ∃ reached, copy.reached = .ok reached
  fills : Source.Announced position sources →
    FillsUp delimiter before copy.buffer (sources.map Source.content)
  size_le : copy.buffer.size ≤
    before.size + delimitedLength (sources.map Source.content)
  /-- Without a promise of more, no delimiter is written. -/
  size_unpromised : (∀ source ∈ sources, source.size = 0) →
    copy.buffer.size ≤
      before.size + (sources.map Source.content).flatten.length
  size_lt : ¬ Source.Announced position sources →
    copy.buffer.size + 1 <
      before.size + delimitedLength (sources.map Source.content)

section Spreads

variable {delimiter : UInt8} {position remaining : Nat}
  {before filled : Buffer} {source known : Source}
  {sources rest : List Source} {copy : Ingestion}

theorem spreads_of_empty (hempty : ∀ source ∈ sources, source.content = []) :
    Spreads delimiter position before sources
      ⟨.ok position, before, sources⟩ where
  reached := ⟨position, rfl⟩
  fills _ := fillsUp_of_empty (by simpa using hempty)
  size_le := Nat.le_add_right _ _
  size_unpromised _ := Nat.le_add_right _ _
  size_lt hnot := absurd (Source.announced_of_empty hempty) hnot

/-- A source without content makes no difference. -/
theorem Spreads.cons_empty (hcontent : source.content = [])
    (hrest : Spreads delimiter position before rest copy) :
    Spreads delimiter position before (source :: rest)
      (copy.after known) where
  reached := hrest.reached
  fills hannounced := by
    rw [Source.Announced, if_pos hcontent] at hannounced
    rw [List.map_cons, hcontent]
    exact (hrest.fills hannounced).cons_nil
  size_le := by
    rw [List.map_cons, hcontent, delimitedLength_nil_cons]
    exact hrest.size_le
  size_unpromised hzero := by
    rw [List.map_cons, hcontent, List.flatten_cons, List.nil_append]
    exact hrest.size_unpromised (List.forall_mem_cons.mp hzero).2
  size_lt hnot := by
    rw [Source.Announced, if_pos hcontent] at hnot
    rw [List.map_cons, hcontent, delimitedLength_nil_cons]
    exact hrest.size_lt hnot

/-- A content that is passed over leaves too few bytes. -/
theorem Spreads.cons_lost (hcontent : source.content ≠ [])
    (hsize : source.size = 0)
    (hrest : Spreads delimiter 0 before rest copy) :
    Spreads delimiter 0 before (source :: rest) (copy.after known) where
  reached := hrest.reached
  fills hannounced := by
    rw [Source.Announced, if_neg hcontent, hsize] at hannounced
    exact absurd hannounced.1 (Nat.lt_irrefl 0)
  size_le := by
    have hlater := hrest.size_le
    rw [List.map_cons, delimitedLength_cons hcontent, Ingestion.after_buffer]
    omega
  size_unpromised hzero := by
    have hlater := hrest.size_unpromised (List.forall_mem_cons.mp hzero).2
    rw [List.map_cons, List.flatten_cons, List.length_append,
      Ingestion.after_buffer]
    omega
  size_lt _ := by
    have hlater := hrest.size_le
    have hlength := List.length_pos_iff.mpr hcontent
    rw [List.map_cons, delimitedLength_cons hcontent, Ingestion.after_buffer]
    omega

theorem any_size_iff :
    (rest.any fun later => 0 < later.size) = true ↔
      ¬ ∀ later ∈ rest, later.size = 0 := by
  simp [Nat.pos_iff_ne_zero]

/-- Behind a copied content stands a delimiter if more is wanted and
promised. -/
theorem Spreads.cons_copied (hcontent : source.content ≠ [])
    (hreach : 0 < position + source.size)
    (hroom : (rest.map Source.content).flatten.length ≤ remaining)
    (hfilled : filled.toList = before.toList ++ source.content)
    (hrest : Spreads delimiter (position + source.content.length)
      (if 0 < source.content.length ∧
          source.content.length ≤ source.content.length ∧ 0 < remaining ∧
          (rest.any fun later => 0 < later.size) = true then
        filled.push delimiter
      else filled) rest copy) :
    Spreads delimiter position before (source :: rest)
      (copy.after known) := by
  have hsize : filled.size = before.size + source.content.length := by
    rw [← Buffer.length_toList, ← Buffer.length_toList, hfilled,
      List.length_append]
  have hunpromised : (∀ later ∈ rest, later.size = 0) →
      copy.buffer.size ≤
        filled.size + (rest.map Source.content).flatten.length := by
    intro hzero
    have hlater := hrest.size_unpromised hzero
    rwa [if_neg fun hpush => any_size_iff.mp hpush.2.2.2 hzero] at hlater
  have hannounced_iff : Source.Announced position (source :: rest) ↔
      ((∀ later ∈ rest, later.size = 0) →
          ∀ later ∈ rest, later.content = []) ∧
        Source.Announced (position + source.content.length) rest := by
    rw [Source.Announced, if_neg hcontent]
    exact and_iff_right hreach
  refine ⟨hrest.reached, ?_, ?_, ?_, ?_⟩
  · intro hannounced
    obtain ⟨hmore, hlater⟩ := hannounced_iff.mp hannounced
    refine FillsUp.cons_copied ?_ hroom List.length_pos_iff hfilled
      (hrest.fills hlater) (Nat.le_refl _)
    intro hany
    rw [any_size_iff, not_not] at hany
    rw [List.forall_mem_map]
    exact hmore hany
  · have hlater := hrest.size_le
    rw [List.map_cons, delimitedLength_cons hcontent, Ingestion.after_buffer]
    split at hlater
    · rw [Buffer.size_push] at hlater
      omega
    · omega
  · intro hzero
    have hlater := hunpromised (List.forall_mem_cons.mp hzero).2
    rw [List.map_cons, List.flatten_cons, List.length_append,
      Ingestion.after_buffer]
    omega
  · intro hnot
    rw [List.map_cons, delimitedLength_cons hcontent, Ingestion.after_buffer]
    by_cases hlater : Source.Announced (position + source.content.length) rest
    · -- The content is not set apart from one that follows unannounced.
      have hmore : ¬ ((∀ later ∈ rest, later.size = 0) →
          ∀ later ∈ rest, later.content = []) :=
        fun hmore => hnot (hannounced_iff.mpr ⟨hmore, hlater⟩)
      obtain ⟨hzero, hfollows⟩ := Classical.not_imp.mp hmore
      have hlength := flatten_lt_delimitedLength
        (by simpa using hfollows :
          ¬ ∀ content ∈ rest.map Source.content, content = [])
      have hbound := hunpromised hzero
      omega
    · have hbound := hrest.size_lt hlater
      split at hbound
      · rw [Buffer.size_push] at hbound
        omega
      · omega

/-- What a copy of the whole stream makes of sources whose sizes may be
wrong. -/
theorem ingestFrom_spreads (hsound : ∀ source ∈ sources, source.Sound)
    (hfit : Source.FitInOrder position sources)
    (hroom : (sources.map Source.content).flatten.length ≤ remaining) :
    Spreads delimiter position before sources
      (ingestFrom 0 delimiter position remaining before sources) := by
  induction sources generalizing position remaining before with
  | nil => exact spreads_of_empty nofun
  | cons source rest ih =>
      by_cases hstop : remaining = 0 ∧ 0 ≤ position
      · rw [hstop.1, Nat.le_zero, List.length_eq_zero_iff,
          List.flatten_eq_nil_iff] at hroom
        rw [ingestFrom_stop hstop]
        exact spreads_of_empty (by simpa using hroom)
      rw [List.forall_mem_cons] at hsound
      obtain ⟨hhead, hrest⟩ := hfit
      rw [List.map_cons, List.flatten_cons, List.length_append] at hroom
      have hlength : source.content.length ≤ source.weight :=
        Nat.le_max_right _ _
      have hbound : source.size ≤ source.weight := Nat.le_max_left _ _
      have hask : askSize 0 position source = (.ok source.size, source) :=
        if_neg (Nat.not_lt_zero position)
      have hword : position + source.size < Size.limit := by omega
      by_cases hskip : position + source.size ≤ 0
      · obtain ⟨rfl, hsize⟩ : position = 0 ∧ source.size = 0 := by omega
        rw [ingestFrom_skip hstop hask hword hskip, hsize]
        have hlater : Spreads delimiter 0 before rest
            (ingestFrom 0 delimiter 0 remaining before rest) :=
          ih hsound.2 (hrest.in_front (Nat.zero_le _)) (by omega)
        by_cases hcontent : source.content = []
        · exact hlater.cons_empty hcontent
        · exact hlater.cons_lost hcontent hsize
      · obtain ⟨after, hafter, hreads, hexact⟩ :=
          hsound.1.copyTo remaining before
            (by omega : 0 - position ≤ source.content.length)
        have hsize : after.size = source.content.length := by
          rw [hreads.sound.size_eq hexact, hreads.content_eq]
        have hcopied : min remaining (source.content.length - (0 - position)) =
            source.content.length := by
          omega
        have hfilled : (before.append ((source.content.drop
            (0 - position)).take remaining)).toList =
              before.toList ++ source.content := by
          rw [Buffer.toList_append, Nat.zero_sub, List.drop_zero,
            List.take_of_length_le (by omega)]
        rw [ingestFrom_copy hstop hask hword (Nat.lt_of_not_le hskip) hafter
          (by omega), hsize, hcopied, Nat.zero_sub, Nat.zero_add]
        rw [Nat.zero_sub] at hfilled
        by_cases hcontent : source.content = []
        · rw [if_neg fun hpush => absurd hpush.1 (by simp [hcontent]),
            Buffer.ext_toList
              (hfilled.trans (by rw [hcontent, List.append_nil])),
            hcontent, List.length_nil, Nat.sub_zero, Nat.add_zero]
          rw [hcontent, List.length_nil, Nat.add_zero] at hrest
          exact (ih hsound.2 hrest (by omega)).cons_empty hcontent
        · exact Spreads.cons_copied hcontent (by omega) (by omega) hfilled
            (ih hsound.2 hrest (by omega))

end Spreads

namespace SourceSet

/-- An ingestion of the whole stream succeeds, however wrong the estimates of
its sources are.  Its buffer has all contents in order, set apart by
delimiters, exactly if the first source with content does not have the size
zero, and behind each but the last source with content there is a source that
has not.  That is the case wherever no ratio is zero. -/
theorem ingest_spaced_iff (set : SourceSet)
    (hopened : ∀ source ∈ set.sources, source.Opened 0)
    (hreadable : ∀ source ∈ set.sources, source.Readable)
    (hfit : Source.FitInOrder 0 set.sources)
    (delimiter : UInt8) (buffer : Buffer) :
    let ingested := ingest buffer set (.toEnd 0) delimiter
    ingested.count = .ok ingested.buffer.size ∧
      (Spaced delimiter set.contents ingested.buffer.toList ↔
        Source.Announced 0 set.sources) ∧
      ((∀ source ∈ set.sources, source.Opened 1) →
        Spaced delimiter set.contents ingested.buffer.toList) := by
  intro ingested
  have hlength := hfit.length_lt (by decide)
  have hspreads : Spreads delimiter 0 buffer.clear set.sources
      (ingestFrom 0 delimiter 0 (ByteRange.toEnd 0).size buffer.clear
        set.sources) :=
    ingestFrom_spreads
      (fun source hsource =>
        (hopened source hsource).sound (hreadable source hsource)) hfit
      (by simp only [ByteRange.toEnd, Size.maximum]; omega)
  obtain ⟨reached, hreached⟩ := hspreads.reached
  have hannounced : Source.Announced 0 set.sources →
      Spaced delimiter set.contents ingested.buffer.toList := by
    intro hannounced
    obtain ⟨tail, hbytes, htail⟩ := hspreads.fills hannounced
    rw [Buffer.toList_clear, List.nil_append] at hbytes
    exact hbytes ▸ spaced_joinPieces htail.cases
  refine ⟨?_, ⟨fun hspaced => ?_, hannounced⟩, fun hratio => ?_⟩
  · have hoffset : (ByteRange.toEnd 0).offset = 0 := rfl
    simp only [ingested, ingest, hoffset, hreached,
      if_neg (Nat.not_lt_zero reached)]
  · by_contra hnot
    have hroom := hspaced.delimitedLength_le
    have hshort := hspreads.size_lt hnot
    rw [Buffer.length_toList] at hroom
    have hclear : buffer.clear.size = 0 := rfl
    have hsame : delimitedLength set.contents =
        delimitedLength (set.sources.map Source.content) := rfl
    have hbuffer : ingested.buffer = (ingestFrom 0 delimiter 0
        (ByteRange.toEnd 0).size buffer.clear set.sources).buffer := rfl
    rw [hbuffer] at hroom
    omega
  · exact hannounced (Source.announced_of_visible fun source hsource =>
      (hratio source hsource).visible (by decide) (hreadable source hsource))

/-- Bytes in memory and a region whose estimate is too large. -/
theorem ingest_spaced_large_estimate :
    ∃ region,
      CompressedSource.make [8, 28, 123, 34, 97, 34, 58, 49, 125, 10]
          .snappy 4 = .ok region ∧
        (ingest .empty
            ⟨[.host [123, 34, 98, 34, 58, 50, 125], .compressed region],
              .none⟩ (.toEnd 0) 10).count = .ok 16 ∧
        Spaced 10
          [[123, 34, 98, 34, 58, 50, 125],
            [123, 34, 97, 34, 58, 49, 125, 10]]
          (ingest .empty
            ⟨[.host [123, 34, 98, 34, 58, 50, 125], .compressed region],
              .none⟩ (.toEnd 0) 10).buffer.toList := by
  have hregion : ∀ least, least ≤ 4 → Source.Opened least (.compressed
      ⟨[8, 28, 123, 34, 97, 34, 58, 49, 125, 10], .snappy, 40, false,
        none⟩) := by
    intro least hleast
    have hmake : CompressedSource.make
        [8, 28, 123, 34, 97, 34, 58, 49, 125, 10] .snappy 4 = .ok _ := rfl
    exact .compressed hleast hmake
  obtain ⟨hcount, -, hspaced⟩ := ingest_spaced_iff
    ⟨[.host [123, 34, 98, 34, 58, 50, 125], .compressed
      ⟨[8, 28, 123, 34, 97, 34, 58, 49, 125, 10], .snappy, 40, false,
        none⟩], .none⟩
    (by
      rintro source (_ | ⟨_, _ | ⟨_, ⟨⟩⟩⟩)
      · exact .host _
      · exact hregion 0 (by decide))
    (by rintro source (_ | ⟨_, _ | ⟨_, ⟨⟩⟩⟩) <;> rfl)
    ⟨by decide, by decide, trivial⟩ 10 .empty
  refine ⟨_, rfl, hcount, hspaced ?_⟩
  rintro source (_ | ⟨_, _ | ⟨_, ⟨⟩⟩⟩)
  · exact .host _
  · exact hregion 1 (by decide)

/-- Behind bytes in memory, a region with a ratio of zero does not call for a
delimiter, and the two contents become one record. -/
theorem ingest_fused_ratio_zero :
    ∃ region,
      CompressedSource.make [8, 28, 123, 34, 97, 34, 58, 49, 125, 10]
          .snappy 0 = .ok region ∧
        Source.content (.compressed region) =
          [123, 34, 97, 34, 58, 49, 125, 10] ∧
        (ingest .empty
            ⟨[.host [123, 34, 98, 34, 58, 50, 125], .compressed region],
              .none⟩ (.toEnd 0) 10).buffer.toList =
          [123, 34, 98, 34, 58, 50, 125, 123, 34, 97, 34, 58, 49, 125, 10] ∧
        ¬ Spaced 10
          [[123, 34, 98, 34, 58, 50, 125],
            [123, 34, 97, 34, 58, 49, 125, 10]]
          (ingest .empty
            ⟨[.host [123, 34, 98, 34, 58, 50, 125], .compressed region],
              .none⟩ (.toEnd 0) 10).buffer.toList :=
  ⟨_, rfl, rfl, rfl, fun hspaced => absurd hspaced.length_le (by decide)⟩

end SourceSet

end JsonIntake
