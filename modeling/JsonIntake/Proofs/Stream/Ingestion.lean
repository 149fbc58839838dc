import JsonIntake.Ingest
import JsonIntake.Proofs.Source.Stream

/-!
# Ingestion copies the slices of a range

The buffer of an ingestion holds the slices of its range that are not empty,
with one delimiter between each two.  An estimate may promise data where there
is none, and then one delimiter more stands at the end.  What is made of the
buffer line by line is what is made of the range in either case.
-/

namespace JsonIntake

/-- The pieces that are not empty, with a delimiter between each two. -/
def joinPieces (delimiter : UInt8) (pieces : List (List UInt8)) :
    List UInt8 :=
  [delimiter].intercalate (pieces.filter fun piece => piece ≠ [])

/-- What may stand behind the last piece: nothing, or a delimiter that an
estimate has called for. -/
structure IsTrailer (delimiter : UInt8) (pieces : List (List UInt8))
    (exact : Prop) (tail : List UInt8) : Prop where
  cases : tail = [] ∨ tail = [delimiter]
  of_empty : (∀ piece ∈ pieces, piece = []) → tail = []
  of_exact : exact → tail = []

section JoinPieces

variable {delimiter : UInt8} {piece : List UInt8}
  {pieces : List (List UInt8)}

@[simp] theorem joinPieces_nil : joinPieces delimiter [] = [] := rfl

@[simp] theorem joinPieces_nil_cons :
    joinPieces delimiter ([] :: pieces) = joinPieces delimiter pieces := by
  simp [joinPieces]

theorem joinPieces_of_empty (hpieces : ∀ piece ∈ pieces, piece = []) :
    joinPieces delimiter pieces = [] := by
  have hfilter : (pieces.filter fun piece => piece ≠ []) = [] := by
    rw [List.filter_eq_nil_iff]
    intro piece hpiece
    simp [hpieces piece hpiece]
  rw [joinPieces, hfilter]
  rfl

theorem joinPieces_cons_of_empty (hpieces : ∀ piece ∈ pieces, piece = []) :
    joinPieces delimiter (piece :: pieces) = piece := by
  by_cases hpiece : piece = []
  · rw [hpiece, joinPieces_nil_cons, joinPieces_of_empty hpieces]
  · have hfilter : (pieces.filter fun piece => piece ≠ []) = [] := by
      rw [List.filter_eq_nil_iff]
      intro other hother
      simp [hpieces other hother]
    rw [joinPieces, List.filter_cons_of_pos (by simpa using hpiece),
      hfilter]
    simp [List.intercalate]

theorem joinPieces_cons (hpiece : piece ≠ [])
    (hpieces : ¬ ∀ piece ∈ pieces, piece = []) :
    joinPieces delimiter (piece :: pieces) =
      piece ++ delimiter :: joinPieces delimiter pieces := by
  have hfilter : (pieces.filter fun piece => piece ≠ []) ≠ [] := by
    intro hnil
    apply hpieces
    intro other hother
    have hnone := List.filter_eq_nil_iff.mp hnil other hother
    simpa using hnone
  obtain ⟨first, later, hlater⟩ := List.exists_cons_of_ne_nil hfilter
  rw [joinPieces, joinPieces,
    List.filter_cons_of_pos (by simpa using hpiece), hlater]
  simp [List.intercalate]

theorem joinPieces_eq_nil_iff :
    joinPieces delimiter pieces = [] ↔ ∀ piece ∈ pieces, piece = [] := by
  refine ⟨fun hnil => ?_, joinPieces_of_empty⟩
  induction pieces with
  | nil => exact nofun
  | cons piece pieces ih =>
      rw [List.forall_mem_cons]
      by_cases hpiece : piece = []
      · rw [hpiece, joinPieces_nil_cons] at hnil
        exact ⟨hpiece, ih hnil⟩
      · by_cases hpieces : ∀ piece ∈ pieces, piece = []
        · rw [joinPieces_cons_of_empty hpieces] at hnil
          exact absurd hnil hpiece
        · rw [joinPieces_cons hpiece hpieces] at hnil
          exact absurd (List.append_eq_nil_iff.mp hnil).1 hpiece

theorem joinPieces_append_of_empty {front back : List (List UInt8)}
    (hfront : ∀ piece ∈ front, piece = []) :
    joinPieces delimiter (front ++ back) = joinPieces delimiter back := by
  induction front with
  | nil => rfl
  | cons piece front ih =>
      rw [List.forall_mem_cons] at hfront
      rw [List.cons_append, hfront.1, joinPieces_nil_cons, ih hfront.2]

/-- Between two lists of pieces stands one delimiter, unless one of them is
empty. -/
theorem joinPieces_append (delimiter : UInt8)
    (front back : List (List UInt8)) :
    (joinPieces delimiter front = [] ∧
      joinPieces delimiter (front ++ back) = joinPieces delimiter back) ∨
    (joinPieces delimiter back = [] ∧
      joinPieces delimiter (front ++ back) = joinPieces delimiter front) ∨
    joinPieces delimiter (front ++ back) =
      joinPieces delimiter front ++
        delimiter :: joinPieces delimiter back := by
  induction front with
  | nil => exact .inl ⟨rfl, rfl⟩
  | cons piece front ih =>
      rw [List.cons_append]
      by_cases hpiece : piece = []
      · simpa only [hpiece, joinPieces_nil_cons] using ih
      by_cases hboth : ∀ piece ∈ front ++ back, piece = []
      · obtain ⟨hfront, hback⟩ := List.forall_mem_append.mp hboth
        refine .inr (.inl ⟨joinPieces_of_empty hback, ?_⟩)
        rw [joinPieces_cons_of_empty hboth, joinPieces_cons_of_empty hfront]
      rw [joinPieces_cons hpiece hboth]
      by_cases hfront : ∀ piece ∈ front, piece = []
      · refine .inr (.inr ?_)
        rw [joinPieces_cons_of_empty hfront,
          joinPieces_append_of_empty hfront]
      rw [joinPieces_cons hpiece hfront]
      rcases ih with ⟨hnil, -⟩ | ⟨hnil, hjoin⟩ | hjoin
      · exact absurd (joinPieces_eq_nil_iff.mp hnil) hfront
      · exact .inr (.inl ⟨hnil, by rw [hjoin]⟩)
      · refine .inr (.inr ?_)
        rw [hjoin, List.append_assoc, List.cons_append]

variable {before after tail : List UInt8} {exact later : Prop}

/-- A delimiter was written behind a piece. -/
theorem trailer_of_delimiter (hpiece : piece ≠ [])
    (hafter : after = before ++ piece ++ [delimiter] ++
      joinPieces delimiter pieces ++ tail)
    (htail : IsTrailer delimiter pieces later tail) (hlater : exact → later)
    (hmore : exact → ¬ ∀ piece ∈ pieces, piece = []) :
    ∃ tail, after =
        before ++ joinPieces delimiter (piece :: pieces) ++ tail ∧
      IsTrailer delimiter (piece :: pieces) exact tail := by
  have hnot : ¬ ∀ other ∈ piece :: pieces, other = [] :=
    fun hnone => hpiece (hnone piece List.mem_cons_self)
  by_cases hempty : ∀ piece ∈ pieces, piece = []
  · refine ⟨[delimiter], ?_, .inr rfl, fun hnone => absurd hnone hnot, ?_⟩
    · rw [hafter, htail.of_empty hempty, joinPieces_of_empty hempty,
        joinPieces_cons_of_empty hempty, List.append_nil, List.append_nil]
    · intro hexact
      exact absurd hempty (hmore hexact)
  · refine ⟨tail, ?_, htail.cases, fun hnone => absurd hnone hnot, ?_⟩
    · rw [hafter, joinPieces_cons hpiece hempty]
      simp
    · intro hexact
      exact htail.of_exact (hlater hexact)

/-- No delimiter was written behind a piece: it is empty, or nothing
follows. -/
theorem trailer_of_no_delimiter
    (hafter : after = before ++ piece ++ joinPieces delimiter pieces ++ tail)
    (htail : IsTrailer delimiter pieces later tail) (hlater : exact → later)
    (hlast : piece ≠ [] → ∀ piece ∈ pieces, piece = []) :
    ∃ tail, after =
        before ++ joinPieces delimiter (piece :: pieces) ++ tail ∧
      IsTrailer delimiter (piece :: pieces) exact tail := by
  refine ⟨tail, ?_, htail.cases, ?_, ?_⟩
  · by_cases hpiece : piece = []
    · rw [hafter, hpiece, joinPieces_nil_cons, List.append_nil]
    · have hempty := hlast hpiece
      rw [hafter, joinPieces_of_empty hempty, joinPieces_cons_of_empty hempty,
        List.append_nil]
  · intro hnone
    exact htail.of_empty (List.forall_mem_cons.mp hnone).2
  · intro hexact
    exact htail.of_exact (hlater hexact)

theorem Linewise.joinPieces {β : Type} {make : List UInt8 → List β}
    (hmake : Linewise delimiter make) (pieces : List (List UInt8)) :
    make (joinPieces delimiter pieces) = pieces.flatMap make := by
  rw [JsonIntake.joinPieces, hmake.intercalate, hmake.flatMap_filter]

end JoinPieces

/-! ## Steps -/

/-- The size that decides whether a source is skipped, and the source after
it has been asked. -/
def askSize (offset position : Nat) (source : Source) :
    Except Failure Nat × Source :=
  if position < offset then source.exactSize else (.ok source.size, source)

section Steps

variable {offset position remaining size copied : Nat} {delimiter : UInt8}
  {buffer filled : Buffer} {failure : Failure}
  {source known after : Source} {rest : List Source}

theorem ingestFrom_stop (hstop : remaining = 0 ∧ offset ≤ position) :
    ingestFrom offset delimiter position remaining buffer (source :: rest) =
      ⟨.ok position, buffer, source :: rest⟩ := by
  rw [ingestFrom, if_pos hstop]

theorem ingestFrom_refused (hgo : ¬ (remaining = 0 ∧ offset ≤ position))
    (hsize : askSize offset position source = (.error failure, known)) :
    ingestFrom offset delimiter position remaining buffer (source :: rest) =
      ⟨.error failure, buffer, known :: rest⟩ := by
  unfold askSize at hsize
  rw [ingestFrom, if_neg hgo, hsize]

/-- A source has to end at a word by the size that it has told. -/
theorem ingestFrom_beyond (hgo : ¬ (remaining = 0 ∧ offset ≤ position))
    (hsize : askSize offset position source = (.ok size, known))
    (hbeyond : Size.limit ≤ position + size) :
    ingestFrom offset delimiter position remaining buffer (source :: rest) =
      ⟨.error .overflow, buffer, known :: rest⟩ := by
  unfold askSize at hsize
  rw [ingestFrom, if_neg hgo, hsize]
  simp only [Size.add?_eq_none_iff.mpr hbeyond]

theorem ingestFrom_skip (hgo : ¬ (remaining = 0 ∧ offset ≤ position))
    (hsize : askSize offset position source = (.ok size, known))
    (hword : position + size < Size.limit)
    (hskip : position + size ≤ offset) :
    ingestFrom offset delimiter position remaining buffer (source :: rest) =
      (ingestFrom offset delimiter (position + size) remaining buffer
        rest).after known := by
  unfold askSize at hsize
  rw [ingestFrom, if_neg hgo, hsize]
  simp only [Size.add?_of_lt hword, if_pos hskip]

theorem ingestFrom_failed (hgo : ¬ (remaining = 0 ∧ offset ≤ position))
    (hsize : askSize offset position source = (.ok size, known))
    (hword : position + size < Size.limit)
    (hreach : offset < position + size)
    (hcopy : known.copyTo (offset - position) remaining buffer =
      (.error failure, after)) :
    ingestFrom offset delimiter position remaining buffer (source :: rest) =
      ⟨.error failure, buffer, after :: rest⟩ := by
  unfold askSize at hsize
  rw [ingestFrom, if_neg hgo, hsize]
  simp only [Size.add?_of_lt hword, if_neg (Nat.not_le.mpr hreach), hcopy]

theorem ingestFrom_copy (hgo : ¬ (remaining = 0 ∧ offset ≤ position))
    (hsize : askSize offset position source = (.ok size, known))
    (hword : position + size < Size.limit)
    (hreach : offset < position + size)
    (hcopy : known.copyTo (offset - position) remaining buffer =
      (.ok (copied, filled), after))
    (hafter : position + after.size < Size.limit) :
    ingestFrom offset delimiter position remaining buffer (source :: rest) =
      (ingestFrom offset delimiter (position + after.size)
        (remaining - copied)
        (if 0 < copied ∧ after.size ≤ offset - position + copied ∧
            0 < remaining - copied ∧
            (rest.any fun later => 0 < later.size) = true then
          filled.push delimiter
        else filled) rest).after after := by
  unfold askSize at hsize
  rw [ingestFrom, if_neg hgo, hsize]
  simp only [Size.add?_of_lt hword, if_neg (Nat.not_le.mpr hreach), hcopy,
    Size.add?_of_lt hafter]

/-- Sources in front of the stream that are believed to be empty are passed
over. -/
theorem ingestFrom_unseen (delimiter : UInt8) (buffer : Buffer)
    {unseen : List Source} (rest : List Source)
    (hunseen : ∀ source ∈ unseen, source.size = 0)
    (hremaining : remaining ≠ 0) :
    (ingestFrom 0 delimiter 0 remaining buffer (unseen ++ rest)).reached =
        (ingestFrom 0 delimiter 0 remaining buffer rest).reached ∧
      (ingestFrom 0 delimiter 0 remaining buffer (unseen ++ rest)).buffer =
        (ingestFrom 0 delimiter 0 remaining buffer rest).buffer := by
  induction unseen with
  | nil => exact ⟨rfl, rfl⟩
  | cons source unseen ih =>
      rw [List.forall_mem_cons] at hunseen
      have hgo : ¬ (remaining = 0 ∧ 0 ≤ 0) := fun hstop => hremaining hstop.1
      have hsize : askSize 0 0 source = (.ok 0, source) := by
        rw [askSize, if_neg (Nat.lt_irrefl 0), hunseen.1]
      rw [List.cons_append,
        ingestFrom_skip hgo hsize (by decide) (Nat.le_refl 0)]
      exact ih hunseen.2

/-- A source is skipped only if the range starts behind it, and else the
range starts inside it or before it. -/
theorem askSize_of_sound (offset position : Nat) (hsound : source.Sound)
    (hvisible : source.Visible) :
    ∃ size known, askSize offset position source = (.ok size, known) ∧
      source.Reads known ∧ size ≤ source.weight ∧
      (position + size ≤ offset →
        size = source.content.length ∧
          known.size = source.content.length) ∧
      (offset < position + size →
        offset - position ≤ source.content.length) := by
  unfold askSize
  by_cases hbefore : position < offset
  · obtain ⟨known, hknown, hreads, hexact⟩ := hsound.exactSize
    refine ⟨source.content.length, known, by rw [if_pos hbefore, hknown],
      hreads, Nat.le_max_right _ _, fun _ => ⟨rfl, ?_⟩, ?_⟩
    · rw [hreads.sound.size_eq hexact, hreads.content_eq]
    · intro hreach
      omega
  · refine ⟨source.size, source, by rw [if_neg hbefore], .refl hsound,
      Nat.le_max_left _ _, ?_, ?_⟩
    · intro hskip
      have hzero : source.size = 0 := by omega
      rw [hzero, hvisible hzero]
      exact ⟨rfl, rfl⟩
    · intro _
      omega

end Steps

@[simp] theorem Ingestion.after_buffer (source : Source)
    (copy : Ingestion) : (copy.after source).buffer = copy.buffer := rfl

/-! ## A whole copy -/

/-- What a copy of `remaining` bytes from `offset` leaves behind, out of
sources that begin at `position`. -/
structure Copies (delimiter : UInt8) (offset position remaining : Nat)
    (buffer : Buffer) (sources : List Source) (copy : Ingestion) :
    Prop where
  reached : ∃ reached, copy.reached = .ok reached ∧
    reached ≤ position + (sources.map Source.content).flatten.length ∧
    (reached < position + (sources.map Source.content).flatten.length →
      offset ≤ reached)
  buffer : ∃ tail,
    copy.buffer.toList =
      buffer.toList ++
        joinPieces delimiter
          (slices (offset - position) (offset - position + remaining)
            (sources.map Source.content)) ++ tail ∧
    IsTrailer delimiter
      (slices (offset - position) (offset - position + remaining)
        (sources.map Source.content))
      (∀ source ∈ sources, source.Delivers) tail
  /-- As far as the range goes, the sizes are exact now. -/
  sizes : min (offset - position + remaining)
      (copy.sources.map Source.size).sum =
    min (offset - position + remaining)
      (sources.map Source.content).flatten.length
  sources : Source.AllRead sources copy.sources

theorem slices_zero_eq_nil_iff {remaining : Nat}
    (contents : List (List UInt8)) (hremaining : 0 < remaining) :
    (∀ slice ∈ slices 0 remaining contents, slice = []) ↔
      ∀ content ∈ contents, content = [] := by
  induction contents with
  | nil => simp [slices]
  | cons content rest ih =>
      have htake : content.take remaining = [] ↔ content = [] := by
        rw [List.take_eq_nil_iff]
        exact or_iff_right (by omega)
      simp only [slices, List.drop_zero, Nat.zero_sub,
        List.forall_mem_cons, htake]
      refine and_congr_right fun hcontent => ?_
      subst hcontent
      simpa using ih

theorem any_size_of_visible {sources : List Source}
    (hvisible : ∀ source ∈ sources, source.Visible)
    (hany : ¬ (sources.any fun later => 0 < later.size) = true) :
    ∀ content ∈ sources.map Source.content, content = [] := by
  intro content hcontent
  obtain ⟨source, hsource, rfl⟩ := List.mem_map.mp hcontent
  apply hvisible source hsource
  rw [List.any_eq_true] at hany
  have hnone : ¬ 0 < source.size := fun hpos =>
    hany ⟨source, hsource, by simpa using hpos⟩
  omega

theorem not_any_size_of_delivers {sources : List Source}
    (hdelivers : ∀ source ∈ sources, source.Delivers)
    (hempty : ∀ content ∈ sources.map Source.content, content = []) :
    ¬ (sources.any fun later => 0 < later.size) = true := by
  rw [List.any_eq_true]
  rintro ⟨source, hsource, hpos⟩
  have hcontent := hempty source.content (List.mem_map_of_mem hsource)
  rw [hdelivers source hsource hcontent] at hpos
  simp at hpos

section Whole

variable {delimiter : UInt8} {offset position remaining : Nat}
  {buffer : Buffer} {source known after : Source} {rest : List Source}

theorem copies_stop {sources : List Source}
    (hsound : ∀ source ∈ sources, source.Sound)
    (hstop : remaining = 0 ∧ offset ≤ position) :
    Copies delimiter offset position remaining buffer sources
      ⟨.ok position, buffer, sources⟩ where
  reached := ⟨position, rfl, Nat.le_add_right _ _, fun _ => hstop.2⟩
  buffer := by
    have hstart : offset - position + remaining ≤ offset - position := by
      omega
    have hempty := slices_eq_nil hstart (sources.map Source.content)
    refine ⟨[], ?_, .inl rfl, fun _ => rfl, fun _ => rfl⟩
    rw [joinPieces_of_empty hempty]
    simp
  sources := Source.allRead_refl hsound
  sizes := by omega

theorem copies_skip {copy : Ingestion} (hreads : source.Reads known)
    (hsize : known.size = source.content.length)
    (hskip : position + source.content.length ≤ offset)
    (hlater : Copies delimiter offset (position + source.content.length)
      remaining buffer rest copy) :
    Copies delimiter offset position remaining buffer (source :: rest)
      (copy.after known) where
  reached := by
    obtain ⟨reached, hreached, hle, hoffset⟩ := hlater.reached
    refine ⟨reached, hreached, ?_, ?_⟩ <;>
      rw [List.map_cons, List.flatten_cons, List.length_append]
    · omega
    · intro hlt
      exact hoffset (by omega)
  buffer := by
    have hslices :
        slices (offset - position) (offset - position + remaining)
            ((source :: rest).map Source.content) =
          [] :: slices (offset - (position + source.content.length))
            (offset - (position + source.content.length) + remaining)
            (rest.map Source.content) := by
      have hhead :
          (source.content.take (offset - position + remaining)).drop
            (offset - position) = [] := by
        apply List.drop_eq_nil_of_le
        rw [List.length_take]
        omega
      rw [List.map_cons, slices, hhead]
      congr 2 <;> omega
    obtain ⟨tail, hbuffer, htail⟩ := hlater.buffer
    refine ⟨tail, ?_, htail.cases, ?_, ?_⟩
    · rw [hslices, joinPieces_nil_cons]
      exact hbuffer
    · intro hempty
      rw [hslices, List.forall_mem_cons] at hempty
      exact htail.of_empty hempty.2
    · intro hdelivers
      exact htail.of_exact (List.forall_mem_cons.mp hdelivers).2
  sources := .cons hreads hlater.sources
  sizes := by
    have hrest := hlater.sizes
    rw [List.map_cons, List.flatten_cons, List.length_append, Ingestion.after,
      List.map_cons, List.sum_cons, hsize]
    omega

/-- The pieces of a range are the one that is copied and the later ones. -/
theorem slices_copied {contents : List (List UInt8)} {content : List UInt8}
    (hstart : offset - position ≤ content.length) :
    slices (offset - position) (offset - position + remaining)
        (content :: contents) =
      (content.drop (offset - position)).take remaining ::
        slices 0 (remaining -
          min remaining (content.length - (offset - position))) contents := by
  rw [slices, take_drop_eq_drop_take]
  congr 2 <;> omega

/-- Behind a source that was copied comes a delimiter if it was copied to
its end and more is wanted and promised. -/
theorem copies_copy {copy : Ingestion} {filled : Buffer}
    (hvisible : ∀ later ∈ rest, later.Visible)
    (hreads : source.Reads after) (hexact : after.isSizeExact = true)
    (hstart : offset - position ≤ source.content.length)
    (hfilled : filled.toList = buffer.toList ++
      (source.content.drop (offset - position)).take remaining)
    (hlater : Copies delimiter offset (position + source.content.length)
      (remaining - min remaining
        (source.content.length - (offset - position)))
      (if 0 < min remaining
            (source.content.length - (offset - position)) ∧
          after.size ≤ offset - position +
            min remaining (source.content.length - (offset - position)) ∧
          0 < remaining - min remaining
            (source.content.length - (offset - position)) ∧
          (rest.any fun later => 0 < later.size) = true then
        filled.push delimiter
      else filled) rest copy) :
    Copies delimiter offset position remaining buffer (source :: rest)
      (copy.after after) where
  reached := by
    obtain ⟨reached, hreached, hle, hoffset⟩ := hlater.reached
    refine ⟨reached, hreached, ?_, ?_⟩ <;>
      rw [List.map_cons, List.flatten_cons, List.length_append]
    · omega
    · intro hlt
      exact hoffset (by omega)
  buffer := by
    have hsize : after.size = source.content.length := by
      rw [hreads.sound.size_eq hexact, hreads.content_eq]
    obtain ⟨tail, hbuffer, htail⟩ := hlater.buffer
    have hfrom : offset - (position + source.content.length) = 0 := by omega
    rw [hfrom, Nat.zero_add] at hbuffer htail
    rw [hsize] at hbuffer
    have hlength :
        ((source.content.drop (offset - position)).take remaining).length =
          min remaining (source.content.length - (offset - position)) := by
      rw [List.length_take, List.length_drop]
    have hall : (∀ each ∈ source :: rest, each.Delivers) →
        ∀ later ∈ rest, later.Delivers :=
      fun hall => (List.forall_mem_cons.mp hall).2
    rw [List.map_cons, slices_copied hstart, Ingestion.after_buffer]
    split at hbuffer
    · next hpush =>
        obtain ⟨hpositive, -, hwanted, hmore⟩ := hpush
        refine trailer_of_delimiter ?_ ?_ htail hall ?_
        · rw [← List.length_pos_iff, hlength]
          exact hpositive
        · rw [hbuffer, Buffer.toList_push, hfilled]
        · intro hdelivers hempty
          rw [slices_zero_eq_nil_iff _ hwanted] at hempty
          exact not_any_size_of_delivers (hall hdelivers) hempty hmore
    · next hpush =>
        refine trailer_of_no_delimiter ?_ htail hall ?_
        · rw [hbuffer, hfilled]
        · -- Without a delimiter nothing more is copied.
          intro hpiece
          rw [← List.length_pos_iff, hlength] at hpiece
          by_cases hwanted : 0 < remaining -
              min remaining (source.content.length - (offset - position))
          · rw [slices_zero_eq_nil_iff _ hwanted]
            apply any_size_of_visible hvisible
            intro hmore
            exact hpush ⟨hpiece, by omega, hwanted, hmore⟩
          · exact slices_eq_nil (by omega) _
  sources := .cons hreads hlater.sources
  sizes := by
    have hsize : after.size = source.content.length := by
      rw [hreads.sound.size_eq hexact, hreads.content_eq]
    have hrest := hlater.sizes
    rw [List.map_cons, List.flatten_cons, List.length_append, Ingestion.after,
      List.map_cons, List.sum_cons, hsize]
    omega

end Whole

/-- A copy leaves behind what it should. -/
theorem ingestFrom_copies (offset : Nat) (delimiter : UInt8)
    {position : Nat} (remaining : Nat) (buffer : Buffer)
    {sources : List Source}
    (hsound : ∀ source ∈ sources, source.Sound)
    (hvisible : ∀ source ∈ sources, source.Visible)
    (hfits : position + (sources.map Source.weight).sum < Size.limit) :
    Copies delimiter offset position remaining buffer sources
      (ingestFrom offset delimiter position remaining buffer sources) := by
  induction sources generalizing position remaining buffer with
  | nil =>
      refine ⟨⟨position, rfl, by simp, by simp⟩, ⟨[], ?_, ?_⟩, rfl, .nil⟩
      · simp [slices, ingestFrom]
      · exact ⟨.inl rfl, fun _ => rfl, fun _ => rfl⟩
  | cons source rest ih =>
      by_cases hstop : remaining = 0 ∧ offset ≤ position
      · rw [ingestFrom_stop hstop]
        exact copies_stop hsound hstop
      · rw [List.forall_mem_cons] at hsound hvisible
        rw [List.map_cons, List.sum_cons] at hfits
        have hweight : source.content.length ≤ source.weight :=
          Nat.le_max_right _ _
        obtain ⟨size, known, hsize, hreads, hle, hskip, hreach⟩ :=
          askSize_of_sound offset position hsound.1 hvisible.1
        have hword : position + size < Size.limit := by omega
        by_cases hbehind : position + size ≤ offset
        · obtain ⟨hlength, hknown⟩ := hskip hbehind
          rw [ingestFrom_skip hstop hsize hword hbehind, hlength]
          rw [hlength] at hbehind
          exact copies_skip hreads hknown hbehind
            (ih remaining buffer hsound.2 hvisible.2 (by omega))
        · have hstart := hreach (by omega)
          have hinside : offset - position ≤ known.content.length := by
            rwa [hreads.content_eq]
          obtain ⟨after, hafter, hcopied, hexact⟩ :=
            hreads.sound.copyTo remaining buffer hinside
          rw [hreads.content_eq] at hafter
          have hposition :
              position + after.size = position + source.content.length := by
            rw [hcopied.sound.size_eq hexact, hcopied.content_eq,
              hreads.content_eq]
          rw [ingestFrom_copy hstop hsize hword (Nat.lt_of_not_le hbehind)
            hafter (by omega), hposition]
          exact copies_copy hvisible.2 (hreads.trans hcopied)
            hexact hstart (Buffer.toList_append _ _)
            (ih _ _ hsound.2 hvisible.2 (by omega))

namespace SourceSet

variable {set : SourceSet} {range : ByteRange} {delimiter : UInt8}

theorem Sound.copies (hsound : set.Sound) (hvisible : set.Visible)
    (hfits : set.Fits) (range : ByteRange) (delimiter : UInt8)
    (buffer : Buffer) :
    Copies delimiter range.offset 0 range.size buffer.clear set.sources
      (ingestFrom range.offset delimiter 0 range.size buffer.clear
        set.sources) := by
  apply ingestFrom_copies range.offset delimiter range.size buffer.clear
    hsound.sources hvisible
  rw [Nat.zero_add]
  exact hfits

theorem Sound.ingest_count (hsound : set.Sound) (hvisible : set.Visible)
    (hfits : set.Fits) (range : ByteRange) (delimiter : UInt8)
    (buffer : Buffer)
    (hoffset : range.offset ≤ set.contents.flatten.length) :
    (ingest buffer set range delimiter).count =
      .ok (ingest buffer set range delimiter).buffer.size := by
  obtain ⟨reached, hreached, hle, hexhausted⟩ :=
    (hsound.copies hvisible hfits range delimiter buffer).reached
  have hinside : ¬ reached < range.offset := by
    intro hlt
    have htotal : set.contents.flatten.length =
        (set.sources.map Source.content).flatten.length := rfl
    have := hexhausted (by omega)
    omega
  simp only [ingest, hreached, if_neg hinside]

/-- A range that starts inside the stream is ingested, and what is made of the
buffer line by line is what is made of the range. -/
theorem Sound.ingest_linewise {β : Type} {make : List UInt8 → List β}
    (hmake : Linewise delimiter make) (hsound : set.Sound)
    (hvisible : set.Visible) (hfits : set.Fits) (buffer : Buffer)
    (hoffset : range.offset ≤ set.contents.flatten.length) :
    (ingest buffer set range delimiter).count =
        .ok (ingest buffer set range delimiter).buffer.size ∧
      make (ingest buffer set range delimiter).buffer.toList =
        readRange make set.contents range.offset
          (range.offset + range.size) ∧
      set.Reads (ingest buffer set range delimiter).set := by
  have hcopies := hsound.copies hvisible hfits range delimiter buffer
  obtain ⟨tail, hbuffer, htail⟩ := hcopies.buffer
  refine ⟨hsound.ingest_count hvisible hfits _ _ buffer hoffset, ?_,
    hcopies.sources⟩
  have hpieces :
      make (joinPieces delimiter
        (slices range.offset (range.offset + range.size) set.contents)) =
        readRange make set.contents range.offset
          (range.offset + range.size) :=
    hmake.joinPieces _
  simp only [ingest]
  rw [hbuffer, Buffer.toList_clear, List.nil_append, Nat.sub_zero,
    ← hpieces]
  rcases htail.cases with rfl | rfl
  · rw [List.append_nil]
    rfl
  · rw [hmake.concat_delimiter]
    rfl

/-- A whole stream of known sizes is ingested as its pieces with one
delimiter between two of them. -/
theorem Sound.ingest_all (hsound : set.Sound) (hexact : set.Exact)
    (delimiter : UInt8) (buffer : Buffer) :
    (ingest buffer set (.toEnd 0) delimiter).buffer.toList =
      joinPieces delimiter set.contents := by
  have hslices :
      slices 0 (0 + (ByteRange.toEnd 0).size) set.contents =
        set.contents := by
    apply slices_all
    have hlength := hsound.length_lt
    simp only [ByteRange.toEnd, Size.maximum, Size.limit] at hlength ⊢
    omega
  obtain ⟨tail, hbuffer, htail⟩ :=
    (hsound.copies (hsound.visible hexact) (hsound.fits hexact) (.toEnd 0)
      delimiter buffer).buffer
  obtain rfl := htail.of_exact fun source hsource =>
    (hsound.sources source hsource).delivers (hexact source hsource)
  simp only [ingest]
  rw [hbuffer, Buffer.toList_clear, List.nil_append, List.append_nil]
  exact congrArg (joinPieces delimiter) hslices

end SourceSet

end JsonIntake
