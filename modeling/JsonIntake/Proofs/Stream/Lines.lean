import JsonIntake.Proofs.Stream.Slices

/-!
# Lines of the stream

The lines of the stream are those of its contents, with the positions of
their first bytes.  Every one of them starts where a record may start: at the
front, behind a delimiter or at the end of a source.  A range between two such
places holds the lines whose first bytes lie in it, and no part of any other
line.
-/

namespace JsonIntake

/-- A line and the position of its first byte in the stream. -/
structure StreamLine where
  start : Nat
  bytes : List UInt8
deriving DecidableEq

/-- Lines with one delimiter between each two, the first of which begins at
`start`. -/
def linesFrom (start : Nat) : List (List UInt8) → List StreamLine
  | [] => []
  | line :: rest => ⟨start, line⟩ :: linesFrom (start + line.length + 1) rest

/-- The lines of contents that begin at `start`. -/
def streamLinesFrom (delimiter : UInt8) (start : Nat) :
    List (List UInt8) → List StreamLine
  | [] => []
  | content :: rest =>
    linesFrom start (splitAtDelimiter delimiter content) ++
      streamLinesFrom delimiter (start + content.length) rest

def streamLines (delimiter : UInt8) (contents : List (List UInt8)) :
    List StreamLine :=
  streamLinesFrom delimiter 0 contents

/-- What is made of lines, in order. -/
def readLines {β : Type} (make : List UInt8 → List β)
    (lines : List StreamLine) : List β :=
  lines.flatMap fun line => make line.bytes

theorem readLines_append {β : Type} (make : List UInt8 → List β)
    (front back : List StreamLine) :
    readLines make (front ++ back) =
      readLines make front ++ readLines make back :=
  List.flatMap_append

/-- The lines whose first bytes lie in a range. -/
def linesIn (delimiter : UInt8) (contents : List (List UInt8))
    (range : ByteRange) : List StreamLine :=
  (streamLines delimiter contents).filter fun line =>
    range.offset ≤ line.start && line.start < range.offset + range.size

theorem exists_append_of_getElem? {bytes : List UInt8} {index : Nat}
    {byte : UInt8} (hbyte : bytes[index]? = some byte) :
    ∃ front back, bytes = front ++ byte :: back ∧ front.length = index := by
  obtain ⟨hlt, hget⟩ := List.getElem?_eq_some_iff.mp hbyte
  refine ⟨bytes.take index, bytes.drop (index + 1), ?_, ?_⟩
  · rw [← hget, List.getElem_cons_drop, List.take_append_drop]
  · rw [List.length_take]
    omega

section LinesFrom

variable {delimiter : UInt8} {start : Nat}

theorem linesFrom_split_append (front back : List UInt8) :
    linesFrom start (splitAtDelimiter delimiter (front ++ delimiter :: back)) =
      linesFrom start (splitAtDelimiter delimiter front) ++
        linesFrom (start + front.length + 1)
          (splitAtDelimiter delimiter back) := by
  induction front using line_induction delimiter generalizing start with
  | last line hline =>
      rw [splitAtDelimiter_line delimiter hline,
        splitAtDelimiter_eq_singleton delimiter hline]
      rfl
  | step line rest hline ih =>
      have hlength :
          start + (line ++ delimiter :: rest).length + 1 =
            start + line.length + 1 + rest.length + 1 := by
        rw [List.length_append, List.length_cons]
        omega
      rw [List.append_assoc, List.cons_append,
        splitAtDelimiter_line delimiter hline,
        splitAtDelimiter_line delimiter hline, hlength]
      simp only [linesFrom, List.cons_append]
      rw [ih]

theorem le_start_of_mem_linesFrom {lines : List (List UInt8)}
    {line : StreamLine} (hline : line ∈ linesFrom start lines) :
    start ≤ line.start := by
  induction lines generalizing start with
  | nil => exact absurd hline List.not_mem_nil
  | cons first rest ih =>
      rcases List.mem_cons.mp hline with rfl | hrest
      · exact Nat.le_refl start
      · have hle := ih hrest
        omega

theorem pairwise_linesFrom (lines : List (List UInt8)) :
    (linesFrom start lines).Pairwise fun a b => a.start ≤ b.start := by
  induction lines generalizing start with
  | nil => exact .nil
  | cons first rest ih =>
      refine .cons ?_ ih
      intro line hline
      have hle := le_start_of_mem_linesFrom hline
      simp only
      omega

/-- A line ends inside the content. -/
theorem stop_le_of_mem_linesFrom {bytes : List UInt8} {line : StreamLine}
    (hmem : line ∈ linesFrom start (splitAtDelimiter delimiter bytes)) :
    line.start + line.bytes.length ≤ start + bytes.length := by
  induction bytes using line_induction delimiter generalizing start with
  | last bytes hbytes =>
      rw [splitAtDelimiter_eq_singleton delimiter hbytes] at hmem
      obtain rfl := List.mem_singleton.mp hmem
      exact Nat.le_refl _
  | step first rest hfirst ih =>
      rw [splitAtDelimiter_line delimiter hfirst] at hmem
      rw [List.length_append, List.length_cons]
      rcases List.mem_cons.mp hmem with rfl | hrest
      · exact Nat.add_le_add_left (Nat.le_add_right _ _) start
      · have hle := ih hrest
        omega

/-- A line starts at the front of the content or behind a delimiter. -/
theorem start_of_mem_linesFrom {bytes : List UInt8} {line : StreamLine}
    (hmem : line ∈ linesFrom start (splitAtDelimiter delimiter bytes)) :
    line.start = start ∨
      (start < line.start ∧
        bytes[line.start - start - 1]? = some delimiter) := by
  induction bytes using line_induction delimiter generalizing start with
  | last bytes hbytes =>
      rw [splitAtDelimiter_eq_singleton delimiter hbytes] at hmem
      obtain rfl := List.mem_singleton.mp hmem
      exact .inl rfl
  | step first rest hfirst ih =>
      rw [splitAtDelimiter_line delimiter hfirst] at hmem
      rcases List.mem_cons.mp hmem with rfl | hrest
      · exact .inl rfl
      · right
        rcases ih hrest with hstart | ⟨hlt, hbyte⟩
        · refine ⟨by omega, ?_⟩
          rw [List.getElem?_append_right (by omega)]
          have hindex : line.start - start - 1 - first.length = 0 := by omega
          rw [hindex]
          rfl
        · refine ⟨by omega, ?_⟩
          rw [List.getElem?_append_right (by omega)]
          have hindex : line.start - start - 1 - first.length =
              line.start - (start + first.length + 1) - 1 + 1 := by
            omega
          rw [hindex, List.getElem?_cons_succ]
          exact hbyte

variable {β : Type} {make : List UInt8 → List β}

theorem readLines_linesFrom (hmake : Linewise delimiter make)
    (start : Nat) (bytes : List UInt8) :
    readLines make (linesFrom start (splitAtDelimiter delimiter bytes)) =
      make bytes := by
  induction bytes using line_induction delimiter generalizing start with
  | last bytes hbytes =>
      rw [splitAtDelimiter_eq_singleton delimiter hbytes]
      simp [linesFrom, readLines]
  | step line rest hline ih =>
      have htail := ih (start + line.length + 1)
      unfold readLines at htail ⊢
      rw [splitAtDelimiter_line delimiter hline, linesFrom,
        List.flatMap_cons, htail, hmake.append_delimiter]

/-- Lines without bytes may be left out. -/
theorem readLines_filter (hmake : Linewise delimiter make)
    {keep : StreamLine → Bool} {lines : List StreamLine}
    (hblank : ∀ line ∈ lines, keep line = false → line.bytes = []) :
    readLines make (lines.filter keep) = readLines make lines := by
  induction lines with
  | nil => rfl
  | cons line rest ih =>
      rw [List.forall_mem_cons] at hblank
      have hrest := ih hblank.2
      unfold readLines at hrest ⊢
      by_cases hkeep : keep line = true
      · rw [List.filter_cons_of_pos hkeep, List.flatMap_cons,
          List.flatMap_cons, hrest]
      · rw [List.filter_cons_of_neg hkeep, List.flatMap_cons, hrest,
          hblank.1 (by simpa using hkeep), hmake.nil, List.nil_append]

theorem readLines_linesFrom_zero (lines : List (List UInt8)) :
    readLines make
        ((linesFrom start lines).filter fun line => line.start < start + 0) =
      [] := by
  have hnone :
      (linesFrom start lines).filter
        (fun line => line.start < start + 0) = [] := by
    rw [List.filter_eq_nil_iff]
    intro line hline
    have hle := le_start_of_mem_linesFrom hline
    simp only [decide_eq_true_eq]
    omega
  rw [hnone]
  rfl

/-- The lines in front of a cut inside a content. -/
theorem readLines_linesFrom_before (hmake : Linewise delimiter make)
    (front back : List UInt8) :
    readLines make
        ((linesFrom start
          (splitAtDelimiter delimiter (front ++ delimiter :: back))).filter
            fun line => line.start < start + (front.length + 1)) =
      make front := by
  have hfront :
      (linesFrom start (splitAtDelimiter delimiter front)).filter
          (fun line => line.start < start + (front.length + 1)) =
        linesFrom start (splitAtDelimiter delimiter front) := by
    rw [List.filter_eq_self]
    intro line hline
    have hle := stop_le_of_mem_linesFrom hline
    simp only [decide_eq_true_eq]
    omega
  have hback :
      (linesFrom (start + front.length + 1)
          (splitAtDelimiter delimiter back)).filter
          (fun line => line.start < start + (front.length + 1)) = [] := by
    rw [List.filter_eq_nil_iff]
    intro line hline
    have hle := le_start_of_mem_linesFrom hline
    simp only [decide_eq_true_eq]
    omega
  rw [linesFrom_split_append, List.filter_append, hfront, hback,
    List.append_nil, readLines_linesFrom hmake]

/-- All lines of a content start in front of its end, but for a blank one. -/
theorem readLines_linesFrom_all (hmake : Linewise delimiter make)
    {stop : Nat} {bytes : List UInt8} (hstop : bytes.length ≤ stop) :
    readLines make
        ((linesFrom start (splitAtDelimiter delimiter bytes)).filter
          fun line => line.start < start + stop) =
      make bytes := by
  rw [readLines_filter hmake, readLines_linesFrom hmake]
  intro line hline hdropped
  have hle := stop_le_of_mem_linesFrom hline
  simp only [decide_eq_false_iff_not] at hdropped
  apply List.eq_nil_of_length_eq_zero
  omega

end LinesFrom

/-! ## Lines of all contents -/

/-- A place where a record may start. -/
def IsRecordStart (delimiter : UInt8) (contents : List (List UInt8))
    (position : Nat) : Prop :=
  position = 0 ∨ IsBoundary delimiter contents position

instance (delimiter : UInt8) (contents : List (List UInt8)) :
    DecidablePred (IsRecordStart delimiter contents) :=
  fun _ => inferInstanceAs (Decidable (_ ∨ _))

section Ends

variable {delimiter : UInt8} {contents : List (List UInt8)} {stop : Nat}

theorem le_of_mem_contentEnds_flatten {start : Nat}
    (hstop : stop ∈ contentEnds start contents) :
    stop ≤ start + contents.flatten.length := by
  induction contents generalizing start with
  | nil => exact absurd hstop List.not_mem_nil
  | cons content rest ih =>
      rw [List.flatten_cons, List.length_append]
      rcases List.mem_cons.mp hstop with rfl | hrest
      · omega
      · have hle := ih hrest
        omega

theorem length_mem_contentEnds (start : Nat) (hcontents : contents ≠ []) :
    start + contents.flatten.length ∈ contentEnds start contents := by
  induction contents generalizing start with
  | nil => exact absurd rfl hcontents
  | cons content rest ih =>
      rw [List.flatten_cons, List.length_append, contentEnds]
      by_cases hrest : rest = []
      · rw [hrest]
        exact List.mem_cons_self
      · rw [← Nat.add_assoc]
        exact List.mem_cons_of_mem _ (ih _ hrest)

theorem isRecordStart_length :
    IsRecordStart delimiter contents contents.flatten.length := by
  by_cases hcontents : contents = []
  · rw [hcontents]
    exact .inl rfl
  · have hmem := length_mem_contentEnds 0 hcontents
    rw [Nat.zero_add] at hmem
    exact .inr (.inl hmem)

end Ends

section StreamLines

variable {delimiter : UInt8} {start stop : Nat}
  {contents : List (List UInt8)} {line : StreamLine}

theorem le_start_of_mem_streamLinesFrom
    (hline : line ∈ streamLinesFrom delimiter start contents) :
    start ≤ line.start := by
  induction contents generalizing start with
  | nil => exact absurd hline List.not_mem_nil
  | cons content rest ih =>
      rcases List.mem_append.mp hline with hfirst | hrest
      · exact le_start_of_mem_linesFrom hfirst
      · have hle := ih hrest
        omega

theorem pairwise_streamLinesFrom (contents : List (List UInt8)) :
    (streamLinesFrom delimiter start contents).Pairwise
      fun a b => a.start ≤ b.start := by
  induction contents generalizing start with
  | nil => exact .nil
  | cons content rest ih =>
      refine List.pairwise_append.mpr ⟨pairwise_linesFrom _, ih, ?_⟩
      intro first hfirst later hlater
      have hstop := stop_le_of_mem_linesFrom hfirst
      have hle := le_start_of_mem_streamLinesFrom hlater
      omega

theorem start_of_mem_streamLinesFrom
    (hline : line ∈ streamLinesFrom delimiter start contents) :
    line.start = start ∨ line.start ∈ contentEnds start contents ∨
      (start < line.start ∧
        contents.flatten[line.start - start - 1]? = some delimiter) := by
  induction contents generalizing start with
  | nil => exact absurd hline List.not_mem_nil
  | cons content rest ih =>
      rw [List.flatten_cons, contentEnds]
      rcases List.mem_append.mp hline with hfirst | hrest
      · rcases start_of_mem_linesFrom hfirst with hstart | ⟨hlt, hbyte⟩
        · exact .inl hstart
        · have hinside := (List.getElem?_eq_some_iff.mp hbyte).1
          refine .inr (.inr ⟨hlt, ?_⟩)
          rw [List.getElem?_append_left hinside]
          exact hbyte
      · rcases ih hrest with hstart | hend | ⟨hlt, hbyte⟩
        · rw [hstart]
          exact .inr (.inl List.mem_cons_self)
        · exact .inr (.inl (List.mem_cons_of_mem _ hend))
        · refine .inr (.inr ⟨by omega, ?_⟩)
          rw [List.getElem?_append_right (by omega), ← hbyte]
          congr 1
          omega

/-- A line ends inside the stream. -/
theorem stop_le_of_mem_streamLinesFrom
    (hline : line ∈ streamLinesFrom delimiter start contents) :
    line.start + line.bytes.length ≤ start + contents.flatten.length := by
  induction contents generalizing start with
  | nil => exact absurd hline List.not_mem_nil
  | cons content rest ih =>
      rw [List.flatten_cons, List.length_append]
      rcases List.mem_append.mp hline with hfirst | hrest
      · have hle := stop_le_of_mem_linesFrom hfirst
        omega
      · have hle := ih hrest
        omega

theorem pairwise_streamLines (delimiter : UInt8)
    (contents : List (List UInt8)) :
    (streamLines delimiter contents).Pairwise
      fun a b => a.start ≤ b.start :=
  pairwise_streamLinesFrom contents

theorem isRecordStart_of_mem_streamLines
    (hline : line ∈ streamLines delimiter contents) :
    IsRecordStart delimiter contents line.start := by
  rcases start_of_mem_streamLinesFrom hline with hstart | hend | hbyte
  · exact .inl hstart
  · exact .inr (.inl hend)
  · exact .inr (.inr hbyte)

variable {β : Type} {make : List UInt8 → List β}

/-- What is made of the lines that start in front of a record start is what is
made of the range in front of it. -/
theorem readLines_before (hmake : Linewise delimiter make) (start : Nat)
    (hstop : IsRecordStart delimiter contents stop) :
    readLines make
        ((streamLinesFrom delimiter start contents).filter fun line =>
          line.start < start + stop) =
      readRange make contents 0 stop := by
  induction contents generalizing start stop with
  | nil => rfl
  | cons content rest ih =>
      rw [streamLinesFrom, List.filter_append, readLines_append,
        readRange_cons, List.drop_zero, Nat.zero_sub]
      by_cases hbehind : content.length ≤ stop
      · have hrest : IsRecordStart delimiter rest (stop - content.length) := by
          by_cases hend : stop = content.length
          · exact .inl (by omega)
          · exact .inr ((hstop.resolve_left (by omega)).in_tail (by omega))
        have hstart : start + stop =
            start + content.length + (stop - content.length) := by
          omega
        rw [readLines_linesFrom_all hmake hbehind,
          List.take_of_length_le hbehind, hstart, ih _ hrest]
      · -- No later content begins in front of the cut.
        have hrest :
            (streamLinesFrom delimiter (start + content.length) rest).filter
              (fun line => line.start < start + stop) = [] := by
          rw [List.filter_eq_nil_iff]
          intro line hline
          have hle := le_start_of_mem_streamLinesFrom hline
          simp only [decide_eq_true_eq]
          omega
        have hnone : readRange make rest 0 (stop - content.length) = [] :=
          readRange_eq_nil hmake rest (by omega)
        rw [hrest, hnone]
        congr 1
        by_cases hzero : stop = 0
        · rw [hzero, readLines_linesFrom_zero, List.take_zero, hmake.nil]
        · have hbyte :=
            (hstop.resolve_left hzero).in_head (by omega) (by omega)
          obtain ⟨front, back, hcontent, hlength⟩ :=
            exists_append_of_getElem? hbyte
          obtain rfl : stop = front.length + 1 := by omega
          have htake :
              content.take (front.length + 1) = front ++ [delimiter] := by
            rw [hcontent, List.take_length_add_append]
            rfl
          rw [htake, hmake.concat_delimiter, hcontent,
            readLines_linesFrom_before hmake]

theorem readLines_streamLinesFrom (hmake : Linewise delimiter make)
    (contents : List (List UInt8)) :
    readLines make (streamLinesFrom delimiter start contents) =
      contents.flatMap make := by
  induction contents generalizing start with
  | nil => rfl
  | cons content rest ih =>
      rw [streamLinesFrom, readLines_append, readLines_linesFrom hmake, ih,
        List.flatMap_cons]

/-- Lines in order are cut in two by a position. -/
theorem filter_start_lt {lines : List StreamLine} {first last : Nat}
    (hsorted : lines.Pairwise fun a b => a.start ≤ b.start)
    (hle : first ≤ last) :
    lines.filter (fun line => line.start < last) =
      lines.filter (fun line => line.start < first) ++
        lines.filter fun line =>
          first ≤ line.start && line.start < last := by
  induction lines with
  | nil => rfl
  | cons line rest ih =>
      rw [List.pairwise_cons] at hsorted
      obtain ⟨hhead, hrest⟩ := hsorted
      by_cases hfirst : line.start < first
      · have hlast : line.start < last := by omega
        have hnot : ¬ first ≤ line.start := by omega
        simp [hfirst, hlast, hnot, ih hrest]
      · have hnone : rest.filter (fun line => line.start < first) = [] := by
          rw [List.filter_eq_nil_iff]
          intro later hlater
          have hlaterLe := hhead later hlater
          simp only [decide_eq_true_eq]
          omega
        have htail := ih hrest
        rw [hnone, List.nil_append] at htail
        have hpositive : first ≤ line.start := by omega
        simp [hfirst, hpositive, hnone, List.filter_cons, htail]

/-- A range between two record starts holds the lines that start in it. -/
theorem readLines_between (hmake : Linewise delimiter make)
    {first last : Nat} (hfirst : IsRecordStart delimiter contents first)
    (hlast : IsRecordStart delimiter contents last)
    (hle : first ≤ last) :
    readLines make
        ((streamLines delimiter contents).filter fun line =>
          first ≤ line.start && line.start < last) =
      readRange make contents first last := by
  have hbefore := readLines_before hmake 0 hfirst
  have hall := readLines_before hmake 0 hlast
  rw [Nat.zero_add] at hbefore hall
  have hsorted := pairwise_streamLines delimiter contents
  unfold streamLines at hsorted ⊢
  rw [filter_start_lt hsorted hle, readLines_append, hbefore,
    readRange_append hmake (Nat.zero_le first) hle hfirst] at hall
  exact List.append_cancel_left hall

end StreamLines

end JsonIntake
