import JsonIntake.Proofs.Quote.Run
import JsonIntake.Records

/-!
# The records of a stretch of bytes

Splitting at a delimiter, trimming and dropping blank lines all work on one
line at a time.  So does normalization, since a delimiter resets it.  Hence
the records of two stretches with a delimiter between them are the records of
the first and then those of the second, and the delimiter itself does not
count at the end of a stretch.
-/

namespace JsonIntake

section Split

variable (delimiter : UInt8)

@[simp] theorem splitAtDelimiter_nil :
    splitAtDelimiter delimiter [] = [[]] := rfl

@[simp] theorem splitAtDelimiter_cons_delimiter (bytes : List UInt8) :
    splitAtDelimiter delimiter (delimiter :: bytes) =
      [] :: splitAtDelimiter delimiter bytes := by
  simp [splitAtDelimiter, splitStep]

theorem splitAtDelimiter_ne_nil (bytes : List UInt8) :
    splitAtDelimiter delimiter bytes ≠ [] := by
  cases bytes with
  | nil => simp
  | cons byte rest =>
      simp only [splitAtDelimiter, List.foldr_cons, splitStep]
      split
      · simp
      · split <;> simp

theorem splitAtDelimiter_cons {byte : UInt8} (hbyte : byte ≠ delimiter)
    {bytes piece : List UInt8} {pieces : List (List UInt8)}
    (hsplit : splitAtDelimiter delimiter bytes = piece :: pieces) :
    splitAtDelimiter delimiter (byte :: bytes) =
      (byte :: piece) :: pieces := by
  have hstep :
      splitAtDelimiter delimiter (byte :: bytes) =
        splitStep delimiter byte (splitAtDelimiter delimiter bytes) := rfl
  rw [hstep, hsplit]
  simp [splitStep, hbyte]

theorem splitAtDelimiter_append_delimiter (front back : List UInt8) :
    splitAtDelimiter delimiter (front ++ delimiter :: back) =
      splitAtDelimiter delimiter front ++
        splitAtDelimiter delimiter back := by
  induction front with
  | nil => simp
  | cons byte front ih =>
      by_cases hbyte : byte = delimiter
      · subst hbyte
        simp [ih]
      · obtain ⟨piece, pieces, hsplit⟩ :=
          List.exists_cons_of_ne_nil
            (splitAtDelimiter_ne_nil delimiter front)
        have hlong :
            splitAtDelimiter delimiter (front ++ delimiter :: back) =
              piece :: (pieces ++ splitAtDelimiter delimiter back) := by
          rw [ih, hsplit, List.cons_append]
        rw [List.cons_append, splitAtDelimiter_cons delimiter hbyte hlong,
          splitAtDelimiter_cons delimiter hbyte hsplit, List.cons_append]

theorem splitAtDelimiter_eq_singleton {bytes : List UInt8}
    (hbytes : delimiter ∉ bytes) :
    splitAtDelimiter delimiter bytes = [bytes] := by
  induction bytes with
  | nil => rfl
  | cons byte rest ih =>
      simp only [List.mem_cons, not_or] at hbytes
      exact splitAtDelimiter_cons delimiter (Ne.symm hbytes.1)
        (ih hbytes.2)

theorem splitAtDelimiter_line {line : List UInt8} (hline : delimiter ∉ line)
    (rest : List UInt8) :
    splitAtDelimiter delimiter (line ++ delimiter :: rest) =
      line :: splitAtDelimiter delimiter rest := by
  rw [splitAtDelimiter_append_delimiter,
    splitAtDelimiter_eq_singleton delimiter hline, List.singleton_append]

/-- Induction over the lines of some bytes. -/
theorem line_induction {motive : List UInt8 → Prop}
    (last : ∀ line, delimiter ∉ line → motive line)
    (step : ∀ line rest, delimiter ∉ line → motive rest →
      motive (line ++ delimiter :: rest))
    (bytes : List UInt8) : motive bytes := by
  by_cases hmem : delimiter ∈ bytes
  · obtain ⟨line, rest, hbytes, hline⟩ := List.eq_append_cons_of_mem hmem
    have hshorter : rest.length < bytes.length := by
      rw [hbytes, List.length_append, List.length_cons]
      omega
    rw [hbytes]
    exact step line rest hline (line_induction last step rest)
  · exact last bytes hmem
termination_by bytes.length

@[simp] theorem recordLines_nil : recordLines delimiter [] = [] := rfl

theorem recordLines_append_delimiter (front back : List UInt8) :
    recordLines delimiter (front ++ delimiter :: back) =
      recordLines delimiter front ++ recordLines delimiter back := by
  simp [recordLines, splitAtDelimiter_append_delimiter]

theorem length_recordLines_le_one {line : List UInt8}
    (hline : delimiter ∉ line) :
    (recordLines delimiter line).length ≤ 1 := by
  rw [recordLines, splitAtDelimiter_eq_singleton delimiter hline]
  exact List.length_filter_le _ _

end Split

theorem intercalate_cons_cons (delimiter : UInt8)
    (record next : List UInt8) (rest : List (List UInt8)) :
    [delimiter].intercalate (record :: next :: rest) =
      record ++ delimiter :: [delimiter].intercalate (next :: rest) := by
  rw [List.intercalate_cons_cons, List.append_assoc, List.singleton_append]

/-- Where a stretch may be cut in two: one part is empty, or the first part
ends with a delimiter. -/
def CutsCleanly (delimiter : UInt8) (front back : List UInt8) : Prop :=
  front = [] ∨ back = [] ∨ front.getLast? = some delimiter

/-- What is made of bytes line by line: no line has a part in what is made of
another one. -/
structure Linewise (delimiter : UInt8) {β : Type}
    (make : List UInt8 → List β) : Prop where
  nil : make [] = []
  append_delimiter : ∀ front back,
    make (front ++ delimiter :: back) = make front ++ make back

namespace Linewise

variable {delimiter : UInt8} {β : Type} {make : List UInt8 → List β}

theorem concat_delimiter (hmake : Linewise delimiter make)
    (front : List UInt8) : make (front ++ [delimiter]) = make front := by
  rw [hmake.append_delimiter, hmake.nil, List.append_nil]

theorem append (hmake : Linewise delimiter make) {front back : List UInt8}
    (hcut : CutsCleanly delimiter front back) :
    make (front ++ back) = make front ++ make back := by
  rcases hcut with hfront | hback | hlast
  · simp [hfront, hmake.nil]
  · simp [hback, hmake.nil]
  · obtain ⟨before, rfl⟩ := List.getLast?_eq_some_iff.mp hlast
    rw [hmake.concat_delimiter, List.append_assoc, List.singleton_append,
      hmake.append_delimiter]

/-- What goes line by line goes stretch by stretch. -/
theorem intercalate (hmake : Linewise delimiter make)
    (stretches : List (List UInt8)) :
    make ([delimiter].intercalate stretches) = stretches.flatMap make := by
  induction stretches with
  | nil => simp [List.intercalate, hmake.nil]
  | cons stretch rest ih =>
      cases rest with
      | nil => simp [List.intercalate]
      | cons next rest =>
          rw [intercalate_cons_cons, hmake.append_delimiter, ih]
          rfl

theorem flatMap_filter (hmake : Linewise delimiter make)
    (stretches : List (List UInt8)) :
    (stretches.filter fun stretch => stretch ≠ []).flatMap make =
      stretches.flatMap make := by
  induction stretches with
  | nil => rfl
  | cons stretch rest ih =>
      by_cases hempty : stretch = []
      · subst hempty
        simpa [hmake.nil] using ih
      · rw [List.filter_cons_of_pos (by simpa using hempty),
          List.flatMap_cons, List.flatMap_cons, ih]

/-- If no line has more in it than bytes, neither have the bytes. -/
theorem length_le (hmake : Linewise delimiter make)
    (hline : ∀ line, delimiter ∉ line → (make line).length ≤ line.length)
    (bytes : List UInt8) : (make bytes).length ≤ bytes.length := by
  induction bytes using line_induction delimiter with
  | last line hfree => exact hline line hfree
  | step line rest hfree ih =>
      have hfirst := hline line hfree
      rw [hmake.append_delimiter, List.length_append, List.length_append,
        List.length_cons]
      omega

end Linewise

theorem linewise_recordLines (delimiter : UInt8) :
    Linewise delimiter (recordLines delimiter) where
  nil := rfl
  append_delimiter := recordLines_append_delimiter delimiter

/-- Lines as one text, with or without a delimiter after the last one. -/
inductive TextOf (delimiter : UInt8) (lines : List (List UInt8)) :
    List UInt8 → Prop where
  | separated : TextOf delimiter lines ([delimiter].intercalate lines)
  | terminated :
      TextOf delimiter lines ([delimiter].intercalate lines ++ [delimiter])

theorem TextOf.recordLines {delimiter : UInt8} {lines : List (List UInt8)}
    {bytes : List UInt8} (htext : TextOf delimiter lines bytes) :
    recordLines delimiter bytes = lines.flatMap (recordLines delimiter) := by
  have hlinewise := linewise_recordLines delimiter
  cases htext with
  | separated => exact hlinewise.intercalate lines
  | terminated =>
      rw [hlinewise.concat_delimiter, hlinewise.intercalate lines]

/-- The records of a stretch of bytes: its lines after normalization, trimmed
and without the blank ones. -/
def normalRecords (delimiter : UInt8) (bytes : List UInt8) :
    List (List UInt8) :=
  recordLines delimiter (normalText (some delimiter) bytes)

theorem linewise_normalRecords (delimiter : UInt8) :
    Linewise delimiter (normalRecords delimiter) where
  nil := by simp [normalRecords]
  append_delimiter front back := by
    simp only [normalRecords, normalText_append_delimiter,
      recordLines_append_delimiter]

end JsonIntake
