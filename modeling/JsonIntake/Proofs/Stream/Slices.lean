import JsonIntake.Proofs.Records.Lines

/-!
# Slices of the logical stream

The logical stream is the contents of all sources, one behind the other.  A
range of it consists of one slice of every content.  The records of a range
are those of its slices, because no record is made of the bytes of two
sources.

A position is a boundary if the byte in front of it is a delimiter or if a
source ends there.  A range that is cut at a boundary keeps its records: none
of them has bytes on both sides.
-/

namespace JsonIntake

/-- The parts of contents that lie in `[start, stop)`. -/
def slices (start stop : Nat) : List (List UInt8) → List (List UInt8)
  | [] => []
  | content :: rest =>
    (content.take stop).drop start ::
      slices (start - content.length) (stop - content.length) rest

/-- The ends of contents, the first of which begins at `start`. -/
def contentEnds (start : Nat) : List (List UInt8) → List Nat
  | [] => []
  | content :: rest =>
    (start + content.length) :: contentEnds (start + content.length) rest

/-- A place where the stream may be cut. -/
def IsBoundary (delimiter : UInt8) (contents : List (List UInt8))
    (position : Nat) : Prop :=
  position ∈ contentEnds 0 contents ∨
    (0 < position ∧ contents.flatten[position - 1]? = some delimiter)

instance (delimiter : UInt8) (contents : List (List UInt8))
    (position : Nat) : Decidable (IsBoundary delimiter contents position) :=
  inferInstanceAs (Decidable (_ ∨ _))

/-! ## Slices of one content -/

section Bytes

variable {start middle stop : Nat} (bytes : List UInt8)

theorem drop_take_eq_nil (hstop : stop ≤ start) :
    (bytes.take stop).drop start = [] := by
  apply List.drop_eq_nil_of_le
  rw [List.length_take]
  omega

theorem take_drop_eq_drop_take (size : Nat) :
    (bytes.drop start).take size = (bytes.take (start + size)).drop start := by
  rw [List.drop_take]
  congr 1
  omega

theorem drop_take_append (hstart : start ≤ middle)
    (hmiddle : middle ≤ bytes.length) (hstop : middle ≤ stop) :
    (bytes.take stop).drop start =
      (bytes.take middle).drop start ++ (bytes.take stop).drop middle := by
  have hsplit :
      bytes.take stop = bytes.take middle ++ (bytes.take stop).drop middle := by
    have hfront : bytes.take middle = (bytes.take stop).take middle := by
      rw [List.take_take, Nat.min_eq_left hstop]
    rw [hfront, List.take_append_drop]
  have hlength : start ≤ (bytes.take middle).length := by
    rw [List.length_take]
    omega
  calc
    (bytes.take stop).drop start =
        (bytes.take middle ++ (bytes.take stop).drop middle).drop start := by
          rw [← hsplit]
    _ = (bytes.take middle).drop start ++ (bytes.take stop).drop middle :=
      List.drop_append_of_le_length hlength

theorem getLast?_drop_take (hstart : start < middle)
    (hmiddle : middle ≤ bytes.length) :
    ((bytes.take middle).drop start).getLast? = bytes[middle - 1]? := by
  have hlength : (bytes.take middle).length = middle := by
    rw [List.length_take]
    omega
  rw [List.getLast?_drop, hlength, if_neg (by omega),
    List.getLast?_eq_getElem?, hlength, List.getElem?_take, if_pos (by omega)]

end Bytes

/-! ## Slices of the stream -/

theorem slices_eq_nil {start stop : Nat} (hstop : stop ≤ start)
    (contents : List (List UInt8)) :
    ∀ slice ∈ slices start stop contents, slice = [] := by
  induction contents generalizing start stop with
  | nil => simp [slices]
  | cons content rest ih =>
      intro slice hslice
      rcases List.mem_cons.mp hslice with rfl | hrest
      · exact drop_take_eq_nil content hstop
      · exact ih (by omega) slice hrest

theorem slices_all {stop : Nat} (contents : List (List UInt8))
    (hstop : contents.flatten.length ≤ stop) :
    slices 0 stop contents = contents := by
  induction contents generalizing stop with
  | nil => rfl
  | cons content rest ih =>
      rw [List.flatten_cons, List.length_append] at hstop
      simp only [slices, List.drop_zero, Nat.zero_sub]
      rw [List.take_of_length_le (by omega), ih (by omega)]

/-- Only what lies in front of the end counts. -/
theorem slices_min {start stop : Nat} (contents : List (List UInt8)) :
    slices start (min stop contents.flatten.length) contents =
      slices start stop contents := by
  induction contents generalizing start stop with
  | nil => rfl
  | cons content rest ih =>
      simp only [slices, List.flatten_cons, List.length_append]
      have htake :
          content.take (min stop (content.length + rest.flatten.length)) =
            content.take stop := by
        rw [List.take_eq_take_iff]
        omega
      have hstop :
          min stop (content.length + rest.flatten.length) - content.length =
            min (stop - content.length) rest.flatten.length := by
        omega
      rw [htake, hstop, ih]

/-! ## What is made of a range -/

/-- What is made of the slices of a range. -/
def readRange {β : Type} (make : List UInt8 → List β)
    (contents : List (List UInt8)) (start stop : Nat) : List β :=
  (slices start stop contents).flatMap make

section ReadRange

variable {delimiter : UInt8} {start middle stop : Nat} {β : Type}
  {make : List UInt8 → List β}

theorem readRange_eq_nil (hmake : Linewise delimiter make)
    (contents : List (List UInt8)) (hstop : stop ≤ start) :
    readRange make contents start stop = [] := by
  apply List.flatMap_eq_nil_iff.mpr
  intro slice hslice
  rw [slices_eq_nil hstop contents slice hslice, hmake.nil]

theorem readRange_all (contents : List (List UInt8))
    (hstop : contents.flatten.length ≤ stop) :
    readRange make contents 0 stop = contents.flatMap make := by
  rw [readRange, slices_all contents hstop]

/-- Only what lies in front of the end counts. -/
theorem readRange_min (contents : List (List UInt8)) :
    readRange make contents start (min stop contents.flatten.length) =
      readRange make contents start stop := by
  rw [readRange, slices_min, readRange]

@[simp] theorem readRange_cons (content : List UInt8)
    (rest : List (List UInt8)) :
    readRange make (content :: rest) start stop =
      make ((content.take stop).drop start) ++
        readRange make rest (start - content.length)
          (stop - content.length) := by
  simp [readRange, slices]

theorem contentEnds_eq_map (start : Nat) (contents : List (List UInt8)) :
    contentEnds start contents =
      (contentEnds 0 contents).map (start + ·) := by
  induction contents generalizing start with
  | nil => rfl
  | cons content rest ih =>
      simp only [contentEnds, List.map_cons]
      rw [ih, ih (0 + content.length), List.map_map]
      congr 2
      · omega
      · funext stop
        simp only [Function.comp_apply]
        omega

/-- A boundary inside the first content stands behind a delimiter in it. -/
theorem IsBoundary.in_head {content : List UInt8}
    {rest : List (List UInt8)} {position : Nat}
    (hboundary : IsBoundary delimiter (content :: rest) position)
    (hpos : 0 < position) (hlt : position < content.length) :
    content[position - 1]? = some delimiter := by
  rcases hboundary with hend | ⟨-, hbyte⟩
  · rw [contentEnds, contentEnds_eq_map] at hend
    rcases List.mem_cons.mp hend with heq | hlater
    · omega
    · obtain ⟨later, -, heq⟩ := List.mem_map.mp hlater
      omega
  · rw [List.flatten_cons, List.getElem?_append_left (by omega)] at hbyte
    exact hbyte

/-- A boundary behind the first content is one of the rest. -/
theorem IsBoundary.in_tail {content : List UInt8}
    {rest : List (List UInt8)} {position : Nat}
    (hboundary : IsBoundary delimiter (content :: rest) position)
    (hlt : content.length < position) :
    IsBoundary delimiter rest (position - content.length) := by
  rcases hboundary with hend | ⟨-, hbyte⟩
  · rw [contentEnds, contentEnds_eq_map] at hend
    rcases List.mem_cons.mp hend with heq | hlater
    · omega
    · obtain ⟨later, hmem, heq⟩ := List.mem_map.mp hlater
      have hposition : position - content.length = later := by omega
      rw [hposition]
      exact .inl hmem
  · rw [List.flatten_cons, List.getElem?_append_right (by omega)] at hbyte
    refine .inr ⟨by omega, ?_⟩
    rw [← hbyte]
    congr 1
    omega

theorem cutsCleanly_of_isBoundary {content : List UInt8}
    {rest : List (List UInt8)} (hstart : start ≤ middle)
    (hmiddle : middle ≤ content.length)
    (hcut : middle = 0 ∨ IsBoundary delimiter (content :: rest) middle) :
    CutsCleanly delimiter ((content.take middle).drop start)
      ((content.take stop).drop middle) := by
  by_cases hempty : start = middle
  · exact .inl (drop_take_eq_nil content (by omega))
  · by_cases hwhole : middle = content.length
    · refine .inr (.inl (List.drop_eq_nil_of_le ?_))
      rw [List.length_take]
      omega
    · have hboundary := hcut.resolve_left (by omega)
      refine .inr (.inr ?_)
      rw [getLast?_drop_take content (by omega) hmiddle]
      exact hboundary.in_head (by omega) (by omega)

/-- A range that is cut at a boundary has what is made of its two parts. -/
theorem readRange_append (hmake : Linewise delimiter make)
    {contents : List (List UInt8)} (hstart : start ≤ middle)
    (hstop : middle ≤ stop)
    (hcut : middle = 0 ∨ IsBoundary delimiter contents middle) :
    readRange make contents start stop =
      readRange make contents start middle ++
        readRange make contents middle stop := by
  induction contents generalizing start middle stop with
  | nil => rfl
  | cons content rest ih =>
      simp only [readRange_cons]
      by_cases hmiddle : middle ≤ content.length
      · -- The rest of the stream lies behind the cut.
        have hrest :
            readRange make rest (start - content.length)
              (middle - content.length) = [] :=
          readRange_eq_nil hmake rest (by omega)
        have hfrom : start - content.length = middle - content.length := by
          omega
        rw [drop_take_append content hstart hmiddle hstop,
          hmake.append (cutsCleanly_of_isBoundary hstart hmiddle hcut),
          hrest, hfrom]
        simp
      · -- The first content lies in front of the cut.
        have hboundary := hcut.resolve_left (by omega)
        have hback : (content.take stop).drop middle = [] := by
          apply List.drop_eq_nil_of_le
          rw [List.length_take]
          omega
        have hfront : content.take stop = content.take middle := by
          rw [List.take_of_length_le (by omega),
            List.take_of_length_le (by omega)]
        have htail :
            readRange make rest (start - content.length)
                (stop - content.length) =
              readRange make rest (start - content.length)
                  (middle - content.length) ++
                readRange make rest (middle - content.length)
                  (stop - content.length) :=
          ih (by omega) (by omega) (.inr (hboundary.in_tail (by omega)))
        rw [hback, hfront, htail]
        simp [hmake.nil]

/-- The first part of a range that is cut may be all of it. -/
theorem readRange_cut (hmake : Linewise delimiter make)
    {contents : List (List UInt8)} (hstart : start ≤ middle)
    (hstop : middle ≤ stop)
    (hcut : middle = stop ∨ IsBoundary delimiter contents middle) :
    readRange make contents start stop =
      readRange make contents start middle ++
        readRange make contents middle stop := by
  rcases hcut with rfl | hboundary
  · rw [readRange_eq_nil hmake contents (Nat.le_refl middle),
      List.append_nil]
  · exact readRange_append hmake hstart hstop (.inr hboundary)

/-- If no bytes have more in them than their number, neither has a range. -/
theorem length_readRange_le
    (hmake : ∀ bytes, (make bytes).length ≤ bytes.length)
    (start stop : Nat) (contents : List (List UInt8)) :
    (readRange make contents start stop).length ≤
      contents.flatten.length := by
  induction contents generalizing start stop with
  | nil => exact Nat.le_refl 0
  | cons content rest ih =>
      have hhead := hmake ((content.take stop).drop start)
      have hrest :=
        ih (start - content.length) (stop - content.length)
      rw [List.length_drop, List.length_take] at hhead
      rw [readRange_cons, List.flatten_cons, List.length_append,
        List.length_append]
      omega

end ReadRange

end JsonIntake
