import JsonIntake.Compression.Zip
import JsonIntake.Size
import Mathlib.Algebra.GroupWithZero.Nat

/-!
# Reads within an archive

The lengths in a local header and in extra fields come from the archive and
may promise more than there is.  The functions with a question mark read with
a check and have no result if a read leaves the bytes or a sum is no word.
They always have a result, and it is that of the functions without the check.
The walk over the extra fields needs no bound on its steps here: each field
makes the rest shorter.
-/

namespace JsonIntake

/-! ## Numbers and cuts -/

theorem LittleEndian.value_lt (bytes : List UInt8) :
    value bytes < Nat.pow 256 bytes.length := by
  induction bytes with
  | nil => exact Nat.one_pos
  | cons byte bytes ih =>
      have hbyte := byte.toNat_lt
      change byte.toNat + 256 * value bytes < Nat.pow 256 bytes.length * 256
      omega

theorem splitExact?_of_le {count : Nat} {bytes : List UInt8}
    (hcount : count ≤ bytes.length) :
    splitExact? count bytes = some (bytes.take count, bytes.drop count) :=
  if_pos (List.length_take_of_le hcount)

theorem splitExact?_of_lt {count : Nat} {bytes : List UInt8}
    (hcount : bytes.length < count) : splitExact? count bytes = none := by
  refine if_neg fun hlength => ?_
  rw [List.length_take] at hlength
  omega

theorem takeNumber?_of_lt {width : Nat} {bytes : List UInt8}
    (hwidth : bytes.length < width) : takeNumber? width bytes = none := by
  rw [takeNumber?, splitExact?_of_lt hwidth]
  rfl

namespace Zip

/-- The bytes from one place up to another, if there are so many. -/
def slice? (bytes : List UInt8) (start stop : Nat) : Option (List UInt8) :=
  if start ≤ stop ∧ stop ≤ bytes.length then
    some ((bytes.drop start).take (stop - start))
  else none

def numberAt? (bytes : List UInt8) (offset width : Nat) : Option Nat :=
  (slice? bytes offset (offset + width)).map LittleEndian.value

theorem slice?_of_le {bytes : List UInt8} {start stop : Nat}
    (hstart : start ≤ stop) (hstop : stop ≤ bytes.length) :
    slice? bytes start stop =
      some ((bytes.drop start).take (stop - start)) :=
  if_pos ⟨hstart, hstop⟩

theorem slice?_to_end {bytes : List UInt8} {start : Nat}
    (hstart : start ≤ bytes.length) :
    slice? bytes start bytes.length = some (bytes.drop start) := by
  rw [slice?_of_le hstart (Nat.le_refl _), ← List.length_drop,
    List.take_length]

theorem numberAt?_of_le {bytes : List UInt8} {offset width : Nat}
    (hroom : offset + width ≤ bytes.length) :
    numberAt? bytes offset width = some (numberAt bytes offset width) := by
  rw [numberAt?, slice?_of_le (Nat.le_add_right _ _) hroom,
    Nat.add_sub_cancel_left]
  rfl

theorem takeNumber?_drop {bytes : List UInt8} (offset width : Nat)
    (hroom : offset + width ≤ bytes.length) :
    takeNumber? width (bytes.drop offset) =
      some (numberAt bytes offset width, bytes.drop (offset + width)) := by
  rw [takeNumber?, splitExact?_of_le, List.drop_drop]
  · rfl
  · rw [List.length_drop]
    omega

theorem numberAt_lt (bytes : List UInt8) (offset width : Nat) :
    numberAt bytes offset width < Nat.pow 256 width :=
  Nat.lt_of_lt_of_le (LittleEndian.value_lt _)
    (Nat.pow_le_pow_right (by decide) (List.length_take_le _ _))

/-! ## The walk over the extra fields -/

/-- What one field does to the walk: it ends the walk with the size or without
one, or leaves the fields behind it. -/
inductive Visit where
  | done (size : Option Nat)
  | next (extra : List UInt8)

/-- The first extra field; nothing if a read leaves the bytes. -/
def visit? (extra : List UInt8) : Option Visit :=
  if extra.length < 4 then some (.done none)
  else do
    let field ← numberAt? extra 0 2
    let length ← numberAt? extra 2 2
    let stop ← Size.add? 4 length
    match slice? extra 4 stop with
    | none => some (.done none)
    | some body =>
      if field = largeSizeField ∧ 16 ≤ body.length then do
        let size ← numberAt? body 8 8
        some (.done (some size))
      else do
        let rest ← slice? extra stop extra.length
        some (.next rest)

def visit (extra : List UInt8) : Visit :=
  if extra.length < 4 ∨ extra.length < 4 + numberAt extra 2 2 then .done none
  else if numberAt extra 0 2 = largeSizeField ∧ 16 ≤ numberAt extra 2 2 then
    .done (some (numberAt ((extra.drop 4).take (numberAt extra 2 2)) 8 8))
  else .next (extra.drop (4 + numberAt extra 2 2))

theorem visit?_eq (extra : List UInt8) :
    visit? extra = some (visit extra) := by
  unfold visit? visit
  by_cases hheader : extra.length < 4
  · rw [if_pos hheader, if_pos (.inl hheader)]
  · have hlength : numberAt extra 2 2 < 65536 := numberAt_lt _ _ _
    have hword : 4 + numberAt extra 2 2 < Size.limit :=
      Nat.lt_trans (Nat.add_lt_add_left hlength 4) (by decide)
    rw [if_neg hheader, numberAt?_of_le (by omega),
      numberAt?_of_le (by omega)]
    simp only [Option.bind_eq_bind, Option.bind_some, Size.add?_of_lt hword]
    by_cases hbody : extra.length < 4 + numberAt extra 2 2
    · rw [slice?, if_neg (by omega), if_pos (.inr hbody)]
    · have htaken : ((extra.drop 4).take (numberAt extra 2 2)).length =
          numberAt extra 2 2 := by
        rw [List.length_take, List.length_drop]
        omega
      rw [slice?_of_le (Nat.le_add_right _ _) (by omega),
        slice?_to_end (by omega), if_neg (by omega),
        Nat.add_sub_cancel_left]
      simp only [htaken, Option.bind_some]
      split
      · next hlarge =>
          rw [numberAt?_of_le (htaken.symm ▸ hlarge.2)]
          rfl
      · rfl

theorem length_lt_of_visit {extra rest : List UInt8}
    (hvisit : visit extra = .next rest) : rest.length < extra.length := by
  unfold visit at hvisit
  split at hvisit
  · cases hvisit
  · split at hvisit
    · cases hvisit
    · cases hvisit
      rw [List.length_drop]
      omega

/-- The size according to the extra fields, without a bound on the steps. -/
def extraSize? (extra : List UInt8) : Option (Option Nat) :=
  match _ : visit? extra with
  | none => none
  | some (.done size) => some size
  | some (.next rest) => extraSize? rest
termination_by extra.length
decreasing_by
  next hvisit =>
    rw [visit?_eq] at hvisit
    exact length_lt_of_visit (Option.some.inj hvisit)

theorem sizeInExtra?_succ (steps : Nat) (extra : List UInt8) :
    sizeInExtra? (steps + 1) extra =
      match visit extra with
      | .done size => size
      | .next rest => sizeInExtra? steps rest := by
  rw [visit, sizeInExtra?]
  -- Three cuts may fail in turn: the number of the field, its length, its body.
  by_cases hfield : extra.length < 2
  · rw [if_pos (.inl (by omega)), takeNumber?_of_lt hfield]
    rfl
  have hnumber : takeNumber? 2 extra =
      some (numberAt extra 0 2, extra.drop 2) :=
    takeNumber?_drop 0 2 (by omega)
  simp only [hnumber, Option.bind_eq_bind, Option.bind_some]
  by_cases hheader : extra.length < 4
  · rw [if_pos (.inl hheader), takeNumber?_of_lt]
    · rfl
    · rw [List.length_drop]
      omega
  have hlength : takeNumber? 2 (extra.drop 2) =
      some (numberAt extra 2 2, extra.drop 4) :=
    takeNumber?_drop 2 2 (by omega)
  simp only [hlength, Option.bind_some]
  by_cases hbody : extra.length < 4 + numberAt extra 2 2
  · rw [if_pos (.inr hbody), splitExact?_of_lt]
    · rfl
    · rw [List.length_drop]
      omega
  rw [if_neg (by omega), splitExact?_of_le]
  · simp only [Option.bind_some, List.drop_drop]
    split <;> rfl
  · rw [List.length_drop]
    omega

theorem extraSize?_eq {steps : Nat} {extra : List UInt8}
    (hsteps : extra.length < steps) :
    extraSize? extra = some (sizeInExtra? steps extra) := by
  induction steps generalizing extra with
  | zero => exact absurd hsteps (Nat.not_lt_zero _)
  | succ steps ih =>
      rw [extraSize?, sizeInExtra?_succ]
      split
      · next hvisit =>
          rw [visit?_eq] at hvisit
          cases hvisit
      · next size hvisit =>
          rw [visit?_eq] at hvisit
          rw [Option.some.inj hvisit]
      · next rest hvisit =>
          rw [visit?_eq] at hvisit
          have hshorter := length_lt_of_visit (Option.some.inj hvisit)
          rw [Option.some.inj hvisit]
          exact ih (by omega)

/-! ## The first entry -/

theorem extraStart_le (archive : List UInt8) :
    extraStart archive ≤ dataStart archive :=
  Nat.le_add_right _ _

theorem dataStart_lt (archive : List UInt8) :
    dataStart archive < Size.limit := by
  have hname : numberAt archive 26 2 < 65536 := numberAt_lt _ _ _
  have hextra : numberAt archive 28 2 < 65536 := numberAt_lt _ _ _
  have hplace : dataStart archive < 131102 := by
    unfold dataStart extraStart headerLength
    omega
  exact Nat.lt_trans hplace (by decide)

def contentSize? (archive : List UInt8) (extraStart dataStart : Nat) :
    Option (Except CodecFault Nat) := do
  let size ← numberAt? archive 18 4
  if size = sizeElsewhere then
    let extra ← slice? archive extraStart dataStart
    match ← extraSize? extra with
    | some size => some (.ok size)
    | none => some (.error .zip64WithoutExtraField)
  else some (.ok size)

def firstEntry? (archive : List UInt8) :
    Option (Except CodecFault (List UInt8)) :=
  if archive.length < headerLength then some (.error .missingLocalHeader)
  else do
    let start ← slice? archive 0 4
    if start ≠ signature then some (.error .missingLocalHeader)
    else
      let flags ← numberAt? archive 6 2
      let method ← numberAt? archive 8 2
      let nameLength ← numberAt? archive 26 2
      let extraLength ← numberAt? archive 28 2
      let extraStart ← Size.add? headerLength nameLength
      let dataStart ← Size.add? extraStart extraLength
      match slice? archive dataStart archive.length with
      | none => some (.error .truncatedLocalHeader)
      | some data =>
        match ← contentSize? archive extraStart dataStart with
        | .error fault => some (.error fault)
        | .ok size => some (content flags method size data)

theorem contentSize?_eq {archive : List UInt8}
    (hheader : headerLength ≤ archive.length)
    (hroom : dataStart archive ≤ archive.length) :
    contentSize? archive (extraStart archive) (dataStart archive) =
      some (contentSize archive) := by
  unfold contentSize? contentSize
  dsimp only
  rw [numberAt?_of_le (Nat.le_trans (by decide) hheader), Option.bind_eq_bind,
    Option.bind_some]
  split
  · rw [slice?_of_le (extraStart_le archive) hroom]
    change (extraSize? (extraFields archive)).bind _ = _
    rw [extraSize?_eq (Nat.lt_add_one _), Option.bind_some]
    cases sizeInExtra? ((extraFields archive).length + 1)
        (extraFields archive) with
    | some size => rfl
    | none => rfl
  · rfl

theorem firstEntry?_eq (archive : List UInt8) :
    firstEntry? archive = some (firstEntry archive) := by
  rw [firstEntry, firstEntry?]
  by_cases hheader : archive.length < headerLength
  · rw [if_pos hheader, if_pos (.inl hheader)]
  have hlong : headerLength ≤ archive.length := Nat.not_lt.mp hheader
  have hread : ∀ offset width, offset + width ≤ headerLength →
      numberAt? archive offset width = some (numberAt archive offset width) :=
    fun _ _ hplace => numberAt?_of_le (Nat.le_trans hplace hlong)
  rw [if_neg hheader, slice?_of_le (Nat.zero_le _)
    (Nat.le_trans (by decide) hlong), Option.bind_eq_bind, Option.bind_some]
  change (if archive.take 4 ≠ signature then _ else _) = _
  by_cases hsignature : archive.take 4 = signature
  · -- Both lengths are numbers of two bytes, so their places are words.
    have hextra : Size.add? headerLength (numberAt archive 26 2) =
        some (extraStart archive) :=
      Size.add?_of_lt
        (Nat.lt_of_le_of_lt (extraStart_le archive) (dataStart_lt archive))
    have hdata : Size.add? (extraStart archive) (numberAt archive 28 2) =
        some (dataStart archive) :=
      Size.add?_of_lt (dataStart_lt archive)
    rw [if_neg (not_not_intro hsignature),
      if_neg (not_or.mpr ⟨hheader, not_not_intro hsignature⟩),
      hread 6 2 (by decide), hread 8 2 (by decide), hread 26 2 (by decide),
      hread 28 2 (by decide)]
    simp only [Option.bind_eq_bind, Option.bind_some, hextra, hdata]
    by_cases hroom : archive.length < dataStart archive
    · rw [slice?, if_neg (by omega), if_pos hroom]
    · rw [slice?_to_end (Nat.not_lt.mp hroom), if_neg hroom,
        contentSize?_eq hlong (Nat.not_lt.mp hroom)]
      cases contentSize archive with
      | error fault => rfl
      | ok size => rfl
  · rw [if_pos hsignature, if_pos (.inr hsignature)]

end Zip

end JsonIntake
