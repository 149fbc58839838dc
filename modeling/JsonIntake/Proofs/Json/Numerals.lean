import JsonIntake.Proofs.Json.Extent

/-!
# How far numbers go

A number has no mark at its end.  Its reader goes on as long as the next byte
belongs to the number, so what it takes is determined by the bytes up to the
first one that does not.
-/

namespace JsonIntake.Json

variable {negative : Bool} {value count : Nat} {exponent : Int}

theorem isPlain_of_isDigit {byte : UInt8} (hdigit : isDigit byte = true) :
    isPlain byte = true := by
  simp only [isDigit, Bool.and_eq_true, decide_eq_true_eq,
    UInt8.le_iff_toNat_le] at hdigit
  simp only [isPlain, ne_eq, decide_not, Bool.and_eq_true, Bool.not_eq_true',
    decide_eq_false_iff_not, ← UInt8.toNat_inj]
  simp only [UInt8.reduceToNat] at hdigit ⊢
  omega

theorem leads_digit {byte : UInt8} (hdigit : isDigit byte = true) :
    Leads .outside .outside [byte] :=
  .plain (by simpa using isPlain_of_isDigit hdigit)

theorem dropWhile_of_head? {p : UInt8 → Bool} {bytes later : List UInt8}
    (hhead : later.head? = (bytes.dropWhile p).head?) :
    later.dropWhile p = later := by
  cases later with
  | nil => rfl
  | cons byte later =>
      have hnot := List.head?_dropWhile_not p bytes
      rw [← hhead] at hnot
      exact List.dropWhile_cons_of_neg (by simpa using hnot)

theorem takeWhile_of_head? {p : UInt8 → Bool} {bytes later : List UInt8}
    (hhead : later.head? = (bytes.dropWhile p).head?) :
    later.takeWhile p = [] := by
  cases later with
  | nil => rfl
  | cons byte later =>
      have hnot := List.head?_dropWhile_not p bytes
      rw [← hhead] at hnot
      exact List.takeWhile_cons_of_neg (by simpa using hnot)

theorem dropWhile_takeWhile_append {p : UInt8 → Bool}
    {bytes later : List UInt8}
    (hhead : later.head? = (bytes.dropWhile p).head?) :
    (bytes.takeWhile p ++ later).dropWhile p = later := by
  rw [List.dropWhile_append_of_pos
    (fun byte hbyte => List.all_eq_true.mp List.all_takeWhile byte hbyte),
    dropWhile_of_head? hhead]

theorem takeWhile_takeWhile_append {p : UInt8 → Bool}
    {bytes later : List UInt8}
    (hhead : later.head? = (bytes.dropWhile p).head?) :
    (bytes.takeWhile p ++ later).takeWhile p = bytes.takeWhile p := by
  rw [List.takeWhile_append_of_pos
    (fun byte hbyte => List.all_eq_true.mp List.all_takeWhile byte hbyte),
    takeWhile_of_head? hhead, List.append_nil]

theorem leads_takeWhile_isDigit (bytes : List UInt8) :
    Leads .outside .outside (bytes.takeWhile isDigit) :=
  .plain fun byte hbyte =>
    isPlain_of_isDigit (List.all_eq_true.mp List.all_takeWhile byte hbyte)

/-! ## Digits -/

theorem readDigits_again (value count : Nat) (input : List UInt8) :
    ∃ taken, input = taken ++ (readDigits value count input).rest ∧
      Leads .outside .outside taken ∧
      ∀ later, later.head? = (readDigits value count input).rest.head? →
        readDigits value count (taken ++ later) =
          { readDigits value count input with rest := later } := by
  induction input generalizing value count with
  | nil =>
      refine ⟨[], rfl, .nil, ?_⟩
      intro later hhead
      rw [List.head?_eq_none_iff.mp hhead]
      rfl
  | cons byte rest ih =>
      by_cases hdigit : isDigit byte = true
      · by_cases hlarge :
            Size.maximum < 10 * value + digitValue byte
        · refine ⟨[], by simp [readDigits, hdigit, hlarge], .nil, ?_⟩
          intro later hhead
          simp only [readDigits, hdigit, hlarge, if_true] at hhead ⊢
          obtain ⟨later, rfl⟩ := List.head?_eq_some_iff.mp hhead
          simp [readDigits, hdigit, hlarge]
        · obtain ⟨taken, hrest, htaken, hagain⟩ :=
            ih (10 * value + digitValue byte) (count + 1)
          refine ⟨byte :: taken, ?_, (leads_digit hdigit).append htaken, ?_⟩
          · simpa [readDigits, hdigit, hlarge] using hrest
          · intro later hhead
            simp only [readDigits, hdigit, hlarge, if_true, if_false]
              at hhead ⊢
            simpa [readDigits, hdigit, hlarge] using hagain later hhead
      · refine ⟨[], by simp [readDigits, hdigit], .nil, ?_⟩
        intro later hhead
        simp only [readDigits, if_neg hdigit] at hhead ⊢
        obtain ⟨later, rfl⟩ := List.head?_eq_some_iff.mp hhead
        simp [readDigits, hdigit]

theorem readExponentDigits_again (value : Nat) (input : List UInt8) :
    ∃ taken, input = taken ++ (readExponentDigits value input).2 ∧
      Leads .outside .outside taken ∧
      ∀ later, later.head? = (readExponentDigits value input).2.head? →
        readExponentDigits value (taken ++ later) =
          ((readExponentDigits value input).1, later) := by
  induction input generalizing value with
  | nil =>
      refine ⟨[], rfl, .nil, ?_⟩
      intro later hhead
      rw [List.head?_eq_none_iff.mp hhead]
      rfl
  | cons byte rest ih =>
      by_cases hdigit : isDigit byte = true
      · have hbyte := leads_digit hdigit
        by_cases hlarge : maxExponent < 10 * value + digitValue byte
        · refine ⟨[byte], by simp [readExponentDigits, hdigit, hlarge],
            hbyte, ?_⟩
          intro later _
          simp [readExponentDigits, hdigit, hlarge]
        · obtain ⟨taken, hrest, htaken, hagain⟩ :=
            ih (10 * value + digitValue byte)
          refine ⟨byte :: taken, ?_, hbyte.append htaken, ?_⟩
          · simpa [readExponentDigits, hdigit, hlarge] using hrest
          · intro later hhead
            simp only [readExponentDigits, hdigit, hlarge, if_true, if_false]
              at hhead ⊢
            simpa [readExponentDigits, hdigit, hlarge] using
              hagain later hhead
      · refine ⟨[], by simp [readExponentDigits, hdigit], .nil, ?_⟩
        intro later hhead
        simp only [readExponentDigits, if_neg hdigit] at hhead ⊢
        obtain ⟨later, rfl⟩ := List.head?_eq_some_iff.mp hhead
        simp [readExponentDigits, hdigit]

/-! ## Numbers -/

theorem isLocal_finishReal (negative : Bool) (value : Nat) (exponent : Int) :
    IsLocal .sameByte .outside .outside fun _ =>
      finishReal negative value exponent := by
  unfold finishReal
  cases scaleByPower? value exponent with
  | none => exact .error _
  | some scaled => exact .ok _

theorem isLocal_dropWhile_isDigit (number : Number) :
    IsLocal .sameByte .outside .outside fun _ input =>
      .ok (number, input.dropWhile isDigit) := by
  apply IsLocal.of_front
  rintro steps input _ _ ⟨rfl, rfl⟩
  refine ⟨input.takeWhile isDigit, input.dropWhile isDigit, _,
    List.takeWhile_append_dropWhile.symm, leads_takeWhile_isDigit input,
    .ok number, ?_⟩
  intro _ later (hhead : later.head? = _)
  simp only [dropWhile_takeWhile_append hhead]

/-- What stands behind the sign of an exponent. -/
def readExponentSize (negative : Bool) (value : Nat) (start : Int)
    (down : Bool) (input : List UInt8) : Except Stop (Number × List UInt8) :=
  match input with
  | [] => stopHere .endInValue []
  | first :: rest =>
    if isDigit first then
      match readExponentDigits (digitValue first) rest with
      | (some size, rest) =>
        let change : Int := if down then -(size : Int) else size
        finishReal negative value (clampExponent (start + change)) rest
      | (none, rest) =>
        if value ≠ 0 ∧ ¬ down then stopHere .numberOutOfRange rest
        else .ok (.real (.zero negative), rest.dropWhile isDigit)
    else stopHere .invalidNumber rest

theorem isLocal_readExponentSize (negative : Bool) (value : Nat)
    (exponent : Int) (down : Bool) :
    IsLocal .sameByte .outside .outside fun _ =>
      readExponentSize negative value exponent down := by
  apply IsLocal.of_front
  intro steps input number rest hok
  cases input with
  | nil => exact absurd hok nofun
  | cons first behind =>
    by_cases hdigit : isDigit first = true
    · obtain ⟨taken, hbehind, htaken, hagain⟩ :=
        readExponentDigits_again (digitValue first) behind
      simp only [readExponentSize, if_pos hdigit] at hok
      generalize readExponentDigits (digitValue first) behind = digits
        at hok hbehind hagain
      obtain ⟨_ | size, behind⟩ := digits
      · by_cases hlarge : value ≠ 0 ∧ ¬ down = true
        · simp only [if_pos hlarge] at hok
          exact absurd hok nofun
        · refine ⟨first :: taken, behind, _, by rw [hbehind]; rfl,
            (leads_digit hdigit).append htaken,
            isLocal_dropWhile_isDigit (.real (.zero negative)), ?_⟩
          intro _ later (hhead : later.head? = _)
          simp only [List.cons_append, readExponentSize, if_pos hdigit,
            hagain later hhead, if_neg hlarge]
      · refine ⟨first :: taken, behind,
          fun _ => finishReal negative value
            (clampExponent (exponent + if down then -(size : Int) else size)),
          by rw [hbehind]; rfl, (leads_digit hdigit).append htaken,
          isLocal_finishReal _ _ _, ?_⟩
        intro _ later (hhead : later.head? = _)
        simp only [List.cons_append, readExponentSize, if_pos hdigit,
          hagain later hhead]
    · simp only [readExponentSize, if_neg hdigit] at hok
      exact absurd hok nofun

theorem readExponent_of_head? {input : List UInt8}
    (hplus : input.head? ≠ some 43) (hminus : input.head? ≠ some 45) :
    readExponent negative value exponent input =
      readExponentSize negative value exponent false input := by
  unfold readExponent
  split
  next down behind hsign =>
    split at hsign
    · exact absurd rfl hplus
    · exact absurd rfl hminus
    · obtain ⟨rfl, rfl⟩ := hsign
      rfl

theorem leads_mark {byte : UInt8} (hbyte : isPlain byte = true) :
    Leads .outside .outside [byte] :=
  .plain (by simpa using hbyte)

theorem isLocal_readExponent (negative : Bool) (value : Nat) (exponent : Int) :
    IsLocal .sameByte .outside .outside fun _ =>
      readExponent negative value exponent := by
  apply IsLocal.of_front
  intro steps input number rest _
  by_cases hplus : input.head? = some 43
  · obtain ⟨behind, rfl⟩ := List.head?_eq_some_iff.mp hplus
    exact ⟨[43], behind, _, rfl, leads_mark rfl,
      isLocal_readExponentSize negative value exponent false, fun _ _ _ => rfl⟩
  by_cases hminus : input.head? = some 45
  · obtain ⟨behind, rfl⟩ := List.head?_eq_some_iff.mp hminus
    exact ⟨[45], behind, _, rfl, leads_mark rfl,
      isLocal_readExponentSize negative value exponent true, fun _ _ _ => rfl⟩
  refine ⟨[], input, _, rfl, .nil,
    isLocal_readExponentSize negative value exponent false, ?_⟩
  intro _ later (hhead : later.head? = _)
  rw [← hhead] at hplus hminus
  exact readExponent_of_head? hplus hminus

theorem readAfterDigits_of_head? {input : List UInt8}
    (hlower : input.head? ≠ some 101) (hupper : input.head? ≠ some 69) :
    readAfterDigits negative value exponent input =
      finishReal negative value exponent input := by
  unfold readAfterDigits
  split
  · exact absurd rfl hlower
  · exact absurd rfl hupper
  · rfl

theorem isLocal_readAfterDigits (negative : Bool) (value : Nat) (exponent : Int) :
    IsLocal .sameByte .outside .outside fun _ =>
      readAfterDigits negative value exponent := by
  apply IsLocal.of_front
  intro steps input number rest _
  by_cases hlower : input.head? = some 101
  · obtain ⟨behind, rfl⟩ := List.head?_eq_some_iff.mp hlower
    exact ⟨[101], behind, _, rfl, leads_mark rfl,
      isLocal_readExponent negative value exponent, fun _ _ _ => rfl⟩
  by_cases hupper : input.head? = some 69
  · obtain ⟨behind, rfl⟩ := List.head?_eq_some_iff.mp hupper
    exact ⟨[69], behind, _, rfl, leads_mark rfl,
      isLocal_readExponent negative value exponent, fun _ _ _ => rfl⟩
  refine ⟨[], input, _, rfl, .nil,
    isLocal_finishReal negative value exponent, ?_⟩
  intro _ later (hhead : later.head? = _)
  rw [← hhead] at hlower hupper
  exact readAfterDigits_of_head? hlower hupper

/-- Digits for which a word has no room are read with the others. -/
theorem readDigits_excess (value count : Nat) (input : List UInt8) :
    ∃ taken,
      input = taken ++
        ((readDigits value count input).rest.takeWhile isDigit ++
          (readDigits value count input).rest.dropWhile isDigit) ∧
      Leads .outside .outside taken ∧
      ∀ later,
        later.head? =
            ((readDigits value count input).rest.dropWhile isDigit).head? →
          readDigits value count
              (taken ++
                ((readDigits value count input).rest.takeWhile isDigit ++
                  later)) =
            { readDigits value count input with
              rest := (readDigits value count input).rest.takeWhile isDigit ++
                later } := by
  obtain ⟨taken, hinput, htaken, hagain⟩ :=
    readDigits_again value count input
  generalize readDigits value count input = digits at *
  refine ⟨taken, by rwa [List.takeWhile_append_dropWhile], htaken, ?_⟩
  intro later hhead
  apply hagain
  have hcongr : (digits.rest.takeWhile isDigit ++ later).head? =
      (digits.rest.takeWhile isDigit ++ digits.rest.dropWhile isDigit).head? :=
    head?_append_congr hhead
  rwa [List.takeWhile_append_dropWhile] at hcongr

theorem isLocal_readFraction (negative : Bool) (value : Nat) (exponent : Int) :
    IsLocal .sameByte .outside .outside fun _ =>
      readFraction negative value exponent := by
  apply IsLocal.of_front
  intro steps input number rest hok
  by_cases hfull : (readDigits value 0 input).full = true
  · obtain ⟨taken, hinput, htaken, hagain⟩ := readDigits_excess value 0 input
    refine ⟨taken ++ (readDigits value 0 input).rest.takeWhile isDigit,
      (readDigits value 0 input).rest.dropWhile isDigit, _,
      by rw [List.append_assoc]; exact hinput,
      htaken.append (leads_takeWhile_isDigit _),
      isLocal_readAfterDigits negative (readDigits value 0 input).value
        (exponent - (readDigits value 0 input).count), ?_⟩
    intro _ later (hhead : later.head? = _)
    rw [List.append_assoc]
    simp only [readFraction, hagain later hhead, hfull,
      dropWhile_takeWhile_append hhead, if_true, not_true, and_false,
      if_false]
  · obtain ⟨taken, hinput, htaken, hagain⟩ := readDigits_again value 0 input
    by_cases hnone : (readDigits value 0 input).count = 0
    · simp only [readFraction, hnone, hfull, Bool.false_eq_true,
        not_false_eq_true, and_self, if_true, if_false] at hok
      split at hok <;> exact absurd hok (by simp [stopAtNext])
    · refine ⟨taken, (readDigits value 0 input).rest, _, hinput, htaken,
        isLocal_readAfterDigits negative (readDigits value 0 input).value
          (exponent - (readDigits value 0 input).count), ?_⟩
      intro _ later (hhead : later.head? = _)
      simp only [readFraction, hagain later hhead, hfull, hnone,
        Bool.false_eq_true, false_and, if_false]

theorem readAfterInteger_of_head? {input : List UInt8}
    (hpoint : input.head? ≠ some 46) (hlower : input.head? ≠ some 101)
    (hupper : input.head? ≠ some 69) :
    readAfterInteger negative value input =
      .ok (integer negative value, input) := by
  unfold readAfterInteger
  split
  · exact absurd rfl hpoint
  · exact absurd rfl hlower
  · exact absurd rfl hupper
  · rfl

theorem isLocal_readAfterInteger (negative : Bool) (value : Nat) :
    IsLocal .sameByte .outside .outside fun _ =>
      readAfterInteger negative value := by
  apply IsLocal.of_front
  intro steps input number rest _
  by_cases hpoint : input.head? = some 46
  · obtain ⟨behind, rfl⟩ := List.head?_eq_some_iff.mp hpoint
    exact ⟨[46], behind, _, rfl, leads_mark rfl,
      isLocal_readFraction negative value 0, fun _ _ _ => rfl⟩
  by_cases hlower : input.head? = some 101
  · obtain ⟨behind, rfl⟩ := List.head?_eq_some_iff.mp hlower
    exact ⟨[101], behind, _, rfl, leads_mark rfl,
      isLocal_readExponent negative value 0, fun _ _ _ => rfl⟩
  by_cases hupper : input.head? = some 69
  · obtain ⟨behind, rfl⟩ := List.head?_eq_some_iff.mp hupper
    exact ⟨[69], behind, _, rfl, leads_mark rfl,
      isLocal_readExponent negative value 0, fun _ _ _ => rfl⟩
  refine ⟨[], input, _, rfl, .nil, .ok (integer negative value), ?_⟩
  intro _ later (hhead : later.head? = _)
  rw [← hhead] at hpoint hlower hupper
  exact readAfterInteger_of_head? hpoint hlower hupper

/-- What stands behind the digits of an integer for which its word has no
room. -/
def readAfterExcess (negative : Bool) (value excess : Nat)
    (input : List UInt8) : Except Stop (Number × List UInt8) :=
  match input with
  | 46 :: rest => readFraction negative value excess rest
  | rest => readAfterDigits negative value excess rest

theorem readAfterExcess_of_head? {input : List UInt8}
    (hpoint : input.head? ≠ some 46) :
    readAfterExcess negative value count input =
      readAfterDigits negative value count input := by
  unfold readAfterExcess
  split
  · exact absurd rfl hpoint
  · rfl

theorem isLocal_readAfterExcess (negative : Bool) (value count : Nat) :
    IsLocal .sameByte .outside .outside fun _ =>
      readAfterExcess negative value count := by
  apply IsLocal.of_front
  intro steps input number rest _
  by_cases hpoint : input.head? = some 46
  · obtain ⟨behind, rfl⟩ := List.head?_eq_some_iff.mp hpoint
    exact ⟨[46], behind, _, rfl, leads_mark rfl,
      isLocal_readFraction negative value count, fun _ _ _ => rfl⟩
  refine ⟨[], input, _, rfl, .nil,
    isLocal_readAfterDigits negative value count, ?_⟩
  intro _ later (hhead : later.head? = _)
  rw [← hhead] at hpoint
  exact readAfterExcess_of_head? hpoint

section Integers

variable {byte : UInt8} {rest : List UInt8}

theorem readNumber_of_full (hzero : byte ≠ 48) (hdigit : isDigit byte = true)
    (hfull : (readDigits (digitValue byte) 1 rest).full = true) :
    readNumber negative (byte :: rest) =
      readAfterExcess negative (readDigits (digitValue byte) 1 rest).value
        ((readDigits (digitValue byte) 1 rest).rest.takeWhile isDigit).length
        ((readDigits (digitValue byte) 1 rest).rest.dropWhile isDigit) := by
  rw [readNumber, if_pos hdigit, if_pos hfull]
  · rfl
  · exact hzero

theorem readNumber_of_fits (hzero : byte ≠ 48) (hdigit : isDigit byte = true)
    (hfits : (readDigits (digitValue byte) 1 rest).full = false) :
    readNumber negative (byte :: rest) =
      readAfterInteger negative (readDigits (digitValue byte) 1 rest).value
        (readDigits (digitValue byte) 1 rest).rest := by
  rw [readNumber, if_pos hdigit, if_neg (by simp [hfits])]
  exact hzero

theorem isDigit_of_readNumber {number : Number} {behind : List UInt8}
    (hzero : byte ≠ 48)
    (hok : readNumber negative (byte :: rest) = .ok (number, behind)) :
    isDigit byte = true := by
  by_cases hdigit : isDigit byte = true
  · exact hdigit
  · rw [readNumber, if_neg hdigit] at hok
    · exact absurd hok nofun
    · exact hzero

end Integers

theorem isLocal_readNumber (negative : Bool) :
    IsLocal .sameByte .outside .outside fun _ => readNumber negative := by
  apply IsLocal.of_front
  intro steps input number rest hok
  cases input with
  | nil => exact absurd hok nofun
  | cons byte behind =>
    by_cases hzero : byte = 48
    · subst hzero
      have hnone : ¬ behind.head?.any isDigit = true := by
        intro hmore
        simp only [readNumber, if_pos hmore] at hok
        exact absurd hok nofun
      refine ⟨[48], behind, _, rfl, leads_mark rfl,
        isLocal_readAfterInteger negative 0, ?_⟩
      intro _ later (hhead : later.head? = _)
      rw [← hhead] at hnone
      simp only [List.singleton_append, readNumber, if_neg hnone]
    have hdigit := isDigit_of_readNumber hzero hok
    cases hfull : (readDigits (digitValue byte) 1 behind).full with
    | false =>
        obtain ⟨taken, hinput, htaken, hagain⟩ :=
          readDigits_again (digitValue byte) 1 behind
        refine ⟨byte :: taken, (readDigits (digitValue byte) 1 behind).rest,
          _, congrArg (byte :: ·) hinput, (leads_digit hdigit).append htaken,
          isLocal_readAfterInteger negative
            (readDigits (digitValue byte) 1 behind).value, ?_⟩
        intro _ later (hhead : later.head? = _)
        have hsame := hagain later hhead
        rw [List.cons_append, readNumber_of_fits hzero hdigit
          (by rw [hsame]; exact hfull), hsame]
    | true =>
        obtain ⟨taken, hinput, htaken, hagain⟩ :=
          readDigits_excess (digitValue byte) 1 behind
        refine ⟨byte :: (taken ++
            (readDigits (digitValue byte) 1 behind).rest.takeWhile isDigit),
          (readDigits (digitValue byte) 1 behind).rest.dropWhile isDigit, _,
          by rw [List.cons_append, List.append_assoc, ← hinput],
          (leads_digit hdigit).append
            (htaken.append (leads_takeWhile_isDigit _)),
          isLocal_readAfterExcess negative
            (readDigits (digitValue byte) 1 behind).value
            ((readDigits (digitValue byte) 1 behind).rest.takeWhile
              isDigit).length, ?_⟩
        intro _ later (hhead : later.head? = _)
        have hsame := hagain later hhead
        rw [List.cons_append, List.append_assoc, readNumber_of_full hzero
          hdigit (by rw [hsame]; exact hfull), hsame]
        simp only [takeWhile_takeWhile_append hhead,
          dropWhile_takeWhile_append hhead]

end JsonIntake.Json
