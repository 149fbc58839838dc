import JsonIntake.Proofs.Json.Numerals

/-!
# How far arrays go

The loop over the items of an array takes rounds, and every round but the
first reads a comma.  Inverted, a round says what was read; the same round can
be read again in front of anything else.  An array ends with its bracket, so
what follows it does not matter, and in it nothing is closed that was not
opened there.
-/

namespace JsonIntake.Json

/-! ## Blanks and keywords -/

theorem isPlain_of_isBlank {byte : UInt8} (hblank : isBlank byte = true) :
    isPlain byte = true := by
  simp only [isBlank, Bool.or_eq_true, decide_eq_true_eq] at hblank
  rcases hblank with ((rfl | rfl) | rfl) | rfl <;> rfl

/-- Blanks are skipped in front of any byte that is none. -/
theorem exists_blanks {input behind : List UInt8} {byte : UInt8}
    (hskip : skipBlanks input = byte :: behind) :
    ∃ blanks, input = blanks ++ byte :: behind ∧
      Leads .outside .outside blanks ∧
      ∀ later, skipBlanks (blanks ++ byte :: later) = byte :: later := by
  unfold skipBlanks at hskip
  refine ⟨input.takeWhile isBlank, ?_, ?_, ?_⟩
  · rw [← hskip, List.takeWhile_append_dropWhile]
  · exact .plain fun byte hbyte =>
      isPlain_of_isBlank (List.all_eq_true.mp List.all_takeWhile byte hbyte)
  · intro later
    exact dropWhile_takeWhile_append (by rw [hskip]; rfl)

theorem readKeyword_eq_ok {value found : Value} {letters input rest : List UInt8}
    (hok : readKeyword value letters input = .ok (found, rest)) :
    found = value ∧ input = letters ++ rest := by
  induction letters generalizing input with
  | nil =>
      cases hok
      exact ⟨rfl, rfl⟩
  | cons letter letters ih =>
      cases input with
      | nil => exact absurd hok nofun
      | cons byte behind =>
          simp only [readKeyword] at hok
          split at hok
          next hbyte =>
            obtain ⟨rfl, rfl⟩ := ih hok
            exact ⟨rfl, by rw [hbyte, List.cons_append]⟩
          · exact absurd hok nofun

theorem readKeyword_append (value : Value) (letters later : List UInt8) :
    readKeyword value letters (letters ++ later) = .ok (value, later) := by
  induction letters with
  | nil => rfl
  | cons letter letters ih =>
      rw [List.cons_append, readKeyword, if_pos rfl, ih]

/-- What begins with some byte still does behind another end with the same
closing byte. -/
theorem exists_cons_of_closing {front taken body rest behind : List UInt8}
    {byte closing : UInt8}
    (hfront : byte :: behind =
      front ++ (taken ++ (body ++ closing :: rest)))
    (later : List UInt8) :
    ∃ behind',
      front ++ (taken ++ (body ++ closing :: later)) = byte :: behind' := by
  have hclosing :
      (body ++ closing :: later).head? = (body ++ closing :: rest).head? :=
    head?_append_congr rfl
  apply List.head?_eq_some_iff.mp
  rw [head?_append_congr (head?_append_congr hclosing), ← hfront]
  rfl

/-! ## Items -/

/-- The input from the next item on; every item but the first has a comma in
front of it. -/
def itemStart (isFirst : Bool) (input : List UInt8) :
    Except Stop (List UInt8) :=
  if isFirst then .ok input
  else
    match input with
    | 44 :: rest =>
      match skipBlanks rest with
      | [] => stopHere .endInValue []
      | 93 :: rest => stopAtNext .trailingComma (93 :: rest)
      | rest => .ok rest
    | input => stopAtNext .expectedListCommaOrEnd input

theorem itemStart_again {isFirst : Bool} {input behind : List UInt8}
    (hok : itemStart isFirst input = .ok behind) :
    ∃ front, input = front ++ behind ∧ Leads .outside .outside front ∧
      (isFirst = false → front ≠ []) ∧
      ∀ later, later.head? = behind.head? →
        itemStart isFirst (front ++ later) = .ok later := by
  cases isFirst with
  | true =>
      cases hok
      exact ⟨[], rfl, .nil, nofun, fun _ _ => rfl⟩
  | false =>
      simp only [itemStart, Bool.false_eq_true, if_false] at hok
      split at hok
      next rest =>
        split at hok
        · exact absurd hok nofun
        · exact absurd hok nofun
        next hnil hbracket =>
          cases hok
          cases hskip : skipBlanks rest with
          | nil => exact absurd hskip hnil
          | cons byte behind =>
              obtain ⟨blanks, rfl, hblanks, hagain⟩ := exists_blanks hskip
              have hbyte : byte ≠ 93 := by
                rintro rfl
                exact hbracket behind hskip
              refine ⟨44 :: blanks, rfl, (leads_mark rfl).append hblanks,
                fun _ => List.cons_ne_nil _ _, ?_⟩
              intro later hhead
              obtain ⟨later, rfl⟩ := List.head?_eq_some_iff.mp hhead
              simp [itemStart, hagain, hbyte]
      · exact absurd hok nofun

section Items

variable {item : Reader Value} {steps : Nat} {items : List Value}
  {value : Value} {input rest : List UInt8}

theorem readItems_close (hskip : skipBlanks input = 93 :: rest) :
    readItems item (steps + 1) items input =
      .ok (.array items.reverse, rest) := by
  rw [readItems, hskip]
  rfl

theorem readItems_next {byte : UInt8} {behind : List UInt8}
    (hskip : skipBlanks input = byte :: behind) (hbyte : byte ≠ 93) :
    readItems item (steps + 1) items input =
      match itemStart items.isEmpty (byte :: behind) with
      | .error stop => .error stop
      | .ok start =>
        match item start with
        | .error stop => .error stop
        | .ok (value, rest) => readItems item steps (value :: items) rest := by
  have hstart :
      itemStart items.isEmpty (byte :: behind) =
        if items.isEmpty then .ok (byte :: behind)
        else if byte = 44 then
          match skipBlanks behind with
          | [] => stopHere .endInValue []
          | 93 :: rest => stopAtNext .trailingComma (93 :: rest)
          | rest => .ok rest
        else stopAtNext .expectedListCommaOrEnd (byte :: behind) := by
    unfold itemStart
    split
    · rfl
    · by_cases hcomma : byte = 44
      · subst hcomma
        rfl
      · rw [if_neg hcomma]
        split
        next heq => exact absurd (List.cons.inj heq).1 hcomma
        · rfl
  rw [hstart, readItems, hskip]
  split
  next heq => exact absurd heq nofun
  next heq => exact absurd (List.cons.inj heq).1 hbyte
  next heq =>
    obtain ⟨rfl, rfl⟩ := heq
    rfl

theorem readItems_step {byte : UInt8} {behind start middle : List UInt8}
    {first : Value} (hskip : skipBlanks input = byte :: behind)
    (hbyte : byte ≠ 93)
    (hstart : itemStart items.isEmpty (byte :: behind) = .ok start)
    (hitem : item start = .ok (first, middle)) :
    readItems item (steps + 1) items input =
      readItems item steps (first :: items) middle := by
  simp only [readItems_next hskip hbyte, hstart, hitem]

/-- A round finds the closing bracket or reads one more item. -/
theorem readItems_cases
    (hok : readItems item steps items input = .ok (value, rest)) :
    (skipBlanks input = 93 :: rest ∧ value = .array items.reverse) ∨
      ∃ left byte behind start first middle,
        skipBlanks input = byte :: behind ∧ byte ≠ 93 ∧
        itemStart items.isEmpty (byte :: behind) = .ok start ∧
        item start = .ok (first, middle) ∧ steps = left + 1 ∧
        readItems item left (first :: items) middle = .ok (value, rest) := by
  cases steps with
  | zero => exact absurd hok nofun
  | succ left =>
    cases hskip : skipBlanks input with
    | nil =>
        rw [readItems, hskip] at hok
        exact absurd hok nofun
    | cons byte behind =>
      by_cases hbyte : byte = 93
      · subst hbyte
        rw [readItems_close hskip] at hok
        cases hok
        exact .inl ⟨rfl, rfl⟩
      rw [readItems_next hskip hbyte] at hok
      cases hstart : itemStart items.isEmpty (byte :: behind) with
      | error stop =>
          rw [hstart] at hok
          exact absurd hok nofun
      | ok start =>
        cases hitem : item start with
        | error stop =>
            simp only [hstart, hitem] at hok
            exact absurd hok nofun
        | ok result =>
          simp only [hstart, hitem] at hok
          exact .inr ⟨left, byte, behind, start, result.1, result.2, rfl,
            hbyte, hstart, hitem, rfl, hok⟩

end Items

/-- What the loop over the items takes, it takes again in front of anything.
Every round but the first takes a comma, and the last one the bracket. -/
theorem readItems_again {item : Nat → Reader Value}
    (hitem : IsLocal .sameByte .outside .outside item) {depth steps : Nat}
    {items : List Value} {value : Value} {input rest : List UInt8}
    (hok : readItems (item depth) steps items input = .ok (value, rest)) :
    ∃ body, input = body ++ 93 :: rest ∧ Leads .outside .outside body ∧
      (∃ items, value = .array items) ∧
      ∀ depth steps later, body.length < depth →
        body.length + items.isEmpty.toNat < steps →
        readItems (item depth) steps items (body ++ 93 :: later) =
          .ok (value, later) := by
  induction steps generalizing items input with
  | zero => exact absurd hok nofun
  | succ steps ih =>
    rcases readItems_cases hok with
      ⟨hskip, rfl⟩ | ⟨left, byte, behind, start, first, middle, hskip, hbyte,
        hstart, hfirst, hleft, hrest⟩
    · obtain ⟨blanks, rfl, hblanks, hskipAgain⟩ := exists_blanks hskip
      refine ⟨blanks, rfl, hblanks, ⟨_, rfl⟩, ?_⟩
      rintro depth (_ | steps) later - hsteps
      · exact absurd hsteps (Nat.not_lt_zero _)
      · exact readItems_close (hskipAgain later)
    · obtain rfl := Nat.succ.inj hleft
      obtain ⟨blanks, rfl, hblanks, hskipAgain⟩ := exists_blanks hskip
      obtain ⟨front, hfront, hleads, hcomma, hstartAgain⟩ :=
        itemStart_again hstart
      obtain ⟨taken, rfl, htakes⟩ := hitem depth start first middle hfirst
      obtain ⟨body, rfl, hbody, harray, hbodyAgain⟩ := ih hrest
      refine ⟨blanks ++ (front ++ (taken ++ body)), by simp [hfront],
        hblanks.append (hleads.append (htakes.leads.append hbody)),
        harray, ?_⟩
      rintro depth (_ | steps) later hdepth hsteps
      · exact absurd hsteps (Nat.not_lt_zero _)
      -- What follows the body begins with the same bracket as before.
      have hbodyHead :
          (body ++ 93 :: later).head? = (body ++ 93 :: rest).head? :=
        head?_append_congr rfl
      obtain ⟨behind', hbehind⟩ := exists_cons_of_closing hfront later
      simp only [List.length_append] at hdepth hsteps
      have hround : 0 < front.length + items.isEmpty.toNat := by
        cases hempty : items.isEmpty with
        | true => exact Nat.succ_pos _
        | false => exact List.length_pos_iff.mpr (hcomma hempty)
      rw [List.append_assoc, List.append_assoc, List.append_assoc, hbehind,
        readItems_step (hskipAgain behind') hbyte
          (hbehind ▸ hstartAgain _ (head?_append_congr hbodyHead))
          (htakes.again depth _ (by omega) hbodyHead)]
      exact hbodyAgain depth steps later (by omega)
        (show body.length + 0 < steps by omega)

end JsonIntake.Json
