import JsonIntake.Proofs.Json.Members

/-!
# How far values go

Arrays and objects end with their brackets and are read again in front of
anything.  Other values are read again at least where the next byte stays the
same.
-/

namespace JsonIntake.Json

def Value.isNested : Value → Bool
  | .array _ => true
  | .object _ => true
  | _ => false

/-- A value without blanks in front of it. -/
def readVisible (steps : Nat) (nested : Option (Reader Value)) :
    Reader Value :=
  fun input =>
    match input with
    | [] => stopHere .endInValue []
    | 110 :: rest => readKeyword .null [117, 108, 108] rest
    | 116 :: rest => readKeyword (.boolean true) [114, 117, 101] rest
    | 102 :: rest => readKeyword (.boolean false) [97, 108, 115, 101] rest
    | 34 :: rest => do
      let (text, rest) ← readString steps rest
      .ok (.text text, rest)
    | 45 :: rest => do
      let (number, rest) ← readNumber true rest
      .ok (.number number, rest)
    | 91 :: rest =>
      match nested with
      | none => stopAtNext .nestingTooDeep (91 :: rest)
      | some item => readItems item steps [] rest
    | 123 :: rest =>
      match nested with
      | none => stopAtNext .nestingTooDeep (123 :: rest)
      | some item => readMembers item steps true [] rest
    | first :: rest =>
      if isDigit first then do
        let (number, rest) ← readNumber false (first :: rest)
        .ok (.number number, rest)
      else stopAtNext .expectedValue (first :: rest)

theorem readValueWith_eq (steps : Nat) (nested : Option (Reader Value))
    (input : List UInt8) :
    readValueWith steps nested input =
      readVisible steps nested (skipBlanks input) := rfl

/-- An array or object that ends with its bracket, or another value that goes
as far as its bytes do. -/
inductive TakesValue (read : Nat → Reader Value) (value : Value)
    (taken rest : List UInt8) : Prop
  | nested (hvalue : value.isNested = true) (hbracketed : Bracketed taken)
      (htakes : Takes .anything .outside .outside read value taken rest)
  | scalar (hvalue : value.isNested = false)
      (htakes : Takes .sameByte .outside .outside read value taken rest)

theorem TakesValue.takes {read : Nat → Reader Value} {value : Value}
    {taken rest : List UInt8} (htakes : TakesValue read value taken rest) :
    Takes .sameByte .outside .outside read value taken rest := by
  cases htakes with
  | nested _ _ htakes =>
      exact ⟨htakes.leads, fun steps later hsteps _ =>
        htakes.again steps later hsteps trivial⟩
  | scalar _ htakes => exact htakes

section Visible

variable {nested : Option (Nat → Reader Value)} {steps : Nat} {value : Value}
  {input rest : List UInt8}

theorem takes_array {item : Nat → Reader Value}
    (hitem : IsLocal .sameByte .outside .outside item)
    (hok : readItems (item steps) steps [] input = .ok (value, rest)) :
    ∃ taken, 91 :: input = taken ++ rest ∧
      TakesValue (fun steps => readVisible steps (some (item steps))) value
        taken rest := by
  obtain ⟨body, rfl, hbody, ⟨items, rfl⟩, hagain⟩ := readItems_again hitem hok
  have hbracketed : Bracketed (91 :: (body ++ [93])) :=
    .mk (.inl rfl) (.inl rfl) hbody
  refine ⟨91 :: (body ++ [93]), by simp,
    .nested rfl hbracketed ⟨hbracketed.leads, ?_⟩⟩
  intro steps later hsteps _
  simp only [List.length_cons, List.length_append, List.length_nil] at hsteps
  rw [List.cons_append, List.append_assoc]
  exact hagain steps steps later (by omega)
    (show body.length + 1 < steps by omega)

theorem takes_object {item : Nat → Reader Value}
    (hitem : IsLocal .sameByte .outside .outside item)
    (hok : readMembers (item steps) steps true [] input =
      .ok (value, rest)) :
    ∃ taken, 123 :: input = taken ++ rest ∧
      TakesValue (fun steps => readVisible steps (some (item steps))) value
        taken rest := by
  obtain ⟨body, rfl, hbody, ⟨members, rfl⟩, hagain⟩ :=
    readMembers_again hitem hok
  have hbracketed : Bracketed (123 :: (body ++ [125])) :=
    .mk (.inr rfl) (.inr rfl) hbody
  refine ⟨123 :: (body ++ [125]), by simp,
    .nested rfl hbracketed ⟨hbracketed.leads, ?_⟩⟩
  intro steps later hsteps _
  simp only [List.length_cons, List.length_append, List.length_nil] at hsteps
  rw [List.cons_append, List.append_assoc]
  exact hagain steps steps later (by omega) (by omega)

theorem takes_keyword {byte : UInt8} {letters : List UInt8} {found : Value}
    (hfound : found.isNested = false)
    (hplain : (byte :: letters).all isPlain = true)
    (hread : ∀ steps later,
      readVisible steps (nested.map (· steps)) (byte :: later) =
        readKeyword found letters later)
    (hok : readKeyword found letters input = .ok (value, rest)) :
    ∃ taken, byte :: input = taken ++ rest ∧
      TakesValue (fun steps => readVisible steps (nested.map (· steps))) value
        taken rest := by
  obtain ⟨rfl, rfl⟩ := readKeyword_eq_ok hok
  refine ⟨byte :: letters, rfl, .scalar hfound
    ⟨.plain (List.all_eq_true.mp hplain), ?_⟩⟩
  intro steps later _ _
  rw [List.cons_append, hread]
  exact readKeyword_append value letters later

theorem takes_scalar {α : Type} {inner : Nat → Reader α} (wrap : α → Value)
    {place : StringPlace} (front : List UInt8) {behind : List UInt8}
    (hwrap : ∀ found, (wrap found).isNested = false)
    (hfront : Leads .outside place front)
    (hinner : IsLocal .sameByte place .outside inner)
    (hread : ∀ steps later, later.head? = behind.head? →
      readVisible steps (nested.map (· steps)) (front ++ later) =
        (inner steps later).bind fun (found, rest) => .ok (wrap found, rest))
    (hok : readVisible steps (nested.map (· steps)) (front ++ behind) =
      .ok (value, rest)) :
    ∃ taken, front ++ behind = taken ++ rest ∧
      TakesValue (fun steps => readVisible steps (nested.map (· steps))) value
        taken rest := by
  rw [hread steps behind rfl] at hok
  cases hfound : inner steps behind with
  | error stop =>
      rw [hfound] at hok
      exact absurd hok nofun
  | ok result =>
      rw [hfound] at hok
      cases hok
      obtain ⟨taken, rfl, htakes⟩ :=
        hinner steps behind result.1 result.2 hfound
      refine ⟨front ++ taken, (List.append_assoc _ _ _).symm,
        .scalar (hwrap result.1) ⟨hfront.append htakes.leads, ?_⟩⟩
      intro steps later hsteps hhead
      rw [List.length_append] at hsteps
      rw [List.append_assoc, hread steps _ (head?_append_congr hhead),
        htakes.again steps later (by omega) hhead]
      rfl

theorem readVisible_digit (steps : Nat) (nested : Option (Reader Value))
    {byte : UInt8} (hdigit : isDigit byte = true) (behind : List UInt8) :
    readVisible steps nested (byte :: behind) =
      (readNumber false (byte :: behind)).bind fun (number, rest) =>
        .ok (.number number, rest) := by
  rw [readVisible, if_pos hdigit]
  · rfl
  all_goals
    rintro rfl
    exact absurd hdigit nofun

theorem takes_readVisible
    (hnested : ∀ item, nested = some item →
      IsLocal .sameByte .outside .outside item)
    (hok : readVisible steps (nested.map (· steps)) input =
      .ok (value, rest)) :
    ∃ taken, input = taken ++ rest ∧
      TakesValue (fun steps => readVisible steps (nested.map (· steps))) value
        taken rest := by
  have hread := hok
  unfold readVisible at hok
  split at hok
  case h_1 => exact absurd hok nofun
  case h_2 => exact takes_keyword rfl rfl (fun _ _ => rfl) hok
  case h_3 => exact takes_keyword rfl rfl (fun _ _ => rfl) hok
  case h_4 => exact takes_keyword rfl rfl (fun _ _ => rfl) hok
  case h_5 =>
    exact takes_scalar Value.text [34] (fun _ => rfl) (.single fun _ => rfl)
      isLocal_readString.sameByte (fun _ _ _ => rfl) hread
  case h_6 =>
    exact takes_scalar Value.number [45] (fun _ => rfl) (leads_mark rfl)
      (isLocal_readNumber true) (fun _ _ _ => rfl) hread
  case h_7 =>
    cases nested with
    | none => exact absurd hok nofun
    | some item => exact takes_array (hnested item rfl) hok
  case h_8 =>
    cases nested with
    | none => exact absurd hok nofun
    | some item => exact takes_object (hnested item rfl) hok
  case h_9 first behind _ _ _ _ _ _ _ =>
    by_cases hdigit : isDigit first = true
    · refine takes_scalar Value.number [] (fun _ => rfl) .nil
        (isLocal_readNumber false) ?_ hread
      intro steps later hhead
      obtain ⟨later, rfl⟩ := List.head?_eq_some_iff.mp hhead
      exact readVisible_digit steps _ hdigit later
    · rw [if_neg hdigit] at hok
      exact absurd hok nofun

theorem isLocal_readValueWith (nested : Option (Nat → Reader Value))
    (hnested : ∀ item, nested = some item →
      IsLocal .sameByte .outside .outside item) :
    IsLocal .sameByte .outside .outside fun steps =>
      readValueWith steps (nested.map (· steps)) := by
  intro steps input value rest (hok : readValueWith _ _ _ = _)
  cases hskip : skipBlanks input with
  | nil =>
      rw [readValueWith_eq, hskip] at hok
      exact absurd hok nofun
  | cons byte behind =>
      obtain ⟨blanks, rfl, hblanks, hagain⟩ := exists_blanks hskip
      rw [readValueWith_eq, hskip] at hok
      obtain ⟨taken, htaken, htakesValue⟩ := takes_readVisible hnested hok
      have htakes := htakesValue.takes
      refine ⟨blanks ++ taken, by rw [htaken, List.append_assoc],
        hblanks.append htakes.leads, ?_⟩
      intro steps later hsteps hhead
      obtain ⟨behind', hbehind⟩ :
          ∃ behind', taken ++ later = byte :: behind' := by
        apply List.head?_eq_some_iff.mp
        rw [head?_append_congr hhead, ← htaken]
        rfl
      rw [List.length_append] at hsteps
      rw [List.append_assoc, readValueWith_eq, hbehind, hagain, ← hbehind]
      exact htakes.again steps later (by omega) hhead

end Visible

/-- The reader for values inside arrays and objects at some depth. -/
def nestedReader : Nat → Option (Nat → Reader Value)
  | 0 => none
  | depth + 1 => some fun steps => readValue steps depth

theorem readValue_eq (steps depth : Nat) :
    readValue steps depth =
      readValueWith steps ((nestedReader depth).map (· steps)) := by
  cases depth with
  | zero => rfl
  | succ depth => rfl

theorem isLocal_readValue (depth : Nat) :
    IsLocal .sameByte .outside .outside fun steps =>
      readValue steps depth := by
  induction depth with
  | zero => exact isLocal_readValueWith none nofun
  | succ depth ih =>
      refine isLocal_readValueWith (some fun steps => readValue steps depth) ?_
      rintro item ⟨rfl⟩
      exact ih

theorem isLocal_nestedReader {depth : Nat} {item : Nat → Reader Value}
    (hitem : nestedReader depth = some item) :
    IsLocal .sameByte .outside .outside item := by
  cases depth with
  | zero => exact absurd hitem nofun
  | succ depth =>
      cases hitem
      exact isLocal_readValue depth

/-! ## The next value of a stream -/

theorem parseNext_of_nested {steps : Nat} {input rest : List UInt8}
    {value : Value} (hvalue : value.isNested = true)
    (hread : readValue steps nestingLimit input = .ok (value, rest)) :
    parseNext steps input = .ok (value, rest) := by
  rw [parseNext, hread]
  cases value with
  | array items => rfl
  | object members => rfl
  | _ => exact absurd hvalue nofun

theorem eq_of_guarded {β ε ε' : Type} {condition : Bool} {found value : β}
    {stop : ε} {f : ε → ε'}
    (hok : (if condition then .ok found else .error stop : Except ε β).mapError
      f = .ok value) : found = value := by
  cases condition with
  | false => exact absurd hok nofun
  | true => exact Except.ok.inj hok

theorem readValue_of_parseNext {steps : Nat} {input rest : List UInt8}
    {value : Value} (hok : parseNext steps input = .ok (value, rest)) :
    readValue steps nestingLimit input = .ok (value, rest) := by
  cases hread : readValue steps nestingLimit input with
  | error stop =>
      simp only [parseNext, hread] at hok
      exact absurd hok nofun
  | ok result =>
      simp only [parseNext, hread, bind, Except.bind] at hok
      exact congrArg Except.ok (eq_of_guarded hok)

/-- An array or object at the front of a stream is read whatever follows
it. -/
theorem parseNext_nested {steps : Nat} {input rest : List UInt8}
    {value : Value} (hskip : skipBlanks input = input)
    (hvalue : value.isNested = true)
    (hok : parseNext steps input = .ok (value, rest)) :
    ∃ taken, input = taken ++ rest ∧ Bracketed taken ∧
      ∀ steps later, taken.length < steps →
        parseNext steps (taken ++ later) = .ok (value, later) := by
  have hread := readValue_of_parseNext hok
  rw [readValue_eq, readValueWith_eq, hskip] at hread
  obtain ⟨taken, rfl, htakes⟩ :=
    takes_readVisible (fun _ => isLocal_nestedReader) hread
  cases htakes with
  | scalar hscalar _ => exact absurd hvalue (by simp [hscalar])
  | nested _ hbracketed htakes =>
      refine ⟨taken, rfl, hbracketed, ?_⟩
      intro steps later hsteps
      apply parseNext_of_nested hvalue
      rw [readValue_eq, readValueWith_eq]
      have hvisible : skipBlanks (taken ++ later) = taken ++ later := by
        obtain ⟨hopening, -, -⟩ := hbracketed
        rcases hopening with rfl | rfl
        · rfl
        · rfl
      rw [hvisible]
      exact htakes.again steps later hsteps trivial

end JsonIntake.Json
