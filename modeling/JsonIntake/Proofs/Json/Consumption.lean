import JsonIntake.Proofs.Json.Values

/-!
# What values take

A value takes the byte that it begins with, and an array takes those of its
items.  So a text has no more values in it than bytes with which a value may
begin, however few of its other bytes are counted.
-/

namespace JsonIntake.Json

/-- Bytes that a value may begin with. -/
def opensValue (byte : UInt8) : Bool :=
  [110, 116, 102, 34, 45, 91, 123].contains byte || isDigit byte

/-! ## The first byte -/

theorem readNumber_single (negative : Bool) {byte : UInt8}
    (hdigit : isDigit byte = true) :
    ∃ number, readNumber negative [byte] = .ok (number, []) := by
  by_cases hzero : byte = 48
  · subst hzero
    exact ⟨_, rfl⟩
  · exact ⟨_, readNumber_of_fits hzero hdigit rfl⟩

section Visible

variable {nested : Option (Nat → Reader Value)} {steps : Nat} {value : Value}
  {first : UInt8} {input behind rest : List UInt8}

theorem opensValue_of_readVisible {nested : Option (Reader Value)}
    (hok : readVisible steps nested (first :: behind) = .ok (value, rest)) :
    opensValue first = true := by
  generalize hinput : first :: behind = input at hok
  unfold readVisible at hok
  split at hok
  case h_1 => exact absurd hok nofun
  case h_9 =>
    obtain ⟨rfl, rfl⟩ := List.cons.inj hinput
    by_cases hdigit : isDigit first = true
    · rw [opensValue, hdigit, Bool.or_true]
    · rw [if_neg hdigit] at hok
      exact absurd hok nofun
  all_goals
    obtain ⟨rfl, rfl⟩ := List.cons.inj hinput
    rfl

/-- A byte alone is a value only if it is a digit, and then it is taken. -/
theorem readVisible_single_ne {nested : Option (Reader Value)} :
    readVisible 1 nested [first] ≠ .ok (value, [first]) := by
  intro hok
  have hopens := opensValue_of_readVisible hok
  by_cases hdigit : isDigit first = true
  · obtain ⟨number, hnumber⟩ := readNumber_single false hdigit
    have hvisible := readVisible_digit 1 nested hdigit []
    rw [hnumber, hok] at hvisible
    exact absurd hvisible nofun
  · simp only [opensValue, hdigit, Bool.or_false, List.contains_iff_mem,
      List.mem_cons, List.not_mem_nil, or_false] at hopens
    rcases hopens with rfl | rfl | rfl | rfl | rfl | rfl | rfl
    all_goals cases nested <;> exact absurd hok nofun

theorem readVisible_takes_first
    (hnested : ∀ item, nested = some item →
      IsLocal .sameByte .outside .outside item)
    (hok : readVisible steps (nested.map (· steps)) input =
      .ok (value, rest)) :
    ∃ first behind, input = first :: behind ∧ opensValue first = true ∧
      rest <:+ behind := by
  obtain ⟨taken, rfl, htakes⟩ := takes_readVisible hnested hok
  cases taken with
  | nil =>
      rw [List.nil_append] at hok
      cases rest with
      | nil => exact absurd hok nofun
      | cons first behind =>
          have hagain := htakes.takes.again 1 [first] Nat.one_pos rfl
          exact absurd hagain readVisible_single_ne
  | cons first taken =>
      exact ⟨first, taken ++ rest, rfl, opensValue_of_readVisible hok,
        List.suffix_append taken rest⟩

end Visible

/-! ## Counting bytes -/

/-- Number of items of an array, and one for any other value. -/
def Value.count : Value → Nat
  | .array items => items.length
  | _ => 1

section Counting

variable {p : UInt8 → Bool} {steps depth : Nat} {value : Value}
  {input rest : List UInt8}

theorem countP_skipBlanks_le (p : UInt8 → Bool) (input : List UInt8) :
    (skipBlanks input).countP p ≤ input.countP p :=
  (List.dropWhile_sublist _).countP_le

/-- Where all bytes count with which a value may begin, a value takes one. -/
theorem countP_readValue_lt (hp : ∀ byte, opensValue byte = true → p byte = true)
    (hok : readValue steps depth input = .ok (value, rest)) :
    rest.countP p < input.countP p := by
  rw [readValue_eq, readValueWith_eq] at hok
  obtain ⟨first, behind, hvisible, hopens, hsuffix⟩ :=
    readVisible_takes_first (fun _ => isLocal_nestedReader) hok
  have hskip := countP_skipBlanks_le p input
  have hrest := hsuffix.sublist.countP_le (p := p)
  rw [hvisible, List.countP_cons_of_pos (hp first hopens)] at hskip
  omega

/-- The loop over the items takes one byte that counts for each of them. -/
theorem length_readItems_le {item : Reader Value}
    (hitem : ∀ input value rest, item input = .ok (value, rest) →
      rest.countP p < input.countP p) {items : List Value}
    (hok : readItems item steps items input = .ok (value, rest)) :
    ∃ all, value = .array all ∧
      all.length + rest.countP p ≤ items.length + input.countP p := by
  induction steps generalizing items input with
  | zero => exact absurd hok nofun
  | succ steps ih =>
    have hskipped := countP_skipBlanks_le p input
    rcases readItems_cases hok with
      ⟨hskip, rfl⟩ | ⟨left, byte, behind, start, first, middle, hskip, -,
        hstart, hfirst, hleft, hrest⟩
    · refine ⟨_, rfl, ?_⟩
      have htail := (List.sublist_cons_self 93 rest).countP_le (p := p)
      rw [hskip] at hskipped
      rw [List.length_reverse]
      omega
    · obtain rfl := Nat.succ.inj hleft
      obtain ⟨all, rfl, hall⟩ := ih hrest
      obtain ⟨front, hfront, -⟩ := itemStart_again hstart
      have hbehind := (List.sublist_append_right front start).countP_le (p := p)
      have hless := hitem start first middle hfirst
      refine ⟨all, rfl, ?_⟩
      rw [hskip, hfront] at hskipped
      rw [List.length_cons] at hall
      omega

theorem exists_items_of_readVisible {nested : Option (Nat → Reader Value)}
    {items : List Value}
    (hnested : ∀ item, nested = some item →
      IsLocal .sameByte .outside .outside item)
    (hok : readVisible steps (nested.map (· steps)) input =
      .ok (.array items, rest)) :
    ∃ item behind, nested = some item ∧ input = 91 :: behind ∧
      readItems (item steps) steps [] behind = .ok (.array items, rest) := by
  obtain ⟨taken, rfl, htakes⟩ := takes_readVisible hnested hok
  cases htakes with
  | scalar hscalar _ => exact absurd hscalar nofun
  | nested _ hbracketed _ =>
      obtain ⟨hopening, -, -⟩ := hbracketed
      cases nested with
      | none =>
          rcases hopening with rfl | rfl <;> exact absurd hok nofun
      | some item =>
          rcases hopening with rfl | rfl
          · exact ⟨item, _, rfl, rfl, hok⟩
          · obtain ⟨-, -, -, ⟨members, hmembers⟩, -⟩ :=
              readMembers_again (hnested item rfl) hok
            exact absurd hmembers nofun

/-- Where all bytes count with which a value may begin, a value takes as many
as it has items. -/
theorem count_readValue_le (hp : ∀ byte, opensValue byte = true → p byte = true)
    (hok : readValue steps depth input = .ok (value, rest)) :
    value.count + rest.countP p ≤ input.countP p := by
  cases value with
  | array items =>
      have hskip := countP_skipBlanks_le p input
      rw [readValue_eq, readValueWith_eq] at hok
      obtain ⟨item, behind, hitem, hvisible, hitems⟩ :=
        exists_items_of_readVisible (fun _ => isLocal_nestedReader) hok
      cases depth with
      | zero => exact absurd hitem nofun
      | succ depth =>
          cases hitem
          obtain ⟨all, hall, hcount⟩ :=
            length_readItems_le (fun _ _ _ => countP_readValue_lt hp) hitems
          cases hall
          have hbehind := (List.sublist_cons_self 91 behind).countP_le (p := p)
          rw [hvisible] at hskip
          rw [List.length_nil] at hcount
          rw [Value.count]
          omega
  | _ =>
      have hless := countP_readValue_lt hp hok
      rw [Value.count]
      · omega
      · exact nofun

end Counting

end JsonIntake.Json
