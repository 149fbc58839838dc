import JsonIntake.Proofs.Json.Consumption
import JsonIntake.Proofs.Json.Meaning
import JsonIntake.Proofs.Json.Names

/-!
# Strict texts are read back

A strict text is read as the value that it stands for.  The loops over items
and members take one of them a round: the first as it comes, the others behind
a comma.  The members of an object are put in order as they are read, so the
order in which they are written does not matter.
-/

namespace JsonIntake.Json

open Grammar

/-! ## Blanks and beginnings -/

theorem isBlank_eq (byte : UInt8) : Grammar.isBlank byte = isBlank byte := by
  unfold Grammar.isBlank isBlank
  cases decide (byte = 32) <;> cases decide (byte = 9) <;>
    cases decide (byte = 10) <;> rfl

section Blanks

variable {rest : List UInt8} {byte : UInt8}

@[simp] theorem skipBlanks_blank (blank : Blank) (rest : List UInt8) :
    skipBlanks (blank.bytes ++ rest) = skipBlanks rest :=
  List.dropWhile_append_of_pos fun byte hbyte =>
    isBlank_eq byte ▸ blank.blank byte hbyte

theorem skipBlanks_cons (hbyte : isBlank byte = false) :
    skipBlanks (byte :: rest) = byte :: rest :=
  List.dropWhile_cons_of_neg (by simp [hbyte])

theorem skipBlanks_mark (hbyte : isBlank byte = false) (blank : Blank)
    (rest : List UInt8) :
    skipBlanks (blank.bytes ++ byte :: rest) = byte :: rest :=
  (skipBlanks_blank blank _).trans (skipBlanks_cons hbyte)

theorem endsNumber_nil : EndsNumber [] := nofun

theorem endsNumber_cons
    (hbyte : isBlank byte = true ∨ byte = 44 ∨ byte = 93 ∨ byte = 125) :
    EndsNumber (byte :: rest) := by
  rintro _ ⟨⟩
  simp only [isBlank, Bool.or_eq_true, decide_eq_true_eq] at hbyte
  rcases hbyte with (((rfl | rfl) | rfl) | rfl) | rfl | rfl | rfl <;> decide

theorem EndsNumber.blank (hrest : EndsNumber rest) (blank : Blank) :
    EndsNumber (blank.bytes ++ rest) := by
  obtain ⟨bytes, hblank⟩ := blank
  cases bytes with
  | nil => exact hrest
  | cons byte bytes =>
      exact endsNumber_cons (.inl
        (isBlank_eq byte ▸ hblank byte List.mem_cons_self))

theorem endsNumber_mark (hbyte : byte = 44 ∨ byte = 93 ∨ byte = 125)
    (blank : Blank) (rest : List UInt8) :
    EndsNumber (blank.bytes ++ byte :: rest) :=
  (endsNumber_cons (.inr hbyte)).blank blank

/-- A value begins with no blank, and with no closing bracket. -/
theorem not_isBlank_of_opensValue (hopens : opensValue byte = true) :
    isBlank byte = false ∧ byte ≠ 93 ∧ byte ≠ 125 := by
  simp only [opensValue, Bool.or_eq_true, List.contains_iff_mem,
    List.mem_cons, List.not_mem_nil, or_false] at hopens
  rcases hopens with (rfl | rfl | rfl | rfl | rfl | rfl | rfl) | hdigit
  case inr =>
    simp only [isDigit, Bool.and_eq_true, decide_eq_true_eq,
      UInt8.le_iff_toNat_le, UInt8.reduceToNat] at hdigit
    simp only [isBlank, Bool.or_eq_false_iff, decide_eq_false_iff_not, ne_eq,
      ← UInt8.toNat_inj, UInt8.reduceToNat]
    omega
  all_goals decide

theorem exists_opensValue (tree : Grammar.Tree StrictLiteral) :
    ∃ byte tail, tree.bytes StrictLiteral.bytes = byte :: tail ∧
      opensValue byte = true := by
  cases tree with
  | scalar scalar =>
      cases scalar with
      | null => exact ⟨_, _, rfl, rfl⟩
      | true => exact ⟨_, _, rfl, rfl⟩
      | false => exact ⟨_, _, rfl, rfl⟩
      | number numeral =>
          obtain ⟨first, tail, hwhole⟩ :=
            List.exists_cons_of_ne_nil numeral.whole.nonempty
          have hdigit := numeral.whole.digit first (by simp [hwhole])
          simp only [Tree.bytes, Scalar.bytes, Numeral.bytes, hwhole]
          cases numeral.negative with
          | true => exact ⟨45, _, rfl, rfl⟩
          | false =>
              refine ⟨first, _, rfl, ?_⟩
              rw [opensValue, Bool.or_eq_true]
              exact .inr hdigit
  | string literal => exact ⟨34, _, rfl, rfl⟩
  | emptyArray inside => exact ⟨91, _, rfl, rfl⟩
  | array items => exact ⟨91, _, rfl, rfl⟩
  | emptyObject inside => exact ⟨123, _, rfl, rfl⟩
  | object members => exact ⟨123, _, rfl, rfl⟩

theorem length_tree_pos (tree : Grammar.Tree StrictLiteral) :
    0 < (tree.bytes StrictLiteral.bytes).length := by
  obtain ⟨byte, tail, htree, -⟩ := exists_opensValue tree
  rw [htree]
  exact Nat.succ_pos _

@[simp] theorem skipBlanks_tree (tree : Grammar.Tree StrictLiteral)
    (rest : List UInt8) :
    skipBlanks (tree.bytes StrictLiteral.bytes ++ rest) =
      tree.bytes StrictLiteral.bytes ++ rest := by
  obtain ⟨byte, tail, htree, hopens⟩ := exists_opensValue tree
  rw [htree]
  exact skipBlanks_cons (not_isBlank_of_opensValue hopens).1

end Blanks

/-! ## Rounds of the loops -/

/-- The comma in front of every item or member but the first. -/
def comma (isFirst : Bool) : List UInt8 := if isFirst then [] else [44]

def noBlank : Blank := ⟨[], by simp⟩

section Rounds

variable {item : Reader Value} {steps : Nat} {items : List Value}
  {value : Value} {isFirst : Bool} {members : List (String × Value)}
  {name : String} {rest middle : List UInt8}

theorem readItems_round (blank before : Blank)
    (tree : Grammar.Tree StrictLiteral)
    (hitem : item (tree.bytes StrictLiteral.bytes ++ rest) =
      .ok (value, middle)) :
    readItems item (steps + 1) items
        (blank.bytes ++ (comma items.isEmpty ++ (before.bytes ++
          (tree.bytes StrictLiteral.bytes ++ rest)))) =
      readItems item steps (value :: items) middle := by
  obtain ⟨byte, tail, htree, hopens⟩ := exists_opensValue tree
  obtain ⟨hvisible, hbracket, -⟩ := not_isBlank_of_opensValue hopens
  rw [htree, List.cons_append] at hitem ⊢
  have hskip : skipBlanks (before.bytes ++ byte :: (tail ++ rest)) =
      byte :: (tail ++ rest) := skipBlanks_mark hvisible before _
  -- Behind the comma blanks are skipped once more.
  cases hempty : items.isEmpty with
  | true =>
      have hfirst : skipBlanks (blank.bytes ++ (comma true ++
          (before.bytes ++ byte :: (tail ++ rest)))) =
          byte :: (tail ++ rest) :=
        (skipBlanks_blank blank _).trans hskip
      exact readItems_step hfirst hbracket (hempty ▸ rfl) hitem
  | false =>
      refine readItems_step (skipBlanks_mark rfl blank _) (by decide) ?_ hitem
      rw [hempty]
      simp [itemStart, hskip, hbracket]

theorem readMember_append {key : StrictLiteral} (hkey : key.Denotes name)
    (hsteps : key.bytes.length ≤ steps) (behindKey beforeValue : Blank)
    (hitem : item (beforeValue.bytes ++ rest) = .ok (value, middle)) :
    readMember steps item (key.parts.flatMap StringPart.bytes ++
        34 :: (behindKey.bytes ++ 58 :: (beforeValue.bytes ++ rest))) =
      .ok ((name, value), middle) :=
  readMember_eq_ok.mpr ⟨_, _, readString_literal hkey hsteps,
    skipBlanks_mark rfl behindKey _, hitem⟩

theorem readMembers_round (blank before : Blank) {behind : List UInt8}
    (hmember : readMember (steps + 1) item behind =
      .ok ((name, value), middle)) :
    readMembers item (steps + 1) isFirst members
        (blank.bytes ++ (comma isFirst ++ (before.bytes ++ 34 :: behind))) =
      readMembers item steps false
        (Value.insertMember name value members) middle := by
  have hskip : skipBlanks (before.bytes ++ 34 :: behind) = 34 :: behind :=
    skipBlanks_mark rfl before _
  cases isFirst with
  | true =>
      have hfirst : skipBlanks (blank.bytes ++ (comma true ++
          (before.bytes ++ 34 :: behind))) = 34 :: behind :=
        (skipBlanks_blank blank _).trans hskip
      exact readMembers_step hfirst (by decide) rfl hmember
  | false =>
      refine readMembers_step (skipBlanks_mark rfl blank _) (by decide) ?_ hmember
      simp [memberStart, hskip]

end Rounds

/-! ## Whole values -/

section Trees

variable {depth steps left : Nat} {value : Value} {rest : List UInt8}

theorem readVisible_scalar {nested : Option (Reader Value)} {scalar : Scalar}
    (hscalar : scalar.Denotes value) (hrest : EndsNumber rest) :
    readVisible steps nested (scalar.bytes ++ rest) = .ok (value, rest) := by
  cases hscalar with
  | null => exact readKeyword_append _ _ _
  | true => exact readKeyword_append _ _ _
  | false => exact readKeyword_append _ _ _
  | @number numeral value hvalue =>
      have hfits : numeral.whole.value ≤ Size.maximum := by
        have hlow := hvalue.low
        have hhigh := hvalue.high
        have hhalf : Size.half ≤ Size.maximum := by decide
        rw [hvalue.digits]
        omega
      have hread := readNumber_append numeral.negative numeral.whole
        numeral.leading hfits hrest
      rw [integer_of_denotes hvalue] at hread
      simp only [Scalar.bytes, Numeral.bytes, hvalue.fraction, hvalue.exponent,
        Option.elim_none, List.append_nil]
      cases hnegative : numeral.negative with
      | true =>
          rw [hnegative] at hread
          simp only [if_true, List.cons_append, List.nil_append, readVisible,
            hread]
          rfl
      | false =>
          obtain ⟨first, tail, hwhole⟩ :=
            List.exists_cons_of_ne_nil numeral.whole.nonempty
          have hdigit := numeral.whole.digit first (by simp [hwhole])
          rw [hnegative, hwhole, List.cons_append] at hread
          simp only [Bool.false_eq_true, if_false, List.nil_append, hwhole,
            List.cons_append, readVisible_digit steps nested hdigit, hread]
          rfl

theorem readValue_tree (before : Blank) (tree : Grammar.Tree StrictLiteral) :
    readValue steps depth
        (before.bytes ++ (tree.bytes StrictLiteral.bytes ++ rest)) =
      readVisible steps ((nestedReader depth).map (· steps))
        (tree.bytes StrictLiteral.bytes ++ rest) := by
  rw [readValue_eq, readValueWith_eq, skipBlanks_blank, skipBlanks_tree]

-- The induction is on the tree.  A loop counts its own rounds, while its items
-- are read with the steps of the whole text.
mutual

/-- A strict text is read as what it stands for. -/
theorem readValue_of_denotes {tree : Grammar.Tree StrictLiteral}
    {value : Value} {depth : Nat} {rest : List UInt8} (before : Blank)
    (htree : tree.Denotes value) (hnesting : tree.nesting ≤ depth)
    (hsteps : (tree.bytes StrictLiteral.bytes).length < steps)
    (hrest : value.isNested = false → EndsNumber rest) :
    readValue steps depth
        (before.bytes ++ (tree.bytes StrictLiteral.bytes ++ rest)) =
      .ok (value, rest) := by
  rw [readValue_tree]
  cases htree with
  | scalar hscalar =>
      refine readVisible_scalar hscalar (hrest ?_)
      cases hscalar <;> rfl
  | @string literal text hliteral =>
      have hread : readString steps
          (literal.parts.flatMap StringPart.bytes ++ 34 :: rest) =
            .ok (text, rest) :=
        readString_literal hliteral (Nat.le_of_lt hsteps)
      simp only [Tree.bytes, StrictLiteral.bytes, List.append_assoc,
        List.cons_append, List.nil_append, readVisible, hread]
      rfl
  | emptyArray inside =>
      obtain ⟨depth, rfl⟩ := Nat.exists_eq_add_of_le' hnesting
      obtain ⟨left, rfl⟩ := Nat.exists_eq_add_of_lt hsteps
      simp only [Tree.bytes, List.append_assoc]
      exact readItems_close (skipBlanks_mark rfl inside _)
  | array hitems =>
      obtain ⟨depth, rfl⟩ := Nat.exists_eq_add_of_le'
        (Nat.le_trans (Nat.le_add_left 1 _) hnesting)
      simp only [Tree.bytes, List.length_append] at hsteps
      simp only [Tree.bytes, List.append_assoc]
      exact readItems_items [] hitems (Nat.le_of_succ_le_succ hnesting)
        (by omega) (by omega) noBlank
  | emptyObject inside =>
      obtain ⟨depth, rfl⟩ := Nat.exists_eq_add_of_le' hnesting
      obtain ⟨left, rfl⟩ := Nat.exists_eq_add_of_lt hsteps
      simp only [Tree.bytes, List.append_assoc]
      exact readMembers_close (skipBlanks_mark rfl inside _)
  | object hmembers hperm hsorted =>
      obtain ⟨depth, rfl⟩ := Nat.exists_eq_add_of_le'
        (Nat.le_trans (Nat.le_add_left 1 _) hnesting)
      simp only [Tree.bytes, List.length_append] at hsteps
      simp only [Tree.bytes, List.append_assoc]
      rw [← insertMembers_of_perm hperm hsorted]
      exact readMembers_members [] true hmembers
        (Nat.le_of_succ_le_succ hnesting) (by omega) (by omega) noBlank

/-- The loop over the items, after those that are held. -/
theorem readItems_items {items : Items StrictLiteral}
    {values : List Value} (held : List Value) {left depth : Nat}
    {rest : List UInt8} (hitems : items.Denotes values) (hnesting : items.nesting ≤ depth)
    (hsteps : (items.bytes StrictLiteral.bytes).length < steps)
    (hleft : (items.bytes StrictLiteral.bytes).length < left) (blank : Blank) :
    readItems (readValue steps depth) left held
        (blank.bytes ++ (comma held.isEmpty ++
          (items.bytes StrictLiteral.bytes ++ 93 :: rest))) =
      .ok (.array (held.reverse ++ values), rest) := by
  cases hitems with
  | @last before behind tree value htree =>
      simp only [Items.bytes, List.length_append] at hsteps hleft
      have hpos := length_tree_pos tree
      obtain ⟨left, rfl⟩ : ∃ less, left = less + 2 := ⟨left - 2, by omega⟩
      have hvalue := readValue_of_denotes noBlank htree hnesting
        (show _ < steps by omega) fun _ =>
          endsNumber_mark (.inr (.inl rfl)) behind rest
      simp only [Items.bytes, List.append_assoc]
      rw [readItems_round blank before tree hvalue,
        readItems_close (skipBlanks_mark rfl behind _), List.reverse_cons]
  | @cons before behind tree value items values htree hitems =>
      rw [Items.nesting, Nat.max_le] at hnesting
      simp only [Items.bytes, List.length_append, List.length_singleton]
        at hsteps hleft
      obtain ⟨left, rfl⟩ : ∃ less, left = less + 1 := ⟨left - 1, by omega⟩
      have hvalue := readValue_of_denotes noBlank htree hnesting.1
        (show _ < steps by omega) fun _ => endsNumber_mark (.inl rfl) behind
          (items.bytes StrictLiteral.bytes ++ 93 :: rest)
      have hshift : held.reverse ++ value :: values =
          (value :: held).reverse ++ values := by
        rw [List.reverse_cons, List.append_assoc, List.singleton_append]
      simp only [Items.bytes, List.append_assoc, List.cons_append,
        List.nil_append]
      rw [readItems_round blank before tree hvalue, hshift]
      exact readItems_items (value :: held) hitems hnesting.2 (by omega)
        (by omega) behind

/-- The loop over the members, after those that are held. -/
theorem readMembers_members {members : Members StrictLiteral}
    {written : List (String × Value)} (held : List (String × Value))
    {left depth : Nat} (isFirst : Bool) {rest : List UInt8}
    (hmembers : members.Denotes written)
    (hnesting : members.nesting ≤ depth)
    (hsteps : (members.bytes StrictLiteral.bytes).length < steps)
    (hleft : (members.bytes StrictLiteral.bytes).length < left)
    (blank : Blank) :
    readMembers (readValue steps depth) left isFirst held
        (blank.bytes ++ (comma isFirst ++
          (members.bytes StrictLiteral.bytes ++ 125 :: rest))) =
      .ok (.object (insertMembers held written), rest) := by
  cases hmembers with
  | @last before behindKey beforeValue behind key name tree value hkey htree =>
      simp only [Members.bytes, List.length_append, List.length_singleton]
        at hsteps hleft
      have hpos := length_tree_pos tree
      obtain ⟨left, rfl⟩ : ∃ less, left = less + 2 := ⟨left - 2, by omega⟩
      have hvalue := readValue_of_denotes beforeValue htree hnesting
        (show _ < steps by omega) fun _ =>
          endsNumber_mark (.inr (.inr rfl)) behind rest
      have hlong : key.bytes.length ≤ left + 2 := by omega
      have hmember := readMember_append hkey hlong behindKey beforeValue hvalue
      simp only [Members.bytes, StrictLiteral.bytes, List.append_assoc,
        List.cons_append, List.nil_append]
      rw [readMembers_round blank before hmember,
        readMembers_close (skipBlanks_mark rfl behind _)]
      rfl
  | @cons before behindKey beforeValue behind key name tree value members
      written hkey htree hmembers =>
      rw [Members.nesting, Nat.max_le] at hnesting
      simp only [Members.bytes, List.length_append, List.length_singleton]
        at hsteps hleft
      obtain ⟨left, rfl⟩ : ∃ less, left = less + 1 := ⟨left - 1, by omega⟩
      have hvalue := readValue_of_denotes beforeValue htree hnesting.1
        (show _ < steps by omega) fun _ => endsNumber_mark (.inl rfl) behind
          (members.bytes StrictLiteral.bytes ++ 125 :: rest)
      have hlong : key.bytes.length ≤ left + 1 := by omega
      have hmember := readMember_append hkey hlong behindKey beforeValue hvalue
      simp only [Members.bytes, StrictLiteral.bytes, List.append_assoc,
        List.cons_append, List.nil_append]
      rw [readMembers_round blank before hmember]
      exact readMembers_members (Value.insertMember name value held) false
        hmembers hnesting.2 (by omega) (by omega) behind

end

/-- A text with nothing but a strict value in it is read in full. -/
theorem parse_text {text : Text StrictLiteral}
    (hvalue : text.value.Denotes value)
    (hnesting : text.value.nesting ≤ nestingLimit) :
    parse (text.bytes StrictLiteral.bytes) = .ok value := by
  have hrest : EndsNumber text.behind.bytes := by
    rw [← List.append_nil text.behind.bytes]
    exact endsNumber_nil.blank text.behind
  have hskip : skipBlanks text.behind.bytes = [] := by
    rw [← List.append_nil text.behind.bytes, skipBlanks_blank]
    rfl
  have hsteps : (text.value.bytes StrictLiteral.bytes).length <
      (text.bytes StrictLiteral.bytes).length + 1 := by
    simp only [Text.bytes, List.length_append]
    omega
  have hread := readValue_of_denotes text.before hvalue hnesting hsteps
    fun _ => hrest
  have hbytes : text.bytes StrictLiteral.bytes = text.before.bytes ++
      (text.value.bytes StrictLiteral.bytes ++ text.behind.bytes) :=
    List.append_assoc _ _ _
  rw [← hbytes] at hread
  simp only [parse, hread, bind, Except.bind, hskip]
  rfl

end Trees

end JsonIntake.Json
