import JsonIntake.Proofs.Json.Items
import JsonIntake.Proofs.Json.Strings

/-!
# How far objects go

A member is a string, a colon and a value.  The loop over the members of an
object is like the one over the items of an array, but for the quote in front
of every name, which each round takes.
-/

namespace JsonIntake.Json

/-! ## One member -/

section Member

variable {item : Reader Value} {steps : Nat} {member : String × Value}
  {input rest : List UInt8}

theorem readMember_eq_ok :
    readMember steps item input = .ok (member, rest) ↔
      ∃ named behind, readString steps input = .ok (member.1, named) ∧
        skipBlanks named = 58 :: behind ∧
        item behind = .ok (member.2, rest) := by
  constructor
  · intro hok
    cases hname : readString steps input with
    | error stop =>
        simp only [readMember, hname] at hok
        exact absurd hok nofun
    | ok result =>
      obtain ⟨name, named⟩ := result
      simp only [readMember, hname, bind, Except.bind] at hok
      split at hok
      · exact absurd hok nofun
      next behind hskip =>
        cases hvalue : item behind with
        | error stop =>
            rw [hvalue] at hok
            exact absurd hok nofun
        | ok result =>
            rw [hvalue] at hok
            cases hok
            exact ⟨named, behind, rfl, hskip, hvalue⟩
      · exact absurd hok nofun
  · rintro ⟨named, behind, hname, hskip, hvalue⟩
    simp only [readMember, hname, bind, Except.bind, hskip, hvalue]

end Member

theorem readMember_again {item : Nat → Reader Value}
    (hitem : IsLocal .sameByte .outside .outside item) {depth steps : Nat}
    {member : String × Value} {input rest : List UInt8}
    (hok : readMember steps (item depth) input = .ok (member, rest)) :
    ∃ taken, input = taken ++ rest ∧ Leads .inside .outside taken ∧
      ∀ depth steps later, taken.length < depth → taken.length < steps →
        later.head? = rest.head? →
        readMember steps (item depth) (taken ++ later) =
          .ok (member, later) := by
  obtain ⟨named, behind, hname, hskip, hvalue⟩ := readMember_eq_ok.mp hok
  obtain ⟨name, rfl, hnameTakes⟩ :=
    isLocal_readString steps input member.1 named hname
  obtain ⟨blanks, rfl, hblanks, hskipAgain⟩ := exists_blanks hskip
  obtain ⟨taken, rfl, htakes⟩ := hitem depth behind member.2 rest hvalue
  refine ⟨name ++ (blanks ++ 58 :: taken), by simp,
    hnameTakes.leads.append (hblanks.append
      ((leads_mark rfl).append htakes.leads)), ?_⟩
  intro depth steps later hdepth hsteps hhead
  simp only [List.length_append, List.length_cons] at hdepth hsteps
  refine readMember_eq_ok.mpr
    ⟨blanks ++ 58 :: (taken ++ later), taken ++ later, ?_,
      hskipAgain (taken ++ later), htakes.again depth later (by omega) hhead⟩
  rw [List.append_assoc, List.append_assoc, List.cons_append]
  exact hnameTakes.again steps _ (by omega) trivial

/-! ## All members -/

/-- The input from the next name on; every member but the first has a comma in
front of it. -/
def memberStart (isFirst : Bool) (input : List UInt8) :
    Except Stop (List UInt8) :=
  if isFirst then
    match input with
    | 34 :: rest => .ok rest
    | input => stopAtNext .keyNotString input
  else
    match input with
    | 44 :: rest =>
      match skipBlanks rest with
      | [] => stopHere .endInValue []
      | 34 :: rest => .ok rest
      | 125 :: rest => stopAtNext .trailingComma (125 :: rest)
      | rest => stopAtNext .keyNotString rest
    | input => stopAtNext .expectedObjectCommaOrEnd input

theorem memberStart_again {isFirst : Bool} {input behind : List UInt8}
    (hok : memberStart isFirst input = .ok behind) :
    ∃ front, input = front ++ behind ∧ Leads .outside .inside front ∧
      front ≠ [] ∧
      ∀ later, memberStart isFirst (front ++ later) = .ok later := by
  have hquote : Leads .outside .inside [34] := .single fun _ => rfl
  cases isFirst with
  | true =>
      simp only [memberStart, if_true] at hok
      split at hok
      · cases hok
        exact ⟨[34], rfl, hquote, List.cons_ne_nil _ _, fun _ => rfl⟩
      · exact absurd hok nofun
  | false =>
      simp only [memberStart, Bool.false_eq_true, if_false] at hok
      split at hok
      next rest =>
        split at hok
        · exact absurd hok nofun
        next hskip =>
          cases hok
          obtain ⟨blanks, rfl, hblanks, hagain⟩ := exists_blanks hskip
          refine ⟨44 :: (blanks ++ [34]), by simp,
            (leads_mark rfl).append (hblanks.append hquote),
            List.cons_ne_nil _ _, ?_⟩
          intro later
          simp [memberStart, hagain]
        · exact absurd hok nofun
        · exact absurd hok nofun
      · exact absurd hok nofun

section Members

variable {item : Reader Value} {steps : Nat} {isFirst : Bool}
  {members : List (String × Value)} {value : Value}
  {input rest : List UInt8}

theorem readMembers_close (hskip : skipBlanks input = 125 :: rest) :
    readMembers item (steps + 1) isFirst members input =
      .ok (.object members, rest) := by
  rw [readMembers, hskip]
  rfl

theorem readMembers_next {byte : UInt8} {behind : List UInt8}
    (hskip : skipBlanks input = byte :: behind) (hbyte : byte ≠ 125) :
    readMembers item (steps + 1) isFirst members input =
      match memberStart isFirst (byte :: behind) with
      | .error stop => .error stop
      | .ok start =>
        match readMember (steps + 1) item start with
        | .error stop => .error stop
        | .ok ((name, value), rest) =>
          readMembers item steps false
            (Value.insertMember name value members) rest := by
  have hstart :
      memberStart isFirst (byte :: behind) =
        if isFirst then
          if byte = 34 then .ok behind
          else stopAtNext .keyNotString (byte :: behind)
        else if byte = 44 then
          match skipBlanks behind with
          | [] => stopHere .endInValue []
          | 34 :: rest => .ok rest
          | 125 :: rest => stopAtNext .trailingComma (125 :: rest)
          | rest => stopAtNext .keyNotString rest
        else stopAtNext .expectedObjectCommaOrEnd (byte :: behind) := by
    unfold memberStart
    split
    · by_cases hquote : byte = 34
      · subst hquote
        rfl
      · rw [if_neg hquote]
        split
        next heq => exact absurd (List.cons.inj heq).1 hquote
        · rfl
    · by_cases hcomma : byte = 44
      · subst hcomma
        rfl
      · rw [if_neg hcomma]
        split
        next heq => exact absurd (List.cons.inj heq).1 hcomma
        · rfl
  rw [hstart, readMembers, hskip]
  split
  next heq => exact absurd heq nofun
  next heq => exact absurd (List.cons.inj heq).1 hbyte
  next heq =>
    obtain ⟨rfl, rfl⟩ := heq
    rfl

theorem readMembers_step {byte : UInt8} {behind start middle : List UInt8}
    {member : String × Value} (hskip : skipBlanks input = byte :: behind)
    (hbyte : byte ≠ 125)
    (hstart : memberStart isFirst (byte :: behind) = .ok start)
    (hmember : readMember (steps + 1) item start = .ok (member, middle)) :
    readMembers item (steps + 1) isFirst members input =
      readMembers item steps false
        (Value.insertMember member.1 member.2 members) middle := by
  simp only [readMembers_next hskip hbyte, hstart, hmember]

/-- A round finds the closing brace or reads one more member. -/
theorem readMembers_cases
    (hok : readMembers item steps isFirst members input = .ok (value, rest)) :
    (skipBlanks input = 125 :: rest ∧ value = .object members) ∨
      ∃ left byte behind start member middle,
        skipBlanks input = byte :: behind ∧ byte ≠ 125 ∧
        memberStart isFirst (byte :: behind) = .ok start ∧
        readMember (left + 1) item start = .ok (member, middle) ∧
        steps = left + 1 ∧
        readMembers item left false
            (Value.insertMember member.1 member.2 members) middle =
          .ok (value, rest) := by
  cases steps with
  | zero => exact absurd hok nofun
  | succ left =>
    cases hskip : skipBlanks input with
    | nil =>
        rw [readMembers, hskip] at hok
        exact absurd hok nofun
    | cons byte behind =>
      by_cases hbyte : byte = 125
      · subst hbyte
        rw [readMembers_close hskip] at hok
        cases hok
        exact .inl ⟨rfl, rfl⟩
      rw [readMembers_next hskip hbyte] at hok
      cases hstart : memberStart isFirst (byte :: behind) with
      | error stop =>
          rw [hstart] at hok
          exact absurd hok nofun
      | ok start =>
        cases hmember : readMember (left + 1) item start with
        | error stop =>
            simp only [hstart, hmember] at hok
            exact absurd hok nofun
        | ok result =>
          simp only [hstart, hmember] at hok
          exact .inr ⟨left, byte, behind, start, result.1, result.2, rfl,
            hbyte, hstart, hmember, rfl, hok⟩

end Members

/-- What the loop over the members takes, it takes again in front of
anything. -/
theorem readMembers_again {item : Nat → Reader Value}
    (hitem : IsLocal .sameByte .outside .outside item) {depth steps : Nat}
    {isFirst : Bool} {members : List (String × Value)} {value : Value}
    {input rest : List UInt8}
    (hok : readMembers (item depth) steps isFirst members input =
      .ok (value, rest)) :
    ∃ body, input = body ++ 125 :: rest ∧ Leads .outside .outside body ∧
      (∃ members, value = .object members) ∧
      ∀ depth steps later, body.length < depth → body.length < steps →
        readMembers (item depth) steps isFirst members (body ++ 125 :: later) =
          .ok (value, later) := by
  induction steps generalizing isFirst members input with
  | zero => exact absurd hok nofun
  | succ steps ih =>
    rcases readMembers_cases hok with
      ⟨hskip, rfl⟩ | ⟨left, byte, behind, start, member, middle, hskip, hbyte,
        hstart, hmember, hleft, hrest⟩
    · obtain ⟨blanks, rfl, hblanks, hskipAgain⟩ := exists_blanks hskip
      refine ⟨blanks, rfl, hblanks, ⟨_, rfl⟩, ?_⟩
      rintro depth (_ | steps) later - hsteps
      · exact absurd hsteps (Nat.not_lt_zero _)
      · exact readMembers_close (hskipAgain later)
    · obtain rfl := Nat.succ.inj hleft
      obtain ⟨blanks, rfl, hblanks, hskipAgain⟩ := exists_blanks hskip
      obtain ⟨front, hfront, hleads, hnonempty, hstartAgain⟩ :=
        memberStart_again hstart
      obtain ⟨taken, rfl, htaken, hmemberAgain⟩ :=
        readMember_again hitem hmember
      obtain ⟨body, rfl, hbody, hobject, hbodyAgain⟩ := ih hrest
      refine ⟨blanks ++ (front ++ (taken ++ body)), by simp [hfront],
        hblanks.append (hleads.append (htaken.append hbody)), hobject, ?_⟩
      rintro depth (_ | steps) later hdepth hsteps
      · exact absurd hsteps (Nat.not_lt_zero _)
      -- What follows the body begins with the same brace as before.
      have hbodyHead :
          (body ++ 125 :: later).head? = (body ++ 125 :: rest).head? :=
        head?_append_congr rfl
      obtain ⟨behind', hbehind⟩ := exists_cons_of_closing hfront later
      have hround := List.length_pos_iff.mpr hnonempty
      simp only [List.length_append] at hdepth hsteps
      rw [List.append_assoc, List.append_assoc, List.append_assoc, hbehind,
        readMembers_step (hskipAgain behind') hbyte
          (hbehind ▸ hstartAgain _)
          (hmemberAgain depth (steps + 1) _ (by omega) (by omega) hbodyHead)]
      exact hbodyAgain depth steps later (by omega) (by omega)

end JsonIntake.Json
