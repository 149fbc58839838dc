import JsonIntake.Records

/-!
# Malformed lines

A line is malformed if it is no JSON text or holds something else than an
object.  Whether it is does not depend on the lines around it.  With recovery
every line is kept, and a malformed one leaves an empty place.  Without it the
first malformed line ends the splitting, and the failure carries its number
and what the parser says about that line alone.
-/

namespace JsonIntake

open Json (Value)

def isMalformed (line : List UInt8) : Bool :=
  match Json.parse line with
  | .ok (.object _) => false
  | _ => true

/-- What is wrong with a malformed line. -/
def lineFault (line : List UInt8) : String :=
  match Json.parse line with
  | .ok value => "expected a JSON object, found " ++ value.kindName
  | .error fault => fault.message

/-- The members of the object on a line; a malformed line has none. -/
def lineMembers (line : List UInt8) : List (String × Value) :=
  match Json.parse line with
  | .ok (.object members) => members
  | _ => []

/-- The first malformed line has `record` lines in front of it. -/
def FirstMalformed (lines : List (List UInt8)) (record : Nat)
    (message : String) : Prop :=
  ∃ front line back, lines = front ++ line :: back ∧
    (∀ other ∈ front, isMalformed other = false) ∧
    isMalformed line = true ∧ front.length = record ∧
    lineFault line = message

section FirstMalformed

variable {lines front back : List (List UInt8)} {record : Nat}
  {message : String}

theorem forall_or_firstMalformed (lines : List (List UInt8)) :
    (∀ line ∈ lines, isMalformed line = false) ∨
      ∃ record message, FirstMalformed lines record message := by
  cases hfound : lines.find? isMalformed with
  | none =>
      left
      simpa using List.find?_eq_none.mp hfound
  | some line =>
      right
      obtain ⟨hline, front, back, hlines, hfront⟩ :=
        List.find?_eq_some_iff_append.mp hfound
      have hsound : ∀ other ∈ front, isMalformed other = false := by
        simpa using hfront
      exact ⟨_, _, front, line, back, hlines, hsound, hline, rfl, rfl⟩

theorem countP_isMalformed (hlines : ∀ line ∈ lines, isMalformed line = false) :
    lines.countP isMalformed = 0 := by
  rw [List.countP_eq_zero]
  intro line hline
  simp [hlines line hline]

theorem FirstMalformed.exists_line
    (hfirst : FirstMalformed lines record message) :
    ∃ line ∈ lines, isMalformed line = true := by
  obtain ⟨front, line, back, rfl, -, hline, -, -⟩ := hfirst
  exact ⟨line, by simp, hline⟩

theorem FirstMalformed.append_right
    (hfirst : FirstMalformed front record message) :
    FirstMalformed (front ++ back) record message := by
  obtain ⟨before, line, after, rfl, hbefore, hline, hrecord, hmessage⟩ :=
    hfirst
  exact ⟨before, line, after ++ back, by simp, hbefore, hline, hrecord,
    hmessage⟩

theorem FirstMalformed.append_left
    (hfront : ∀ line ∈ front, isMalformed line = false)
    (hfirst : FirstMalformed back record message) :
    FirstMalformed (front ++ back) (front.length + record) message := by
  obtain ⟨before, line, after, rfl, hbefore, hline, rfl, hmessage⟩ := hfirst
  have hboth : ∀ other ∈ front ++ before, isMalformed other = false :=
    List.forall_mem_append.mpr ⟨hfront, hbefore⟩
  exact ⟨front ++ before, line, after, by simp, hboth, hline,
    List.length_append, hmessage⟩

theorem FirstMalformed.lt_length
    (hfirst : FirstMalformed lines record message) :
    record < lines.length := by
  obtain ⟨front, line, back, rfl, -, -, rfl, -⟩ := hfirst
  simp

end FirstMalformed

/-! ## Splitting -/

namespace RecordList

variable {lines : List (List UInt8)} {record : Nat} {message : String}

theorem addLine_eq (recovery : Recovery) (records : RecordList)
    (line : List UInt8) :
    addLine recovery records line =
      if isMalformed line then
        records.addMalformed recovery (lineFault line)
      else
        .ok { records with
          reversed := some (lineMembers line) :: records.reversed } := by
  unfold addLine isMalformed lineFault lineMembers
  cases Json.parse line with
  | error fault => rfl
  | ok value => cases value <;> rfl

/-- With recovery no line is lost. -/
theorem addLines_recover (records : RecordList) :
    lines.foldlM (addLine .recoverWithNull) records =
      .ok ⟨(lines.map fun line =>
          if isMalformed line then none else some (lineMembers line)).reverse ++
            records.reversed,
        records.malformed + lines.countP isMalformed⟩ := by
  induction lines generalizing records with
  | nil => rfl
  | cons line rest ih =>
      rw [List.foldlM_cons, addLine_eq]
      by_cases hline : isMalformed line = true
      · rw [if_pos hline]
        refine (ih _).trans ?_
        simp only [List.map_cons, hline, if_true, List.reverse_cons,
          List.append_assoc, List.singleton_append, List.countP_cons]
        congr 2
        omega
      · rw [if_neg hline]
        refine (ih _).trans ?_
        simp [hline]

/-- Without recovery lines are added as long as none is malformed. -/
theorem addLines_fail_append {front : List (List UInt8)}
    (hfront : ∀ line ∈ front, isMalformed line = false)
    (records : RecordList) (back : List (List UInt8)) :
    (front ++ back).foldlM (addLine .fail) records =
      back.foldlM (addLine .fail)
        ⟨(front.map fun line => some (lineMembers line)).reverse ++
          records.reversed, records.malformed⟩ := by
  induction front generalizing records with
  | nil => rfl
  | cons line front ih =>
      rw [List.forall_mem_cons] at hfront
      rw [List.cons_append, List.foldlM_cons, addLine_eq, hfront.1]
      refine (ih hfront.2 _).trans ?_
      simp

theorem addLines_fail
    (hlines : ∀ line ∈ lines, isMalformed line = false) :
    lines.foldlM (addLine .fail) empty =
      .ok ⟨(lines.map fun line => some (lineMembers line)).reverse, 0⟩ := by
  have hall := addLines_fail_append hlines empty []
  rw [List.append_nil] at hall
  rw [hall]
  simp [empty]
  rfl

theorem addLines_fail_malformed
    (hfirst : FirstMalformed lines record message) :
    lines.foldlM (addLine .fail) empty =
      .error (.malformedRecord record message) := by
  obtain ⟨front, line, back, rfl, hfront, hline, rfl, rfl⟩ := hfirst
  rw [addLines_fail_append hfront, List.foldlM_cons, addLine_eq, if_pos hline]
  simp [addMalformed, empty]
  rfl

end RecordList

theorem FirstMalformed.unique {lines : List (List UInt8)}
    {record other : Nat} {message text : String}
    (hfirst : FirstMalformed lines record message)
    (hother : FirstMalformed lines other text) :
    record = other ∧ message = text := by
  have hsame := RecordList.addLines_fail_malformed hfirst
  rw [RecordList.addLines_fail_malformed hother] at hsame
  injection hsame with hsame
  injection hsame with hrecord hmessage
  exact ⟨hrecord.symm, hmessage.symm⟩

end JsonIntake
