import JsonIntake.Proofs.Json.Values
import JsonIntake.Proofs.Table.Joining
import JsonIntake.Records

/-!
# The records of a document

A document that splits is a series of arrays and objects with separators
around them, and nothing else: any other value ends the splitting.  So nothing
is open at its end.  Conversely, where nothing is open in the middle of a
document, no value reaches from the front into the back, and each of the two
splits by itself.
-/

namespace JsonIntake

/-! ## The records of one value -/

def objectRecord? : Json.Value → Option Record
  | .object members => some (some members)
  | _ => none

def valueRecords? : Json.Value → Option (List Record)
  | .array items => items.mapM objectRecord?
  | value => (objectRecord? value).map fun record => [record]

theorem isNested_of_valueRecords? {value : Json.Value} {rows : List Record}
    (hrows : valueRecords? value = some rows) : value.isNested = true := by
  cases value with
  | array items => rfl
  | object members => rfl
  | _ => exact absurd hrows nofun

namespace RecordList

def push (records : RecordList) (rows : List Record) : RecordList :=
  ⟨rows.reverse ++ records.reversed, records.malformed⟩

theorem toList_push (rows : List Record) :
    (empty.push rows).toList = rows := by
  simp [push, empty, toList]

theorem push_append (records : RecordList) (rows later : List Record) :
    records.push (rows ++ later) = (records.push rows).push later := by
  simp [push]

theorem addValue_fail (records : RecordList) (value : Json.Value) :
    (records.addValue .fail value).toOption =
      (objectRecord? value).map fun record => records.push [record] := by
  cases value <;> rfl

/-- Add the records of a value, up to the first failure. -/
def addNext (records : RecordList) (value : Json.Value) :
    Except Failure RecordList :=
  match value with
  | .array items =>
    items.foldlM (fun records => addValue records .fail) records
  | other => records.addValue .fail other

theorem addItems_fail (records : RecordList) (items : List Json.Value) :
    (items.foldlM (fun records => addValue records .fail) records).toOption =
      (items.mapM objectRecord?).map records.push := by
  induction items generalizing records with
  | nil => rfl
  | cons item items ih =>
      rw [List.foldlM_cons, Except.toOption_bind, addValue_fail]
      cases hitem : objectRecord? item with
      | none => simp [hitem]
      | some record =>
          simp only [Option.map_some, Option.bind_some, ih, List.mapM_cons,
            hitem]
          cases items.mapM objectRecord? with
          | none => rfl
          | some rows =>
              exact congrArg some (push_append records [record] rows).symm

theorem addNext_fail (records : RecordList) (value : Json.Value) :
    (records.addNext value).toOption =
      (valueRecords? value).map records.push := by
  have hvalue := addValue_fail records value
  cases value with
  | array items => exact addItems_fail records items
  | _ =>
      refine hvalue.trans ?_
      simp [valueRecords?, objectRecord?]

theorem addNext_eq_ok {records next : RecordList} {value : Json.Value} :
    records.addNext value = .ok next ↔
      ∃ rows, valueRecords? value = some rows ∧ next = records.push rows := by
  rw [← Except.toOption_eq_some, addNext_fail, Option.map_eq_some_iff]
  simp only [eq_comm]

end RecordList

/-! ## Documents -/

/-- Bytes that are read as an array or object, whatever follows them. -/
structure ValueText (value : Json.Value) (taken : List UInt8) : Prop where
  bracketed : Json.Bracketed taken
  parse : ∀ steps later, taken.length < steps →
    Json.parseNext steps (taken ++ later) = .ok (value, later)

def Separators (bytes : List UInt8) : Prop :=
  ∀ byte ∈ bytes, RecordList.isSeparator 44 byte = true

/-- Arrays of objects and objects with separators around them, and their
records. -/
inductive Document : List UInt8 → List Record → Prop
  | blank {bytes : List UInt8} (hbytes : Separators bytes) : Document bytes []
  | value {separators taken rest : List UInt8} {rows later : List Record}
      {value : Json.Value} (hseparators : Separators separators)
      (htaken : ValueText value taken)
      (hrows : valueRecords? value = some rows)
      (hrest : Document rest later) :
      Document (separators ++ (taken ++ rest)) (rows ++ later)

/-- No string, array or object is open at the end. -/
def NothingOpen (bytes : List UInt8) : Prop :=
  Json.Place.front.after bytes = Json.Place.front

/-- A value that is read from `bytes` goes from one side of `place` to the
other. -/
def Crosses (place : Nat) (bytes : List UInt8) : Prop :=
  ∃ early taken later rows value,
    bytes = early ++ (taken ++ later) ∧ Document early rows ∧
      ValueText value taken ∧ early.length < place ∧
      place < early.length + taken.length

section Separators

variable {bytes : List UInt8} {byte : UInt8}

theorem isPlain_of_isSeparator
    (hbyte : RecordList.isSeparator 44 byte = true) :
    Json.isPlain byte = true := by
  simp only [RecordList.isSeparator, isAsciiSpace, Bool.or_eq_true,
    decide_eq_true_eq] at hbyte
  rcases hbyte with (((((rfl | rfl) | rfl) | rfl) | rfl) | rfl) | rfl <;> rfl

theorem isSeparator_of_isBlank (hblank : Json.isBlank byte = true) :
    RecordList.isSeparator 44 byte = true := by
  simp only [Json.isBlank, Bool.or_eq_true, decide_eq_true_eq] at hblank
  rcases hblank with ((rfl | rfl) | rfl) | rfl <;> rfl

theorem not_isSeparator_opening (hopening : byte = 91 ∨ byte = 123) :
    ¬ RecordList.isSeparator 44 byte = true := by
  rcases hopening with rfl | rfl
  · decide
  · decide

theorem Separators.leads (hbytes : Separators bytes) :
    Json.Leads .outside .outside bytes :=
  .plain fun byte hbyte => isPlain_of_isSeparator (hbytes byte hbyte)

theorem Separators.of_comma {front back : List UInt8}
    (hbytes : Separators (front ++ 44 :: back)) :
    Separators front ∧ Separators back :=
  ⟨fun byte hbyte => hbytes byte (List.mem_append_left _ hbyte),
    fun byte hbyte =>
      hbytes byte (List.mem_append_right _ (List.mem_cons_of_mem _ hbyte))⟩

theorem separators_takeWhile (bytes : List UInt8) :
    Separators (bytes.takeWhile (RecordList.isSeparator 44)) :=
  fun byte hbyte => List.all_eq_true.mp List.all_takeWhile byte hbyte

theorem Separators.dropWhile_append (hbytes : Separators bytes)
    (later : List UInt8) :
    (bytes ++ later).dropWhile (RecordList.isSeparator 44) =
      later.dropWhile (RecordList.isSeparator 44) :=
  List.dropWhile_append_of_pos hbytes

end Separators

namespace ValueText

variable {value : Json.Value} {taken : List UInt8}

theorem exists_opening (htaken : ValueText value taken) :
    ∃ opening behind, taken = opening :: behind ∧
      ¬ RecordList.isSeparator 44 opening = true := by
  obtain ⟨hopening, -, -⟩ := htaken.bracketed
  exact ⟨_, _, rfl, not_isSeparator_opening hopening⟩

theorem length_pos (htaken : ValueText value taken) : 0 < taken.length := by
  obtain ⟨opening, behind, rfl, -⟩ := htaken.exists_opening
  exact Nat.succ_pos _

theorem dropWhile_append (htaken : ValueText value taken)
    (later : List UInt8) :
    (taken ++ later).dropWhile (RecordList.isSeparator 44) =
      taken ++ later := by
  obtain ⟨opening, behind, rfl, hopening⟩ := htaken.exists_opening
  exact List.dropWhile_cons_of_neg hopening

/-- No value begins with the separator between two texts. -/
theorem append_ne_separator (htaken : ValueText value taken)
    (rest back : List UInt8) : taken ++ rest ≠ 44 :: back := by
  obtain ⟨opening, behind, rfl, hopening⟩ := htaken.exists_opening
  intro heq
  obtain ⟨rfl, -⟩ := List.cons.inj heq
  exact hopening rfl

end ValueText

/-! ## Splitting a document -/

namespace RecordList

variable {records next : RecordList} {bytes : List UInt8} {steps : Nat}

theorem addValues_done (hdone : bytes.dropWhile (isSeparator 44) = []) :
    addValues .fail 44 (steps + 1) records bytes = .ok records := by
  rw [addValues, hdone]

theorem addValues_next {rest behind : List UInt8} {value : Json.Value}
    (hrest : bytes.dropWhile (isSeparator 44) = rest) (hnonempty : rest ≠ [])
    (hparse : Json.parseNext (steps + 1) rest = .ok (value, behind)) :
    addValues .fail 44 (steps + 1) records bytes =
      (records.addNext value).bind fun records =>
        addValues .fail 44 steps records behind := by
  obtain ⟨byte, tail, rfl⟩ := List.exists_cons_of_ne_nil hnonempty
  simp only [addValues, hrest, hparse]
  cases value <;> rfl

/-- What splits is a document. -/
theorem document_of_addValues (hsteps : bytes.length < steps)
    (hok : addValues .fail 44 steps records bytes = .ok next) :
    ∃ rows, Document bytes rows ∧ next = records.push rows := by
  induction steps generalizing records bytes with
  | zero => exact absurd hsteps (Nat.not_lt_zero _)
  | succ steps ih =>
    have hbytes : bytes.takeWhile (isSeparator 44) ++
        bytes.dropWhile (isSeparator 44) = bytes :=
      List.takeWhile_append_dropWhile
    have hseparators := separators_takeWhile bytes
    cases hrest : bytes.dropWhile (isSeparator 44) with
    | nil =>
        rw [addValues_done hrest] at hok
        cases hok
        rw [hrest, List.append_nil] at hbytes
        exact ⟨[], .blank (hbytes ▸ hseparators), rfl⟩
    | cons byte behind =>
      have hbyte : ¬ isSeparator 44 byte = true := by
        have hnot := List.head?_dropWhile_not (isSeparator 44) bytes
        rw [hrest] at hnot
        simpa using hnot
      have hskip : Json.skipBlanks (byte :: behind) = byte :: behind :=
        List.dropWhile_cons_of_neg fun hblank =>
          hbyte (isSeparator_of_isBlank hblank)
      cases hparse : Json.parseNext (steps + 1) (byte :: behind) with
      | error fault =>
          simp only [addValues, hrest, hparse] at hok
          exact absurd hok nofun
      | ok result =>
        obtain ⟨value, rest⟩ := result
        rw [addValues_next hrest (List.cons_ne_nil _ _) hparse] at hok
        obtain ⟨middle, hmiddle, hlater⟩ := Except.bind_eq_ok.mp hok
        obtain ⟨rows, hrows, rfl⟩ := addNext_eq_ok.mp hmiddle
        obtain ⟨taken, htaken, hbracketed, hagain⟩ :=
          Json.parseNext_nested hskip (isNested_of_valueRecords? hrows) hparse
        have hvalue : ValueText value taken := ⟨hbracketed, hagain⟩
        rw [hrest, htaken] at hbytes
        have hlength := congrArg List.length hbytes
        rw [List.length_append, List.length_append] at hlength
        have hpositive := hvalue.length_pos
        obtain ⟨later, hdocument, rfl⟩ := ih (by omega) hlater
        refine ⟨rows ++ later, ?_, (push_append records rows later).symm⟩
        rw [← hbytes]
        exact .value hseparators hvalue hrows hdocument

/-- A document splits. -/
theorem addValues_of_document {rows : List Record}
    (hdocument : Document bytes rows) (hsteps : bytes.length < steps) :
    addValues .fail 44 steps records bytes = .ok (records.push rows) := by
  induction hdocument generalizing steps records with
  | blank hbytes =>
      obtain ⟨left, rfl⟩ := Nat.exists_eq_succ_of_ne_zero (by omega : steps ≠ 0)
      apply addValues_done
      have hdone := hbytes.dropWhile_append []
      rwa [List.append_nil] at hdone
  | @value separators taken rest rows later value hseparators htaken hrows
      hrest ih =>
      obtain ⟨left, rfl⟩ := Nat.exists_eq_succ_of_ne_zero (by omega : steps ≠ 0)
      have hpositive := htaken.length_pos
      rw [List.length_append, List.length_append] at hsteps
      rw [addValues_next
        ((hseparators.dropWhile_append _).trans (htaken.dropWhile_append _))
        (List.append_ne_nil_of_left_ne_nil
          (List.length_pos_iff.mp hpositive) rest)
        (htaken.parse _ rest (by omega)),
        addNext_eq_ok.mpr ⟨rows, hrows, rfl⟩, push_append]
      exact ih (by omega)

theorem ofDocument_eq_ok :
    ofDocument .fail 44 bytes = .ok records ↔
      ∃ rows, Document bytes rows ∧ records = empty.push rows := by
  constructor
  · exact document_of_addValues (Nat.lt_succ_self _)
  · rintro ⟨rows, hdocument, rfl⟩
    exact addValues_of_document hdocument (Nat.lt_succ_self _)

end RecordList

/-! ## Where a document can be cut -/

section Cuts

variable {bytes front back : List UInt8} {rows : List Record}

theorem Document.nothingOpen (hdocument : Document bytes rows) :
    NothingOpen bytes := by
  induction hdocument with
  | blank hbytes => exact hbytes.leads.after_front
  | value hseparators htaken hrows hrest ih =>
      rw [NothingOpen, Json.Place.after_append, hseparators.leads.after_front,
        Json.Place.after_append, htaken.bracketed.leads.after_front, ih]

theorem not_crosses_zero : ¬ Crosses 0 bytes := by
  rintro ⟨early, taken, later, rows, value, -, -, -, hlow, -⟩
  exact Nat.not_lt_zero _ hlow

theorem not_crosses_length : ¬ Crosses bytes.length bytes := by
  rintro ⟨early, taken, later, rows, value, rfl, -, -, -, hhigh⟩
  simp only [List.length_append] at hhigh
  omega

/-- Inside of a value that crosses a place something is open. -/
theorem Crosses.not_nothingOpen
    (hcrosses : Crosses front.length (front ++ back)) :
    ¬ NothingOpen front := by
  obtain ⟨early, taken, later, rows, value, hsplit, hearly, htaken, hlow,
    hhigh⟩ := hcrosses
  rcases List.append_eq_append_iff.mp hsplit with
    ⟨behind, rfl, -⟩ | ⟨shared, rfl, hshared⟩
  · rw [List.length_append] at hlow
    omega
  rw [List.length_append] at hlow hhigh
  rcases List.append_eq_append_iff.mp hshared with
    ⟨behind, rfl, -⟩ | ⟨late, rfl, -⟩
  · rw [List.length_append] at hhigh
    omega
  rw [List.length_append] at hhigh
  -- Now `taken` is `shared ++ late` with the place between the two.
  intro hclosed
  rw [NothingOpen, Json.Place.after_append, hearly.nothingOpen] at hclosed
  have hdepth :=
    htaken.bracketed.depth_lt
      (List.length_pos_iff.mp (by omega : 0 < shared.length))
      (List.length_pos_iff.mp (by omega : 0 < late.length)) 0
  rw [show (⟨0, .outside⟩ : Json.Place) = Json.Place.front from rfl, hclosed]
    at hdepth
  exact Nat.lt_irrefl _ hdepth

theorem Crosses.behind_value {place : Nat} {separators taken : List UInt8}
    {value : Json.Value} (hcrosses : Crosses place bytes)
    (hseparators : Separators separators) (htaken : ValueText value taken)
    (hrows : valueRecords? value = some rows) :
    Crosses ((separators ++ taken).length + place)
      (separators ++ (taken ++ bytes)) := by
  obtain ⟨early, crossing, later, before, crossed, rfl, hearly, hcrossing,
    hlow, hhigh⟩ := hcrosses
  refine ⟨separators ++ (taken ++ early), crossing, later, rows ++ before,
    crossed, by simp, .value hseparators htaken hrows hearly, hcrossing, ?_,
    ?_⟩
  · simp only [List.length_append]
    omega
  · simp only [List.length_append]
    omega

/-- Where no value crosses a separator, a document falls into two. -/
theorem Document.cut (hdocument : Document (front ++ 44 :: back) rows) :
    Crosses front.length (front ++ 44 :: back) ∨
      ∃ first second, Document front first ∧ Document back second ∧
        rows = first ++ second := by
  generalize hbytes : front ++ 44 :: back = bytes at hdocument
  induction hdocument generalizing front with
  | @blank bytes hblank =>
      subst hbytes
      obtain ⟨hfront, hback⟩ := hblank.of_comma
      exact .inr ⟨[], [], .blank hfront, .blank hback, rfl⟩
  | @value separators taken rest rows later value hseparators htaken hrows
      hrest ih =>
      -- The comma is one of the separators, a byte of the value or behind it.
      rcases List.append_eq_append_iff.mp hbytes with
        ⟨behind, rfl, hbehind⟩ | ⟨shared, rfl, hshared⟩
      · cases behind with
        | nil => exact absurd hbehind.symm (htaken.append_ne_separator _ _)
        | cons byte behind =>
            obtain ⟨rfl, rfl⟩ := List.cons.inj hbehind
            obtain ⟨hfront, hback⟩ := hseparators.of_comma
            exact .inr ⟨[], rows ++ later, .blank hfront,
              .value hback htaken hrows hrest, rfl⟩
      by_cases hinside : taken.length ≤ shared.length
      · obtain ⟨behind, rfl⟩ : taken <+: shared :=
          List.prefix_of_prefix_length_le (List.prefix_append taken rest)
            (hshared ▸ List.prefix_append shared _) hinside
        rw [List.append_assoc] at hshared
        obtain rfl := List.append_cancel_left hshared
        rcases ih rfl with hcrosses | ⟨first, second, hfirst, hsecond, rfl⟩
        · left
          have hbehind := hcrosses.behind_value hseparators htaken hrows
          rw [← List.length_append, List.append_assoc] at hbehind
          simpa using hbehind
        · exact .inr ⟨rows ++ first, second,
            .value hseparators htaken hrows hfirst, hsecond,
            (List.append_assoc _ _ _).symm⟩
      · left
        have hshort : 0 < shared.length := by
          apply List.length_pos_iff.mpr
          rintro rfl
          exact htaken.append_ne_separator rest back hshared
        refine ⟨separators, taken, rest, [], value, rfl, .blank hseparators,
          htaken, ?_, ?_⟩
        · rw [List.length_append]
          omega
        · rw [List.length_append]
          omega

end Cuts

end JsonIntake
