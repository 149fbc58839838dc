import JsonIntake.Proofs.Json.Reading
import JsonIntake.Proofs.Records.Document

/-!
# Written documents are read back

Strict texts of objects and arrays of objects may stand one behind the other
with any white space and commas around them, or with nothing in between.  Such
a document splits into its objects, with the items of an array in place of the
array.  No record of it is malformed, so the recovery does not matter.
-/

namespace JsonIntake

open Grammar (StrictLiteral)

/-- What a document is made of: objects and arrays of objects. -/
inductive DocumentValue where
  | object (members : List (String × Json.Value))
  | array (items : List (List (String × Json.Value)))

namespace DocumentValue

def value : DocumentValue → Json.Value
  | .object members => .object members
  | .array items => .array (items.map .object)

def rows : DocumentValue → List Record
  | .object members => [some members]
  | .array items => items.map some

theorem isNested_value (value : DocumentValue) :
    value.value.isNested = true := by
  cases value with
  | object members => rfl
  | array items => rfl

theorem valueRecords?_value (value : DocumentValue) :
    valueRecords? value.value = some value.rows := by
  cases value with
  | object members => rfl
  | array items =>
      simp only [DocumentValue.value, valueRecords?, rows]
      induction items with
      | nil => rfl
      | cons members items ih =>
          simp only [List.map_cons, List.mapM_cons, objectRecord?, ih]
          rfl

end DocumentValue

/-- Strict texts of values with separators in front of, between and behind
them. -/
inductive WritesDocument : List DocumentValue → List UInt8 → Prop
  | nil {bytes : List UInt8} (hbytes : Separators bytes) :
      WritesDocument [] bytes
  | cons {separators rest : List UInt8} {tree : Grammar.Tree StrictLiteral}
      {value : DocumentValue} {values : List DocumentValue}
      (hseparators : Separators separators)
      (hvalue : tree.Denotes value.value)
      (hnesting : tree.nesting ≤ Json.nestingLimit)
      (hrest : WritesDocument values rest) :
      WritesDocument (value :: values)
        (separators ++ (tree.bytes StrictLiteral.bytes ++ rest))

/-- The strict text of an array or object ends with itself, whatever follows
it. -/
theorem ValueText.of_denotes {tree : Grammar.Tree StrictLiteral}
    {value : Json.Value} (hvalue : tree.Denotes value)
    (hnested : value.isNested = true)
    (hnesting : tree.nesting ≤ Json.nestingLimit) :
    ValueText value (tree.bytes StrictLiteral.bytes) := by
  have hread : Json.readValue
      ((tree.bytes StrictLiteral.bytes).length + 1) Json.nestingLimit
      (Json.noBlank.bytes ++ (tree.bytes StrictLiteral.bytes ++ [])) =
        .ok (value, []) :=
    Json.readValue_of_denotes Json.noBlank hvalue hnesting
      (Nat.lt_succ_self _) fun hscalar => absurd hnested (by simp [hscalar])
  have hskip := Json.skipBlanks_tree tree []
  rw [List.append_nil] at hskip
  rw [Json.noBlank, List.nil_append, List.append_nil] at hread
  obtain ⟨taken, htaken, hbracketed, hagain⟩ :=
    Json.parseNext_nested hskip hnested
      (Json.parseNext_of_nested hnested hread)
  rw [List.append_nil] at htaken
  rw [htaken]
  exact ⟨hbracketed, hagain⟩

theorem WritesDocument.document {values : List DocumentValue}
    {bytes : List UInt8} (hwrites : WritesDocument values bytes) :
    Document bytes (values.flatMap DocumentValue.rows) := by
  induction hwrites with
  | nil hbytes => exact .blank hbytes
  | @cons _ _ _ value _ hseparators hvalue hnesting _ ih =>
      exact .value hseparators
        (.of_denotes hvalue value.isNested_value hnesting)
        value.valueRecords?_value ih

/-! ## Without malformed records the recovery does not matter -/

namespace RecordList

variable {recovery : Recovery} {delimiter : UInt8} {steps : Nat}
  {records next : RecordList} {bytes : List UInt8}

theorem addValue_of_fail {value : Json.Value}
    (hok : records.addValue .fail value = .ok next) :
    records.addValue recovery value = .ok next := by
  cases value with
  | object members => exact hok
  | _ => exact absurd hok nofun

theorem addItems_of_fail {items : List Json.Value}
    (hok : items.foldlM (fun records => addValue records .fail) records =
      .ok next) :
    items.foldlM (fun records => addValue records recovery) records =
      .ok next := by
  induction items generalizing records with
  | nil => exact hok
  | cons item items ih =>
      rw [List.foldlM_cons] at hok ⊢
      obtain ⟨middle, hitem, hrest⟩ := Except.bind_eq_ok.mp hok
      exact Except.bind_eq_ok.mpr ⟨middle, addValue_of_fail hitem, ih hrest⟩

theorem addValues_of_fail
    (hok : addValues .fail delimiter steps records bytes = .ok next) :
    addValues recovery delimiter steps records bytes = .ok next := by
  induction steps generalizing records bytes with
  | zero => exact hok
  | succ steps ih =>
      cases hrest : bytes.dropWhile (isSeparator delimiter) with
      | nil =>
          simp only [addValues, hrest] at hok ⊢
          exact hok
      | cons byte behind =>
          cases hparse : Json.parseNext (steps + 1) (byte :: behind) with
          | error fault =>
              simp only [addValues, hrest, hparse] at hok
              cases hok
          | ok result =>
              obtain ⟨value, rest⟩ := result
              simp only [addValues, hrest, hparse] at hok ⊢
              cases value with
              | array items =>
                  obtain ⟨middle, hitems, hlater⟩ := Except.bind_eq_ok.mp hok
                  exact Except.bind_eq_ok.mpr
                    ⟨middle, addItems_of_fail hitems, ih hlater⟩
              | _ =>
                  obtain ⟨middle, hvalue, hlater⟩ := Except.bind_eq_ok.mp hok
                  exact Except.bind_eq_ok.mpr
                    ⟨middle, addValue_of_fail hvalue, ih hlater⟩

/-- A written document splits into its objects, whatever the recovery, and the
splitting ends by itself: further steps change nothing. -/
theorem ofDocument_written {values : List DocumentValue}
    (hwrites : WritesDocument values bytes) :
    ∃ records : RecordList,
      (∀ recovery, ofDocument recovery 44 bytes = .ok records) ∧
      (∀ recovery steps, bytes.length < steps →
        addValues recovery 44 steps empty bytes = .ok records) ∧
      records.malformed = 0 ∧
      records.toList = values.flatMap DocumentValue.rows := by
  have hsteps : ∀ recovery steps, bytes.length < steps →
      addValues recovery 44 steps empty bytes =
        .ok (empty.push (values.flatMap DocumentValue.rows)) :=
    fun _ _ hsteps =>
      addValues_of_fail (addValues_of_document hwrites.document hsteps)
  exact ⟨_, fun recovery => hsteps recovery _ (Nat.lt_succ_self _), hsteps,
    rfl, toList_push _⟩

/-- Separators that are no JSON white space, values without anything between
them, a comma inside a string and an empty array. -/
theorem ofDocument_written_adjacent :
    let written := "\x0c,\x7b\"a\":\",\"\x7d[\x7b\x7d , \x7b\x7d][]\n\x7b \x7d,"
    ∃ records : RecordList,
      (∀ recovery,
        ofDocument recovery 44 written.toUTF8.toList = .ok records) ∧
      records.malformed = 0 ∧
      records.toList =
        [some [("a", .text ",")], some [], some [], some []] := by
  intro written
  let tight := Json.noBlank
  let space : Grammar.Blank := ⟨[32], List.all_eq_true.mp rfl⟩
  let key : StrictLiteral :=
    ⟨[.plain 97 (by decide) (by decide) (by decide)]⟩
  let comma : StrictLiteral :=
    ⟨[.plain 44 (by decide) (by decide) (by decide)]⟩
  have hkey : key.Denotes "a" := .single rfl rfl
  have hcomma : comma.Denotes "," := .single rfl rfl
  let member : Grammar.Tree StrictLiteral :=
    .object (.last tight key tight tight (.string comma) tight)
  let items : Grammar.Tree StrictLiteral :=
    .array (.cons tight (.emptyObject tight) space
      (.last space (.emptyObject tight) tight))
  have hbytes : written.toUTF8.toList =
      [12, 44] ++ (member.bytes StrictLiteral.bytes ++
        ([] ++ (items.bytes StrictLiteral.bytes ++
          ([] ++ (Grammar.Tree.bytes StrictLiteral.bytes (.emptyArray tight) ++
            ([10] ++ (Grammar.Tree.bytes StrictLiteral.bytes
              (.emptyObject space) ++ [44]))))))) := by
    decide +kernel
  have hwrites : WritesDocument
      [.object [("a", .text ",")], .array [[], []], .array [], .object []]
      written.toUTF8.toList := by
    rw [hbytes]
    refine .cons (List.all_eq_true.mp rfl) (.object (.last hkey
      (.string hcomma)) (.refl _) (List.pairwise_singleton _ _)) (by decide) ?_
    refine .cons (List.all_eq_true.mp rfl) (.array (.cons (.emptyObject _)
      (.last (.emptyObject _)))) (by decide) ?_
    refine .cons (List.all_eq_true.mp rfl) (.emptyArray _) (by decide) ?_
    refine .cons (List.all_eq_true.mp rfl) (.emptyObject _) (by decide) ?_
    exact .nil (List.all_eq_true.mp rfl)
  obtain ⟨records, hrecords, -, hmalformed, hrows⟩ :=
    ofDocument_written hwrites
  exact ⟨records, hrecords, hmalformed, hrows⟩

end RecordList

end JsonIntake
