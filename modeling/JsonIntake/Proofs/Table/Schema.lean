import JsonIntake.Proofs.Table.Layout
import Mathlib.Data.List.Dedup

/-!
# The schema of a batch

Hints follow three rules about names that appear more than once.  A column
takes the type of its first hint; a hinted name that was not inferred gets one
column, where it appears first; and asking for a type again takes the place of
what was asked for before and moves the name to the end.  Under all three the
columns of a batch have names of their own, and the types asked for last are
the ones that are used.
-/

namespace JsonIntake

variable {name other : String} {type : ColumnType} {hints calls : List Hint}

/-- The first hint for a name. -/
def IsFirstHint (hints : List Hint) (name : String) (type : ColumnType) :
    Prop :=
  ∃ front back, hints = front ++ (name, type) :: back ∧
    name ∉ front.map (·.1)

/-- The last hint for a name. -/
def IsLastHint (hints : List Hint) (name : String) (type : ColumnType) :
    Prop :=
  ∃ front back, hints = front ++ (name, type) :: back ∧ name ∉ back.map (·.1)

/-- Ask for column types one after the other. -/
def ReadOptions.withHints (options : ReadOptions) (calls : List Hint) :
    ReadOptions :=
  calls.foldl (fun options call => options.withHint call.1 call.2) options

/-- The schema that inferred columns have under hints. -/
structure IsHintedSchema (inferred : List (String × ColumnType))
    (hints : List Hint) (schema : List Field) : Prop where
  layout : schema.map (·.name) =
    inferred.map (·.1) ++
      ((hints.map (·.1)).filter fun name =>
        name ∉ inferred.map (·.1)).eraseDups
  types : ∀ field ∈ schema,
    IsFirstHint hints field.name field.type ∨
      (field.name ∉ hints.map (·.1) ∧ (field.name, field.type) ∈ inferred)
  distinct : (schema.map (·.name)).Nodup
  nullable : ∀ field ∈ schema, field.nullable = true

/-- The hints that are left of a sequence of calls. -/
structure KeepsLast (calls hints : List Hint) : Prop where
  names : hints.map (·.1) = (calls.map (·.1)).dedup
  distinct : (hints.map (·.1)).Nodup
  types : ∀ name type,
    hintFor? name hints = some type ↔ IsLastHint calls name type

/-! ## First and last hints -/

theorem hintFor?_eq_some_iff :
    hintFor? name hints = some type ↔ IsFirstHint hints name type := by
  unfold hintFor? IsFirstHint
  rw [Option.map_eq_some_iff]
  constructor
  · rintro ⟨⟨found, _⟩, hfind, rfl⟩
    obtain ⟨hname, front, back, hsplit, hfront⟩ :=
      List.find?_eq_some_iff_append.mp hfind
    obtain rfl : found = name := by simpa using hname
    refine ⟨front, back, hsplit, fun hmem => ?_⟩
    obtain ⟨hint, hhint, hsame⟩ := List.mem_map.mp hmem
    simpa [hsame] using hfront hint hhint
  · rintro ⟨front, back, hsplit, hfront⟩
    refine ⟨(name, type), List.find?_eq_some_iff_append.mpr
      ⟨by simp, front, back, hsplit, fun hint hhint => ?_⟩, rfl⟩
    have hother : hint.1 ≠ name :=
      fun hsame => hfront (hsame ▸ List.mem_map_of_mem hhint)
    simpa using hother

theorem hintFor?_eq_none_iff :
    hintFor? name hints = none ↔ name ∉ hints.map (·.1) := by
  unfold hintFor?
  rw [Option.map_eq_none_iff, List.find?_eq_none, List.mem_map]
  simp only [beq_iff_eq, not_exists, not_and]

theorem isLastHint_iff_reverse :
    IsLastHint calls name type ↔
      hintFor? name calls.reverse = some type := by
  rw [hintFor?_eq_some_iff]
  constructor
  · rintro ⟨front, back, rfl, hback⟩
    exact ⟨back.reverse, front.reverse, by simp, by simpa using hback⟩
  · rintro ⟨front, back, hsplit, hfront⟩
    refine ⟨back.reverse, front.reverse, ?_, by simpa using hfront⟩
    rw [← List.reverse_reverse calls, hsplit]
    simp

theorem hintFor?_append (front back : List Hint) (name : String) :
    hintFor? name (front ++ back) =
      (hintFor? name front).or (hintFor? name back) := by
  unfold hintFor?
  rw [List.find?_append, Option.map_or]

/-! ## The columns of a batch -/

theorem freshNames_eq_eraseDups (seen names : List String) :
    freshNames seen names =
      (names.filter fun name => name ∉ seen).eraseDups := by
  induction names generalizing seen with
  | nil => simp [freshNames]
  | cons first rest ih =>
      rw [freshNames]
      by_cases hfirst : first ∈ seen
      · rw [if_pos hfirst, ih, List.filter_cons_of_neg (by simpa using hfirst)]
      · rw [if_neg hfirst, ih, List.filter_cons_of_pos (by simpa using hfirst),
          List.eraseDups_cons, List.filter_filter]
        congr 3
        funext name
        by_cases hname : name = first <;> simp [hname]

theorem isHintedSchema_applyHints {inferred : List (String × ColumnType)}
    (hnames : (inferred.map (·.1)).Nodup) (hints : List Hint) :
    IsHintedSchema inferred hints (applyHints inferred hints) where
  layout := by
    rw [applyHints_eq, List.map_append, names_retype, names_hintedFields,
      freshNames_eq_eraseDups]
  types field hfield := by
    rw [← hintFor?_eq_some_iff, ← hintFor?_eq_none_iff]
    exact mem_applyHints hfield
  distinct := nodup_applyHints hnames
  nullable _ := nullable_applyHints

/-! ## Calls -/

theorem dedup_concat (names : List String) (name : String) :
    (names ++ [name]).dedup = names.dedup.filter (· != name) ++ [name] := by
  induction names with
  | nil => simp
  | cons first rest ih =>
      rw [List.cons_append]
      by_cases hsame : first = name
      · subst hsame
        by_cases hmem : first ∈ rest
        · rw [List.dedup_cons_of_mem (by simp), ih,
            List.dedup_cons_of_mem hmem]
        · rw [List.dedup_cons_of_mem (by simp), ih,
            List.dedup_cons_of_notMem hmem, List.filter_cons_of_neg (by simp)]
      · by_cases hmem : first ∈ rest
        · rw [List.dedup_cons_of_mem (by simp [hmem]), ih,
            List.dedup_cons_of_mem hmem]
        · rw [List.dedup_cons_of_notMem (by simp [hmem, hsame]), ih,
            List.dedup_cons_of_notMem hmem,
            List.filter_cons_of_pos (by simpa using hsame), List.cons_append]

theorem hintFor?_filter_ne (hints : List Hint) (name other : String) :
    hintFor? name (hints.filter fun hint => hint.1 != other) =
      if name = other then none else hintFor? name hints := by
  induction hints with
  | nil => simp [hintFor?]
  | cons hint rest ih =>
      rw [hintFor?_cons]
      by_cases hdropped : hint.1 = other
      · rw [List.filter_cons_of_neg (by simp [hdropped]), ih]
        by_cases hname : name = other
        · simp [hname]
        · simp [hname, hdropped, Ne.symm hname]
      · rw [List.filter_cons_of_pos (by simpa using hdropped), hintFor?_cons,
          ih]
        by_cases hname : name = other
        · simp [hname, hdropped]
        · simp [hname]

theorem KeepsLast.refl (hnames : (hints.map (·.1)).Nodup) :
    KeepsLast hints hints where
  names := hnames.dedup.symm
  distinct := hnames
  types name type := by
    have hsplit : ∀ front back, hints = front ++ (name, type) :: back →
        name ∉ front.map (·.1) ∧ name ∉ back.map (·.1) := by
      rintro front back rfl
      rw [List.map_append, List.map_cons, List.nodup_middle, List.nodup_cons,
        List.mem_append, not_or] at hnames
      exact hnames.1
    rw [hintFor?_eq_some_iff]
    constructor
    · rintro ⟨front, back, hhints, -⟩
      exact ⟨front, back, hhints, (hsplit front back hhints).2⟩
    · rintro ⟨front, back, hhints, -⟩
      exact ⟨front, back, hhints, (hsplit front back hhints).1⟩

/-- A call takes the place of the earlier ones for its name. -/
theorem KeepsLast.withHint {options : ReadOptions}
    (hkeeps : KeepsLast calls options.hints) (name : String)
    (type : ColumnType) :
    KeepsLast (calls ++ [(name, type)])
      (options.withHint name type).hints := by
  have hnames : (options.withHint name type).hints.map (·.1) =
      ((calls ++ [(name, type)]).map (·.1)).dedup := by
    rw [List.map_append, List.map_singleton, dedup_concat, ← hkeeps.names,
      ReadOptions.withHint, List.map_append, List.filter_map]
    rfl
  refine ⟨hnames, hnames ▸ List.nodup_dedup _, fun found asked => ?_⟩
  rw [isLastHint_iff_reverse, List.reverse_append, List.reverse_singleton,
    List.singleton_append, hintFor?_cons, ReadOptions.withHint,
    hintFor?_append, hintFor?_filter_ne]
  by_cases hfound : found = name
  · simp [hfound, hintFor?]
  · rw [if_neg hfound, if_neg (Ne.symm hfound), hintFor?_cons,
      if_neg (Ne.symm hfound), ← isLastHint_iff_reverse, ← hkeeps.types]
    simp [hintFor?]

/-- What is left of a sequence of calls behind earlier ones. -/
theorem KeepsLast.withHints {options : ReadOptions}
    (hkeeps : KeepsLast calls options.hints) (later : List Hint) :
    KeepsLast (calls ++ later) (options.withHints later).hints := by
  unfold ReadOptions.withHints
  induction later generalizing calls options with
  | nil => rwa [List.append_nil]
  | cons call rest ih =>
      have hrest := ih (hkeeps.withHint call.1 call.2)
      rwa [List.append_assoc, List.singleton_append] at hrest

/-- Hints and inference make one schema.  The inferred columns come first, each
under its first hint if it has one; the other hinted names follow in the order
of their first hints.  Calls for types leave one hint for each name, in the
order of the last calls and with their types. -/
theorem schema_follows_hints {records : List Record}
    {inferred : List (String × ColumnType)}
    (hinfer : inferColumns (records.filterMap id) = .ok inferred)
    (hints : List Hint) {start : ReadOptions}
    (hstart : (start.hints.map (·.1)).Nodup) (calls : List Hint) :
    (∃ schema, inferSchema records hints = .ok schema ∧
        IsHintedSchema inferred hints schema) ∧
      KeepsLast (start.hints ++ calls)
        (start.withHints calls).parseOptions.hints := by
  refine ⟨⟨applyHints inferred hints, ?_, ?_⟩, ?_⟩
  · rw [inferSchema, hinfer]
  · exact isHintedSchema_applyHints (nodup_inferColumns hinfer) hints
  · exact (KeepsLast.refl hstart).withHints calls

/-- The rows `{"a":1,"b":"x"}` and `{"b":null}` with a malformed one between
them, under hints two of which are for the same column, and calls that take
the place of each other and of an earlier hint. -/
theorem schema_follows_repeated_hints :
    let records : List Record :=
      [some [("a", .number (.natural 1)), ("b", .text "x")], none,
        some [("b", .null)]]
    let hints : List Hint :=
      [("c", .utf8), ("a", .float64), ("c", .boolean), ("a", .int64)]
    let schema : List Field :=
      [⟨"a", .float64, true⟩, ⟨"b", .utf8, true⟩, ⟨"c", .utf8, true⟩]
    let start : ReadOptions := ReadOptions.default.withHint "a" .utf8
    let calls : List Hint := [("b", .int64), ("c", .boolean), ("a", .float64),
      ("b", .utf8)]
    let left := (start.withHints calls).parseOptions.hints
    inferColumns (records.filterMap id) =
        .ok [("a", .int64), ("b", .utf8)] ∧
      inferSchema records hints = .ok schema ∧
      IsHintedSchema [("a", .int64), ("b", .utf8)] hints schema ∧
      (start.hints.map (·.1)).Nodup ∧
      left = [("c", .boolean), ("a", .float64), ("b", .utf8)] ∧
      KeepsLast (start.hints ++ calls) left := by
  intro records hints schema start calls left
  have hinfer : inferColumns (records.filterMap id) =
      .ok [("a", .int64), ("b", .utf8)] := rfl
  have hschema : inferSchema records hints = .ok schema := rfl
  have hstart : (start.hints.map (·.1)).Nodup := by decide
  obtain ⟨⟨found, hfound, hhinted⟩, hkeeps⟩ :=
    schema_follows_hints hinfer hints hstart calls
  obtain rfl : schema = found := Except.ok.inj (hschema.symm.trans hfound)
  exact ⟨hinfer, hschema, hhinted, hstart, rfl, hkeeps⟩

end JsonIntake
