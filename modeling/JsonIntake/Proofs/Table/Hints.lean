import JsonIntake.Proofs.Table.Tabulation

/-!
# Columns under hints

A hint changes the type of an inferred column or adds a column of its own.
The names of the columns stay different from each other, the first hint of a
name decides, and the rows matter only through their members: a row without
any is the same to inference as no row at all.
-/

namespace JsonIntake

open Json (Value)

/-- The fields that hints add to columns that are known already. -/
def hintedFields (known : List String) : List Hint → List Field
  | [] => []
  | (name, type) :: rest =>
    if name ∈ known then hintedFields known rest
    else ⟨name, type, true⟩ :: hintedFields (known ++ [name]) rest

/-- An inferred column under the hints. -/
def retype (hints : List Hint) (column : String × ColumnType) : Field :=
  ⟨column.1, (hintFor? column.1 hints).getD column.2, true⟩

section Hints

variable {known : List String} {hints : List Hint} {field : Field}
  {inferred : List (String × ColumnType)} {name : String}

theorem hintFor?_cons (hint : Hint) (hints : List Hint) (name : String) :
    hintFor? name (hint :: hints) =
      if hint.1 = name then some hint.2 else hintFor? name hints := by
  unfold hintFor?
  rw [List.find?_cons]
  by_cases hname : hint.1 = name
  · simp [hname]
  · have hother : (hint.1 == name) = false := by simpa using hname
    simp [hname, hother]

theorem mem_hintedFields :
    field ∈ hintedFields known hints ↔
      field.name ∉ known ∧ hintFor? field.name hints = some field.type ∧
        field.nullable = true := by
  induction hints generalizing known with
  | nil => simp [hintedFields, hintFor?]
  | cons hint rest ih =>
      obtain ⟨name, type⟩ := hint
      obtain ⟨held, found, nullable⟩ := field
      rw [hintedFields, hintFor?_cons]
      by_cases hknown : name ∈ known
      · rw [if_pos hknown, ih]
        by_cases hname : name = held
        · subst hname
          simp [hknown]
        · simp [hname]
      · rw [if_neg hknown, List.mem_cons, ih]
        by_cases hname : name = held
        · subst hname
          simp only [List.mem_append, List.mem_singleton, or_true,
            not_true_eq_false, false_and, or_false, if_true,
            Option.some.injEq, Field.mk.injEq, true_and, hknown,
            not_false_eq_true]
          rw [eq_comm]
        · have hother : ¬ held = name := fun heq => hname heq.symm
          simp [hname, hother]

theorem nodup_hintedFields :
    ((hintedFields known hints).map (·.name)).Nodup := by
  induction hints generalizing known with
  | nil => exact .nil
  | cons hint rest ih =>
      obtain ⟨name, type⟩ := hint
      rw [hintedFields]
      split
      · exact ih
      · rw [List.map_cons, List.nodup_cons]
        refine ⟨?_, ih⟩
        intro hmem
        obtain ⟨field, hfield, hname⟩ := List.mem_map.mp hmem
        have hfresh := (mem_hintedFields.mp hfield).1
        simp [hname] at hfresh

theorem names_retype (hints : List Hint)
    (inferred : List (String × ColumnType)) :
    (inferred.map (retype hints)).map (·.name) = inferred.map (·.1) := by
  rw [List.map_map]
  rfl

theorem applyHints_eq :
    applyHints inferred hints =
      inferred.map (retype hints) ++
        hintedFields (inferred.map (·.1)) hints := by
  have hfold : ∀ (fields : List Field) (later : List Hint),
      later.foldl
          (fun fields hint =>
            if fields.any fun field => field.name == hint.1 then fields
            else fields ++ [⟨hint.1, hint.2, true⟩]) fields =
        fields ++ hintedFields (fields.map (·.name)) later := by
    intro fields later
    induction later generalizing fields with
    | nil => simp [hintedFields]
    | cons hint rest ih =>
        have hany : (fields.any fun field => field.name == hint.1) =
            decide (hint.1 ∈ fields.map (·.name)) := by
          rw [Bool.eq_iff_iff]
          simp
        rw [List.foldl_cons, hany, ih, hintedFields]
        by_cases hmem : hint.1 ∈ fields.map (·.name)
        · simp only [hmem, decide_true, if_true]
        · simp [hmem]
  rw [← names_retype hints inferred]
  exact hfold _ _

theorem mem_applyHints (hfield : field ∈ applyHints inferred hints) :
    hintFor? field.name hints = some field.type ∨
      (hintFor? field.name hints = none ∧
        (field.name, field.type) ∈ inferred) := by
  rw [applyHints_eq, List.mem_append] at hfield
  rcases hfield with hinferred | hadded
  · obtain ⟨⟨name, type⟩, hcolumn, rfl⟩ := List.mem_map.mp hinferred
    cases hhint : hintFor? name hints with
    | none => exact .inr ⟨hhint, by simpa [retype, hhint] using hcolumn⟩
    | some asked => exact .inl (by simp [retype, hhint])
  · exact .inl (mem_hintedFields.mp hadded).2.1

theorem nullable_applyHints (hfield : field ∈ applyHints inferred hints) :
    field.nullable = true := by
  rw [applyHints_eq, List.mem_append] at hfield
  rcases hfield with hinferred | hadded
  · obtain ⟨column, -, rfl⟩ := List.mem_map.mp hinferred
    rfl
  · exact (mem_hintedFields.mp hadded).2.2

theorem mem_names_applyHints :
    name ∈ (applyHints inferred hints).map (·.name) ↔
      name ∈ inferred.map (·.1) ∨ (hintFor? name hints).isSome = true := by
  rw [applyHints_eq, List.map_append, List.mem_append, names_retype]
  refine or_congr_right' fun hfresh => ?_
  constructor
  · intro hmem
    obtain ⟨field, hfield, rfl⟩ := List.mem_map.mp hmem
    rw [(mem_hintedFields.mp hfield).2.1]
    rfl
  · intro hsome
    obtain ⟨type, htype⟩ := Option.isSome_iff_exists.mp hsome
    have hfield : (⟨name, type, true⟩ : Field) ∈
        hintedFields (inferred.map (·.1)) hints :=
      mem_hintedFields.mpr ⟨hfresh, htype, rfl⟩
    exact List.mem_map_of_mem hfield

theorem nodup_applyHints (hinferred : (inferred.map (·.1)).Nodup) :
    ((applyHints inferred hints).map (·.name)).Nodup := by
  rw [applyHints_eq, List.map_append, names_retype]
  refine List.nodup_append.mpr ⟨hinferred, nodup_hintedFields, ?_⟩
  rintro name hmem other hother rfl
  obtain ⟨field, hfield, rfl⟩ := List.mem_map.mp hother
  exact (mem_hintedFields.mp hfield).1 hmem

end Hints

/-! ## Inference -/

theorem nodup_inferColumns {rows : List (List (String × Value))}
    {inferred : List (String × ColumnType)}
    (hinfer : inferColumns rows = .ok inferred) :
    (inferred.map (·.1)).Nodup := by
  obtain ⟨members, hmembers, h⟩ := Except.bind_eq_ok.mp hinfer
  cases h
  have hrows : Shape.addRows? [] rows = some members :=
    Except.toOption_eq_some.mpr hmembers
  rw [Shape.names_columnTypes]
  exact (Shape.DistinctMembers.nil.addRows? hrows).names

/-- Records without members do not take part in inference, and malformed
ones neither. -/
theorem inferSchema_getD (records : List Record) (hints : List Hint) :
    inferSchema (records.map fun record => some (record.getD [])) hints =
      inferSchema records hints := by
  have hfold : ∀ held : List (String × Shape),
      ((records.map fun record => some (record.getD [])).filterMap id).foldlM
          Shape.addMembers held =
        (records.filterMap id).foldlM Shape.addMembers held := by
    induction records with
    | nil => exact fun _ => rfl
    | cons record records ih =>
        intro held
        have hcons : ((record :: records).map fun record =>
              some (record.getD [])).filterMap id =
            record.getD [] :: (records.map fun record =>
              some (record.getD [])).filterMap id := rfl
        rw [hcons, List.foldlM_cons]
        cases record with
        | none =>
            -- A row without members leaves what is held as it is.
            rw [Option.getD_none, Shape.addMembers]
            exact ih held
        | some members =>
            have hsome : (some members :: records).filterMap id =
                members :: records.filterMap id := rfl
            rw [Option.getD_some, hsome, List.foldlM_cons]
            exact congrArg _ (funext ih)
  unfold inferSchema inferColumns
  rw [hfold]

theorem materialize_getD (schema : List Field) (records : List Record) :
    materialize schema (records.map fun record => some (record.getD [])) =
      materialize schema records := by
  unfold materialize
  rw [List.map_map]
  rfl

/-! ## The table of rows -/

/-- The table of rows under hints. -/
def tabulate (hints : List Hint) (rows : List (List (String × Value))) :
    Except Failure Table := do
  let schema ← inferSchema (rows.map some) hints
  materialize schema (rows.map some)

section Tabulate

variable {hints : List Hint} {rows : List (List (String × Value))}
  {table : Table}

theorem tabulate_getD (records : List Record) (hints : List Hint) :
    tabulate hints (records.map fun record => record.getD []) =
      (inferSchema records hints >>= fun schema =>
        materialize schema records) := by
  have hrecords : (records.map fun record => record.getD []).map some =
      records.map fun record => some (record.getD []) := by
    rw [List.map_map]
    rfl
  unfold tabulate
  rw [hrecords, inferSchema_getD]
  simp only [materialize_getD]

theorem tabulate_eq_ok :
    tabulate hints rows = .ok table ↔
      ∃ inferred, inferColumns rows = .ok inferred ∧
        Table.decode (applyHints inferred hints) rows = .ok table := by
  have hsome : (rows.map some).filterMap id = rows := by
    rw [List.filterMap_map]
    exact List.filterMap_some
  have hgetD : (rows.map some).map (fun record : Record => record.getD []) =
      rows := by
    rw [List.map_map]
    exact List.map_id _
  unfold tabulate inferSchema
  rw [Except.bind_eq_ok, hsome]
  simp only [materialize, hgetD]
  constructor
  · rintro ⟨schema, hschema, hdecode⟩
    cases hinfer : inferColumns rows with
    | error conflict => simp [hinfer] at hschema
    | ok inferred =>
        simp only [hinfer, Except.ok.injEq] at hschema
        subst hschema
        refine ⟨inferred, rfl, ?_⟩
        cases hfound : Table.decode (applyHints inferred hints) rows with
        | error fault => simp [hfound] at hdecode
        | ok found => simpa [hfound] using hdecode
  · rintro ⟨inferred, hinfer, hdecode⟩
    exact ⟨applyHints inferred hints, by rw [hinfer], by rw [hdecode]⟩

/-- Where the rows cannot be tabulated, inference or decoding has failed. -/
theorem columnar_of_tabulate {failure : Failure}
    (htabulate : tabulate hints rows = .error failure) :
    ∃ fault, failure = .columnar fault := by
  unfold tabulate at htabulate
  cases hschema : inferSchema (rows.map some) hints with
  | error other =>
      rw [hschema] at htabulate
      cases htabulate
      unfold inferSchema at hschema
      split at hschema
      · exact absurd hschema nofun
      · cases hschema
        exact ⟨_, rfl⟩
  | ok schema =>
      rw [hschema] at htabulate
      have hmaterialize : materialize schema (rows.map some) =
          .error failure := htabulate
      unfold materialize at hmaterialize
      split at hmaterialize
      · exact absurd hmaterialize nofun
      · cases hmaterialize
        exact ⟨_, rfl⟩

theorem tokenize_eq_tabulate {options : ParseOptions} {buffer : Buffer}
    {records : RecordList} (hlines : options.lines = true)
    (hrecords : RecordList.ofLines options.recovery options.delimiter
      buffer.toList = .ok records) :
    tokenize options buffer =
      (tabulate options.hints records.rows).map fun table =>
        ⟨table, records.malformed⟩ := by
  unfold tokenize RecordList.rows
  rw [if_pos hlines, hrecords, tabulate_getD]
  cases hschema : inferSchema records.toList options.hints with
  | error failure =>
      simp [hschema, bind, Except.bind, Except.map]
  | ok schema =>
      cases hmaterialize : materialize schema records.toList with
      | error failure =>
          simp [hschema, hmaterialize, bind, Except.bind, Except.map]
      | ok table =>
          simp [hschema, hmaterialize, bind, Except.bind, Except.map]

theorem tokenize_of_error {options : ParseOptions} {buffer : Buffer}
    {failure : Failure} (hlines : options.lines = true)
    (hrecords : RecordList.ofLines options.recovery options.delimiter
      buffer.toList = .error failure) :
    tokenize options buffer = .error failure := by
  unfold tokenize
  rw [if_pos hlines, hrecords]
  rfl

end Tabulate

end JsonIntake
