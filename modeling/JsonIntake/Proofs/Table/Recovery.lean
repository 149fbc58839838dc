import JsonIntake.Proofs.Records.Isolation
import JsonIntake.Proofs.Records.Malformed
import JsonIntake.Proofs.Table.Rows

/-!
# Recovery from malformed lines

A malformed line gives a row of nulls, exactly as if it were an empty object.
So tokenizing with recovery is tokenizing a mended batch without it, up to the
number of malformed lines.  Without recovery the first malformed line decides,
and batches without any are read in the same way under both settings.
-/

namespace JsonIntake

open Json (Value)

/-! ## Mended lines -/

/-- The text of an object without members. -/
def emptyObject : List UInt8 := [123, 125]

/-- The line, or an empty object in place of a malformed one.  Blank lines
are no records and stay. -/
def mendLine (line : List UInt8) : List UInt8 :=
  if trimAscii line = [] then line
  else if isMalformed (trimAscii line) then emptyObject
  else line

/-- The bytes with an empty object in place of every malformed line. -/
def mendLines (delimiter : UInt8) (bytes : List UInt8) : List UInt8 :=
  [delimiter].intercalate ((splitAtDelimiter delimiter bytes).map mendLine)

theorem isMalformed_emptyObject : isMalformed emptyObject = false := by
  decide +kernel

theorem lineMembers_emptyObject : lineMembers emptyObject = [] := by
  have hlength : (lineMembers emptyObject).length = 0 := by decide +kernel
  exact List.length_eq_zero_iff.mp hlength

theorem lineMembers_of_malformed {line : List UInt8}
    (hline : isMalformed line = true) : lineMembers line = [] := by
  unfold lineMembers
  split
  · next members hparse =>
      rw [isMalformed, hparse] at hline
      exact absurd hline nofun
  · rfl

section Mend

variable {delimiter : UInt8} {bytes line : List UInt8}

theorem not_mem_of_mem_split
    (hline : line ∈ splitAtDelimiter delimiter bytes) : delimiter ∉ line := by
  induction bytes using line_induction delimiter with
  | last bytes hbytes =>
      rw [splitAtDelimiter_eq_singleton delimiter hbytes,
        List.mem_singleton] at hline
      exact hline ▸ hbytes
  | step first rest hfirst ih =>
      rw [splitAtDelimiter_line delimiter hfirst, List.mem_cons] at hline
      rcases hline with rfl | hrest
      · exact hfirst
      · exact ih hrest

theorem not_mem_mendLine (hopen : delimiter ≠ 123) (hclose : delimiter ≠ 125)
    (hline : delimiter ∉ line) : delimiter ∉ mendLine line := by
  unfold mendLine
  split
  · exact hline
  · split
    · simp [emptyObject, hopen, hclose]
    · exact hline

theorem split_mendLines (hopen : delimiter ≠ 123) (hclose : delimiter ≠ 125)
    (bytes : List UInt8) :
    splitAtDelimiter delimiter (mendLines delimiter bytes) =
      (splitAtDelimiter delimiter bytes).map mendLine := by
  apply splitAtDelimiter_intercalate
  · simpa using splitAtDelimiter_ne_nil delimiter bytes
  · intro mended hmended
    obtain ⟨line, hline, rfl⟩ := List.mem_map.mp hmended
    exact not_mem_mendLine hopen hclose (not_mem_of_mem_split hline)

/-- Mending keeps the record lines in their places. -/
theorem recordLines_mendLines (hopen : delimiter ≠ 123)
    (hclose : delimiter ≠ 125) (bytes : List UInt8) :
    recordLines delimiter (mendLines delimiter bytes) =
      (recordLines delimiter bytes).map fun line =>
        if isMalformed line then emptyObject else line := by
  unfold recordLines
  rw [split_mendLines hopen hclose]
  generalize splitAtDelimiter delimiter bytes = lines
  induction lines with
  | nil => rfl
  | cons line lines ih =>
      rw [List.map_cons, List.map_cons, List.map_cons, List.filter_cons,
        List.filter_cons, ih]
      unfold mendLine
      by_cases hblank : trimAscii line = []
      · simp [hblank]
      · rw [if_neg hblank]
        by_cases hmalformed : isMalformed (trimAscii line) = true
        · -- Neither the malformed line nor what replaces it is blank.
          have htrim : trimAscii emptyObject = emptyObject := by decide
          have hfilled : emptyObject ≠ [] := by decide
          simp [hblank, hmalformed, htrim, hfilled]
        · simp [hblank, hmalformed]

end Mend

/-! ## Tokenizing line by line -/

section Tokenize

variable {delimiter : UInt8} {hints : List Hint} {buffer : Buffer}
  {record : Nat} {message : String}

/-- With recovery every record line has a row, and a malformed one has no
members. -/
theorem tokenize_recover (delimiter : UInt8) (hints : List Hint)
    (buffer : Buffer) :
    tokenize ⟨true, delimiter, .recoverWithNull, hints⟩ buffer =
      (tabulate hints
        ((recordLines delimiter buffer.toList).map lineMembers)).map
        fun table => ⟨table,
          (recordLines delimiter buffer.toList).countP isMalformed⟩ := by
  have hrecords : RecordList.ofLines .recoverWithNull delimiter
      buffer.toList = .ok _ := RecordList.addLines_recover .empty
  refine (tokenize_eq_tabulate rfl hrecords).trans ?_
  have hrows : ∀ line, Option.getD
      (if isMalformed line then none else some (lineMembers line)) [] =
        lineMembers line := by
    intro line
    by_cases hline : isMalformed line = true
    · rw [if_pos hline, lineMembers_of_malformed hline]
      rfl
    · rw [if_neg hline]
      rfl
  simp [RecordList.rows, RecordList.toList, RecordList.empty,
    Function.comp_def, hrows]

/-- Without recovery a batch of well-formed lines has the same table. -/
theorem tokenize_fail
    (hlines : ∀ line ∈ recordLines delimiter buffer.toList,
      isMalformed line = false) :
    tokenize ⟨true, delimiter, .fail, hints⟩ buffer =
      (tabulate hints
        ((recordLines delimiter buffer.toList).map lineMembers)).map
        fun table => ⟨table, 0⟩ := by
  have hrecords : RecordList.ofLines .fail delimiter buffer.toList = .ok _ :=
    RecordList.addLines_fail hlines
  refine (tokenize_eq_tabulate rfl hrecords).trans ?_
  simp [RecordList.rows, RecordList.toList, Function.comp_def]

/-- Without recovery a parse error is reported exactly for the first malformed
line. -/
theorem tokenize_fail_eq_error_iff :
    tokenize ⟨true, delimiter, .fail, hints⟩ buffer =
        .error (.malformedRecord record message) ↔
      FirstMalformed (recordLines delimiter buffer.toList) record message := by
  have hfault : ∀ {record message},
      FirstMalformed (recordLines delimiter buffer.toList) record message →
      tokenize ⟨true, delimiter, .fail, hints⟩ buffer =
        .error (.malformedRecord record message) :=
    fun hfirst => tokenize_of_error rfl
      (RecordList.addLines_fail_malformed hfirst)
  refine ⟨?_, hfault⟩
  intro herror
  rcases forall_or_firstMalformed (recordLines delimiter buffer.toList) with
    hall | ⟨first, text, hfirst⟩
  · rw [tokenize_fail hall] at herror
    obtain ⟨fault, hfault⟩ :=
      columnar_of_tabulate (Except.map_eq_error.mp herror)
    exact absurd hfault nofun
  · have hsame := (hfault hfirst).symm.trans herror
    injection hsame with hsame
    injection hsame with hrecord hmessage
    exact hrecord ▸ hmessage ▸ hfirst

/-- A batch can be tokenized if its malformed lines can be recovered from and
its rows can be tabulated. -/
theorem tokenize_lines_eq_ok {options : ParseOptions}
    {fragment : TableFragment} (hlines : options.lines = true) :
    tokenize options buffer = .ok fragment ↔
      (options.recovery = .fail →
        ∀ line ∈ recordLines options.delimiter buffer.toList,
          isMalformed line = false) ∧
      tabulate options.hints
        ((recordLines options.delimiter buffer.toList).map lineMembers) =
          .ok fragment.table ∧
      fragment.malformed =
        (recordLines options.delimiter buffer.toList).countP
          isMalformed := by
  obtain ⟨_, delimiter, recovery, hints⟩ := options
  cases hlines
  obtain ⟨table, malformed⟩ := fragment
  cases recovery with
  | recoverWithNull =>
      rw [tokenize_recover, Except.map_eq_ok]
      constructor
      · rintro ⟨found, htable, h⟩
        cases h
        exact ⟨nofun, htable, rfl⟩
      · rintro ⟨-, htable, rfl⟩
        exact ⟨table, htable, rfl⟩
  | fail =>
      rcases forall_or_firstMalformed (recordLines delimiter buffer.toList)
        with hsound | ⟨record, message, hfirst⟩
      · rw [tokenize_fail hsound, Except.map_eq_ok]
        dsimp only
        rw [countP_isMalformed hsound]
        constructor
        · rintro ⟨found, htable, h⟩
          cases h
          exact ⟨fun _ => hsound, htable, rfl⟩
        · rintro ⟨-, htable, rfl⟩
          exact ⟨table, htable, rfl⟩
      · rw [tokenize_fail_eq_error_iff.mpr hfirst]
        obtain ⟨line, hline, hmalformed⟩ := hfirst.exists_line
        refine ⟨nofun, fun hboth => ?_⟩
        rw [hboth.1 rfl line hline] at hmalformed
        exact absurd hmalformed nofun

end Tokenize

/-! ## Rows of lines -/

/-- What the object on a line has under a name. -/
def lineValue (name : String) (line : List UInt8) : Value :=
  (Value.lookup? name (lineMembers line)).getD .null

/-- The table has one row for every line, with the cells of the values on the
line, and with nulls if the line is malformed. -/
structure Table.OfLines (lines : List (List UInt8)) (table : Table) :
    Prop where
  count : table.rows = lines.length
  cells : ∀ column ∈ table.columns, List.Forall₂
    (fun line cell =>
      Cell.decodeColumn column.field.type [lineValue column.field.name line] =
          .ok [cell] ∧
        (isMalformed line = true → cell = .null))
    lines column.cells

theorem Table.ofLines_of_tabulate {hints : List Hint}
    {lines : List (List UInt8)} {table : Table}
    (htable : tabulate hints (lines.map lineMembers) = .ok table) :
    Table.OfLines lines table := by
  obtain ⟨inferred, hinferred, hdecode⟩ := tabulate_eq_ok.mp htable
  have hnames : ((applyHints inferred hints).map (·.name)).Nodup :=
    nodup_applyHints (nodup_inferColumns hinferred)
  obtain ⟨-, hcount, hcolumns⟩ := (Table.decode_iff hnames).mp hdecode
  constructor
  · rw [hcount, List.length_map]
  · intro column hcolumn
    obtain ⟨_, -, rfl, hcells⟩ :=
      forall₂_exists_left hcolumns hcolumn
    have hvalues : Shape.valuesOf column.field.name (lines.map lineMembers) =
        lines.map (lineValue column.field.name) := by
      unfold Shape.valuesOf Cell.project
      rw [List.map_map, List.map_map]
      rfl
    rw [hvalues, Cell.decodeColumn_iff, List.forall₂_map_left_iff] at hcells
    refine hcells.imp fun line cell hcell => ⟨hcell, fun hline => ?_⟩
    have hnull : lineValue column.field.name line = .null := by
      rw [lineValue, lineMembers_of_malformed hline]
      rfl
    have hcells : Cell.decodeColumn column.field.type [.null] =
        .ok [.null] := Cell.decodeColumn_replicate_null _ 1
    rw [hnull, hcells] at hcell
    simpa using hcell.symm

/-- A mended batch has no malformed line, and the members of the lines are
those that recovery gives them. -/
theorem tokenize_mendLines {delimiter : UInt8} (hopen : delimiter ≠ 123)
    (hclose : delimiter ≠ 125) (hints : List Hint) (buffer : Buffer) :
    tokenize ⟨true, delimiter, .fail, hints⟩
        (.ofList (mendLines delimiter buffer.toList)) =
      (tabulate hints
        ((recordLines delimiter buffer.toList).map lineMembers)).map
        fun table => ⟨table, 0⟩ := by
  have hmended : recordLines delimiter
      (Buffer.ofList (mendLines delimiter buffer.toList)).toList =
        (recordLines delimiter buffer.toList).map fun line =>
          if isMalformed line then emptyObject else line := by
    rw [Buffer.toList_ofList]
    exact recordLines_mendLines hopen hclose _
  have hrows : ((recordLines delimiter buffer.toList).map fun line =>
      if isMalformed line then emptyObject else line).map lineMembers =
        (recordLines delimiter buffer.toList).map lineMembers := by
    rw [List.map_map]
    refine List.map_congr_left fun line _ => ?_
    by_cases hline : isMalformed line = true
    · simp [hline, lineMembers_emptyObject, lineMembers_of_malformed]
    · simp [hline]
  have hsound : ∀ line ∈ recordLines delimiter
      (Buffer.ofList (mendLines delimiter buffer.toList)).toList,
      isMalformed line = false := by
    rw [hmended]
    intro mended hmember
    obtain ⟨line, -, rfl⟩ := List.mem_map.mp hmember
    by_cases hline : isMalformed line = true
    · simp [hline, isMalformed_emptyObject]
    · simp [hline]
  rw [tokenize_fail hsound, hmended, hrows]

/-- Recovery is mending: with recovery a batch has the table, or the fault, of
the mended batch without recovery, and all malformed lines are counted.  The
table has a row for every record line, of nulls if the line is malformed.
Without recovery the batch fails at its first malformed line, and a batch
without one is tokenized in the same way. -/
theorem tokenize_recover_eq_mended (delimiter : UInt8)
    (hopen : delimiter ≠ 123) (hclose : delimiter ≠ 125) (hints : List Hint)
    (buffer : Buffer) :
    let lines := recordLines delimiter buffer.toList
    let fail := tokenize ⟨true, delimiter, .fail, hints⟩
    let recover := tokenize ⟨true, delimiter, .recoverWithNull, hints⟩
    recover buffer =
        (fail (.ofList (mendLines delimiter buffer.toList))).map
          (fun fragment =>
            { fragment with malformed := lines.countP isMalformed }) ∧
      (∀ fragment, recover buffer = .ok fragment →
        fragment.table.OfLines lines) ∧
      (∀ failure, recover buffer = .error failure →
        ∃ fault, failure = .columnar fault) ∧
      (∀ record message,
        fail buffer = .error (.malformedRecord record message) ↔
          FirstMalformed lines record message) ∧
      ((∃ record message,
          fail buffer = .error (.malformedRecord record message)) ↔
        ∃ line ∈ lines, isMalformed line = true) ∧
      ((∀ line ∈ lines, isMalformed line = false) →
        fail buffer = recover buffer) := by
  intro lines fail recover
  have hrecover : recover buffer =
      (tabulate hints (lines.map lineMembers)).map
        fun table => ⟨table, lines.countP isMalformed⟩ :=
    tokenize_recover delimiter hints buffer
  have hfault : ∀ record message,
      fail buffer = .error (.malformedRecord record message) ↔
        FirstMalformed lines record message :=
    fun _ _ => tokenize_fail_eq_error_iff
  refine ⟨?_, ?_, ?_, hfault, ?_, ?_⟩
  · rw [hrecover]
    refine Eq.trans ?_
      (congrArg _ (tokenize_mendLines hopen hclose hints buffer).symm)
    cases tabulate hints (lines.map lineMembers) with
    | error failure => rfl
    | ok table => rfl
  · intro fragment hfragment
    rw [hrecover] at hfragment
    obtain ⟨table, htable, rfl⟩ := Except.map_eq_ok.mp hfragment
    exact Table.ofLines_of_tabulate htable
  · intro failure hfailure
    rw [hrecover] at hfailure
    exact columnar_of_tabulate (Except.map_eq_error.mp hfailure)
  · constructor
    · rintro ⟨record, message, herror⟩
      exact ((hfault record message).mp herror).exists_line
    · rintro ⟨line, hline, hmalformed⟩
      rcases forall_or_firstMalformed lines with hsound |
        ⟨record, message, hfirst⟩
      · rw [hsound line hline] at hmalformed
        exact absurd hmalformed nofun
      · exact ⟨record, message, (hfault record message).mpr hfirst⟩
  · intro hsound
    rw [hrecover, countP_isMalformed hsound]
    exact tokenize_fail hsound

/-- Four lines, two of which are malformed, and a hint for a column of its
own. -/
theorem tokenize_recover_eq_mended_two_malformed :
    let bytes := ("\x7b\"a\": 1\x7d\n[2]\n\n \x7b\"a\": 2.5\x7d\n" ++
      "\x7b\"a\"").toUTF8.toList
    let hints : List Hint := [("b", .utf8)]
    let lines := recordLines 10 bytes
    let fail := tokenize ⟨true, 10, .fail, hints⟩
    let recover := tokenize ⟨true, 10, .recoverWithNull, hints⟩
    (10 : UInt8) ≠ 123 ∧ (10 : UInt8) ≠ 125 ∧
      (∃ fragment, recover (.ofList bytes) = .ok fragment ∧
        fragment.malformed = 2 ∧ fragment.table.rows = 4 ∧
        fragment.table.OfLines lines) ∧
      fail (.ofList bytes) = .error
        (.malformedRecord 1 "expected a JSON object, found an array") := by
  intro bytes hints lines fail recover
  obtain ⟨hmended, hrows, -, hfault, -, -⟩ := tokenize_recover_eq_mended
    10 (by decide) (by decide) hints (.ofList bytes)
  refine ⟨by decide, by decide, ?_, ?_⟩
  · have hok : (recover (.ofList bytes)).isOk = true := by decide +kernel
    obtain ⟨fragment, hfragment⟩ := Except.exists_of_isOk hok
    have hlines := hrows fragment hfragment
    have hcount : lines.length = 4 := by decide +kernel
    have hmalformed : lines.countP isMalformed = 2 := by decide +kernel
    refine ⟨fragment, hfragment, ?_, hlines.count.trans hcount, hlines⟩
    obtain ⟨found, -, rfl⟩ :=
      Except.map_eq_ok.mp (hmended.symm.trans hfragment)
    exact hmalformed
  · refine (hfault 1 _).mpr ⟨lines.take 1, "[2]".toUTF8.toList,
      lines.drop 2, ?_, ?_, ?_, ?_, ?_⟩
    · decide +kernel
    · decide +kernel
    · decide +kernel
    · decide +kernel
    · decide +kernel

end JsonIntake
