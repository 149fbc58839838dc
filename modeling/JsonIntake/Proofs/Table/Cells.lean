import JsonIntake.Proofs.Table.Inference
import JsonIntake.Table.Assembly
import Mathlib.Algebra.GroupWithZero.Nat
import Mathlib.Data.List.Forall2

/-!
# Cells of a column

Decoding takes the values of a column one at a time, also inside lists and
records: the cells of two groups of values, one behind the other, are the
cells of both.
-/

namespace JsonIntake

theorem Except.mapError_eq_ok {ε δ α : Type} {x : Except ε α} {f : ε → δ}
    {a : α} : x.mapError f = .ok a ↔ x = .ok a := by
  cases x with
  | error e => exact ⟨nofun, nofun⟩
  | ok b => simp [Except.mapError]

theorem Except.mapM_eq_ok {ε α β : Type} {f : α → Except ε β}
    {xs : List α} {ys : List β} :
    xs.mapM f = .ok ys ↔ List.Forall₂ (fun x y => f x = .ok y) xs ys := by
  induction xs generalizing ys with
  | nil =>
      rw [List.mapM_nil, List.forall₂_nil_left_iff]
      constructor
      · intro h
        cases h
        rfl
      · rintro rfl
        rfl
  | cons x xs ih =>
      rw [List.mapM_cons, Except.bind_eq_ok, List.forall₂_cons_left_iff]
      constructor
      · rintro ⟨y, hy, h⟩
        obtain ⟨rest, hrest, heq⟩ := Except.bind_eq_ok.mp h
        cases heq
        exact ⟨y, rest, hy, ih.mp hrest, rfl⟩
      · rintro ⟨y, rest, hy, hrest, rfl⟩
        exact ⟨y, hy, Except.bind_eq_ok.mpr ⟨rest, ih.mpr hrest, rfl⟩⟩

theorem forall₂_exists_right {α β : Type} {R : α → β → Prop} {xs : List α}
    {ys : List β} {x : α} (hrel : List.Forall₂ R xs ys) (hx : x ∈ xs) :
    ∃ y ∈ ys, R x y := by
  induction hrel with
  | nil => exact absurd hx List.not_mem_nil
  | @cons _ y _ _ hfirst _ ih =>
      rcases List.mem_cons.mp hx with rfl | hrest
      · exact ⟨y, List.mem_cons_self, hfirst⟩
      · obtain ⟨other, hother, hboth⟩ := ih hrest
        exact ⟨other, List.mem_cons_of_mem _ hother, hboth⟩

theorem forall₂_exists_left {α β : Type} {R : α → β → Prop} {xs : List α}
    {ys : List β} {y : β} (hrel : List.Forall₂ R xs ys) (hy : y ∈ ys) :
    ∃ x ∈ xs, R x y :=
  forall₂_exists_right (R := flip R) (List.Forall₂.flip hrel) hy

namespace Cell

open Json (Value)

/-! ## Lists -/

def totalSize (sizes : List (Option Nat)) : Nat :=
  (sizes.map fun size => size.getD 0).sum

theorem length_regroup (sizes : List (Option Nat)) (cells : List Cell) :
    (regroup sizes cells).length = sizes.length := by
  induction sizes generalizing cells with
  | nil => rfl
  | cons size sizes ih =>
      cases size with
      | none => simp [regroup, ih]
      | some size => simp [regroup, ih]

theorem regroup_append {sizes more : List (Option Nat)}
    {cells rest : List Cell} (hlength : cells.length = totalSize sizes) :
    regroup (sizes ++ more) (cells ++ rest) =
      regroup sizes cells ++ regroup more rest := by
  induction sizes generalizing cells with
  | nil =>
      have hnil := List.length_eq_zero_iff.mp hlength
      rw [hnil]
      rfl
  | cons size sizes ih =>
      cases size with
      | none =>
          have hrest : cells.length = totalSize sizes := by
            simpa [totalSize] using hlength
          rw [List.cons_append, regroup, regroup, ih hrest]
          rfl
      | some size =>
          have htotal : cells.length = size + totalSize sizes := by
            simpa [totalSize] using hlength
          have hle : size ≤ cells.length := by
            rw [htotal]
            exact Nat.le_add_right _ _
          have hrest : (cells.drop size).length = totalSize sizes := by
            rw [List.length_drop, htotal]
            exact Nat.add_sub_cancel_left _ _
          rw [List.cons_append, regroup, regroup,
            List.take_append_of_le_length hle,
            List.drop_append_of_le_length hle, ih hrest]
          rfl

theorem regroup_replicate_none (count : Nat) :
    regroup (List.replicate count none) [] = List.replicate count .null := by
  induction count with
  | zero => rfl
  | succ count ih =>
      rw [List.replicate_succ, regroup, ih, List.replicate_succ]

theorem length_flatten_lists (lists : List (Option (List Value))) :
    ((lists.map fun list => list.getD []).flatten).length =
      totalSize (lists.map fun list => list.map List.length) := by
  unfold totalSize
  rw [List.length_flatten, List.map_map, List.map_map]
  congr 1
  apply List.map_congr_left
  intro list _
  cases list <;> rfl

/-! ## Records -/

theorem length_transpose (rows : List Bool) (columns : List (List Cell)) :
    (transpose rows columns).length = rows.length := by
  induction rows generalizing columns with
  | nil => rfl
  | cons present rows ih => simp [transpose, ih]

theorem transpose_replicate_false (count : Nat)
    (columns : List (List Cell)) :
    transpose (List.replicate count false) columns =
      List.replicate count .null := by
  induction count generalizing columns with
  | zero => rfl
  | succ count ih =>
      rw [List.replicate_succ, transpose, ih, List.replicate_succ]
      rfl

/-- Columns with more cells behind their own. -/
def extend (columns more : List (List Cell)) : List (List Cell) :=
  List.zipWith (· ++ ·) columns more

theorem extend_nil {columns more : List (List Cell)}
    (hcount : columns.length = more.length)
    (hempty : ∀ column ∈ columns, column.length = 0) :
    extend columns more = more := by
  induction columns generalizing more with
  | nil => rw [List.length_eq_zero_iff.mp hcount.symm]; rfl
  | cons column columns ih =>
      cases more with
      | nil => exact absurd hcount nofun
      | cons first more =>
          have hcolumn := hempty column List.mem_cons_self
          rw [List.length_eq_zero_iff] at hcolumn
          have hrest := ih (Nat.succ.inj hcount)
            fun _ hin => hempty _ (List.mem_cons_of_mem _ hin)
          unfold extend at hrest ⊢
          rw [List.zipWith_cons_cons, hrest, hcolumn, List.nil_append]

theorem head_extend {columns more : List (List Cell)}
    (hcount : columns.length = more.length)
    (hfilled : ∀ column ∈ columns, column ≠ []) :
    (extend columns more).map (fun column => column.headD .null) =
      columns.map fun column => column.headD .null := by
  induction columns generalizing more with
  | nil => rfl
  | cons column columns ih =>
      cases more with
      | nil => exact absurd hcount nofun
      | cons first more =>
          have hrest := ih (Nat.succ.inj hcount)
            fun _ hin => hfilled _ (List.mem_cons_of_mem _ hin)
          unfold extend at hrest ⊢
          rw [List.zipWith_cons_cons, List.map_cons, hrest, List.map_cons]
          cases column with
          | nil => exact absurd rfl (hfilled _ List.mem_cons_self)
          | cons cell column => rfl

theorem tail_extend {columns : List (List Cell)} (more : List (List Cell))
    (hfilled : ∀ column ∈ columns, column ≠ []) :
    (extend columns more).map List.tail =
      extend (columns.map List.tail) more := by
  induction columns generalizing more with
  | nil => rfl
  | cons column columns ih =>
      cases more with
      | nil => rfl
      | cons first more =>
          have hrest := ih more
            fun _ hin => hfilled _ (List.mem_cons_of_mem _ hin)
          unfold extend at hrest ⊢
          rw [List.zipWith_cons_cons, List.map_cons, hrest, List.map_cons,
            List.zipWith_cons_cons,
            List.tail_append_of_ne_nil (hfilled _ List.mem_cons_self)]

theorem transpose_append {rows more : List Bool}
    {columns rest : List (List Cell)} (hcount : columns.length = rest.length)
    (hcolumns : ∀ column ∈ columns, column.length = rows.length) :
    transpose (rows ++ more) (extend columns rest) =
      transpose rows columns ++ transpose more rest := by
  induction rows generalizing columns with
  | nil => rw [extend_nil hcount hcolumns]; rfl
  | cons present rows ih =>
      have hfilled : ∀ column ∈ columns, column ≠ [] := by
        intro column hin hnil
        have hlength := hcolumns column hin
        rw [hnil] at hlength
        exact absurd hlength nofun
      have htails : ∀ column ∈ columns.map List.tail,
          column.length = rows.length := by
        intro column hin
        obtain ⟨full, hfull, rfl⟩ := List.mem_map.mp hin
        rw [List.length_tail, hcolumns full hfull, List.length_cons]
        exact Nat.add_sub_cancel _ _
      rw [List.cons_append, transpose, transpose, head_extend hcount hfilled,
        tail_extend rest hfilled, ih _ htails, List.cons_append]
      rw [List.length_map, hcount]

/-! ## Decoding -/

abbrev Row : Type := Option (List (String × Value))

/-- The values of a record field; of two fields with one name the second has
none. -/
def fieldValues (seen : List String) (name : String) (rows : List Row) :
    List Value :=
  if seen.contains name then rows.map fun _ => .null else project name rows

section

variable {seen : List String} {name : String} {rows more : List Row}

theorem length_fieldValues :
    (fieldValues seen name rows).length = rows.length := by
  unfold fieldValues project
  split <;> exact List.length_map _

theorem fieldValues_append :
    fieldValues seen name (rows ++ more) =
      fieldValues seen name rows ++ fieldValues seen name more := by
  unfold fieldValues project
  split <;> exact List.map_append

theorem fieldValues_replicate_none (seen : List String) (name : String)
    (count : Nat) :
    fieldValues seen name (List.replicate count none) =
      List.replicate count .null := by
  unfold fieldValues project
  split <;> exact List.map_replicate

theorem decodeColumn_scalar {type : ScalarType} {values : List Value}
    {cells : List Cell} :
    decodeColumn (.scalar type) values = .ok cells ↔
      List.Forall₂ (fun value cell => ofScalar type value = .ok cell)
        values cells := by
  rw [decodeColumn, Except.mapM_eq_ok]

theorem decodeColumn_list {item : ColumnType} {values : List Value}
    {cells : List Cell} :
    decodeColumn (.list item) values = .ok cells ↔
      ∃ lists inner, values.mapM listItems? = .ok lists ∧
        decodeColumn item (lists.map fun list => list.getD []).flatten =
          .ok inner ∧
        regroup (lists.map fun list => list.map List.length) inner =
          cells := by
  rw [decodeColumn]
  simp only [Except.bind_eq_ok, Except.ok.injEq]
  constructor
  · rintro ⟨lists, hlists, inner, hinner, hcells⟩
    exact ⟨lists, inner, hlists, hinner, hcells⟩
  · rintro ⟨lists, inner, hlists, hinner, hcells⟩
    exact ⟨lists, hlists, inner, hinner, hcells⟩

theorem decodeColumn_record {fields : List (String × ColumnType)}
    {values : List Value} {cells : List Cell} :
    decodeColumn (.record fields) values = .ok cells ↔
      ∃ rows columns, values.mapM recordMembers? = .ok rows ∧
        decodeFields [] fields rows = .ok columns ∧
        transpose (rows.map Option.isSome) columns = cells := by
  rw [decodeColumn]
  simp only [Except.bind_eq_ok, Except.ok.injEq]
  constructor
  · rintro ⟨rows, hrows, columns, hcolumns, hcells⟩
    exact ⟨rows, columns, hrows, hcolumns, hcells⟩
  · rintro ⟨rows, columns, hrows, hcolumns, hcells⟩
    exact ⟨rows, hrows, columns, hcolumns, hcells⟩

theorem decodeFields_cons {type : ColumnType}
    {rest : List (String × ColumnType)} {columns : List (List Cell)} :
    decodeFields seen ((name, type) :: rest) rows = .ok columns ↔
      ∃ column others,
        decodeColumn type (fieldValues seen name rows) = .ok column ∧
        decodeFields (name :: seen) rest rows = .ok others ∧
        column :: others = columns := by
  rw [decodeFields]
  simp only [Except.bind_eq_ok, Except.mapError_eq_ok, Except.ok.injEq]
  constructor
  · rintro ⟨column, hcolumn, others, hothers, hcolumns⟩
    exact ⟨column, others, hcolumn, hothers, hcolumns⟩
  · rintro ⟨column, others, hcolumn, hothers, hcolumns⟩
    exact ⟨column, hcolumn, others, hothers, hcolumns⟩

end

theorem length_decodeColumn {type : ColumnType} {values : List Value}
    {cells : List Cell} (hdecode : decodeColumn type values = .ok cells) :
    cells.length = values.length := by
  cases type with
  | scalar type => exact (decodeColumn_scalar.mp hdecode).length_eq.symm
  | list item =>
      obtain ⟨lists, inner, hlists, _, rfl⟩ := decodeColumn_list.mp hdecode
      rw [length_regroup, List.length_map]
      exact (Except.mapM_eq_ok.mp hlists).length_eq.symm
  | record fields =>
      obtain ⟨rows, columns, hrows, _, rfl⟩ := decodeColumn_record.mp hdecode
      rw [length_transpose, List.length_map]
      exact (Except.mapM_eq_ok.mp hrows).length_eq.symm

theorem length_decodeFields {seen : List String}
    {fields : List (String × ColumnType)} {rows : List Row}
    {columns : List (List Cell)}
    (hdecode : decodeFields seen fields rows = .ok columns) :
    columns.length = fields.length ∧
      ∀ column ∈ columns, column.length = rows.length := by
  induction fields generalizing seen columns with
  | nil =>
      rw [decodeFields, Except.ok.injEq] at hdecode
      subst hdecode
      exact ⟨rfl, fun _ hin => absurd hin List.not_mem_nil⟩
  | cons field fields ih =>
      obtain ⟨column, others, hcolumn, hothers, rfl⟩ :=
        decodeFields_cons.mp hdecode
      obtain ⟨hcount, hlengths⟩ := ih hothers
      constructor
      · rw [List.length_cons, List.length_cons, hcount]
      · intro found hin
        rcases List.mem_cons.mp hin with rfl | hin
        · rw [length_decodeColumn hcolumn, length_fieldValues]
        · exact hlengths found hin

theorem mapM_append_ok {α β ε : Type} {f : α → Except ε β}
    {xs more : List α} {ys rest : List β} (hxs : xs.mapM f = .ok ys)
    (hmore : more.mapM f = .ok rest) :
    (xs ++ more).mapM f = .ok (ys ++ rest) :=
  Except.mapM_eq_ok.mpr
    (List.rel_append (Except.mapM_eq_ok.mp hxs) (Except.mapM_eq_ok.mp hmore))

mutual

/-- The cells of two groups of values, one behind the other. -/
theorem decodeColumn_append : (type : ColumnType) →
    {values more : List Value} → {cells rest : List Cell} →
      decodeColumn type values = .ok cells →
      decodeColumn type more = .ok rest →
      decodeColumn type (values ++ more) = .ok (cells ++ rest)
  | .scalar type, values, more, cells, rest, hcells, hrest => by
      rw [decodeColumn] at hcells hrest ⊢
      exact mapM_append_ok hcells hrest
  | .list item, values, more, cells, rest, hcells, hrest => by
      obtain ⟨lists, inner, hlists, hinner, rfl⟩ := decodeColumn_list.mp hcells
      obtain ⟨others, outer, hothers, houter, rfl⟩ :=
        decodeColumn_list.mp hrest
      have hitems := decodeColumn_append item hinner houter
      have hlength := length_decodeColumn hinner
      rw [length_flatten_lists] at hlength
      rw [← List.flatten_append, ← List.map_append] at hitems
      refine decodeColumn_list.mpr
        ⟨_, _, mapM_append_ok hlists hothers, hitems, ?_⟩
      rw [List.map_append, regroup_append hlength]
  | .record fields, values, more, cells, rest, hcells, hrest => by
      obtain ⟨rows, columns, hrows, hcolumns, rfl⟩ :=
        decodeColumn_record.mp hcells
      obtain ⟨others, added, hothers, hadded, rfl⟩ :=
        decodeColumn_record.mp hrest
      have hfields := decodeFields_append fields hcolumns hadded
      obtain ⟨hcount, hlengths⟩ := length_decodeFields hcolumns
      have hboth : columns.length = added.length :=
        hcount.trans (length_decodeFields hadded).1.symm
      refine decodeColumn_record.mpr
        ⟨_, _, mapM_append_ok hrows hothers, hfields, ?_⟩
      rw [List.map_append, transpose_append hboth]
      intro column hin
      rw [hlengths column hin, List.length_map]

theorem decodeFields_append : (fields : List (String × ColumnType)) →
    {seen : List String} → {rows more : List Row} →
      {columns added : List (List Cell)} →
      decodeFields seen fields rows = .ok columns →
      decodeFields seen fields more = .ok added →
      decodeFields seen fields (rows ++ more) = .ok (extend columns added)
  | [], _, _, _, _, _, hcolumns, hadded => by
      rw [decodeFields, Except.ok.injEq] at hcolumns hadded
      subst hcolumns hadded
      rfl
  | (name, type) :: fields, _, _, _, _, _, hcolumns, hadded => by
      obtain ⟨column, others, hcolumn, hothers, rfl⟩ :=
        decodeFields_cons.mp hcolumns
      obtain ⟨cells, rest, hcells, hrest, rfl⟩ := decodeFields_cons.mp hadded
      have hfirst := decodeColumn_append type hcolumn hcells
      rw [← fieldValues_append] at hfirst
      exact decodeFields_cons.mpr
        ⟨_, _, hfirst, decodeFields_append fields hothers hrest, rfl⟩

end

/-! ## Nulls -/

theorem ofScalar_null (type : ScalarType) :
    ofScalar type .null = .ok .null := by
  cases type <;> rfl

theorem mapM_replicate_ok {α β ε : Type} {f : α → Except ε β} {x : α} {y : β}
    (hx : f x = .ok y) (count : Nat) :
    (List.replicate count x).mapM f = .ok (List.replicate count y) := by
  induction count with
  | zero => rfl
  | succ count ih =>
      rw [List.replicate_succ, List.mapM_cons, hx, ih]
      rfl

mutual

/-- Null is a cell of every column. -/
theorem decodeColumn_replicate_null : (type : ColumnType) → (count : Nat) →
    decodeColumn type (List.replicate count .null) =
      .ok (List.replicate count .null)
  | .scalar type, count => by
      rw [decodeColumn]
      exact mapM_replicate_ok (ofScalar_null type) count
  | .list item, count => by
      have hempty := decodeColumn_replicate_null item 0
      have hlists : (List.replicate count .null).mapM listItems? =
          .ok (List.replicate count none) :=
        mapM_replicate_ok (f := listItems?) (x := .null) rfl count
      refine decodeColumn_list.mpr ⟨_, [], hlists, ?_, ?_⟩
      · simpa using hempty
      · rw [List.map_replicate]
        exact regroup_replicate_none count
  | .record fields, count => by
      obtain ⟨columns, hcolumns⟩ := decodeFields_replicate_none fields [] count
      have hrows : (List.replicate count .null).mapM recordMembers? =
          .ok (List.replicate count none) :=
        mapM_replicate_ok (f := recordMembers?) (x := .null) rfl count
      refine decodeColumn_record.mpr ⟨_, columns, hrows, hcolumns, ?_⟩
      rw [List.map_replicate]
      exact transpose_replicate_false count columns

theorem decodeFields_replicate_none :
    (fields : List (String × ColumnType)) → (seen : List String) →
      (count : Nat) →
      ∃ columns,
        decodeFields seen fields (List.replicate count none) = .ok columns
  | [], _, _ => ⟨[], by rw [decodeFields]⟩
  | (name, type) :: fields, seen, count => by
      obtain ⟨others, hothers⟩ :=
        decodeFields_replicate_none fields (name :: seen) count
      have hcolumn := decodeColumn_replicate_null type count
      rw [← fieldValues_replicate_none seen name count] at hcolumn
      exact ⟨_, decodeFields_cons.mpr ⟨_, _, hcolumn, hothers, rfl⟩⟩

end

/-- A column of nulls alone has the same cells under every type. -/
theorem decodeColumn_of_null {type : ColumnType} {values : List Value}
    {cells : List Cell} (hdecode : decodeColumn .null values = .ok cells) :
    decodeColumn type values = .ok cells := by
  have hcells := decodeColumn_scalar.mp hdecode
  have hnulls : ∀ value cell, ofScalar .null value = .ok cell →
      value = .null ∧ cell = .null := by
    intro value cell hcell
    cases value with
    | null =>
        cases hcell
        exact ⟨rfl, rfl⟩
    | boolean value => exact absurd hcell nofun
    | number value => exact absurd hcell nofun
    | text value => exact absurd hcell nofun
    | array items => exact absurd hcell nofun
    | object members => exact absurd hcell nofun
  have hvalues : values = List.replicate values.length .null ∧
      cells = List.replicate values.length .null := by
    clear hdecode
    induction hcells with
    | nil => exact ⟨rfl, rfl⟩
    | cons hcell _ ih =>
        obtain ⟨rfl, rfl⟩ := hnulls _ _ hcell
        rw [List.length_cons, List.replicate_succ, List.replicate_succ]
        exact ⟨congrArg _ ih.1, congrArg _ ih.2⟩
  rw [hvalues.1, hvalues.2]
  exact decodeColumn_replicate_null type _

/-! ## Integers as floating point -/

theorem fit?_eq_some {type : IntegerType} {value found : Int}
    (hfit : type.fit? value = some found) : found = value := by
  unfold IntegerType.fit? at hfit
  split at hfit
  · exact (Option.some.inj hfit).symm
  · exact absurd hfit nofun

theorem ofScalar_int64_eq_ok {number : Json.Number} {cell : Cell}
    (hcell : ofScalar (.integer .int64) (.number number) = .ok cell) :
    ∃ value, integerOfNumber? .int64 number = some value ∧
      cell = .integer value := by
  rw [ofScalar, ofNumeric] at hcell
  cases hvalue : integerOfNumber? .int64 number with
  | none =>
      rw [hvalue] at hcell
      exact absurd hcell nofun
  | some value =>
      rw [hvalue] at hcell
      cases hcell
      exact ⟨value, rfl, rfl⟩

theorem toFloat64_of_whole {value : Value} {cell : Cell}
    (hwhole : Shape.Whole value)
    (hcell : ofScalar (.integer .int64) value = .ok cell) :
    ofScalar .float64 value = .ok cell.toFloat64 := by
  cases hwhole with
  | null =>
      cases hcell
      rfl
  | natural n =>
      obtain ⟨found, hfound, rfl⟩ := ofScalar_int64_eq_ok hcell
      rw [fit?_eq_some hfound]
      rfl
  | negative m =>
      obtain ⟨found, hfound, rfl⟩ := ofScalar_int64_eq_ok hcell
      rw [fit?_eq_some hfound]
      rfl

theorem decodeColumn_float64_of_whole {values : List Value}
    {cells : List Cell} (hwhole : ∀ value ∈ values, Shape.Whole value)
    (hdecode : decodeColumn .int64 values = .ok cells) :
    decodeColumn .float64 values = .ok (cells.map toFloat64) := by
  have hcells := decodeColumn_scalar.mp hdecode
  refine decodeColumn_scalar.mpr (List.forall₂_map_right_iff.mpr ?_)
  clear hdecode
  induction hcells with
  | nil => exact .nil
  | cons hcell _ ih =>
      refine .cons (toFloat64_of_whole (hwhole _ List.mem_cons_self) hcell) ?_
      exact ih fun _ hin => hwhole _ (List.mem_cons_of_mem _ hin)

/-! ## Columns of their own -/

/-- Fields of different names are decoded one by one. -/
theorem decodeFields_iff {seen : List String}
    {fields : List (String × ColumnType)} {rows : List Row}
    {columns : List (List Cell)} (hnames : (fields.map (·.1)).Nodup)
    (hseen : ∀ field ∈ fields, field.1 ∉ seen) :
    decodeFields seen fields rows = .ok columns ↔
      List.Forall₂ (fun field column =>
        decodeColumn field.2 (project field.1 rows) = .ok column)
        fields columns := by
  induction fields generalizing seen columns with
  | nil =>
      rw [decodeFields, Except.ok.injEq, List.forall₂_nil_left_iff, eq_comm]
  | cons field fields ih =>
      rw [List.map_cons, List.nodup_cons] at hnames
      have hvalues : fieldValues seen field.1 rows = project field.1 rows := by
        have hfield := hseen field List.mem_cons_self
        unfold fieldValues
        rw [if_neg (by simpa using hfield)]
      have hrest : ∀ other ∈ fields, other.1 ∉ field.1 :: seen := by
        intro other hin hother
        rcases List.mem_cons.mp hother with heq | hother
        · exact hnames.1 (heq ▸ List.mem_map_of_mem hin)
        · exact hseen other (List.mem_cons_of_mem _ hin) hother
      rw [decodeFields_cons, List.forall₂_cons_left_iff, hvalues]
      constructor
      · rintro ⟨column, others, hcolumn, hothers, rfl⟩
        exact ⟨column, others, hcolumn, (ih hnames.2 hrest).mp hothers, rfl⟩
      · rintro ⟨column, others, hcolumn, hothers, rfl⟩
        exact ⟨column, others, hcolumn, (ih hnames.2 hrest).mpr hothers, rfl⟩

end Cell

end JsonIntake
