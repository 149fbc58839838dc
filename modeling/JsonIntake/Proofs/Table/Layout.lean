import JsonIntake.Proofs.Table.Bare

/-!
# The order of columns

The columns of a table come in the order in which their names appear: first the
names of the records, then the names of the hints that no record has.  Tables
that are joined take the order of the first one with columns.  Without hints
this is the order in which the names appear in all records.  With hints it
depends on where the first table ends, because a hinted name stands behind the
names of that table only.
-/

namespace JsonIntake

open Json (Value)

/-! ## Names in order of appearance -/

/-- The names that are not among those seen, each at its first appearance. -/
def freshNames (seen : List String) : List String → List String
  | [] => []
  | name :: rest =>
    if name ∈ seen then freshNames seen rest
    else name :: freshNames (seen ++ [name]) rest

section FreshNames

variable {seen others names more : List String} {name : String}

theorem freshNames_append (seen names more : List String) :
    freshNames seen (names ++ more) =
      freshNames seen names ++
        freshNames (seen ++ freshNames seen names) more := by
  induction names generalizing seen with
  | nil => simp [freshNames]
  | cons name rest ih =>
      rw [List.cons_append, freshNames, freshNames]
      split
      · exact ih seen
      · rw [ih, List.cons_append, List.append_assoc, List.singleton_append]

theorem mem_freshNames :
    name ∈ freshNames seen names ↔ name ∈ names ∧ name ∉ seen := by
  induction names generalizing seen with
  | nil => simp [freshNames]
  | cons first rest ih =>
      rw [freshNames]
      by_cases hfirst : first ∈ seen
      · rw [if_pos hfirst, ih, List.mem_cons]
        constructor
        · rintro ⟨hrest, hfresh⟩
          exact ⟨.inr hrest, hfresh⟩
        · rintro ⟨rfl | hrest, hfresh⟩
          · exact absurd hfirst hfresh
          · exact ⟨hrest, hfresh⟩
      · rw [if_neg hfirst, List.mem_cons, ih]
        by_cases hsame : name = first
        · simp [hsame, hfirst]
        · simp [hsame]

theorem freshNames_eq_nil_iff :
    freshNames seen names = [] ↔ ∀ name ∈ names, name ∈ seen := by
  simp only [List.eq_nil_iff_forall_not_mem, mem_freshNames, not_and, not_not]

theorem nodup_freshNames (seen names : List String) :
    (freshNames seen names).Nodup := by
  induction names generalizing seen with
  | nil => exact .nil
  | cons name rest ih =>
      rw [freshNames]
      split
      · exact ih seen
      · refine List.nodup_cons.mpr ⟨?_, ih _⟩
        rw [mem_freshNames]
        simp

/-- It does not matter in which order names were seen. -/
theorem freshNames_congr (names : List String)
    (hseen : ∀ name, name ∈ seen ↔ name ∈ others) :
    freshNames seen names = freshNames others names := by
  induction names generalizing seen others with
  | nil => rfl
  | cons name rest ih =>
      have hstep : ∀ found, found ∈ seen ++ [name] ↔ found ∈ others ++ [name] :=
        fun found => by rw [List.mem_append, List.mem_append, hseen]
      rw [freshNames, freshNames, ih hseen, ih hstep]
      simp only [hseen]

/-- Names that were seen as well are left out. -/
theorem freshNames_append_seen (seen others names : List String) :
    freshNames (seen ++ others) names =
      (freshNames seen names).filter fun name => name ∉ others := by
  induction names generalizing seen with
  | nil => rfl
  | cons name rest ih =>
      rw [freshNames, freshNames]
      by_cases hseen : name ∈ seen
      · rw [if_pos (List.mem_append_left _ hseen), if_pos hseen, ih]
      · rw [if_neg hseen]
        by_cases hother : name ∈ others
        · have hsame : ∀ found, found ∈ seen ++ others ↔
              found ∈ seen ++ [name] ++ others := by
            intro found
            by_cases hfound : found = name
            · simp [hfound, hother]
            · simp [hfound]
          rw [if_pos (List.mem_append_right _ hother),
            List.filter_cons_of_neg (by simp [hother]), ← ih,
            freshNames_congr rest hsame]
        · have hsame : ∀ found, found ∈ seen ++ others ++ [name] ↔
              found ∈ seen ++ [name] ++ others := by
            intro found
            simp only [List.mem_append]
            exact or_right_comm
          rw [if_neg (by simp [hseen, hother]),
            List.filter_cons_of_pos (by simp [hother]), ← ih,
            freshNames_congr rest hsame]

/-- More names before others change nothing exactly if they are the first ones
of the others. -/
theorem freshNames_append_left_eq_iff :
    freshNames seen (more ++ names) = freshNames seen names ↔
      freshNames seen more <+: freshNames seen names := by
  rw [freshNames_append, freshNames_append_seen]
  constructor
  · intro hsame
    exact hsame ▸ List.prefix_append _ _
  · rintro ⟨rest, hrest⟩
    have hnodup := nodup_freshNames seen names
    rw [← hrest] at hnodup ⊢
    have hapart := (List.nodup_append.mp hnodup).2.2
    have hfront : (freshNames seen more).filter
        (fun name => name ∉ freshNames seen more) = [] := by
      rw [List.filter_eq_nil_iff]
      intro name hname
      simp [hname]
    have hback : rest.filter (fun name => name ∉ freshNames seen more) =
        rest := by
      rw [List.filter_eq_self]
      intro name hname
      exact decide_eq_true fun hmore => hapart name hmore name hname rfl
    rw [List.filter_append, hfront, hback, List.nil_append]

end FreshNames

/-! ## The columns of one table -/

/-- The names in some rows, as they come. -/
def keysOf (rows : List (List (String × Value))) : List String :=
  rows.flatMap fun row => row.map (·.1)

/-- The names of the columns of a table, in order. -/
def columnLayout (hints : List Hint) (keys : List String) : List String :=
  freshNames [] (keys ++ hints.map (·.1))

namespace Shape

variable {held out : List (String × Shape)}

theorem names_put? {name : String} {shape : Shape}
    (hput : put? name shape held = some out) :
    names out = names held ++ freshNames (names held) [name] := by
  unfold put? at hput
  obtain ⟨joined, -, rfl⟩ := Option.map_eq_some_iff.mp hput
  by_cases hname : name ∈ names held
  · rw [names_assign_of_mem hname]
    simp [freshNames, hname]
  · rw [names_assign_of_not_mem hname]
    simp [freshNames, hname]

theorem names_addMembers? {members : List (String × Value)}
    (hadd : addMembers? held members = some out) :
    names out =
      names held ++ freshNames (names held) (members.map (·.1)) := by
  induction members generalizing held with
  | nil =>
      rw [addMembers?_nil, Option.some.injEq] at hadd
      simp [hadd, freshNames]
  | cons member rest ih =>
      obtain ⟨name, value⟩ := member
      rw [addMembers?_cons_eq] at hadd
      obtain ⟨shape, -, hnext⟩ := Option.bind_eq_some_iff.mp hadd
      obtain ⟨next, hput, hrest⟩ := Option.bind_eq_some_iff.mp hnext
      rw [ih hrest, names_put? hput, List.map_cons,
        ← List.singleton_append (l := rest.map (·.1)), freshNames_append,
        List.append_assoc]

theorem names_addRows? {rows : List (List (String × Value))}
    (hadd : addRows? held rows = some out) :
    names out = names held ++ freshNames (names held) (keysOf rows) := by
  induction rows generalizing held with
  | nil =>
      rw [addRows?_nil, Option.some.injEq] at hadd
      simp [hadd, freshNames, keysOf]
  | cons members rows ih =>
      rw [addRows?_cons] at hadd
      obtain ⟨next, hnext, hrest⟩ := Option.bind_eq_some_iff.mp hadd
      have hkeys : keysOf (members :: rows) =
          members.map (·.1) ++ keysOf rows := rfl
      rw [ih hrest, names_addMembers? hnext, hkeys, freshNames_append,
        List.append_assoc]

end Shape

section Layout

variable {hints : List Hint} {rows : List (List (String × Value))}
  {table : Table} {tables : List Table} {name : String}
  {groups : List (List (List (String × Value)))}

theorem names_hintedFields (known : List String) (hints : List Hint) :
    (hintedFields known hints).map (·.name) =
      freshNames known (hints.map (·.1)) := by
  induction hints generalizing known with
  | nil => rfl
  | cons hint rest ih =>
      rw [hintedFields, List.map_cons, freshNames]
      split
      · exact ih known
      · rw [List.map_cons, ih]

theorem columnNames_of_tabulate (htable : tabulate hints rows = .ok table) :
    table.columnNames = columnLayout hints (keysOf rows) := by
  obtain ⟨inferred, hinferred, hdecode⟩ := tabulate_eq_ok.mp htable
  obtain ⟨-, -, hcolumns⟩ := (Table.decode_iff
    (nodup_applyHints (nodup_inferColumns hinferred))).mp hdecode
  obtain ⟨members, hmembers, h⟩ := Except.bind_eq_ok.mp hinferred
  cases h
  have hnames := Shape.names_addRows? (Except.toOption_eq_some.mpr hmembers)
  rw [Shape.names_nil, List.nil_append] at hnames
  rw [← names_schema, Table.schema, schema_of_isColumn hcolumns,
    applyHints_eq, List.map_append, names_retype, Shape.names_columnTypes,
    names_hintedFields, hnames, columnLayout, freshNames_append,
    List.nil_append]

/-- Further rows leave the columns as they are exactly if the names that they
add are the first ones of those that the hints add. -/
theorem columnLayout_append_eq_iff (hints : List Hint)
    (keys extra : List String) :
    columnLayout hints (keys ++ extra) = columnLayout hints keys ↔
      freshNames keys extra <+: freshNames keys (hints.map (·.1)) := by
  have hseen : ∀ name, name ∈ [] ++ freshNames [] keys ↔ name ∈ keys :=
    fun name => by simp [mem_freshNames]
  rw [columnLayout, columnLayout, List.append_assoc, freshNames_append,
    freshNames_append [] keys, List.append_cancel_left_eq,
    freshNames_congr _ hseen, freshNames_congr _ hseen,
    freshNames_append_left_eq_iff]

/-! ## The columns of joined tables -/

/-- Tables of groups of rows under the same hints. -/
abbrev Tabulates (hints : List Hint) :
    List (List (List (String × Value))) → List Table → Prop :=
  List.Forall₂ fun rows table => tabulate hints rows = .ok table

theorem keysOf_flatten_cons (rows : List (List (String × Value)))
    (groups : List (List (List (String × Value)))) :
    keysOf (rows :: groups).flatten = keysOf rows ++ keysOf groups.flatten := by
  rw [List.flatten_cons, keysOf, List.flatMap_append]
  rfl

theorem mem_leadingNames_of_tabulates
    (htables : Tabulates hints groups tables) (hcompatible : Compatible tables)
    (hsome : tables ≠ []) :
    name ∈ leadingNames tables ↔
      name ∈ keysOf groups.flatten ∨ name ∈ hints.map (·.1) := by
  rw [Assembler.mem_leadingNames_iff hcompatible]
  have hmem : ∀ {rows table}, tabulate hints rows = .ok table →
      (name ∈ table.columnNames ↔
        name ∈ keysOf rows ∨ name ∈ hints.map (·.1)) := by
    intro rows table htable
    rw [columnNames_of_tabulate htable, columnLayout, mem_freshNames,
      List.mem_append]
    simp
  clear hcompatible
  induction htables with
  | nil => exact absurd rfl hsome
  | @cons rows table groups tables htable hrest ih =>
      rw [List.exists_mem_cons_iff, hmem htable, keysOf_flatten_cons,
        List.mem_append]
      by_cases hlast : tables = []
      · subst hlast
        obtain rfl := List.forall₂_nil_right_iff.mp hrest
        simp [keysOf]
      · refine (or_congr_right (ih hlast)).trans ?_
        tauto

/-- Without hints the columns of joined tables have the order of all rows. -/
theorem leadingNames_of_tabulates_nil
    (htables : Tabulates [] groups tables) (hcompatible : Compatible tables) :
    leadingNames tables = columnLayout [] (keysOf groups.flatten) := by
  rw [columnLayout, List.map_nil, List.append_nil]
  induction htables with
  | nil => rfl
  | @cons rows table groups tables htable hrest ih =>
      have hnames := columnNames_of_tabulate htable
      rw [columnLayout, List.map_nil, List.append_nil] at hnames
      have hlater : Compatible tables :=
        hcompatible.of_filled fun _ hmem _ => List.mem_cons_of_mem _ hmem
      rw [keysOf_flatten_cons, freshNames_append, ← hnames, List.nil_append,
        leadingNames, leading_cons]
      by_cases hcolumns : table.columns = []
      · have hnone : table.columnNames = [] := by
          rw [Table.columnNames, hcolumns]
          rfl
        rw [if_pos hcolumns, hnone, List.nil_append]
        exact ih hlater
      · rw [if_neg hcolumns, names_schema]
        refine (List.append_right_eq_self.mpr ?_).symm
        rw [freshNames_eq_nil_iff]
        intro name hname
        have hsome : table :: tables ≠ [] := List.cons_ne_nil _ _
        rw [hcompatible.mem_columnNames List.mem_cons_self hcolumns,
          mem_leadingNames_of_tabulates (.cons htable hrest) hcompatible
            hsome, keysOf_flatten_cons]
        exact .inl (List.mem_append_right _ hname)

/-- With hints the first table decides. -/
theorem leadingNames_of_tabulates_cons (hhints : hints ≠ [])
    (htables : Tabulates hints (rows :: groups) tables) :
    leadingNames tables = columnLayout hints (keysOf rows) := by
  cases htables with
  | cons htable hrest =>
      have hcolumns :=
        (Table.hinted_of_tabulate htable).1.columns_ne_nil hhints
      rw [leadingNames, leading_cons, if_neg hcolumns, names_schema,
        columnNames_of_tabulate htable]

end Layout

end JsonIntake
