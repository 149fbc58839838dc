import JsonIntake.Proofs.Table.Inference
import JsonIntake.Table.Assembly

/-!
# Types of joined shapes

Where the types of two groups of values go together, their joined shape has
the type that both widen to.
-/

namespace JsonIntake

namespace ColumnType

/-- A type widens to itself, nulls to everything, integers to floating
point. -/
inductive Widens : ColumnType → ColumnType → Prop where
  | refl (type : ColumnType) : Widens type type
  | null (type : ColumnType) : Widens .null type
  | int64 : Widens .int64 .float64

theorem Widens.trans {a b c : ColumnType} (hab : Widens a b)
    (hbc : Widens b c) : Widens a c := by
  cases hab with
  | refl => exact hbc
  | null => exact .null c
  | int64 =>
      cases hbc with
      | refl => exact .int64

/-- How two types come to their common type. -/
theorem join?_cases {held found type : ColumnType}
    (hjoin : join? held found = some type) :
    (held = found ∧ type = held) ∨ (found = .null ∧ type = held) ∨
      (held = .null ∧ type = found) ∨
      (held = .int64 ∧ found = .float64 ∧ type = .float64) ∨
      (held = .float64 ∧ found = .int64 ∧ type = .float64) := by
  unfold join? at hjoin
  split at hjoin
  · next hsame =>
      cases hjoin
      rcases hsame with heq | hnull
      · exact .inl ⟨heq, rfl⟩
      · exact .inr (.inl ⟨hnull, rfl⟩)
  · split at hjoin
    · next hnull =>
        cases hjoin
        exact .inr (.inr (.inl ⟨hnull, rfl⟩))
    · split at hjoin
      · next hnumbers =>
          cases hjoin
          rcases hnumbers with ⟨hheld, hfound⟩ | ⟨hheld, hfound⟩
          · exact .inr (.inr (.inr (.inl ⟨hheld, hfound, rfl⟩)))
          · exact .inr (.inr (.inr (.inr ⟨hheld, hfound, rfl⟩)))
      · exact absurd hjoin nofun

theorem widens_of_join? {held found type : ColumnType}
    (hjoin : join? held found = some type) :
    Widens held type ∧ Widens found type := by
  rcases join?_cases hjoin with ⟨rfl, rfl⟩ | ⟨rfl, rfl⟩ | ⟨rfl, rfl⟩ |
    ⟨rfl, rfl, rfl⟩ | ⟨rfl, rfl, rfl⟩
  · exact ⟨.refl _, .refl _⟩
  · exact ⟨.refl _, .null _⟩
  · exact ⟨.null _, .refl _⟩
  · exact ⟨.int64, .refl _⟩
  · exact ⟨.refl _, .int64⟩

end ColumnType

namespace Shape

variable {name : String} {a b c shape : Shape}
  {held members out : List (String × Shape)}

theorem columnType_eq_null (htype : shape.columnType = .null) :
    shape = .unknown := by
  cases shape with
  | unknown => rfl
  | scalar kind =>
      rcases kind with _ | kind
      · exact absurd htype nofun
      · cases kind <;> exact absurd htype nofun
  | array item => exact absurd htype nofun
  | object members => exact absurd htype nofun

theorem columnType_injective (kind found : ScalarKind)
    (htype : kind.columnType = found.columnType) : kind = found := by
  cases kind <;> cases found <;> first | rfl | exact absurd htype nofun

/-- Only text columns may hold something else than their scalars. -/
theorem columnType_eq_scalar (kind : ScalarKind) (hkind : kind ≠ .utf8)
    (htype : shape.columnType = kind.columnType) :
    shape = .scalar (some kind) := by
  cases shape with
  | unknown => cases kind <;> exact absurd htype nofun
  | scalar found =>
      cases found with
      | none => exact absurd (columnType_injective .utf8 kind htype).symm hkind
      | some found => rw [columnType_injective found kind htype]
  | array item => cases kind <;> exact absurd htype nofun
  | object members => cases kind <;> exact absurd htype nofun

/-! ## Members -/

theorem columnTypes_assign (hname : name ∈ names members)
    (htype : shape.columnType = (shapeOf name members).columnType) :
    columnTypes (assign name shape members) = columnTypes members := by
  induction members with
  | nil => exact absurd hname List.not_mem_nil
  | cons member rest ih =>
      obtain ⟨other, held⟩ := member
      rw [assign]
      split
      · next heq =>
          subst heq
          rw [shapeOf_cons_self] at htype
          rw [columnTypes, columnTypes, htype]
      · next hne =>
          rw [names_cons, List.mem_cons] at hname
          rw [shapeOf_cons_of_ne hne] at htype
          rw [columnTypes, columnTypes,
            ih (hname.resolve_left (Ne.symm hne)) htype]

theorem names_columnTypes :
    (members : List (String × Shape)) →
      (columnTypes members).map (·.1) = names members
  | [] => rfl
  | (name, _) :: rest =>
      congrArg (name :: ·) (names_columnTypes rest)

theorem columnType_shapeOf_congr :
    {held members : List (String × Shape)} →
      columnTypes held = columnTypes members →
      (shapeOf name held).columnType = (shapeOf name members).columnType
  | [], [], _ => rfl
  | [], _ :: _, htypes => absurd htypes nofun
  | _ :: _, [], htypes => absurd htypes nofun
  | (first, s) :: held, (second, t) :: members, htypes => by
      rw [columnTypes, columnTypes, List.cons.injEq, Prod.mk.injEq] at htypes
      obtain ⟨⟨rfl, htype⟩, hrest⟩ := htypes
      rw [shapeOf_cons, shapeOf_cons]
      split
      · exact htype
      · exact columnType_shapeOf_congr hrest

theorem shapeOf_of_mem (hnames : (names members).Nodup)
    (hmember : (name, shape) ∈ members) : shapeOf name members = shape := by
  induction members with
  | nil => exact absurd hmember List.not_mem_nil
  | cons member rest ih =>
      rw [names_cons, List.nodup_cons] at hnames
      rcases List.mem_cons.mp hmember with rfl | hrest
      · exact shapeOf_cons_self
      · have hin : name ∈ names rest := List.mem_map_of_mem hrest
        have hne : member.1 ≠ name := fun heq => hnames.1 (heq ▸ hin)
        rw [shapeOf_cons, if_neg hne]
        exact ih hnames.2 hrest

theorem names_eq_of_columnTypes_eq
    (htypes : columnTypes held = columnTypes members) :
    names held = names members := by
  rw [← names_columnTypes, htypes, names_columnTypes]

/-- Shapes of the same type can be joined, and the type stays. -/
def KeepsType (shape : Shape) : Prop :=
  ∀ a : Shape, a.columnType = shape.columnType →
    ∃ c, join? a shape = some c ∧ c.columnType = shape.columnType

theorem columnTypes_joinMembers?
    (hkeeps : ∀ member ∈ members, KeepsType member.2)
    (hnames : ∀ member ∈ members, member.1 ∈ names held)
    (htypes : ∀ member ∈ members,
      (shapeOf member.1 held).columnType = member.2.columnType) :
    ∃ out, joinMembers? held members = some out ∧
      columnTypes out = columnTypes held := by
  induction members generalizing held with
  | nil => exact ⟨held, joinMembers?_nil held, rfl⟩
  | cons member rest ih =>
      have htype := htypes member List.mem_cons_self
      obtain ⟨joined, hjoined, hkept⟩ :=
        hkeeps _ List.mem_cons_self _ htype
      have hnext := columnTypes_assign (hnames _ List.mem_cons_self)
        (hkept.trans htype.symm)
      have hrest : ∃ out,
          joinMembers? (assign member.1 joined held) rest = some out ∧
            columnTypes out = columnTypes (assign member.1 joined held) := by
        apply ih
        · exact fun _ hin => hkeeps _ (List.mem_cons_of_mem _ hin)
        · intro found hin
          rw [names_eq_of_columnTypes_eq hnext]
          exact hnames _ (List.mem_cons_of_mem _ hin)
        · intro found hin
          rw [columnType_shapeOf_congr hnext]
          exact htypes _ (List.mem_cons_of_mem _ hin)
      obtain ⟨out, hout, hsame⟩ := hrest
      refine ⟨out, ?_, hsame.trans hnext⟩
      rw [joinMembers?_cons, put?, hjoined]
      exact hout

/-! ## Joined types -/

theorem columnType_scalar_ne_list (kind : Option ScalarKind)
    (item : ColumnType) : columnType (.scalar kind) ≠ .list item := by
  rcases kind with _ | kind
  · exact nofun
  · cases kind <;> exact nofun

theorem columnType_scalar_ne_record (kind : Option ScalarKind)
    (fields : List (String × ColumnType)) :
    columnType (.scalar kind) ≠ .record fields := by
  rcases kind with _ | kind
  · exact nofun
  · cases kind <;> exact nofun

theorem keepsType_scalar (kind : Option ScalarKind) :
    KeepsType (.scalar kind) := by
  intro a htype
  cases a with
  | unknown => exact ⟨_, unknown_join? _, rfl⟩
  | scalar held =>
      refine ⟨_, (join?_scalar _ _).trans (scalar_joinScalar? _ _), ?_⟩
      cases held with
      | none => rfl
      | some held =>
          cases kind with
          | none => exact htype
          | some kind =>
              rw [columnType_injective _ _ htype]
              cases kind <;> rfl
  | array item =>
      exact absurd htype.symm (columnType_scalar_ne_list kind _)
  | object members =>
      exact absurd htype.symm (columnType_scalar_ne_record kind _)

theorem Distinct.keepsType (hdistinct : Distinct shape) :
    KeepsType shape := by
  induction hdistinct with
  | unknown =>
      intro a htype
      exact ⟨a, join?_unknown a, htype⟩
  | scalar kind => exact keepsType_scalar kind
  | @array item _ ih =>
      intro a htype
      cases a with
      | unknown => exact absurd htype nofun
      | scalar kind => exact absurd htype (columnType_scalar_ne_list _ _)
      | array held =>
          rw [columnType, columnType, ColumnType.list.injEq] at htype
          obtain ⟨joined, hjoined, hkept⟩ := ih held htype
          refine ⟨.array joined, ?_, congrArg ColumnType.list hkept⟩
          rw [array_join?_array, hjoined]
          rfl
      | object held => exact absurd htype nofun
  | @object members hnames _ ih =>
      intro a htype
      cases a with
      | unknown => exact absurd htype nofun
      | scalar kind => exact absurd htype (columnType_scalar_ne_record _ _)
      | array held => exact absurd htype nofun
      | object held =>
          rw [columnType, columnType, ColumnType.record.injEq] at htype
          have hin : ∀ member ∈ members, member.1 ∈ names held := by
            intro member hmember
            rw [names_eq_of_columnTypes_eq htype]
            exact List.mem_map_of_mem hmember
          have hsame : ∀ member ∈ members,
              (shapeOf member.1 held).columnType = member.2.columnType := by
            intro member hmember
            rw [columnType_shapeOf_congr htype, shapeOf_of_mem hnames hmember]
          obtain ⟨out, hout, hkept⟩ := columnTypes_joinMembers? ih hin hsame
          refine ⟨.object out, ?_, ?_⟩
          · rw [object_join?_object, hout]
            rfl
          · rw [columnType, columnType, hkept, htype]

/-- The type of a joined shape is the one both types widen to. -/
theorem join?_of_columnType {type : ColumnType} (hb : Distinct b)
    (htype : a.columnType.join? b.columnType = some type) :
    ∃ c, join? a b = some c ∧ c.columnType = type := by
  rcases ColumnType.join?_cases htype with ⟨hsame, rfl⟩ | ⟨hnull, rfl⟩ |
    ⟨hnull, rfl⟩ | ⟨hleft, hright, rfl⟩ | ⟨hleft, hright, rfl⟩
  · rw [hsame]
    exact hb.keepsType a hsame
  · rw [columnType_eq_null hnull]
    exact ⟨a, join?_unknown a, rfl⟩
  · rw [columnType_eq_null hnull]
    exact ⟨b, unknown_join? b, rfl⟩
  · rw [columnType_eq_scalar .int64 nofun hleft,
      columnType_eq_scalar .float64 nofun hright]
    exact ⟨_, rfl, rfl⟩
  · rw [columnType_eq_scalar .float64 nofun hleft,
      columnType_eq_scalar .int64 nofun hright]
    exact ⟨_, rfl, rfl⟩

/-- Members join where the shapes of every name do. -/
theorem joinMembers?_of_shapes (hmembers : (names members).Nodup)
    (hshapes : ∀ name ∈ names members, ∃ c,
      join? (shapeOf name held) (shapeOf name members) = some c) :
    ∃ out, joinMembers? held members = some out := by
  induction members generalizing held with
  | nil => exact ⟨held, joinMembers?_nil held⟩
  | cons member rest ih =>
      obtain ⟨other, shape⟩ := member
      rw [names_cons, List.nodup_cons] at hmembers
      obtain ⟨joined, hjoined⟩ := hshapes other List.mem_cons_self
      rw [shapeOf_cons_self] at hjoined
      have hrest : ∀ name ∈ names rest, ∃ c,
          join? (shapeOf name (assign other joined held))
            (shapeOf name rest) = some c := by
        intro name hin
        have hne : other ≠ name := fun heq => hmembers.1 (heq ▸ hin)
        have hshape := hshapes name (List.mem_cons_of_mem _ hin)
        rwa [shapeOf_cons_of_ne hne, ← shapeOf_assign_of_ne hne] at hshape
      obtain ⟨out, hout⟩ := ih hmembers.2 hrest
      refine ⟨out, ?_⟩
      rw [joinMembers?_cons, put?, hjoined]
      exact hout

/-- Every name is joined on its own. -/
theorem join?_shapeOf (hmembers : (names members).Nodup)
    (hjoin : joinMembers? held members = some out) :
    join? (shapeOf name held) (shapeOf name members) =
      some (shapeOf name out) := by
  induction members generalizing held with
  | nil =>
      rw [joinMembers?_nil, Option.some.injEq] at hjoin
      rw [shapeOf_nil, join?_unknown, hjoin]
  | cons member rest ih =>
      obtain ⟨other, shape⟩ := member
      rw [names_cons, List.nodup_cons] at hmembers
      rw [joinMembers?_cons] at hjoin
      obtain ⟨next, hput, hrest⟩ := Option.bind_eq_some_iff.mp hjoin
      obtain ⟨joined, hjoined, rfl⟩ := put?_eq_some hput
      have hjoin := ih hmembers.2 hrest
      by_cases hname : other = name
      · subst hname
        rw [shapeOf_assign_self, shapeOf_of_not_mem hmembers.1,
          join?_unknown] at hjoin
        rw [shapeOf_cons_self, hjoined, hjoin]
      · rw [shapeOf_assign_of_ne hname] at hjoin
        rw [shapeOf_cons_of_ne hname, hjoin]

theorem names_joinMembers? (hnames : ∀ name ∈ names members, name ∈ names held)
    (hjoin : joinMembers? held members = some out) :
    names out = names held := by
  induction members generalizing held with
  | nil =>
      rw [joinMembers?_nil, Option.some.injEq] at hjoin
      rw [hjoin]
  | cons member rest ih =>
      rw [joinMembers?_cons] at hjoin
      obtain ⟨next, hput, hrest⟩ := Option.bind_eq_some_iff.mp hjoin
      obtain ⟨joined, _, rfl⟩ := put?_eq_some hput
      have hnext : names (assign member.1 joined held) = names held :=
        names_assign_of_mem (hnames _ List.mem_cons_self)
      rw [← hnext]
      apply ih _ hrest
      intro name hin
      rw [hnext]
      exact hnames _ (List.mem_cons_of_mem _ hin)

mutual

/-- Inferred types have decoders. -/
theorem undecodable?_columnType :
    (shape : Shape) → shape.columnType.undecodable? = none
  | .unknown => rfl
  | .scalar none => rfl
  | .scalar (some kind) => by cases kind <;> rfl
  | .array item => undecodable?_columnType item
  | .object members => undecodableField?_columnTypes members

theorem undecodableField?_columnTypes :
    (members : List (String × Shape)) →
      ColumnType.undecodableField? (columnTypes members) = none
  | [] => rfl
  | (_, shape) :: rest => by
      rw [columnTypes, ColumnType.undecodableField?,
        undecodable?_columnType shape, undecodableField?_columnTypes rest]
      rfl

end

end Shape

end JsonIntake
