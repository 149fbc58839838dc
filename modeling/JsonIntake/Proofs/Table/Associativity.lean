import JsonIntake.Proofs.Table.Joining

/-!
# Three groups of values

Joining shapes is associative where the names of an object occur once.  For
objects this goes name by name: what is known about one name does not depend
on the others, and a name that has its place keeps it.
-/

namespace JsonIntake.Shape

/-- The names of every object in the shape occur once. -/
inductive Distinct : Shape → Prop where
  | unknown : Distinct .unknown
  | scalar (kind : Option ScalarKind) : Distinct (.scalar kind)
  | array {item : Shape} (hitem : Distinct item) : Distinct (.array item)
  | object {members : List (String × Shape)}
      (hnames : (names members).Nodup)
      (hmembers : ∀ member ∈ members, Distinct member.2) :
      Distinct (.object members)

theorem Distinct.item {item : Shape} (hdistinct : Distinct (.array item)) :
    Distinct item := by
  cases hdistinct with
  | array hitem => exact hitem

/-- Members with names that occur once, outside and inside. -/
structure DistinctMembers (members : List (String × Shape)) : Prop where
  names : (names members).Nodup
  shapes : ∀ member ∈ members, Distinct member.2

theorem Distinct.members {members : List (String × Shape)}
    (hdistinct : Distinct (.object members)) : DistinctMembers members := by
  cases hdistinct with
  | object hnames hmembers => exact ⟨hnames, hmembers⟩

theorem DistinctMembers.object {members : List (String × Shape)}
    (hdistinct : DistinctMembers members) : Distinct (.object members) :=
  .object hdistinct.names hdistinct.shapes

theorem DistinctMembers.nil : DistinctMembers [] :=
  ⟨List.nodup_nil, fun _ hmember => absurd hmember List.not_mem_nil⟩

section Records

variable {name other : String} {shape t : Shape}
  {held members rest : List (String × Shape)}

theorem DistinctMembers.tail {member : String × Shape}
    (hdistinct : DistinctMembers (member :: rest)) : DistinctMembers rest :=
  ⟨(List.nodup_cons.mp hdistinct.names).2,
    fun _ hmember => hdistinct.shapes _ (List.mem_cons_of_mem _ hmember)⟩

theorem DistinctMembers.not_mem {member : String × Shape}
    (hdistinct : DistinctMembers (member :: rest)) :
    member.1 ∉ Shape.names rest :=
  (List.nodup_cons.mp hdistinct.names).1

theorem DistinctMembers.head {member : String × Shape}
    (hdistinct : DistinctMembers (member :: rest)) : Distinct member.2 :=
  hdistinct.shapes _ List.mem_cons_self

theorem DistinctMembers.shapeOf (hdistinct : DistinctMembers members) :
    Distinct (shapeOf name members) := by
  induction members with
  | nil => exact .unknown
  | cons member rest ih =>
      rw [shapeOf_cons]
      split
      · exact hdistinct.head
      · exact ih hdistinct.tail

theorem mem_assign {member : String × Shape}
    (hmember : member ∈ assign name shape members) :
    member = (name, shape) ∨ member ∈ members := by
  induction members with
  | nil => exact .inl (List.mem_singleton.mp hmember)
  | cons first rest ih =>
      rw [assign] at hmember
      split at hmember
      · rcases List.mem_cons.mp hmember with heq | hrest
        · exact .inl heq
        · exact .inr (List.mem_cons_of_mem _ hrest)
      · rcases List.mem_cons.mp hmember with heq | hrest
        · exact .inr (heq ▸ List.mem_cons_self)
        · rcases ih hrest with heq | hin
          · exact .inl heq
          · exact .inr (List.mem_cons_of_mem _ hin)

theorem DistinctMembers.assign (hdistinct : DistinctMembers members)
    (hshape : Distinct shape) :
    DistinctMembers (assign name shape members) := by
  constructor
  · exact nodup_names_assign hdistinct.names
  · intro member hmember
    rcases mem_assign hmember with rfl | hin
    · exact hshape
    · exact hdistinct.shapes _ hin

theorem put?_eq_some (hput : put? name shape held = some members) :
    ∃ joined, join? (Shape.shapeOf name held) shape = some joined ∧
      members = Shape.assign name joined held := by
  obtain ⟨joined, hjoined, heq⟩ := Option.map_eq_some_iff.mp hput
  exact ⟨joined, hjoined, heq.symm⟩

end Records

/-! ## Joining keeps names apart -/

theorem Distinct.joinScalar? {k : Option ScalarKind} {c : Shape} :
    {shape : Shape} → Distinct shape → joinScalar? shape k = some c →
      Distinct c
  | .unknown, _, hjoin => by
      rw [unknown_joinScalar?, Option.some.injEq] at hjoin
      exact hjoin ▸ .scalar k
  | .scalar l, _, hjoin => by
      rw [scalar_joinScalar?, Option.some.injEq] at hjoin
      exact hjoin ▸ .scalar _
  | .array item, hdistinct, hjoin => by
      rw [array_joinScalar?] at hjoin
      obtain ⟨joined, hjoined, heq⟩ := Option.map_eq_some_iff.mp hjoin
      exact heq ▸ .array (hdistinct.item.joinScalar? hjoined)
  | .object members, _, hjoin => by
      rw [object_joinScalar?] at hjoin
      exact absurd hjoin nofun

/-- Joining with the shape keeps names apart. -/
def KeepsDistinct (shape : Shape) : Prop :=
  ∀ a c, Distinct a → join? a shape = some c → Distinct c

theorem DistinctMembers.put? {name : String} {shape : Shape}
    {held members : List (String × Shape)} (hkeeps : KeepsDistinct shape)
    (hheld : DistinctMembers held)
    (hput : put? name shape held = some members) :
    DistinctMembers members := by
  obtain ⟨joined, hjoined, rfl⟩ := put?_eq_some hput
  exact hheld.assign (hkeeps _ _ hheld.shapeOf hjoined)

theorem DistinctMembers.joinMembers? {held members out : List (String × Shape)}
    (hkeeps : ∀ member ∈ members, KeepsDistinct member.2)
    (hheld : DistinctMembers held)
    (hjoin : joinMembers? held members = some out) :
    DistinctMembers out := by
  induction members generalizing held with
  | nil =>
      rw [joinMembers?_nil, Option.some.injEq] at hjoin
      exact hjoin ▸ hheld
  | cons member rest ih =>
      rw [joinMembers?_cons] at hjoin
      obtain ⟨next, hput, hrest⟩ := Option.bind_eq_some_iff.mp hjoin
      exact ih (fun _ hin => hkeeps _ (List.mem_cons_of_mem _ hin))
        (hheld.put? (hkeeps _ List.mem_cons_self) hput) hrest

theorem Distinct.keepsDistinct {shape : Shape} (hshape : Distinct shape) :
    KeepsDistinct shape := by
  induction hshape with
  | unknown =>
      intro a c ha hjoin
      rw [join?_unknown, Option.some.injEq] at hjoin
      exact hjoin ▸ ha
  | scalar kind =>
      intro a c ha hjoin
      rw [join?_scalar] at hjoin
      exact ha.joinScalar? hjoin
  | @array item hitem ih =>
      intro a c ha hjoin
      cases a with
      | unknown =>
          rw [unknown_join?, Option.some.injEq] at hjoin
          exact hjoin ▸ .array hitem
      | scalar kind =>
          rw [scalar_join?_array] at hjoin
          obtain ⟨joined, hjoined, rfl⟩ := Option.map_eq_some_iff.mp hjoin
          exact .array (hitem.joinScalar? hjoined)
      | array held =>
          rw [array_join?_array] at hjoin
          obtain ⟨joined, hjoined, rfl⟩ := Option.map_eq_some_iff.mp hjoin
          exact .array (ih _ _ ha.item hjoined)
      | object held =>
          rw [object_join?_array] at hjoin
          exact absurd hjoin nofun
  | object hnames hmembers ih =>
      intro a c ha hjoin
      cases a with
      | unknown =>
          rw [unknown_join?, Option.some.injEq] at hjoin
          exact hjoin ▸ .object hnames hmembers
      | scalar kind =>
          rw [scalar_join?_object] at hjoin
          exact absurd hjoin nofun
      | array held =>
          rw [array_join?_object] at hjoin
          exact absurd hjoin nofun
      | object held =>
          rw [object_join?_object] at hjoin
          obtain ⟨joined, hjoined, rfl⟩ := Option.map_eq_some_iff.mp hjoin
          exact (ha.members.joinMembers? ih hjoined).object

/-! ## One name at a time -/

section Names

variable {name other : String} {s t : Shape}
  {held members : List (String × Shape)}

/-- Whatever two of three shapes are joined first. -/
def Associates (c : Shape) : Prop :=
  ∀ a b, Distinct b →
    (join? a b).bind (join? · c) = (join? b c).bind (join? a ·)

theorem put?_put? (hassoc : Associates s) (ht : Distinct t) :
    (put? name t held).bind (put? name s) =
      (join? t s).bind fun joined => put? name joined held := by
  unfold put?
  simp only [Option.bind_map, Function.comp_def, shapeOf_assign_self,
    assign_assign]
  exact Option.bind_map_congr (hassoc _ _ ht) _

theorem put?_comm (hne : name ≠ other) (hname : name ∈ names held) :
    (put? other t held).bind (put? name s) =
      (put? name s held).bind (put? other t) := by
  unfold put?
  simp only [Option.bind_map, Function.comp_def,
    shapeOf_assign_of_ne hne, shapeOf_assign_of_ne (Ne.symm hne)]
  simp only [Option.map_eq_bind]
  rw [Option.bind_comm]
  simp only [Function.comp_def, assign_comm hne hname]

theorem mem_names_put? (hput : put? other t held = some members) :
    name ∈ names members ↔ name = other ∨ name ∈ names held := by
  obtain ⟨joined, _, rfl⟩ := put?_eq_some hput
  exact mem_names_assign

theorem joinMembers?_put?_of_not_mem (hmembers : name ∉ names members)
    (hname : name ∈ names held) :
    (joinMembers? held members).bind (put? name s) =
      (put? name s held).bind (joinMembers? · members) := by
  induction members generalizing held with
  | nil => simp
  | cons member rest ih =>
      obtain ⟨other, t⟩ := member
      rw [names_cons, List.mem_cons, not_or] at hmembers
      have hrest : ∀ next, put? other t held = some next →
          (joinMembers? next rest).bind (put? name s) =
            (put? name s next).bind (joinMembers? · rest) := by
        intro next hput
        exact ih hmembers.2 ((mem_names_put? hput).mpr (.inr hname))
      simp only [joinMembers?_cons]
      rw [Option.bind_assoc, Option.bind_congr hrest, ← Option.bind_assoc,
        put?_comm hmembers.1 hname, Option.bind_assoc]

theorem put?_cons_self :
    put? name s ((name, t) :: members) =
      (join? t s).map fun joined => (name, joined) :: members := by
  simp [put?, assign]

theorem put?_cons_of_ne (hne : other ≠ name) :
    put? name s ((other, t) :: members) =
      (put? name s members).map fun next => (other, t) :: next := by
  simp [put?, assign, hne, shapeOf_cons_of_ne, Function.comp_def]

/-- Joining one more name last is the same as joining it to the second. -/
theorem joinMembers?_put? (hassoc : Associates s)
    (hmembers : DistinctMembers members) :
    (joinMembers? held members).bind (put? name s) =
      (put? name s members).bind (joinMembers? held ·) := by
  induction members generalizing held with
  | nil => simp [put?, assign, joinMembers?_cons]
  | cons member rest ih =>
      obtain ⟨other, t⟩ := member
      rw [joinMembers?_cons, Option.bind_assoc]
      by_cases heq : other = name
      · subst heq
        have hrest : ∀ next, put? other t held = some next →
            (joinMembers? next rest).bind (put? other s) =
              (put? other s next).bind (joinMembers? · rest) := by
          intro next hput
          exact joinMembers?_put?_of_not_mem hmembers.not_mem
            ((mem_names_put? hput).mpr (.inl rfl))
        rw [Option.bind_congr hrest, ← Option.bind_assoc,
          put?_put? hassoc hmembers.head, put?_cons_self, Option.bind_assoc,
          Option.bind_map]
        simp only [Function.comp_def, joinMembers?_cons]
      · have hrest : ∀ next, put? other t held = some next →
            (joinMembers? next rest).bind (put? name s) =
              (put? name s rest).bind (joinMembers? next ·) :=
          fun _ _ => ih hmembers.tail
        rw [Option.bind_congr hrest, Option.bind_comm, put?_cons_of_ne heq,
          Option.bind_map]
        simp only [Function.comp_def, joinMembers?_cons]

theorem joinMembers?_assoc (held : List (String × Shape))
    {last : List (String × Shape)}
    (hassoc : ∀ member ∈ last, Associates member.2)
    (hkeeps : ∀ member ∈ last, KeepsDistinct member.2)
    (hmembers : DistinctMembers members) :
    (joinMembers? held members).bind (joinMembers? · last) =
      (joinMembers? members last).bind (joinMembers? held ·) := by
  induction last generalizing members with
  | nil => simp
  | cons member rest ih =>
      have hrest : ∀ next, put? member.1 member.2 members = some next →
          (joinMembers? held next).bind (joinMembers? · rest) =
            (joinMembers? next rest).bind (joinMembers? held ·) := by
        intro next hput
        exact ih (fun _ hin => hassoc _ (List.mem_cons_of_mem _ hin))
          (fun _ hin => hkeeps _ (List.mem_cons_of_mem _ hin))
          (hmembers.put? (hkeeps _ List.mem_cons_self) hput)
      have hcons : ∀ x, joinMembers? x (member :: rest) =
          (put? member.1 member.2 x).bind (joinMembers? · rest) :=
        fun x => joinMembers?_cons x member.1 member.2 rest
      simp only [hcons]
      rw [← Option.bind_assoc,
        joinMembers?_put? (hassoc _ List.mem_cons_self) hmembers,
        Option.bind_assoc, Option.bind_congr hrest, Option.bind_assoc]

end Names

theorem Associates.joinScalar? {z : Shape} (hz : Associates z)
    (l : Option ScalarKind) (x : Shape) :
    (Shape.joinScalar? x l).bind (join? · z) =
      (Shape.joinScalar? z l).bind (join? x ·) := by
  have hx := hz x (.scalar l) (.scalar l)
  rwa [join?_scalar, scalar_join?] at hx

theorem Associates.array {z : Shape} (hz : Associates z) :
    Associates (.array z) := by
  intro a b hb
  cases b with
  | unknown => simp
  | scalar l =>
      cases a with
      | unknown => simp
      | scalar i =>
          have hcompose := joinScalar?_joinScalar? l i z
          simp only [join?_scalar, scalar_joinScalar?, Option.bind_some,
            scalar_join?_array, Option.bind_map, Function.comp_def]
          rw [joinKinds_comm, ← hcompose, Option.map_bind]
          rfl
      | array x =>
          simp only [join?_scalar, array_joinScalar?, scalar_join?_array,
            array_join?_array, Option.bind_map, Function.comp_def]
          exact Option.bind_map_congr (hz.joinScalar? l x) _
      | object held => simp [Option.bind_map, Function.comp_def]
  | array y =>
      cases a with
      | unknown => simp
      | scalar i =>
          have hscalar := hz.joinScalar? i y
          rw [← join?_joinScalar?] at hscalar
          simp only [scalar_join?_array, array_join?_array, Option.bind_map,
            Function.comp_def]
          exact Option.bind_map_congr hscalar _
      | array x =>
          simp only [array_join?_array, Option.bind_map, Function.comp_def]
          exact Option.bind_map_congr (hz x y hb.item) _
      | object held => simp [Option.bind_map, Function.comp_def]
  | object members =>
      cases a <;> simp [Option.bind_map, Function.comp_def]

theorem Associates.object {last : List (String × Shape)}
    (hassoc : ∀ member ∈ last, Associates member.2)
    (hkeeps : ∀ member ∈ last, KeepsDistinct member.2) :
    Associates (.object last) := by
  intro a b hb
  cases b with
  | unknown => simp
  | scalar l => cases a <;> simp [Option.bind_map, Function.comp_def]
  | array y => cases a <;> simp [Option.bind_map, Function.comp_def]
  | object members =>
      cases a with
      | unknown => simp
      | scalar k => simp [Option.bind_map, Function.comp_def]
      | array x => simp [Option.bind_map, Function.comp_def]
      | object held =>
          have hmembers := joinMembers?_assoc held hassoc hkeeps hb.members
          simp only [object_join?_object, Option.bind_map, Function.comp_def]
          exact Option.bind_map_congr hmembers _

/-- A shape with distinct names may be joined last or to the second. -/
theorem join?_assoc {c : Shape} (hc : Distinct c) : Associates c := by
  induction hc with
  | unknown =>
      intro a b _
      simp
  | scalar kind =>
      intro a b _
      simp only [join?_scalar]
      exact join?_joinScalar? kind a b
  | array _ ih => exact ih.array
  | object _ hshapes ih =>
      exact Associates.object ih fun _ hin => (hshapes _ hin).keepsDistinct

end JsonIntake.Shape
