import JsonIntake.Proofs.Table.Associativity

/-!
# Inference as joining

Every value has a shape of its own, and adding it to the members found so far
joins this shape to the one of its name.  So the members of many rows can be
found group by group and joined afterwards.
-/

namespace JsonIntake.Shape

open Json (Value)

/-- The shape of one value. -/
def ofValue? : Value → Option Shape
  | .null => some .unknown
  | .array items => (ofItems items).toOption.map .array
  | .object members => (addMembers [] members).toOption.map .object
  | .boolean _ => some (.scalar (some .boolean))
  | .number value =>
    some (.scalar (some ((scalarKind? (.number value)).getD .float64)))
  | .text _ => some (.scalar (some .utf8))

def addMember? (held : List (String × Shape)) (name : String)
    (value : Value) : Option (List (String × Shape)) :=
  (addMember held name value).toOption

def addMembers? (held : List (String × Shape))
    (members : List (String × Value)) : Option (List (String × Shape)) :=
  (addMembers held members).toOption

@[simp] theorem addMembers?_nil (held : List (String × Shape)) :
    addMembers? held [] = some held := by
  simp [addMembers?, addMembers, Except.toOption]

theorem addMembers?_cons (held : List (String × Shape)) (name : String)
    (value : Value) (rest : List (String × Value)) :
    addMembers? held ((name, value) :: rest) =
      (addMember? held name value).bind (addMembers? · rest) := by
  unfold addMembers? addMember?
  rw [addMembers, Except.toOption_bind]

/-- Adding the value joins its shape, and the names in its shape occur
once. -/
structure Joins (value : Value) : Prop where
  distinct : ∀ shape, ofValue? value = some shape → Distinct shape
  join : ∀ held name, addMember? held name value =
    (ofValue? value).bind fun shape => put? name shape held

section Members

variable {held out : List (String × Shape)}
  {members : List (String × Value)}

theorem addMembers?_cons_of_joins {name : String} {value : Value}
    {rest : List (String × Value)} (hjoins : Joins value) :
    addMembers? held ((name, value) :: rest) =
      (ofValue? value).bind fun shape =>
        (put? name shape held).bind (addMembers? · rest) := by
  rw [addMembers?_cons, hjoins.join, Option.bind_assoc]

theorem DistinctMembers.addMembers?_of_joins
    (hjoins : ∀ member ∈ members, Joins member.2)
    (hheld : DistinctMembers held)
    (hadd : addMembers? held members = some out) : DistinctMembers out := by
  induction members generalizing held with
  | nil =>
      rw [addMembers?_nil, Option.some.injEq] at hadd
      exact hadd ▸ hheld
  | cons member rest ih =>
      obtain ⟨name, value⟩ := member
      have hvalue : Joins value := hjoins _ List.mem_cons_self
      rw [addMembers?_cons_of_joins hvalue] at hadd
      obtain ⟨shape, hshape, hnext⟩ := Option.bind_eq_some_iff.mp hadd
      obtain ⟨next, hput, hrest⟩ := Option.bind_eq_some_iff.mp hnext
      have hkeeps := (hvalue.distinct _ hshape).keepsDistinct
      exact ih (fun _ hin => hjoins _ (List.mem_cons_of_mem _ hin))
        (hheld.put? hkeeps hput) hrest

/-- What is joined before the members are added may be joined afterwards. -/
theorem joinMembers?_addMembers?_of_joins (held : List (String × Shape))
    {acc : List (String × Shape)}
    (hjoins : ∀ member ∈ members, Joins member.2)
    (hacc : DistinctMembers acc) :
    (joinMembers? held acc).bind (addMembers? · members) =
      (addMembers? acc members).bind (joinMembers? held ·) := by
  induction members generalizing acc with
  | nil => simp
  | cons member rest ih =>
      obtain ⟨name, value⟩ := member
      have hvalue : Joins value := hjoins _ List.mem_cons_self
      simp only [addMembers?_cons_of_joins hvalue]
      rw [Option.bind_comm, Option.bind_assoc]
      apply Option.bind_congr
      intro shape hshape
      have hdistinct := hvalue.distinct _ hshape
      rw [← Option.bind_assoc, joinMembers?_put? (join?_assoc hdistinct) hacc,
        Option.bind_assoc, Option.bind_assoc]
      apply Option.bind_congr
      intro next hput
      exact ih (fun _ hin => hjoins _ (List.mem_cons_of_mem _ hin))
        (hacc.put? hdistinct.keepsDistinct hput)

theorem addMembers?_eq_of_joins
    (hjoins : ∀ member ∈ members, Joins member.2) :
    addMembers? held members =
      (addMembers? [] members).bind (joinMembers? held ·) := by
  have hempty := joinMembers?_addMembers?_of_joins held hjoins .nil
  rwa [joinMembers?_nil, Option.bind_some] at hempty

end Members

/-! ## Every value joins -/

section Values

variable {name : String} {held : List (String × Shape)}

theorem addScalar_toOption (kind : ScalarKind) :
    (addScalar name kind held).toOption =
      put? name (.scalar (some kind)) held := by
  have hmerge : ∀ shape : Shape,
      (mergeScalar shape (some kind) >>= fun joined =>
        (.ok (assign name joined held) : Except ShapeConflict _)).toOption =
      (joinScalar? shape (some kind)).map (assign name · held) := by
    intro shape
    unfold joinScalar?
    cases mergeScalar shape (some kind) <;> rfl
  unfold addScalar put? shapeOf
  rw [join?_scalar]
  cases (lookup? name held).getD .unknown with
  | object members => rfl
  | unknown => exact hmerge .unknown
  | scalar k => exact hmerge (.scalar k)
  | array item => exact hmerge (.array item)

theorem addArray_toOption (item : Shape) :
    (addArray name item held).toOption = put? name (.array item) held := by
  unfold addArray put? shapeOf
  cases (lookup? name held).getD .unknown with
  | unknown => simp [Except.toOption]
  | object members => simp [Except.toOption]
  | scalar k =>
      rw [scalar_join?_array, ← scalar_join?, join?]
      dsimp only
      cases merge (.scalar k) item <;> rfl
  | array inner =>
      rw [array_join?_array, join?]
      dsimp only
      cases merge inner item <;> rfl

theorem joins_null : Joins .null := by
  constructor
  · intro shape hshape
    rw [ofValue?, Option.some.injEq] at hshape
    exact hshape ▸ .unknown
  · intro held name
    rw [ofValue?, Option.bind_some, addMember?, addMember, put?, join?_unknown,
      Option.map_some]
    by_cases hname : name ∈ names held
    · rw [if_pos (lookup?_isSome_iff.mpr hname), assign_shapeOf hname]
      rfl
    · have hlookup := mt lookup?_isSome_iff.mp hname
      rw [if_neg hlookup, shapeOf_of_not_mem hname]
      rfl

theorem joins_scalar {value : Value} {kind : ScalarKind}
    (hshape : ofValue? value = some (.scalar (some kind)))
    (hadd : ∀ held name, addMember held name value =
      addScalar name kind held) :
    Joins value := by
  constructor
  · intro shape heq
    rw [hshape, Option.some.injEq] at heq
    exact heq ▸ .scalar _
  · intro held name
    rw [hshape, Option.bind_some, addMember?, hadd]
    exact addScalar_toOption kind

theorem joins_array {items : List Value}
    (hitems : ∀ shape, ofItems items = .ok shape → Distinct shape) :
    Joins (.array items) := by
  cases hitem : ofItems items with
  | error conflict =>
      constructor
      · intro shape hshape
        rw [ofValue?, hitem] at hshape
        exact absurd hshape nofun
      · intro held name
        rw [ofValue?, addMember?, addMember, hitem]
        rfl
  | ok item =>
      constructor
      · intro shape hshape
        rw [ofValue?, hitem] at hshape
        cases hshape
        exact .array (hitems _ hitem)
      · intro held name
        rw [ofValue?, addMember?, addMember, hitem]
        exact addArray_toOption item

theorem addMember?_object (members : List (String × Value)) :
    addMember? held name (.object members) =
      match shapeOf name held with
      | .unknown => (addMembers? [] members).map fun inner =>
          assign name (.object inner) held
      | .object inner => (addMembers? inner members).map fun inner =>
          assign name (.object inner) held
      | _ => none := by
  unfold addMember? addMember shapeOf addMembers?
  cases (lookup? name held).getD .unknown with
  | unknown =>
      dsimp only
      cases addMembers [] members <;> rfl
  | object inner =>
      dsimp only
      cases addMembers inner members <;> rfl
  | scalar k => rfl
  | array item => rfl

theorem joins_object {members : List (String × Value)}
    (hmembers : ∀ member ∈ members, Joins member.2) :
    Joins (.object members) := by
  have hvalue : ofValue? (.object members) =
      (addMembers? [] members).map .object := rfl
  constructor
  · intro shape hshape
    rw [hvalue] at hshape
    obtain ⟨inner, hinner, rfl⟩ := Option.map_eq_some_iff.mp hshape
    exact (DistinctMembers.nil.addMembers?_of_joins hmembers hinner).object
  · intro held name
    rw [addMember?_object, hvalue, Option.bind_map]
    unfold put?
    cases shapeOf name held with
    | unknown =>
        rw [Option.map_eq_bind]
        apply Option.bind_congr
        intro inner _
        rw [Function.comp_apply, Function.comp_apply, unknown_join?,
          Option.map_some]
    | scalar k => simp [Function.comp_def]
    | array item => simp [Function.comp_def]
    | object inner =>
        dsimp only
        rw [addMembers?_eq_of_joins hmembers]
        simp [Function.comp_def, Option.map_bind]

theorem ofScalars_eq_ok {items : List Value} {shape : Shape}
    (hitems : ofScalars items = .ok shape) : ∃ kind, shape = .scalar kind := by
  obtain ⟨kinds, _, hshape⟩ := Except.bind_eq_ok.mp hitems
  cases hshape
  exact ⟨_, rfl⟩

end Values

mutual

theorem joins : (value : Value) → Joins value
  | .null => joins_null
  | .boolean _ => joins_scalar rfl fun _ _ => rfl
  | .number _ => joins_scalar rfl fun _ _ => rfl
  | .text _ => joins_scalar rfl fun _ _ => rfl
  | .array items => joins_array fun _ hitems => distinct_ofItems items hitems
  | .object members => joins_object (joins_members members)

theorem joins_members :
    (members : List (String × Value)) → ∀ member ∈ members, Joins member.2
  | [], _, hmember => absurd hmember List.not_mem_nil
  | (_, value) :: rest, member, hmember => by
      rcases List.mem_cons.mp hmember with rfl | hrest
      · exact joins value
      · exact joins_members rest member hrest

/-- The shape of the items of an array. -/
theorem distinct_ofItems : (items : List Value) → {shape : Shape} →
    ofItems items = .ok shape → Distinct shape
  | [], _, hitems => by
      cases hitems
      exact .unknown
  | .array items :: rest, _, hitems => by
      obtain ⟨first, hfirst, hnext⟩ := Except.bind_eq_ok.mp hitems
      obtain ⟨item, hitem, hshape⟩ := Except.bind_eq_ok.mp hnext
      cases hshape
      exact .array (distinct_addArrays rest (distinct_ofItems items hfirst)
        hitem)
  | .object members :: rest, _, hitems => by
      obtain ⟨first, hfirst, hnext⟩ := Except.bind_eq_ok.mp hitems
      obtain ⟨item, hitem, hshape⟩ := Except.bind_eq_ok.mp hnext
      cases hshape
      have hadd := Except.toOption_eq_some.mpr hfirst
      have hdistinct := DistinctMembers.nil.addMembers?_of_joins
        (joins_members members) hadd
      exact (distinct_addObjects rest hdistinct hitem).object
  | .null :: _, _, hitems => by
      obtain ⟨kind, rfl⟩ := ofScalars_eq_ok hitems
      exact .scalar kind
  | .boolean _ :: _, _, hitems => by
      obtain ⟨kind, rfl⟩ := ofScalars_eq_ok hitems
      exact .scalar kind
  | .number _ :: _, _, hitems => by
      obtain ⟨kind, rfl⟩ := ofScalars_eq_ok hitems
      exact .scalar kind
  | .text _ :: _, _, hitems => by
      obtain ⟨kind, rfl⟩ := ofScalars_eq_ok hitems
      exact .scalar kind

theorem distinct_addArrays : (items : List Value) → {held shape : Shape} →
    Distinct held → addArrays held items = .ok shape → Distinct shape
  | [], _, _, hheld, hitems => by
      cases hitems
      exact hheld
  | .array items :: rest, held, _, hheld, hitems => by
      obtain ⟨item, hitem, hnext⟩ := Except.bind_eq_ok.mp hitems
      obtain ⟨next, hmerge, hrest⟩ := Except.bind_eq_ok.mp hnext
      have hjoin := Except.toOption_eq_some.mpr hmerge
      have hkeeps := (distinct_ofItems items hitem).keepsDistinct
      exact distinct_addArrays rest (hkeeps _ _ hheld hjoin) hrest

theorem distinct_addObjects : (items : List Value) →
    {held members : List (String × Shape)} → DistinctMembers held →
      addObjects held items = .ok members → DistinctMembers members
  | [], _, _, hheld, hitems => by
      cases hitems
      exact hheld
  | .object members :: rest, held, _, hheld, hitems => by
      obtain ⟨next, hnext, hrest⟩ := Except.bind_eq_ok.mp hitems
      have hadd := Except.toOption_eq_some.mpr hnext
      have hdistinct := hheld.addMembers?_of_joins (joins_members members) hadd
      exact distinct_addObjects rest hdistinct hrest

end

/-! ## Rows -/

/-- The members of more rows. -/
def addRows? (held : List (String × Shape))
    (rows : List (List (String × Value))) : Option (List (String × Shape)) :=
  (rows.foldlM addMembers held).toOption

section Rows

variable {held out : List (String × Shape)} {name : String}
  {members : List (String × Value)}
  {rows more : List (List (String × Value))}

@[simp] theorem addRows?_nil : addRows? held [] = some held := rfl

theorem addRows?_cons :
    addRows? held (members :: rows) =
      (addMembers? held members).bind (addRows? · rows) := by
  unfold addRows? addMembers?
  rw [List.foldlM_cons, Except.toOption_bind]

theorem addRows?_append :
    addRows? held (rows ++ more) =
      (addRows? held rows).bind (addRows? · more) := by
  unfold addRows?
  rw [List.foldlM_append, Except.toOption_bind]

theorem addMembers?_cons_eq (value : Value) :
    addMembers? held ((name, value) :: members) =
      (ofValue? value).bind fun shape =>
        (put? name shape held).bind (addMembers? · members) :=
  addMembers?_cons_of_joins (joins value)

theorem addMembers?_append {others : List (String × Value)} :
    addMembers? held (members ++ others) =
      (addMembers? held members).bind (addMembers? · others) := by
  induction members generalizing held with
  | nil => simp
  | cons member members ih =>
      obtain ⟨name, value⟩ := member
      rw [List.cons_append, addMembers?_cons, addMembers?_cons,
        Option.bind_assoc]
      simp only [ih]

/-- Row by row or all at once, the same members are added. -/
theorem addRows?_eq_flatten :
    addRows? held rows = addMembers? held rows.flatten := by
  induction rows generalizing held with
  | nil => simp
  | cons members rows ih =>
      rw [addRows?_cons, List.flatten_cons, addMembers?_append]
      simp only [ih]

theorem DistinctMembers.addMembers? (hheld : DistinctMembers held)
    (hadd : addMembers? held members = some out) : DistinctMembers out :=
  hheld.addMembers?_of_joins (fun member _ => joins member.2) hadd

theorem joinMembers?_addMembers? {acc : List (String × Shape)}
    (hacc : DistinctMembers acc) :
    (joinMembers? held acc).bind (addMembers? · members) =
      (addMembers? acc members).bind (joinMembers? held ·) :=
  joinMembers?_addMembers?_of_joins held (fun member _ => joins member.2) hacc

theorem DistinctMembers.addRows? (hheld : DistinctMembers held)
    (hadd : addRows? held rows = some out) : DistinctMembers out := by
  induction rows generalizing held with
  | nil =>
      rw [addRows?_nil, Option.some.injEq] at hadd
      exact hadd ▸ hheld
  | cons members rows ih =>
      rw [addRows?_cons] at hadd
      obtain ⟨next, hnext, hrest⟩ := Option.bind_eq_some_iff.mp hadd
      exact ih (hheld.addMembers? hnext) hrest

theorem joinMembers?_addRows? (held : List (String × Shape))
    (rows : List (List (String × Value))) {acc : List (String × Shape)}
    (hacc : DistinctMembers acc) :
    (joinMembers? held acc).bind (addRows? · rows) =
      (addRows? acc rows).bind (joinMembers? held ·) := by
  induction rows generalizing acc with
  | nil => simp
  | cons members rows ih =>
      simp only [addRows?_cons]
      rw [← Option.bind_assoc, joinMembers?_addMembers? hacc,
        Option.bind_assoc, Option.bind_assoc]
      apply Option.bind_congr
      intro next hnext
      exact ih (hacc.addMembers? hnext)

/-- The members of two groups of rows are the joined members of both. -/
theorem addRows?_append_eq :
    addRows? [] (rows ++ more) =
      (addRows? [] rows).bind fun held =>
        (addRows? [] more).bind (joinMembers? held ·) := by
  rw [addRows?_append]
  apply Option.bind_congr
  intro held _
  have hempty := joinMembers?_addRows? held more .nil
  rwa [joinMembers?_nil, Option.bind_some] at hempty

theorem mem_names_addMembers? (hadd : addMembers? held members = some out) :
    name ∈ names out ↔
      name ∈ names held ∨ name ∈ members.map (·.1) := by
  induction members generalizing held with
  | nil =>
      rw [addMembers?_nil, Option.some.injEq] at hadd
      simp [hadd]
  | cons member rest ih =>
      obtain ⟨other, value⟩ := member
      rw [addMembers?_cons_eq] at hadd
      obtain ⟨shape, _, hnext⟩ := Option.bind_eq_some_iff.mp hadd
      obtain ⟨next, hput, hrest⟩ := Option.bind_eq_some_iff.mp hnext
      rw [ih hrest, mem_names_put? hput, List.map_cons, List.mem_cons,
        or_assoc, or_left_comm]

theorem mem_names_addRows? (hadd : addRows? held rows = some out) :
    name ∈ names out ↔
      name ∈ names held ∨ ∃ row ∈ rows, name ∈ row.map (·.1) := by
  induction rows generalizing held with
  | nil =>
      rw [addRows?_nil, Option.some.injEq] at hadd
      simp [hadd]
  | cons members rows ih =>
      rw [addRows?_cons] at hadd
      obtain ⟨next, hnext, hrest⟩ := Option.bind_eq_some_iff.mp hadd
      rw [ih hrest, mem_names_addMembers? hnext, or_assoc]
      simp only [List.mem_cons, exists_eq_or_imp]

/-! ## Inherited properties -/

/-- A property of shapes that a joined shape passes on to both its parts. -/
def Inherited (P : Shape → Prop) : Prop :=
  ∀ a b c, join? a b = some c → P c → P a ∧ P b

theorem addMembers?_inherited {P : Shape → Prop} (hP : Inherited P)
    (hadd : addMembers? held members = some out)
    (hout : P (shapeOf name out)) :
    P (shapeOf name held) ∧
      ∀ value, (name, value) ∈ members →
        ∃ shape, ofValue? value = some shape ∧ P shape := by
  induction members generalizing held with
  | nil =>
      rw [addMembers?_nil, Option.some.injEq] at hadd
      exact ⟨hadd ▸ hout, fun _ hin => absurd hin List.not_mem_nil⟩
  | cons member rest ih =>
      obtain ⟨other, value⟩ := member
      rw [addMembers?_cons_eq] at hadd
      obtain ⟨shape, hshape, hnext⟩ := Option.bind_eq_some_iff.mp hadd
      obtain ⟨next, hput, hrest⟩ := Option.bind_eq_some_iff.mp hnext
      obtain ⟨hheld, hvalues⟩ := ih hrest
      obtain ⟨joined, hjoin, rfl⟩ := put?_eq_some hput
      by_cases hname : other = name
      · subst hname
        rw [shapeOf_assign_self] at hheld
        obtain ⟨hleft, hright⟩ := hP _ _ _ hjoin hheld
        refine ⟨hleft, fun found hin => ?_⟩
        rcases List.mem_cons.mp hin with heq | hin
        · cases heq
          exact ⟨shape, hshape, hright⟩
        · exact hvalues found hin
      · rw [shapeOf_assign_of_ne hname] at hheld
        refine ⟨hheld, fun found hin => ?_⟩
        rcases List.mem_cons.mp hin with heq | hin
        · cases heq
          exact absurd rfl hname
        · exact hvalues found hin

theorem addRows?_inherited {P : Shape → Prop} (hP : Inherited P)
    (hadd : addRows? held rows = some out) (hout : P (shapeOf name out)) :
    P (shapeOf name held) ∧
      ∀ row ∈ rows, ∀ value, (name, value) ∈ row →
        ∃ shape, ofValue? value = some shape ∧ P shape := by
  induction rows generalizing held with
  | nil =>
      rw [addRows?_nil, Option.some.injEq] at hadd
      exact ⟨hadd ▸ hout, fun _ hin => absurd hin List.not_mem_nil⟩
  | cons members rows ih =>
      rw [addRows?_cons] at hadd
      obtain ⟨next, hnext, hrest⟩ := Option.bind_eq_some_iff.mp hadd
      obtain ⟨hmid, hrows⟩ := ih hrest
      obtain ⟨hheld, hvalues⟩ := addMembers?_inherited hP hnext hmid
      refine ⟨hheld, fun row hrow => ?_⟩
      rcases List.mem_cons.mp hrow with rfl | hrow
      · exact hvalues
      · exact hrows row hrow

end Rows

/-- Null or an integer. -/
inductive Whole : Value → Prop where
  | null : Whole .null
  | natural (value : Nat) : Whole (.number (.natural value))
  | negative (magnitude : Nat) : Whole (.number (.negative magnitude))

/-- The shapes of nulls and integers. -/
def HoldsWhole (shape : Shape) : Prop :=
  shape = .unknown ∨ shape = .scalar none ∨ shape = .scalar (some .int64)

theorem not_holdsWhole_array {item : Shape} : ¬ HoldsWhole (.array item) := by
  simp [HoldsWhole]

theorem not_holdsWhole_object {members : List (String × Shape)} :
    ¬ HoldsWhole (.object members) := by
  simp [HoldsWhole]

theorem holdsWhole_joinKinds {k l : Option ScalarKind}
    (hjoined : HoldsWhole (.scalar (joinKinds k l))) :
    HoldsWhole (.scalar k) ∧ HoldsWhole (.scalar l) := by
  unfold HoldsWhole at hjoined ⊢
  rcases k with _ | _ | _ <;> rcases l with _ | _ | _ <;>
    simp_all [joinKinds, ScalarKind.join]

/-- What joins an array becomes one. -/
theorem join?_array_eq_some {a item c : Shape}
    (hjoin : join? a (.array item) = some c) : ∃ joined, c = .array joined := by
  cases a with
  | unknown => exact ⟨item, (Option.some.inj hjoin).symm⟩
  | scalar k =>
      rw [scalar_join?_array] at hjoin
      obtain ⟨joined, _, heq⟩ := Option.map_eq_some_iff.mp hjoin
      exact ⟨joined, heq.symm⟩
  | array held =>
      rw [array_join?_array] at hjoin
      obtain ⟨joined, _, heq⟩ := Option.map_eq_some_iff.mp hjoin
      exact ⟨joined, heq.symm⟩
  | object held => exact absurd hjoin nofun

/-- What joins an object becomes one. -/
theorem join?_object_eq_some {a c : Shape} {members : List (String × Shape)}
    (hjoin : join? a (.object members) = some c) :
    ∃ joined, c = .object joined := by
  cases a with
  | unknown =>
      rw [unknown_join?] at hjoin
      exact ⟨members, (Option.some.inj hjoin).symm⟩
  | scalar k => exact absurd hjoin nofun
  | array held => exact absurd hjoin nofun
  | object held =>
      rw [object_join?_object] at hjoin
      obtain ⟨joined, _, heq⟩ := Option.map_eq_some_iff.mp hjoin
      exact ⟨joined, heq.symm⟩

theorem inherited_holdsWhole : Inherited HoldsWhole := by
  intro a b c hjoin hc
  cases b with
  | unknown =>
      rw [join?_unknown, Option.some.injEq] at hjoin
      exact ⟨hjoin ▸ hc, .inl rfl⟩
  | scalar l =>
      rw [join?_scalar] at hjoin
      cases a with
      | unknown =>
          cases hjoin
          exact ⟨.inl rfl, hc⟩
      | scalar k =>
          cases hjoin
          exact holdsWhole_joinKinds hc
      | array x =>
          rw [array_joinScalar?] at hjoin
          obtain ⟨joined, _, rfl⟩ := Option.map_eq_some_iff.mp hjoin
          exact absurd hc not_holdsWhole_array
      | object held => exact absurd hjoin nofun
  | array y =>
      obtain ⟨joined, rfl⟩ := join?_array_eq_some hjoin
      exact absurd hc not_holdsWhole_array
  | object members =>
      obtain ⟨joined, rfl⟩ := join?_object_eq_some hjoin
      exact absurd hc not_holdsWhole_object

theorem whole_of_ofValue? {value : Value} {shape : Shape}
    (hvalue : ofValue? value = some shape) (hshape : HoldsWhole shape) :
    Whole value := by
  cases value with
  | null => exact .null
  | boolean b =>
      cases hvalue
      simp [HoldsWhole] at hshape
  | number number =>
      cases number with
      | natural n => exact .natural n
      | negative m => exact .negative m
      | real x =>
          cases hvalue
          simp [HoldsWhole, scalarKind?] at hshape
  | text t =>
      cases hvalue
      simp [HoldsWhole] at hshape
  | array items =>
      obtain ⟨item, _, rfl⟩ := Option.map_eq_some_iff.mp hvalue
      exact absurd hshape not_holdsWhole_array
  | object members =>
      obtain ⟨inner, _, rfl⟩ := Option.map_eq_some_iff.mp hvalue
      exact absurd hshape not_holdsWhole_object

/-- Under integers alone every value of a column is null or an integer. -/
theorem whole_of_addRows? {rows : List (List (String × Value))}
    {out : List (String × Shape)} {name : String}
    (hadd : addRows? [] rows = some out)
    (hout : shapeOf name out = .scalar (some .int64)) :
    ∀ row ∈ rows, ∀ value, (name, value) ∈ row → Whole value := by
  intro row hrow value hvalue
  have hholds : HoldsWhole (shapeOf name out) := .inr (.inr hout)
  have hrows := (addRows?_inherited inherited_holdsWhole hadd hholds).2
  obtain ⟨shape, hshape, hwhole⟩ := hrows row hrow value hvalue
  exact whole_of_ofValue? hshape hwhole

end JsonIntake.Shape
