import JsonIntake.Proofs.Table.Members

/-!
# Joining shapes

The cause of a conflict set aside, joining shapes is a partial operation.  It
is associative: three groups of values have a common shape or none, whatever
two of them are joined first.  Objects need names that occur once, which
every inferred shape has.

The cases where arrays and scalars meet go back to joining with one scalar,
which commutes with everything.  The case of objects goes back to one name at
a time.
-/

namespace JsonIntake

theorem Except.bind_eq_ok {ε α β : Type} {x : Except ε α}
    {f : α → Except ε β} {b : β} :
    x >>= f = .ok b ↔ ∃ a, x = .ok a ∧ f a = .ok b := by
  cases x with
  | error e =>
      constructor
      · intro h
        exact absurd h nofun
      · rintro ⟨a, ha, _⟩
        exact absurd ha nofun
  | ok a =>
      constructor
      · intro h
        exact ⟨a, rfl, h⟩
      · rintro ⟨_, ⟨⟩, h⟩
        exact h

theorem Except.map_eq_ok {ε α β : Type} {x : Except ε α} {f : α → β}
    {b : β} : x.map f = .ok b ↔ ∃ a, x = .ok a ∧ f a = b := by
  cases x with
  | error e => exact ⟨nofun, nofun⟩
  | ok a => simp [Except.map]

theorem Except.map_eq_error {ε α β : Type} {x : Except ε α} {f : α → β}
    {e : ε} : x.map f = .error e ↔ x = .error e := by
  cases x with
  | error e => simp [Except.map]
  | ok a => exact ⟨nofun, nofun⟩

theorem Except.exists_of_isOk {ε α : Type} {x : Except ε α}
    (hok : x.isOk = true) : ∃ a, x = .ok a := by
  cases x with
  | error e => exact absurd hok nofun
  | ok a => exact ⟨a, rfl⟩

theorem Except.toOption_eq_some {ε α : Type} {x : Except ε α} {a : α} :
    x.toOption = some a ↔ x = .ok a := by
  cases x with
  | error e => exact ⟨nofun, nofun⟩
  | ok b => simp [Except.toOption]

theorem Except.toOption_bind {ε α β : Type} (x : Except ε α)
    (f : α → Except ε β) :
    (x >>= f).toOption = x.toOption.bind fun a => (f a).toOption := by
  cases x <;> rfl

theorem Except.toOption_bind_ok {ε α β : Type} (x : Except ε α)
    (wrap : α → β) :
    (x >>= fun a => .ok (wrap a)).toOption = x.toOption.map wrap := by
  cases x <;> rfl

theorem Option.bind_map_congr {α β γ δ : Type} {x : Option α} {y : Option β}
    {f : α → Option γ} {g : β → Option γ} (heq : x.bind f = y.bind g)
    (wrap : γ → δ) :
    (x.bind fun a => (f a).map wrap) = y.bind fun b => (g b).map wrap := by
  have hwrap := congrArg (Option.map wrap) heq
  rw [Option.map_bind, Option.map_bind] at hwrap
  exact hwrap

namespace Shape

/-- The common shape, if there is one. -/
def join? (a b : Shape) : Option Shape :=
  (merge a b).toOption

def joinScalar? (shape : Shape) (kind : Option ScalarKind) : Option Shape :=
  (mergeScalar shape kind).toOption

def joinMembers? (held members : List (String × Shape)) :
    Option (List (String × Shape)) :=
  (mergeMembers held members).toOption

/-- Join a shape to the one of a name. -/
def put? (name : String) (shape : Shape) (members : List (String × Shape)) :
    Option (List (String × Shape)) :=
  (join? (shapeOf name members) shape).map fun joined =>
    assign name joined members

section Equations

variable (a x y : Shape) (k l : Option ScalarKind)
  (held members : List (String × Shape))

@[simp] theorem join?_unknown : join? a .unknown = some a := by
  cases a <;> rfl

@[simp] theorem join?_scalar : join? a (.scalar k) = joinScalar? a k := by
  cases a <;> rfl

@[simp] theorem unknown_join? : join? .unknown a = some a := by
  cases a <;> rfl

@[simp] theorem array_join?_array :
    join? (.array x) (.array y) = (join? x y).map .array :=
  Except.toOption_bind_ok (merge x y) Shape.array

@[simp] theorem scalar_join?_array :
    join? (.scalar k) (.array y) = (joinScalar? y k).map .array :=
  Except.toOption_bind_ok (mergeScalar y k) Shape.array

@[simp] theorem object_join?_array :
    join? (.object held) (.array y) = none := rfl

@[simp] theorem object_join?_object :
    join? (.object held) (.object members) =
      (joinMembers? held members).map .object :=
  Except.toOption_bind_ok (mergeMembers held members) Shape.object

@[simp] theorem scalar_join?_object :
    join? (.scalar k) (.object members) = none := rfl

@[simp] theorem array_join?_object :
    join? (.array x) (.object members) = none := rfl

@[simp] theorem unknown_joinScalar? :
    joinScalar? .unknown k = some (.scalar k) := rfl

@[simp] theorem scalar_joinScalar? :
    joinScalar? (.scalar l) k = some (.scalar (joinKinds l k)) := rfl

@[simp] theorem array_joinScalar? :
    joinScalar? (.array x) k = (joinScalar? x k).map .array :=
  Except.toOption_bind_ok (mergeScalar x k) Shape.array

@[simp] theorem object_joinScalar? :
    joinScalar? (.object held) k = none := rfl

@[simp] theorem joinMembers?_nil : joinMembers? held [] = some held := rfl

theorem joinMembers?_cons (name : String) (shape : Shape)
    (rest : List (String × Shape)) :
    joinMembers? held ((name, shape) :: rest) =
      (put? name shape held).bind fun held => joinMembers? held rest := by
  change (merge (shapeOf name held) shape >>= fun merged =>
    mergeMembers (assign name merged held) rest).toOption = _
  rw [Except.toOption_bind, put?, join?, Option.bind_map]
  rfl

end Equations

/-! ## Scalars -/

theorem joinKinds_comm (k l : Option ScalarKind) :
    joinKinds k l = joinKinds l k := by
  cases k with
  | none => cases l <;> rfl
  | some first =>
      cases l with
      | none => rfl
      | some second => cases first <;> cases second <;> rfl

theorem joinKinds_assoc (k l m : Option ScalarKind) :
    joinKinds (joinKinds k l) m = joinKinds k (joinKinds l m) := by
  cases k with
  | none => rfl
  | some first =>
      cases l with
      | none => rfl
      | some second =>
          cases m with
          | none => rfl
          | some third =>
              cases first <;> cases second <;> cases third <;> rfl

theorem scalar_join? (k : Option ScalarKind) :
    (shape : Shape) → join? (.scalar k) shape = joinScalar? shape k
  | .unknown => by simp
  | .scalar l => by simp [joinKinds_comm]
  | .array item => by simp
  | .object members => by simp

theorem joinScalar?_joinScalar? (k l : Option ScalarKind) :
    (shape : Shape) →
      (joinScalar? shape k).bind (joinScalar? · l) =
        joinScalar? shape (joinKinds k l)
  | .unknown => by simp
  | .scalar m => by simp [joinKinds_assoc]
  | .array item => by
      have hitem := joinScalar?_joinScalar? k l item
      simp only [array_joinScalar?, Option.bind_map, Function.comp_def]
      rw [← hitem, Option.map_bind]
      rfl
  | .object members => by simp

theorem joinScalar?_comm (k l : Option ScalarKind) (shape : Shape) :
    (joinScalar? shape k).bind (joinScalar? · l) =
      (joinScalar? shape l).bind (joinScalar? · k) := by
  rw [joinScalar?_joinScalar?, joinScalar?_joinScalar?, joinKinds_comm]

/-- Joining with a scalar last is the same as joining it to the second. -/
theorem join?_joinScalar? (k : Option ScalarKind) :
    (a b : Shape) →
      (join? a b).bind (joinScalar? · k) =
        (joinScalar? b k).bind (join? a ·)
  | a, .unknown => by simp
  | a, .scalar l => by simp [joinScalar?_joinScalar?]
  | .unknown, .array y => by simp
  | .scalar l, .array y => by
      have hcomm := joinScalar?_comm l k y
      simp only [scalar_join?_array, array_joinScalar?, Option.bind_map,
        Function.comp_def]
      exact Option.bind_map_congr hcomm _
  | .array x, .array y => by
      have hitem := join?_joinScalar? k x y
      simp only [array_join?_array, array_joinScalar?, Option.bind_map,
        Function.comp_def]
      exact Option.bind_map_congr hitem _
  | .object held, .array y => by simp [Option.bind_map, Function.comp_def]
  | .unknown, .object members => by simp
  | .scalar l, .object members => by simp
  | .array x, .object members => by simp
  | .object held, .object members => by
      simp [Option.bind_map, Function.comp_def]

end Shape

end JsonIntake
