import JsonIntake.Table.Shape

/-!
# Recorded members

The shapes of the members of an object are recorded by name.  A name keeps
its place, so records of different names do not disturb each other.
-/

namespace JsonIntake.Shape

def names (members : List (String × Shape)) : List String :=
  members.map (·.1)

/-- The shape of a name; nothing is known about a new name. -/
def shapeOf (name : String) (members : List (String × Shape)) : Shape :=
  (lookup? name members).getD .unknown

section

variable {name other : String} {shape held : Shape}
  {members : List (String × Shape)}

@[simp] theorem names_nil : names [] = [] := rfl

@[simp] theorem names_cons (member : String × Shape) :
    names (member :: members) = member.1 :: names members := rfl

theorem lookup?_cons (member : String × Shape) :
    lookup? name (member :: members) =
      if member.1 = name then some member.2 else lookup? name members := by
  unfold lookup?
  by_cases hname : member.1 = name
  · simp [hname]
  · simp [hname]

@[simp] theorem shapeOf_nil : shapeOf name [] = .unknown := rfl

theorem shapeOf_cons (member : String × Shape) :
    shapeOf name (member :: members) =
      if member.1 = name then member.2 else shapeOf name members := by
  unfold shapeOf
  rw [lookup?_cons]
  split <;> rfl

@[simp] theorem shapeOf_cons_self :
    shapeOf name ((name, shape) :: members) = shape := by
  rw [shapeOf_cons, if_pos rfl]

theorem shapeOf_cons_of_ne (hname : other ≠ name) :
    shapeOf name ((other, shape) :: members) = shapeOf name members := by
  rw [shapeOf_cons, if_neg hname]

theorem lookup?_isSome_iff :
    (lookup? name members).isSome = true ↔ name ∈ names members := by
  induction members with
  | nil => simp [lookup?]
  | cons member rest ih =>
      rw [lookup?_cons, names_cons, List.mem_cons]
      by_cases hname : member.1 = name
      · simp [hname]
      · rw [if_neg hname, ih]
        exact ⟨.inr, fun h => h.resolve_left (Ne.symm hname)⟩

theorem shapeOf_of_not_mem (hname : name ∉ names members) :
    shapeOf name members = .unknown := by
  rw [← lookup?_isSome_iff, Bool.not_eq_true, Option.isSome_eq_false_iff,
    Option.isNone_iff_eq_none] at hname
  rw [shapeOf, hname]
  rfl

/-! ## Records -/

@[simp] theorem shapeOf_assign_self :
    shapeOf name (assign name shape members) = shape := by
  induction members with
  | nil => exact shapeOf_cons_self
  | cons member rest ih =>
      rw [assign]
      split
      · exact shapeOf_cons_self
      · next hname => rw [shapeOf_cons_of_ne hname, ih]

theorem shapeOf_assign_of_ne (hname : other ≠ name) :
    shapeOf name (assign other shape members) = shapeOf name members := by
  induction members with
  | nil => exact shapeOf_cons_of_ne hname
  | cons member rest ih =>
      rw [assign]
      split
      · next heq =>
          rw [shapeOf_cons_of_ne hname, shapeOf_cons, heq, if_neg hname]
      · rw [shapeOf_cons, shapeOf_cons, ih]

theorem names_assign_of_mem (hname : name ∈ names members) :
    names (assign name shape members) = names members := by
  induction members with
  | nil => exact absurd hname List.not_mem_nil
  | cons member rest ih =>
      rw [assign]
      split
      · next heq => rw [names_cons, names_cons, heq]
      · next hne =>
          rw [names_cons, List.mem_cons] at hname
          rw [names_cons, names_cons, ih (hname.resolve_left (Ne.symm hne))]

theorem assign_of_not_mem (hname : name ∉ names members) :
    assign name shape members = members ++ [(name, shape)] := by
  induction members with
  | nil => rfl
  | cons member rest ih =>
      rw [names_cons, List.mem_cons, not_or] at hname
      rw [assign, if_neg (Ne.symm hname.1), ih hname.2, List.cons_append]

theorem names_assign_of_not_mem (hname : name ∉ names members) :
    names (assign name shape members) = names members ++ [name] := by
  rw [assign_of_not_mem hname]
  exact List.map_append

theorem mem_names_assign :
    other ∈ names (assign name shape members) ↔
      other = name ∨ other ∈ names members := by
  by_cases hname : name ∈ names members
  · rw [names_assign_of_mem hname]
    constructor
    · exact .inr
    · rintro (rfl | hother)
      · exact hname
      · exact hother
  · rw [names_assign_of_not_mem hname, List.mem_append, List.mem_singleton,
      or_comm]

theorem nodup_names_assign (hnodup : (names members).Nodup) :
    (names (assign name shape members)).Nodup := by
  by_cases hname : name ∈ names members
  · rwa [names_assign_of_mem hname]
  · rw [names_assign_of_not_mem hname, List.nodup_append]
    refine ⟨hnodup, by simp, ?_⟩
    intro first hfirst second hsecond heq
    rw [List.mem_singleton] at hsecond
    exact hname (hsecond ▸ heq ▸ hfirst)

theorem assign_assign :
    assign name shape (assign name held members) =
      assign name shape members := by
  induction members with
  | nil => simp [assign]
  | cons member rest ih =>
      by_cases hname : member.1 = name
      · simp [assign, hname]
      · simp [assign, hname, ih]

/-- A name that has its place already may be recorded first or last. -/
theorem assign_comm (hne : name ≠ other) (hname : name ∈ names members) :
    assign name shape (assign other held members) =
      assign other held (assign name shape members) := by
  induction members with
  | nil => exact absurd hname List.not_mem_nil
  | cons member rest ih =>
      by_cases hfirst : member.1 = name
      · have hsecond : member.1 ≠ other := fun heq => hne (hfirst ▸ heq)
        simp [assign, hfirst, hne]
      · by_cases hsecond : member.1 = other
        · simp [assign, hsecond, Ne.symm hne]
        · rw [names_cons, List.mem_cons] at hname
          simp [assign, hfirst, hsecond,
            ih (hname.resolve_left (Ne.symm hfirst))]

theorem assign_shapeOf (hname : name ∈ names members) :
    assign name (shapeOf name members) members = members := by
  induction members with
  | nil => exact absurd hname List.not_mem_nil
  | cons member rest ih =>
      obtain ⟨first, shape⟩ := member
      by_cases hfirst : first = name
      · subst hfirst
        simp [assign]
      · rw [names_cons, List.mem_cons] at hname
        rw [shapeOf_cons_of_ne hfirst, assign, if_neg hfirst,
          ih (hname.resolve_left (Ne.symm hfirst))]

end

end JsonIntake.Shape
