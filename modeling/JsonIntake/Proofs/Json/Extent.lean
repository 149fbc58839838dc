import JsonIntake.Proofs.Json.Nesting

/-!
# How far a reader goes

A reader takes some bytes off the front of its input, and what it makes of
them depends on nothing behind them but the next byte: a number goes as far as
its digits do.  What ends with a quote or a bracket does not depend on that
byte either.  The number of steps does not matter, as long as it exceeds that
of the bytes that are taken.
-/

namespace JsonIntake.Json

/-- What may follow the bytes that a reader took. -/
inductive Follow where
  | anything
  /-- What begins with the byte that followed them before, or ends as the
  input did. -/
  | sameByte

def Follow.Allows : Follow → (before after : List UInt8) → Prop
  | .anything, _, _ => True
  | .sameByte, before, after => after.head? = before.head?

theorem head?_append_congr {taken later rest : List UInt8}
    (hhead : later.head? = rest.head?) :
    (taken ++ later).head? = (taken ++ rest).head? := by
  rw [List.head?_append, List.head?_append, hhead]

namespace Follow

variable {follow : Follow} {rest later : List UInt8}

theorem allows_self (follow : Follow) (rest : List UInt8) :
    follow.Allows rest rest := by
  cases follow with
  | anything => trivial
  | sameByte => rfl

theorem Allows.append (hallows : follow.Allows rest later)
    (taken : List UInt8) : follow.Allows (taken ++ rest) (taken ++ later) := by
  cases follow with
  | anything => trivial
  | sameByte => exact head?_append_congr hallows

end Follow

variable {α : Type} {follow : Follow} {first middle last : StringPlace}

/-- In front of whatever may follow, a reader takes just `taken`. -/
structure Takes (follow : Follow) (first last : StringPlace)
    (read : Nat → Reader α) (value : α) (taken rest : List UInt8) :
    Prop where
  leads : Leads first last taken
  again : ∀ steps later, taken.length < steps → follow.Allows rest later →
    read steps (taken ++ later) = .ok (value, later)

/-- Whatever a reader takes once, it takes wherever the same may follow. -/
def IsLocal (follow : Follow) (first last : StringPlace)
    (read : Nat → Reader α) : Prop :=
  ∀ steps input value rest, read steps input = .ok (value, rest) →
    ∃ taken, input = taken ++ rest ∧
      Takes follow first last read value taken rest

/-- A loop that takes a front in one step takes the rest in those that are
left. -/
theorem Takes.step {read inner : Nat → Reader α} {value : α}
    {front taken rest : List UInt8} (hfront : Leads first middle front)
    (hnonempty : front ≠ [])
    (htakes : Takes follow middle last inner value taken rest)
    (hstep : ∀ steps later, (front ++ taken).length ≤ steps →
      follow.Allows rest later →
      read (steps + 1) (front ++ (taken ++ later)) =
        inner steps (taken ++ later)) :
    Takes follow first last read value (front ++ taken) rest where
  leads := hfront.append htakes.leads
  again := by
    have hpositive := List.length_pos_iff.mpr hnonempty
    rintro (_ | steps) later hsteps hallows
    · exact absurd hsteps (Nat.not_lt_zero _)
    · rw [List.append_assoc,
        hstep steps later (Nat.le_of_lt_succ hsteps) hallows]
      rw [List.length_append] at hsteps
      exact htakes.again steps later (by omega) hallows

namespace IsLocal

variable {read inner : Nat → Reader α}

theorem sameByte (hread : IsLocal .anything first last read) :
    IsLocal .sameByte first last read := by
  intro steps input value rest hok
  obtain ⟨taken, hinput, htakes⟩ := hread steps input value rest hok
  exact ⟨taken, hinput, htakes.leads,
    fun steps later hsteps _ => htakes.again steps later hsteps trivial⟩

theorem ok (value : α) :
    IsLocal follow first first fun _ input => .ok (value, input) := by
  rintro steps input _ _ ⟨rfl, rfl⟩
  exact ⟨[], rfl, .nil, fun _ _ _ _ => rfl⟩

theorem error (stop : List UInt8 → Stop) :
    IsLocal follow first last fun _ input =>
      (.error (stop input) : Except Stop (α × List UInt8)) :=
  nofun

/-- A reader that takes a front and leaves the rest to a local one is
local. -/
theorem of_front
    (hread : ∀ steps input value rest,
      read steps input = .ok (value, rest) →
        ∃ front behind inner,
          input = front ++ behind ∧ Leads first middle front ∧
          IsLocal follow middle last inner ∧
          ∀ steps later, follow.Allows behind later →
            read steps (front ++ later) = inner steps later) :
    IsLocal follow first last read := by
  intro steps input value rest hok
  obtain ⟨front, behind, inner, rfl, hfront, hinner, hforward⟩ :=
    hread steps input value rest hok
  rw [hforward steps behind (follow.allows_self behind)] at hok
  obtain ⟨taken, rfl, htakes⟩ := hinner steps behind value rest hok
  refine ⟨front ++ taken, (List.append_assoc _ _ _).symm,
    hfront.append htakes.leads, ?_⟩
  intro steps later hsteps hallows
  rw [List.length_append] at hsteps
  rw [List.append_assoc, hforward steps _ (hallows.append taken)]
  exact htakes.again steps later (by omega) hallows

theorem bind {β : Type} (next : α → Nat → Reader β)
    (hread : IsLocal follow first middle read)
    (hnext : ∀ value, IsLocal follow middle last (next value)) :
    IsLocal follow first last fun steps input =>
      (read steps input).bind fun (value, rest) => next value steps rest := by
  intro steps input value rest hok
  cases hfirst : read steps input with
  | error stop =>
      simp only [hfirst] at hok
      exact absurd hok nofun
  | ok result =>
      obtain ⟨item, behind⟩ := result
      simp only [hfirst] at hok
      obtain ⟨front, rfl, hfront⟩ := hread steps input item behind hfirst
      obtain ⟨taken, rfl, htakes⟩ := hnext item steps behind value rest hok
      refine ⟨front ++ taken, (List.append_assoc _ _ _).symm,
        hfront.leads.append htakes.leads, ?_⟩
      intro steps later hsteps hallows
      rw [List.length_append] at hsteps
      have hagain :=
        hfront.again steps (taken ++ later) (by omega) (hallows.append taken)
      simp only [List.append_assoc, hagain]
      exact htakes.again steps later (by omega) hallows

end IsLocal

end JsonIntake.Json
