import JsonIntake.Json.Parser

/-!
# What is open in a text

A byte of a text stands in a number of arrays and objects, and perhaps in a
string.  Bytes lead from one place to another; those of a whole value lead
back to where they began, and on the way they close nothing that was open
there.  Behind the opening bracket of an array or object, and in front of its
closing one, more is open than outside.
-/

namespace JsonIntake.Json

/-- Where a byte stands in respect of strings. -/
inductive StringPlace where
  | outside
  | inside
  /-- Behind the backslash of an escape. -/
  | escaped
deriving DecidableEq, Repr

/-- What is open in front of a byte: a number of arrays and objects, and
perhaps a string. -/
structure Place where
  depth : Nat
  string : StringPlace
deriving DecidableEq, Repr

namespace Place

/-- The front of a text. -/
def front : Place := ⟨0, .outside⟩

def step (place : Place) (byte : UInt8) : Place :=
  match place.string with
  | .outside =>
    if byte = 34 then { place with string := .inside }
    else if byte = 91 ∨ byte = 123 then { place with depth := place.depth + 1 }
    else if byte = 93 ∨ byte = 125 then { place with depth := place.depth - 1 }
    else place
  | .inside =>
    if byte = 34 then { place with string := .outside }
    else if byte = 92 then { place with string := .escaped }
    else place
  | .escaped => { place with string := .inside }

def after (place : Place) (bytes : List UInt8) : Place :=
  bytes.foldl step place

@[simp] theorem after_nil (place : Place) : place.after [] = place := rfl

@[simp] theorem after_cons (place : Place) (byte : UInt8)
    (rest : List UInt8) :
    place.after (byte :: rest) = (place.step byte).after rest := rfl

theorem after_append (place : Place) (front back : List UInt8) :
    place.after (front ++ back) = (place.after front).after back :=
  List.foldl_append

end Place

/-! ## Bytes that keep what is open -/

/-- Bytes that lead from one kind of place to another at the same depth, and
never below it. -/
structure Leads (first last : StringPlace) (bytes : List UInt8) : Prop where
  after_eq : ∀ depth, Place.after ⟨depth, first⟩ bytes = ⟨depth, last⟩
  le_depth : ∀ depth front back, bytes = front ++ back →
    depth ≤ (Place.after ⟨depth, first⟩ front).depth

/-- Bytes that open and close nothing outside of strings. -/
def isPlain (byte : UInt8) : Bool :=
  byte ≠ 34 && byte ≠ 91 && byte ≠ 93 && byte ≠ 123 && byte ≠ 125

namespace Leads

variable {first middle last : StringPlace} {bytes later : List UInt8}
  {byte : UInt8}

theorem nil : Leads first first [] where
  after_eq _ := rfl
  le_depth depth front back hsplit := by
    rw [(List.append_eq_nil_iff.mp hsplit.symm).1]
    exact Nat.le_refl _

theorem append (hbytes : Leads first middle bytes)
    (hlater : Leads middle last later) :
    Leads first last (bytes ++ later) where
  after_eq depth := by
    rw [Place.after_append, hbytes.after_eq, hlater.after_eq]
  le_depth depth front back hsplit := by
    rcases List.append_eq_append_iff.mp hsplit with
      ⟨behind, rfl, hbehind⟩ | ⟨behind, hbehind, -⟩
    · rw [Place.after_append, hbytes.after_eq]
      exact hlater.le_depth depth behind back hbehind
    · exact hbytes.le_depth depth front behind hbehind

theorem single
    (hstep : ∀ depth, Place.step ⟨depth, first⟩ byte = ⟨depth, last⟩) :
    Leads first last [byte] where
  after_eq := hstep
  le_depth depth front back hsplit := by
    rcases List.append_eq_singleton_iff.mp hsplit.symm with
      ⟨rfl, -⟩ | ⟨rfl, -⟩
    · exact Nat.le_refl _
    · rw [Place.after_cons, hstep]
      exact Nat.le_refl _

theorem cons
    (hstep : ∀ depth, Place.step ⟨depth, first⟩ byte = ⟨depth, middle⟩)
    (hlater : Leads middle last later) :
    Leads first last (byte :: later) :=
  (single hstep).append hlater

theorem after_front (hbytes : Leads .outside .outside bytes) :
    Place.front.after bytes = Place.front :=
  hbytes.after_eq 0

theorem plain (hbytes : ∀ byte ∈ bytes, isPlain byte = true) :
    Leads .outside .outside bytes := by
  induction bytes with
  | nil => exact .nil
  | cons byte rest ih =>
      rw [List.forall_mem_cons] at hbytes
      refine .cons ?_ (ih hbytes.2)
      intro depth
      have hbyte := hbytes.1
      simp only [isPlain, ne_eq, decide_not, Bool.and_eq_true,
        Bool.not_eq_true', decide_eq_false_iff_not] at hbyte
      simp [Place.step, hbyte]

theorem character (hquote : byte ≠ 34) (hescape : byte ≠ 92) :
    Leads .inside .inside [byte] :=
  single fun _ => by simp [Place.step, hquote, hescape]

theorem escape (byte : UInt8) : Leads .inside .inside [92, byte] :=
  .cons (fun _ => rfl) (single fun _ => rfl)

end Leads

/-! ## Arrays and objects -/

/-- An opening bracket, what stands in it, and a closing one. -/
inductive Bracketed : List UInt8 → Prop
  | mk {opening closing : UInt8} {body : List UInt8}
      (hopening : opening = 91 ∨ opening = 123)
      (hclosing : closing = 93 ∨ closing = 125)
      (hbody : Leads .outside .outside body) :
      Bracketed (opening :: (body ++ [closing]))

theorem Place.step_opening {opening : UInt8}
    (hopening : opening = 91 ∨ opening = 123) (depth : Nat) :
    Place.step ⟨depth, .outside⟩ opening = ⟨depth + 1, .outside⟩ := by
  rcases hopening with rfl | rfl
  · rfl
  · rfl

theorem Place.step_closing {closing : UInt8}
    (hclosing : closing = 93 ∨ closing = 125) (depth : Nat) :
    Place.step ⟨depth + 1, .outside⟩ closing = ⟨depth, .outside⟩ := by
  rcases hclosing with rfl | rfl
  · rfl
  · rfl

namespace Bracketed

variable {bytes front back : List UInt8}

/-- In the brackets more is open than around them. -/
theorem depth_lt (hbracketed : Bracketed (front ++ back))
    (hfront : front ≠ []) (hback : back ≠ []) (depth : Nat) :
    depth < (Place.after ⟨depth, .outside⟩ front).depth := by
  generalize hbytes : front ++ back = bytes at hbracketed
  obtain @⟨opening, closing, body, hopening, -, hbody⟩ := hbracketed
  obtain ⟨byte, front, rfl⟩ := List.exists_cons_of_ne_nil hfront
  obtain ⟨rfl, hrest⟩ := List.cons.inj hbytes
  rw [Place.after_cons, Place.step_opening hopening]
  rcases List.eq_nil_or_concat back with rfl | ⟨behind, last, rfl⟩
  · exact absurd rfl hback
  · have hconcat : (front ++ behind) ++ [last] = body ++ [closing] := by
      rewrite [← hrest, List.append_assoc, ← List.concat_eq_append]
      rfl
    obtain ⟨hsplit, -⟩ := List.append_inj' hconcat rfl
    exact hbody.le_depth (depth + 1) front behind hsplit.symm

theorem after_eq (hbracketed : Bracketed bytes) (depth : Nat) :
    Place.after ⟨depth, .outside⟩ bytes = ⟨depth, .outside⟩ := by
  obtain ⟨hopening, hclosing, hbody⟩ := hbracketed
  rw [Place.after_cons, Place.step_opening hopening, Place.after_append,
    hbody.after_eq]
  exact Place.step_closing hclosing depth

theorem leads (hbracketed : Bracketed bytes) :
    Leads .outside .outside bytes where
  after_eq := hbracketed.after_eq
  le_depth depth front back hsplit := by
    rcases List.eq_nil_or_concat front with rfl | ⟨_, _, rfl⟩
    · exact Nat.le_refl _
    rcases List.eq_nil_or_concat back with rfl | ⟨_, _, rfl⟩
    · rw [List.append_nil] at hsplit
      rewrite [← hsplit, hbracketed.after_eq]
      exact Nat.le_refl _
    · subst hsplit
      exact Nat.le_of_lt (hbracketed.depth_lt (by simp) (by simp) depth)

end Bracketed

end JsonIntake.Json
