import JsonIntake.Number.Binary

/-!
# JSON values

Numbers keep the three forms in which they are told apart later: integers
from zero on, negative integers, and everything else as floating point.  The
members of an object are ordered by name, and a name occurs once.
-/

namespace JsonIntake.Json

inductive Number where
  /-- An integer from zero on that fits in a word. -/
  | natural (value : Nat)
  /-- A negative integer, by its absolute value, of at most `2 ^ 63`. -/
  | negative (magnitude : Nat)
  | real (value : Binary64)
deriving DecidableEq, Repr

inductive Value where
  | null
  | boolean (value : Bool)
  | number (value : Number)
  | text (value : String)
  | array (items : List Value)
  | object (members : List (String × Value))
deriving Repr

namespace Value

/-- Put a member at its place in an object.  A later value of a name replaces
the earlier one. -/
def insertMember (name : String) (value : Value) :
    List (String × Value) → List (String × Value)
  | [] => [(name, value)]
  | (other, held) :: rest =>
    if name < other then (name, value) :: (other, held) :: rest
    else if name = other then (name, value) :: rest
    else (other, held) :: insertMember name value rest

/-- The member of a name. -/
def lookup? (name : String) (members : List (String × Value)) :
    Option Value :=
  (members.find? fun member => member.1 == name).map (·.2)

/-- What kind of value this is, in words. -/
def kindName : Value → String
  | .null => "null"
  | .boolean _ => "a boolean"
  | .number _ => "a number"
  | .text _ => "a string"
  | .array _ => "an array"
  | .object _ => "an object"

end Value

end JsonIntake.Json
