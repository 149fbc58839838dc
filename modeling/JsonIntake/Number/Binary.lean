/-!
# Binary floating point

Floating-point numbers of a fixed format, in exact arithmetic.  A finite
number is a natural number of units, where the unit is the least positive
number of the format; every operation takes the exact result and rounds it to
the nearest number, a tie to the one with the even significand.
-/

namespace JsonIntake

/-- A binary format: the number of significant bits and the width of the
exponent field. -/
structure FloatFormat where
  precision : Nat
  exponentBits : Nat
deriving DecidableEq, Repr

namespace FloatFormat

def single : FloatFormat := ⟨24, 8⟩

def double : FloatFormat := ⟨53, 11⟩

/-- Units in one: the reciprocal of the least positive number. -/
def unitsPerOne (format : FloatFormat) : Nat :=
  Nat.pow 2 (Nat.pow 2 (format.exponentBits - 1) + format.precision - 3)

/-- Distance of the encodings of two neighbouring powers of two. -/
def binade (format : FloatFormat) : Nat := Nat.pow 2 (format.precision - 1)

/-- The encoding of infinity; larger encodings are no numbers. -/
def infinity (format : FloatFormat) : Nat :=
  (Nat.pow 2 format.exponentBits - 1) * format.binade

/-- Width of the whole encoding without the sign. -/
def signBit (format : FloatFormat) : Nat :=
  Nat.pow 2 (format.exponentBits + format.precision - 1)

end FloatFormat

/-- The natural number nearest to `num / den`; a tie goes to the even one. -/
def divideToEven (num den : Nat) : Nat :=
  let quotient := num / den
  let twice := 2 * (num % den)
  if den < twice ∨ (twice = den ∧ quotient % 2 = 1) then
    quotient + 1
  else
    quotient

/-- A floating-point number: its sign, and the exponent and fraction fields
read as one natural number.  Among numbers of one sign the order of the
encodings is the order of the values. -/
structure Binary (format : FloatFormat) where
  negative : Bool
  magnitude : Nat
deriving DecidableEq, Repr

abbrev Binary32 : Type := Binary .single

abbrev Binary64 : Type := Binary .double

namespace Binary

variable {format : FloatFormat}

/-- The encoding of the number nearest to `num / den`. -/
def nearest (format : FloatFormat) (num den : Nat) : Nat :=
  let units := num * format.unitsPerOne
  let whole := units / den
  let shift := whole.log2 + 1 - format.precision
  let significand := divideToEven units (den * Nat.pow 2 shift)
  min (shift * format.binade + significand) format.infinity

/-- The number nearest to `num / den`, with the given sign. -/
def ofRatio (negative : Bool) (num den : Nat) : Binary format :=
  ⟨negative, nearest format num den⟩

def ofNat (n : Nat) : Binary format := ofRatio false n 1

def ofInt (n : Int) : Binary format := ofRatio (decide (n < 0)) n.natAbs 1

def zero (negative : Bool) : Binary format := ⟨negative, 0⟩

def infinite (negative : Bool) : Binary format := ⟨negative, format.infinity⟩

def isInfinite (x : Binary format) : Bool := x.magnitude == format.infinity

def isNaN (x : Binary format) : Bool := format.infinity < x.magnitude

/-- The one value that stands for everything that is no number. -/
def notANumber (negative : Bool) : Binary format :=
  ⟨negative, format.infinity + format.binade / 2⟩

/-- Exponent above the one of the unit. -/
def scale (x : Binary format) : Nat := x.magnitude / format.binade - 1

/-- The significand of a finite number, as a count of `2 ^ scale` units. -/
def significand (x : Binary format) : Nat :=
  let fraction := x.magnitude % format.binade
  if x.magnitude < format.binade then fraction
  else fraction + format.binade

/-- The absolute value of a finite number, in units. -/
def units (x : Binary format) : Nat := x.significand * Nat.pow 2 x.scale

def add (x y : Binary format) : Binary format :=
  let value (z : Binary format) : Int :=
    if z.negative then -(z.units : Int) else z.units
  let total := value x + value y
  ofRatio (decide (total < 0)) total.natAbs format.unitsPerOne

def mul (x y : Binary format) : Binary format :=
  ofRatio (x.negative != y.negative) (x.units * y.units)
    (format.unitsPerOne * format.unitsPerOne)

/-- The quotient by a number other than zero. -/
def div (x y : Binary format) : Binary format :=
  ofRatio (x.negative != y.negative) x.units y.units

def neg (x : Binary format) : Binary format :=
  { x with negative := !x.negative }

/-- The nearest number of another format. -/
def convert (target : FloatFormat) (x : Binary format) : Binary target :=
  if x.isNaN then notANumber x.negative
  else if x.isInfinite then infinite x.negative
  else ofRatio x.negative x.units format.unitsPerOne

/-- The integer part of a finite number. -/
def truncate? (x : Binary format) : Option Int :=
  if format.infinity ≤ x.magnitude then none
  else
    let whole : Int := x.units / format.unitsPerOne
    some (if x.negative then -whole else whole)

/-- The whole encoding, with the sign in front. -/
def bits (x : Binary format) : Nat :=
  if x.negative then format.signBit + x.magnitude else x.magnitude

end Binary

end JsonIntake
