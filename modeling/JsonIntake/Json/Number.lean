import JsonIntake.Json.SyntaxFault
import JsonIntake.Json.Value
import JsonIntake.Size

/-!
# Numbers in a JSON text

An integer that fits in a word stays an integer.  Any other number is a
significand of at most one word, whose excess digits are dropped, and a power
of ten; its value is the rounded significand times or over the rounded power,
which is rounded once more.
-/

namespace JsonIntake.Json

/-- Where reading stopped and why: the number of bytes that are left. -/
structure Stop where
  cause : FaultCause
  remaining : Nat
deriving DecidableEq, Repr

/-- A reader takes what it needs from the front of the input and returns the
rest. -/
abbrev Reader (α : Type) : Type := List UInt8 → Except Stop (α × List UInt8)

/-- Stop behind what has been read. -/
def stopHere {α : Type} (cause : FaultCause) (rest : List UInt8) :
    Except Stop α :=
  .error ⟨cause, rest.length⟩

/-- Stop behind the next byte, if there is one. -/
def stopAtNext {α : Type} (cause : FaultCause) (rest : List UInt8) :
    Except Stop α :=
  .error ⟨cause, rest.length - 1⟩

def isDigit (byte : UInt8) : Bool := 48 ≤ byte && byte ≤ 57

def digitValue (byte : UInt8) : Nat := byte.toNat - 48

/-- Digits read into one word. -/
structure Significand where
  value : Nat
  /-- Digits that were read. -/
  count : Nat
  /-- Whether another digit follows for which the word has no room. -/
  full : Bool
  rest : List UInt8

/-- Read digits behind those that `value` holds, as long as they fit in a
word. -/
def readDigits (value count : Nat) : List UInt8 → Significand
  | [] => ⟨value, count, false, []⟩
  | byte :: rest =>
    if isDigit byte then
      let next := 10 * value + digitValue byte
      if Size.maximum < next then ⟨value, count, true, byte :: rest⟩
      else readDigits next (count + 1) rest
    else ⟨value, count, false, byte :: rest⟩

/-- The largest power of ten that is a finite number. -/
def maxPower : Nat := 308

def powerOfTen (exponent : Nat) : Binary64 := .ofNat (Nat.pow 10 exponent)

/-- Divide by the largest power as long as the exponent is below its range.
Any word is zero after three such steps. -/
def divideDown : Nat → Binary64 → Nat → Binary64
  | 0, value, _ => value
  | steps + 1, value, exponent =>
    if exponent ≤ maxPower then value.div (powerOfTen exponent)
    else if value.magnitude = 0 then value
    else
      divideDown steps (value.div (powerOfTen maxPower)) (exponent - maxPower)

/-- The value of `value × 10 ^ exponent` in floating point, unless it is
infinite. -/
def scaleByPower? (value : Nat) (exponent : Int) : Option Binary64 :=
  let start : Binary64 := .ofNat value
  if exponent < 0 then some (divideDown 4 start exponent.natAbs)
  else if exponent ≤ maxPower then
    let product := start.mul (powerOfTen exponent.toNat)
    if product.isInfinite then none else some product
  else if value = 0 then some start
  else none

/-- The number of a sign, a significand and a power of ten. -/
def finishReal (negative : Bool) (value : Nat) (exponent : Int)
    (rest : List UInt8) : Except Stop (Number × List UInt8) :=
  match scaleByPower? value exponent with
  | some scaled => .ok (.real (if negative then scaled.neg else scaled), rest)
  | none => stopHere .numberOutOfRange rest

/-- Exponents are 32-bit integers. -/
def maxExponent : Nat := 2147483647

/-- Keep an exponent in its range. -/
def clampExponent (exponent : Int) : Int :=
  max (-(maxExponent : Int) - 1) (min maxExponent exponent)

/-- Read the digits of an exponent; `none` is an exponent out of range, with
the input behind the digit that leaves it. -/
def readExponentDigits (value : Nat) :
    List UInt8 → Option Nat × List UInt8
  | [] => (some value, [])
  | byte :: rest =>
    if isDigit byte then
      let next := 10 * value + digitValue byte
      if maxExponent < next then (none, rest)
      else readExponentDigits next rest
    else (some value, byte :: rest)

/-- Read an exponent behind its mark. -/
def readExponent (negative : Bool) (value : Nat) (start : Int)
    (input : List UInt8) : Except Stop (Number × List UInt8) :=
  let (down, input) :=
    match input with
    | 43 :: rest => (false, rest)
    | 45 :: rest => (true, rest)
    | rest => (false, rest)
  match input with
  | [] => stopHere .endInValue []
  | first :: rest =>
    if isDigit first then
      match readExponentDigits (digitValue first) rest with
      | (some size, rest) =>
        let change : Int := if down then -(size : Int) else size
        finishReal negative value (clampExponent (start + change)) rest
      | (none, rest) =>
        if value ≠ 0 ∧ ¬ down then stopHere .numberOutOfRange rest
        else .ok (.real (.zero negative), rest.dropWhile isDigit)
    else stopHere .invalidNumber rest

/-- Finish a number whose digits have all been read. -/
def readAfterDigits (negative : Bool) (value : Nat) (exponent : Int)
    (input : List UInt8) : Except Stop (Number × List UInt8) :=
  match input with
  | 101 :: rest => readExponent negative value exponent rest
  | 69 :: rest => readExponent negative value exponent rest
  | rest => finishReal negative value exponent rest

/-- Read a fraction behind its point. -/
def readFraction (negative : Bool) (value : Nat) (exponent : Int)
    (input : List UInt8) : Except Stop (Number × List UInt8) :=
  let digits := readDigits value 0 input
  let rest := if digits.full then digits.rest.dropWhile isDigit
    else digits.rest
  if digits.count = 0 ∧ ¬ digits.full then
    if rest.isEmpty then stopAtNext .endInValue rest
    else stopAtNext .invalidNumber rest
  else
    readAfterDigits negative digits.value (exponent - digits.count) rest

/-- An integer; a negative zero is floating point, and so is what lies below
the range of negative integers. -/
def integer (negative : Bool) (value : Nat) : Number :=
  if ¬ negative then .natural value
  else if value = 0 ∨ Size.half < value then .real (Binary.ofNat value).neg
  else .negative value

/-- Finish a number whose integer part has been read. -/
def readAfterInteger (negative : Bool) (value : Nat) (input : List UInt8) :
    Except Stop (Number × List UInt8) :=
  match input with
  | 46 :: rest => readFraction negative value 0 rest
  | 101 :: rest => readExponent negative value 0 rest
  | 69 :: rest => readExponent negative value 0 rest
  | rest => .ok (integer negative value, rest)

/-- Read a number behind its sign. -/
def readNumber (negative : Bool) : Reader Number
  | [] => stopHere .endInValue []
  | 48 :: rest =>
    if rest.head?.any isDigit then stopAtNext .invalidNumber rest
    else readAfterInteger negative 0 rest
  | first :: rest =>
    if isDigit first then
      let digits := readDigits (digitValue first) 1 rest
      if digits.full then
        let excess := digits.rest.takeWhile isDigit
        match digits.rest.dropWhile isDigit with
        | 46 :: rest =>
          readFraction negative digits.value excess.length rest
        | rest => readAfterDigits negative digits.value excess.length rest
      else readAfterInteger negative digits.value digits.rest
    else stopHere .invalidNumber rest

end JsonIntake.Json
