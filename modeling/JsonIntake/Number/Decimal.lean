import JsonIntake.Number.Binary

/-!
# Decimal text of numbers

Writing a floating-point number takes the fewest digits that read back as the
same number, and among those the nearest; reading takes the number nearest to
the decimal that was written.
-/

namespace JsonIntake.Decimal

/-- The value `0.d₁d₂d₃… × 10 ^ point`, with the digits as one natural
number of `count` digits. -/
structure Digits where
  value : Nat
  count : Nat
  point : Int
deriving DecidableEq, Repr

/-- Number of decimal digits of a positive number. -/
def digitCount (n : Nat) : Nat := (Nat.toDigits 10 n).length

/-- Least `point` with `num / den < 10 ^ point`, for a positive ratio. -/
def pointOf (num den : Nat) : Int :=
  if den ≤ num then digitCount (num / den)
  else
    -- `10 ^ k` is the least power that lifts the ratio to one or more.
    let lift := (List.range 400).find? fun k => den ≤ num * Nat.pow 10 (k + 1)
    0 - ((lift.getD 400 : Nat) : Int)

/-- The decimals with `count` digits below and above `num / den`. -/
def neighbours (num den count : Nat) (point : Int) : Nat × Nat :=
  let shift : Int := count - point
  let scaled := if 0 ≤ shift then num * Nat.pow 10 shift.toNat else num
  let unit := if 0 ≤ shift then den else den * Nat.pow 10 (-shift).toNat
  let below := scaled / unit
  (below, if scaled % unit = 0 then below else below + 1)

/-- Whether the decimal `value × 10 ^ (point - count)` rounds to the number
whose encoding is `magnitude`. -/
def readsBack (format : FloatFormat) (magnitude value count : Nat)
    (point : Int) : Bool :=
  let shift : Int := point - count
  let num := if 0 ≤ shift then value * Nat.pow 10 shift.toNat else value
  let den := if 0 ≤ shift then 1 else Nat.pow 10 (-shift).toNat
  Binary.nearest format num den == magnitude

/-- The decimal of `count` digits that reads back as the number, the nearer
one if both neighbours do; a tie goes up. -/
def candidate? {format : FloatFormat} (x : Binary format) (count : Nat)
    (point : Int) : Option Nat :=
  let num := x.units
  let den := format.unitsPerOne
  let (below, above) := neighbours num den count point
  let lowFits := readsBack format x.magnitude below count point
  let highFits := readsBack format x.magnitude above count point
  let shift : Int := count - point
  let scaled := if 0 ≤ shift then num * Nat.pow 10 shift.toNat else num
  let unit := if 0 ≤ shift then den else den * Nat.pow 10 (-shift).toNat
  let fromBelow := scaled - below * unit
  let fromAbove := above * unit - scaled
  if lowFits && highFits then
    some (if fromBelow < fromAbove then below else above)
  else if lowFits then some below
  else if highFits then some above
  else none

/-- The shortest decimal that reads back as a positive finite number.
Seventeen digits always do for the formats in use. -/
def shortest {format : FloatFormat} (x : Binary format) : Digits :=
  let point := pointOf x.units format.unitsPerOne
  let found := (List.range 17).findSome? fun n =>
    (candidate? x (n + 1) point).map fun value => (value, n + 1)
  match found with
  | some (value, count) =>
    -- The upper neighbour may be the next power of ten.
    if value = Nat.pow 10 count then ⟨Nat.pow 10 (count - 1), count, point + 1⟩
    else ⟨value, count, point⟩
  | none => ⟨0, 1, 0⟩

/-- Digits in positional notation, without a point where there is no
fraction. -/
def Digits.text (digits : Digits) : String :=
  let written := toString digits.value
  if digits.point ≤ 0 then
    "0." ++ String.ofList (List.replicate (-digits.point).toNat '0') ++
      written
  else
    let whole := digits.point.toNat
    if digits.count ≤ whole then
      written ++
        String.ofList (List.replicate (whole - digits.count) '0')
    else
      String.ofList (written.toList.take whole) ++ "." ++
        String.ofList (written.toList.drop whole)

/-- A finite number in positional notation, with the fewest digits that read
back. -/
def text {format : FloatFormat} (x : Binary format) : String :=
  let sign := if x.negative then "-" else ""
  if x.isNaN then "NaN"
  else if x.isInfinite then sign ++ "inf"
  else if x.magnitude = 0 then sign ++ "0"
  else sign ++ (shortest x).text

/-- Digits with one of them before the point, and the power of ten. -/
def Digits.scientific (digits : Digits) : String :=
  let written := toString digits.value
  let fraction := String.ofList (written.toList.drop 1)
  String.ofList (written.toList.take 1) ++
    (if digits.count ≤ 1 then "" else "." ++ fraction) ++ "e" ++
    toString (digits.point - 1)

/-- A finite number with the fewest digits that read back, in the form that
tells it from an integer: with a point, or with a power of ten where the
number is below `10 ^ -5` or at least `10 ^ 16`. -/
def realText {format : FloatFormat} (x : Binary format) : String :=
  let sign := if x.negative then "-" else ""
  if x.magnitude = 0 then sign ++ "0.0"
  else
    let digits := shortest x
    if digits.point ≤ -5 ∨ 16 < digits.point then sign ++ digits.scientific
    else if (digits.count : Int) ≤ digits.point then
      sign ++ digits.text ++ ".0"
    else sign ++ digits.text

/-- A non-negative number with exactly `places` digits after the point. -/
def fixed {format : FloatFormat} (places : Nat) (x : Binary format) :
    String :=
  let scaled := divideToEven (x.units * Nat.pow 10 places) format.unitsPerOne
  let fraction := (toString (scaled % Nat.pow 10 places)).toList
  toString (scaled / Nat.pow 10 places) ++ "." ++
    String.ofList (List.replicate (places - fraction.length) '0' ++ fraction)

/-- The number nearest to `digits × 10 ^ exponent`.  Decimals far outside the
range of the format are zero or infinite whatever their digits are. -/
def toBinary (format : FloatFormat) (negative : Bool) (digits : Nat)
    (exponent : Int) : Binary format :=
  let point := digitCount digits + exponent
  if digits = 0 ∨ point < -400 then .zero negative
  else if 400 < point then .infinite negative
  else if 0 ≤ exponent then
    .ofRatio negative (digits * Nat.pow 10 exponent.toNat) 1
  else
    .ofRatio negative digits (Nat.pow 10 (-exponent).toNat)

/-- Split off the leading decimal digits. -/
def spanDigits (chars : List Char) : List Char × List Char :=
  chars.span Char.isDigit

/-- The value of a run of decimal digits. -/
def digitsValue (digits : List Char) : Nat :=
  digits.foldl (fun n c => 10 * n + (c.toNat - 48)) 0

/-- A sign, if there is one, and the rest. -/
def spanSign : List Char → Bool × List Char
  | '-' :: rest => (true, rest)
  | '+' :: rest => (false, rest)
  | rest => (false, rest)

/-- The exponent part of a decimal: empty, or an `e` and a signed run of at
least one digit. -/
def exponent? : List Char → Option Int
  | [] => some 0
  | mark :: rest =>
    if mark = 'e' ∨ mark = 'E' then
      let (negative, rest) := spanSign rest
      let (digits, rest) := spanDigits rest
      if digits.isEmpty ∨ ¬ rest.isEmpty then none
      else
        -- Beyond seven digits the value does not depend on the exponent.
        let size : Int :=
          if 7 < (digits.dropWhile (· = '0')).length then Nat.pow 10 7
          else digitsValue digits
        some (if negative then -size else size)
    else
      none

/-- Read a decimal number: digits with an optional point, at least one digit
in all, and an optional exponent; or one of the words for infinity and for
no number, in any case. -/
def parse? (format : FloatFormat) (text : String) : Option (Binary format) :=
  let (negative, rest) := spanSign text.toList
  let word := (String.ofList rest).toLower
  if word = "nan" then some (.notANumber negative)
  else if word = "inf" ∨ word = "infinity" then some (.infinite negative)
  else
    let (whole, rest) := spanDigits rest
    let (fraction, rest) :=
      match rest with
      | '.' :: rest => spanDigits rest
      | _ => ([], rest)
    if whole.isEmpty ∧ fraction.isEmpty then none
    else
      (exponent? rest).map fun exponent =>
        toBinary format negative (digitsValue (whole ++ fraction))
          (exponent - fraction.length)

end JsonIntake.Decimal
