/-!
# Sizes and ranges

Every size, offset and count is a 64-bit word.  A plain sum, difference or
product has a result only if it is a word; the saturating forms stop at the
largest word instead.  Where a comparison has just bounded the result, as in
`if a ≤ b then b - a`, it is written in the natural numbers.

A range is an offset and a size.  Its end saturates at the largest word, so
"everything from here on" is an ordinary range.
-/

namespace JsonIntake.Size

/-! ## Sizes -/

/-- Number of different words, which is `2 ^ 64`. -/
def limit : Nat := 18446744073709551616

/-- Number of signed words from zero on, which is half of all. -/
def half : Nat := 9223372036854775808

/-- The largest word. -/
def maximum : Nat := limit - 1

def add? (a b : Nat) : Option Nat :=
  if a + b < limit then some (a + b) else none

def sub? (a b : Nat) : Option Nat :=
  if b ≤ a then some (a - b) else none

def mul? (a b : Nat) : Option Nat :=
  if a * b < limit then some (a * b) else none

/-- The sum of a list of sizes, from the first one on. -/
def sum? (sizes : List Nat) : Option Nat := sizes.foldlM add? 0

def addSaturating (a b : Nat) : Nat := min (a + b) maximum

def mulSaturating (a b : Nat) : Nat := min (a * b) maximum

variable {a b c : Nat}

theorem add?_of_lt (hlt : a + b < limit) : add? a b = some (a + b) :=
  if_pos hlt

theorem add?_eq_some_iff : add? a b = some c ↔ a + b < limit ∧ a + b = c := by
  simp [add?]

theorem add?_eq_none_iff : add? a b = none ↔ limit ≤ a + b := by
  simp [add?]

theorem sub?_of_le (hle : b ≤ a) : sub? a b = some (a - b) :=
  if_pos hle

theorem mul?_of_lt (hlt : a * b < limit) : mul? a b = some (a * b) :=
  if_pos hlt

theorem mul?_eq_none_iff : mul? a b = none ↔ limit ≤ a * b := by
  simp [mul?]

end JsonIntake.Size

/-! ## Ranges of the logical byte stream -/

namespace JsonIntake

/-- The bytes `[offset, offset + size)` of a byte stream. -/
structure ByteRange where
  offset : Nat
  size : Nat
deriving DecidableEq, Repr

namespace ByteRange

/-- The range `[start, stop)`; an inverted pair gives an empty range at
`start`. -/
def between (start stop : Nat) : ByteRange := ⟨start, stop - start⟩

/-- Everything from `offset` on, however long the stream is. -/
def toEnd (offset : Nat) : ByteRange := ⟨offset, Size.maximum - offset⟩

/-- Exclusive end offset. -/
def stop (range : ByteRange) : Nat :=
  Size.addSaturating range.offset range.size

def isEmpty (range : ByteRange) : Bool := range.size == 0

/-- The overlap of two ranges, unless it is empty. -/
def intersect (a b : ByteRange) : Option ByteRange :=
  let start := max a.offset b.offset
  let stop := min a.stop b.stop
  if start < stop then some (between start stop) else none

/-- The range in interval notation. -/
def text (range : ByteRange) : String :=
  "[" ++ toString range.offset ++ ", " ++ toString range.stop ++ ")"

end ByteRange

end JsonIntake
