import LambdaStepper.Decimal.Shortest

/-! # Numbers as they are written

Counts and grid sizes are whole and written without a point; coordinates are fractional and always
written with one, even where their value is whole.  The product of a count with a scale is of the
scale's kind.

A fractional number is the binary64 number nearest to a rational (`Number.nearest`).  Binary64 has a
zero with a minus sign, for negative sizes too small, and infinities, for sizes too large. -/

namespace LambdaStepper.Decimal

/-- A number together with the way it is written. -/
inductive Number where
  | whole (n : Int)
  | real (x : Rat)
  | negativeZero
  | infinite (negative : Bool)
  deriving DecidableEq

namespace Number

/-- The fractional number nearest to a rational. -/
def nearest (x : Rat) : Number :=
  let y := roundBinary64 x
  if y = 0 then if x < 0 then .negativeZero else .real 0
  else if overflow ≤ magnitude y then .infinite (decide (x < 0))
  else .real y

/-- The text of a number. -/
def text : Number → String
  | .whole n => toString n
  | .real x => writeReal x
  | .negativeZero => "-0.0"
  | .infinite negative => if negative then "-inf" else "inf"

/-- A number taken `count` times, where `count` is not zero; fractional products are rounded to
binary64. -/
def times (count : Nat) : Number → Number
  | .whole n => .whole (count * n)
  | .real x => nearest (count * x)
  | .negativeZero => .negativeZero
  | .infinite negative => .infinite negative

end Number
end LambdaStepper.Decimal
