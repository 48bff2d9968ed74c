/-! # Rounding to binary64

`roundBinary64` takes a rational to the nearest number with 53 significant bits, a tie going to the
even significand, and below the normal range to the nearest multiple of the least subnormal.  It knows
no greatest exponent; sizes from `overflow` on are those of no finite binary64 number. -/

namespace LambdaStepper.Decimal

/-- An integer power of a base. -/
def power (base : Nat) (k : Int) : Rat :=
  if 0 ≤ k then (Nat.pow base k.toNat : Nat) else 1 / ((Nat.pow base (-k).toNat : Nat) : Rat)

/-- The greatest `k` with `base ^ k ≤ x`, for positive `x`. -/
def floorLog (base : Nat) (x : Rat) : Int :=
  let k : Int := (Nat.toDigits base x.num.natAbs).length - (Nat.toDigits base x.den).length
  if power base k ≤ x then k else k - 1

/-- The nearest integer, a half going to the even one. -/
def roundHalfEven (x : Rat) : Int :=
  let below := x.floor
  let rest := x - below
  if rest < 1 / 2 then below
  else if 1 / 2 < rest then below + 1
  else if below % 2 = 0 then below else below + 1

/-- The absolute value. -/
def magnitude (x : Rat) : Rat :=
  if x < 0 then -x else x

/-- The nearest binary64 number. -/
def roundBinary64 (x : Rat) : Rat :=
  if x = 0 then 0
  else
    let unit := power 2 (max (floorLog 2 (magnitude x) - 52) (-1074))
    roundHalfEven (x / unit) * unit

/-- The least power of two beyond all finite binary64 numbers. -/
def overflow : Rat :=
  power 2 1024

end LambdaStepper.Decimal
