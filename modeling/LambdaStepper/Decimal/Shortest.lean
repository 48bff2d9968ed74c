import LambdaStepper.Decimal.Binary64

/-! # The shortest decimal that reads back

A binary64 number is written with the fewest digits that round back to it, and among those with the
nearest ones, or the even ones of two that are as near.  `DecimalFormat` holds what is a matter of format: which sizes are written with a
point at its place and which with an exponent. -/

namespace LambdaStepper.Decimal

/-- `digits * 10 ^ exponent`. -/
structure DecimalDigits where
  digits : Nat
  exponent : Int
  deriving DecidableEq, Repr

/-- The number a decimal denotes. -/
def DecimalDigits.value (d : DecimalDigits) : Rat :=
  d.digits * power 10 d.exponent

/-- The nearer of two neighbouring decimals around `x`, the even one if they are as near. -/
def nearer (x : Rat) (below above : DecimalDigits) : DecimalDigits :=
  let left := x - below.value
  let right := above.value - x
  if left < right then below
  else if right < left then above
  else if below.digits % 2 = 0 then below else above

/-- The nearest decimal of `precision` digits that rounds back to the positive number `x`. -/
def readsBackWith? (x : Rat) (precision : Nat) : Option DecimalDigits :=
  let exponent := floorLog 10 x - (precision : Int) + 1
  let below := (x / power 10 exponent).floor.toNat
  let candidates := [below, below + 1].map fun m => DecimalDigits.mk m exponent
  match candidates.filter fun d => roundBinary64 d.value = x with
  | [] => none
  | [d] => some d
  | d :: e :: _ => some (nearer x d e)

/-- The shortest decimal that rounds back to the positive binary64 number `x`; seventeen digits
always do. -/
def shortest (x : Rat) : DecimalDigits :=
  ((List.range 17).findSome? fun p => readsBackWith? x (p + 1)).getD ⟨0, 0⟩

/-- Where the notation with an exponent takes over, by the power of ten of the leading digit. -/
structure DecimalFormat where
  /-- The least power still written with zeros behind the point. -/
  leastPlain : Int
  /-- The least power written with an exponent again. -/
  leastLarge : Int
  /-- The least number of digits of an exponent. -/
  exponentWidth : Nat

/-- Coordinates and other fractional numbers are written plainly from 0.0001 up to, but not
including, ten to the sixteenth. -/
def coordinateFormat : DecimalFormat :=
  ⟨-4, 16, 2⟩

/-- Digits with a point before the last `places`, at least one digit on each side of it. -/
def withPoint (digits : List Char) (places : Nat) : List Char :=
  let padded := List.replicate (places + 1 - digits.length) '0' ++ digits
  padded.take (padded.length - places) ++ '.' :: padded.drop (padded.length - places)

/-- A decimal without trailing zeros among its digits. -/
def stripZeros : (fuel : Nat) → DecimalDigits → DecimalDigits
  | 0, d => d
  | fuel + 1, d =>
    if d.digits % 10 = 0 && d.digits ≠ 0 then stripZeros fuel ⟨d.digits / 10, d.exponent + 1⟩ else d

/-- A positive decimal in the given format. -/
def DecimalFormat.write (format : DecimalFormat) (decimal : DecimalDigits) : List Char :=
  let d := stripZeros (Nat.toDigits 10 decimal.digits).length decimal
  let digits := Nat.toDigits 10 d.digits
  let leading := d.exponent + digits.length - 1
  if format.leastPlain ≤ leading && leading < format.leastLarge then
    if 0 ≤ d.exponent then digits ++ List.replicate d.exponent.toNat '0' ++ ['.', '0']
    else withPoint digits (-d.exponent).toNat
  else
    let exponent := Nat.toDigits 10 leading.natAbs
    let mantissa :=
      match digits with
      | [] => []
      | [c] => [c]
      | c :: rest => c :: '.' :: rest
    mantissa ++ 'e' :: (if leading < 0 then '-' else '+') ::
      List.replicate (format.exponentWidth - exponent.length) '0' ++ exponent

/-- The text of a binary64 number. -/
def writeReal (x : Rat) : String :=
  if x = 0 then "0.0"
  else
    let unsigned := coordinateFormat.write (shortest (magnitude x))
    String.ofList (if x < 0 then '-' :: unsigned else unsigned)

end LambdaStepper.Decimal
