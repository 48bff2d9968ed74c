/-! # Reading UTF-8

`decodeUtf8` reads a whole sequence of octets as characters, or names the first octet at which the
sequence stops being UTF-8 and why.  The first octet of a character fixes how many follow and which
values the second may take; every further octet lies between 0x80 and 0xBF.

Octets are read in blocks, and a fault is placed in its block.  A character that the end of a block
cuts off is held back and put in front of the next block; the end of the octets counts as one more,
empty block.  So are the first two octets of a surrogate, which no third octet can save. -/

namespace LambdaStepper.Text

/-- Why a sequence of octets is not UTF-8 at some place. -/
inductive EncodingProblem where
  /-- No character starts with the octet. -/
  | badStart (octet : Nat)
  /-- The octet starts a character, but a following octet does not continue it. -/
  | badContinuation (octet : Nat)
  /-- The sequence ends inside a character. -/
  | truncated (octet : Nat)
  deriving DecidableEq, Repr

/-- A problem together with the octets it concerns: `width` of them from `position` on. -/
structure EncodingFault where
  problem : EncodingProblem
  position : Nat
  width : Nat
  deriving DecidableEq, Repr

/-- The wording of a fault. -/
def EncodingFault.message (f : EncodingFault) : String :=
  let octet (n : Nat) : String :=
    String.ofList ('0' :: 'x' :: (if n < 16 then ['0'] else []) ++ Nat.toDigits 16 n)
  let place (n : Nat) : String :=
    if f.width ≤ 1 then "byte " ++ octet n ++ " in position " ++ toString f.position
    else "bytes in position " ++ toString f.position ++ "-" ++ toString (f.position + f.width - 1)
  "'utf-8' codec can't decode " ++
    match f.problem with
    | .badStart n => place n ++ ": invalid start byte"
    | .badContinuation n => place n ++ ": invalid continuation byte"
    | .truncated n => place n ++ ": unexpected end of data"

/-- How many octets follow a first octet, the bits it contributes, and the least and greatest value
of the second octet. -/
def leadOctet? (b : Nat) : Option (Nat × Nat × Nat × Nat) :=
  if b < 0x80 then some (0, b, 0x80, 0xBF)
  else if b < 0xC2 then none
  else if b < 0xE0 then some (1, b - 0xC0, 0x80, 0xBF)
  else if b = 0xE0 then some (2, 0, 0xA0, 0xBF)
  else if b = 0xED then some (2, 0xD, 0x80, 0x9F)
  else if b < 0xF0 then some (2, b - 0xE0, 0x80, 0xBF)
  else if b = 0xF0 then some (3, 0, 0x90, 0xBF)
  else if b < 0xF4 then some (3, b - 0xF0, 0x80, 0xBF)
  else if b = 0xF4 then some (3, 4, 0x80, 0x8F)
  else none

/-- A character whose first octets have been read. -/
structure PartialChar where
  /-- The first octet. -/
  lead : Nat
  /-- How many octets have been read. -/
  seen : Nat
  /-- How many octets are still to come. -/
  owed : Nat
  /-- The bits read so far. -/
  bits : Nat
  /-- The least and the greatest value of the next octet. -/
  low : Nat
  high : Nat

/-- Whether an octet behind the first one makes a surrogate of a character. -/
def PartialChar.isSurrogate (p : PartialChar) (b : Nat) : Bool :=
  p.lead = 0xED && p.seen = 1 && 0xA0 ≤ b && b ≤ 0xBF

/-- The number of octets in a block. -/
def blockSize : Nat :=
  8192

/-- Where the next octet stands: its position in its block, the octets held back from the block before
included, and how many octets of the block are left. -/
structure Place where
  position : Nat
  left : Nat

/-- The place of the next octet when `held` octets of a character have been read: at the end of a block
it is in the next one, behind those that are held back. -/
def Place.refill (p : Place) (held : Nat) : Place :=
  if p.left = 0 then ⟨held, blockSize⟩ else p

/-- The place one octet further. -/
def Place.advance (p : Place) : Place :=
  ⟨p.position + 1, p.left - 1⟩

/-- The place of a fault at an octet of a character: at the start of the character, which is the start of
the next block for a surrogate that the end of the block or of the octets cuts off. -/
def PartialChar.faultPosition (p : PartialChar) (b : Nat) (place : Place) (isLast : Bool) : Nat :=
  if p.isSurrogate b && (isLast || place.left = 1) then 0 else place.position - p.seen

/-- Reads octets from a place on, inside the given character or between two. -/
def decodeFrom (place : Place) : Option PartialChar → List Nat → Except EncodingFault (List Char)
  | none, [] => .ok []
  | some p, [] => .error ⟨.truncated p.lead, 0, p.seen⟩
  | none, b :: bs =>
    let place := place.refill 0
    match leadOctet? b with
    | none => .error ⟨.badStart b, place.position, 1⟩
    | some (0, bits, _, _) => (decodeFrom place.advance none bs).map (Char.ofNat bits :: ·)
    | some (owed + 1, bits, low, high) =>
      decodeFrom place.advance (some ⟨b, 1, owed + 1, bits, low, high⟩) bs
  | some p, b :: bs =>
    let place := place.refill p.seen
    if b < p.low || p.high < b then
      .error ⟨.badContinuation p.lead, p.faultPosition b place bs.isEmpty, p.seen⟩
    else
      let bits := 64 * p.bits + (b - 0x80)
      if p.owed ≤ 1 then (decodeFrom place.advance none bs).map (Char.ofNat bits :: ·)
      else decodeFrom place.advance (some ⟨p.lead, p.seen + 1, p.owed - 1, bits, 0x80, 0xBF⟩) bs

/-- The characters that a sequence of octets encodes. -/
def decodeUtf8 (octets : List UInt8) : Except EncodingFault (List Char) :=
  decodeFrom ⟨0, blockSize⟩ none (octets.map UInt8.toNat)

end LambdaStepper.Text
