/-! # Cutting texts

Finding, replacing and cutting inside a text, as functions on lists of characters.  `slice` takes
signed positions: a negative one counts from the end, and positions outside are moved to the nearest
end.

A line ends with a line feed, a carriage return, or a carriage return followed by a line feed; the
ends are dropped.  A text that ends with a line end has no further, empty line behind it. -/

namespace LambdaStepper.Text

/-- What precedes and what follows the first occurrence of `mark`. -/
def splitFirst? (mark : List Char) : List Char → Option (List Char × List Char)
  | [] => if mark.isEmpty then some ([], []) else none
  | c :: cs =>
    if mark.isPrefixOf (c :: cs) then some ([], (c :: cs).drop mark.length)
    else (splitFirst? mark cs).map fun (before, after) => (c :: before, after)

/-- What precedes the first occurrence of `mark`, or the whole text. -/
def beforeFirst (mark cs : List Char) : List Char :=
  match splitFirst? mark cs with
  | some (before, _) => before
  | none => cs

/-- Replaces the occurrences of `mark` from left to right.  The counter holds how many characters
still belong to the occurrence found last. -/
def replaceFrom (mark new : List Char) : (owed : Nat) → List Char → List Char
  | _, [] => []
  | owed + 1, _ :: cs => replaceFrom mark new owed cs
  | 0, c :: cs =>
    if mark.isPrefixOf (c :: cs) then new ++ replaceFrom mark new (mark.length - 1) cs
    else c :: replaceFrom mark new 0 cs

/-- Replaces every occurrence of a non-empty `mark`, from left to right and without overlaps. -/
def replaceAll (mark new cs : List Char) : List Char :=
  if mark.isEmpty then cs else replaceFrom mark new 0 cs

/-- A signed position as a position inside a text of the given length. -/
def clampPosition (length : Nat) (i : Int) : Nat :=
  if i < 0 then (i + length).toNat else min i.toNat length

/-- The part of a text between two signed positions. -/
def slice (cs : List Char) (start stop : Int) : List Char :=
  (cs.take (clampPosition cs.length stop)).drop (clampPosition cs.length start)

/-- Every line end written as a line feed.  The flag tells that the character before was a carriage
return, whose line feed is already out. -/
def unifyLineEnds : (afterReturn : Bool) → List Char → List Char
  | _, [] => []
  | afterReturn, c :: cs =>
    if c = '\r' then '\n' :: unifyLineEnds true cs
    else if c = '\n' && afterReturn then unifyLineEnds false cs
    else c :: unifyLineEnds false cs

/-- The lines of a text whose line ends are line feeds. -/
def splitLines : List Char → List (List Char)
  | [] => []
  | c :: cs =>
    if c = '\n' then [] :: splitLines cs
    else
      match splitLines cs with
      | [] => [[c]]
      | line :: lines => (c :: line) :: lines

/-- The lines of a text. -/
def lines (cs : List Char) : List (List Char) :=
  splitLines (unifyLineEnds false cs)

end LambdaStepper.Text
