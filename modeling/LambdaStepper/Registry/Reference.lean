import LambdaStepper.Registry.Basic
import LambdaStepper.Syntax.OriginMark
import LambdaStepper.Text.Character

/-! # References

A reference is an underscore and a label: the digits of a numeral or the name of an entry.  It may not
stand right behind a letter, a digit, an underscore, an apostrophe or the opening of an origin mark.

`segments` cuts a text into plain characters and references, of which `text_segments` says that
nothing is lost. -/

namespace LambdaStepper.Syntax

/-- Whether a character may start the name of an entry. -/
def isLetter (c : Char) : Bool :=
  ('A' ≤ c && c ≤ 'Z') || ('a' ≤ c && c ≤ 'z')

/-- Whether a character may continue a word: the letters and digits of ASCII, the underscore and the
apostrophe. -/
def isWordChar (c : Char) : Bool :=
  isLetter c || ('0' ≤ c && c ≤ '9') || c = '_' || c = '\''

/-- Whether a reference may stand behind the given character. -/
def mayFollow : Option Char → Bool
  | none => true
  | some c => !isWordChar c && c != markOpen

/-- Whether a text goes on with a character of a word. -/
def continuesWord : List Char → Bool
  | [] => false
  | c :: _ => isWordChar c

/-- The length of the longest run of decimal digits that no character of a word follows. -/
def numeralLabel? : List Char → Option Nat
  | [] => none
  | c :: cs =>
    if Text.isDecimalDigit c then
      match numeralLabel? cs with
      | some n => some (n + 1)
      | none => if continuesWord cs then none else some 1
    else none

/-- The length of the name of an entry that a text starts with. -/
def nameLabel? : List Char → Option Nat
  | [] => none
  | c :: cs => if isLetter c then some ((cs.takeWhile isWordChar).length + 1) else none

/-- A piece of a text. -/
inductive Segment where
  | plain (c : Char)
  /-- An underscore and the label behind it. -/
  | reference (label : List Char)
  deriving DecidableEq, Repr

/-- The text of a segment. -/
def Segment.text : Segment → List Char
  | .plain c => [c]
  | .reference label => '_' :: label

/-- Cuts a text into segments, from left to right.  `label?` gives the length of the label that a
text starts with, `before` is the character before the text, and the counter holds how many
characters still belong to the reference found last. -/
def segmentsFrom (label? : List Char → Option Nat) :
    (owed : Nat) → (before : Option Char) → List Char → List Segment
  | _, _, [] => []
  | owed + 1, _, c :: cs => segmentsFrom label? owed (some c) cs
  | 0, before, c :: cs =>
    if c = '_' && mayFollow before then
      match label? cs with
      | some n => .reference (cs.take n) :: segmentsFrom label? n (some c) cs
      | none => .plain c :: segmentsFrom label? 0 (some c) cs
    else .plain c :: segmentsFrom label? 0 (some c) cs

/-- The segments of a text for references with the given labels. -/
def segments (label? : List Char → Option Nat) (cs : List Char) : List Segment :=
  segmentsFrom label? 0 none cs

/-- The names of entries a text refers to, in order. -/
def referencedNames (cs : List Char) : List String :=
  (segments nameLabel? cs).filterMap fun segment =>
    match segment with
    | .plain _ => none
    | .reference label => some (String.ofList label)

theorem text_segmentsFrom (label? : List Char → Option Nat) (owed : Nat) (before : Option Char)
    (cs : List Char) : (segmentsFrom label? owed before cs).flatMap Segment.text = cs.drop owed := by
  induction cs generalizing owed before with
  | nil => simp [segmentsFrom]
  | cons c cs ih =>
    cases owed with
    | succ owed => simp [segmentsFrom, ih]
    | zero =>
      rw [segmentsFrom]
      split
      · next hc =>
        simp only [Bool.and_eq_true, decide_eq_true_eq] at hc
        split
        · simp [Segment.text, ih, hc.1]
        · simp [Segment.text, ih]
      · simp [Segment.text, ih]

theorem text_segments (label? : List Char → Option Nat) (cs : List Char) :
    (segments label? cs).flatMap Segment.text = cs := by
  simp [segments, text_segmentsFrom]

end LambdaStepper.Syntax

namespace LambdaStepper

/-- The names that the definition of an entry refers to. -/
def NamedTerm.references (entry : NamedTerm) : List String :=
  Syntax.referencedNames entry.definition.toList

end LambdaStepper
