import LambdaStepper.Limits
import LambdaStepper.Numeral
import LambdaStepper.Registry.Reference

/-! # Expanding references

Expansion replaces every numeral reference by the written numeral and every reference to an entry by
its definition, in parentheses, and repeats this until nothing changes, at most `maxPasses` times.  A
reference to no entry stays as it is and becomes a free variable.  In a marked expansion the opening
parenthesis is followed by the origin mark of the reference.

`expandWithin` refuses numerals of too many digits; `expandWithin_unlimited` says that without a limit
it is `expand`. -/

namespace LambdaStepper.Registry

open Syntax

/-- The greatest number of passes over a text. -/
def maxPasses : Nat :=
  10

/-- A definition in parentheses, with an origin mark in a marked expansion. -/
def wrap (marked : Bool) (tag definition : List Char) : List Char :=
  '(' :: (if marked then writeMark tag else []) ++ definition ++ [')']

/-- What a segment becomes when numeral references are expanded. -/
def expandNumeral (marked : Bool) : Segment → List Char
  | .plain c => [c]
  | .reference label =>
    wrap marked ('_' :: label) (Numeral.syntaxText (Text.digitsValue label))

/-- What a segment becomes when references to entries are expanded. -/
def expandName (r : Registry) (marked : Bool) : Segment → List Char
  | .plain c => [c]
  | .reference label =>
    match r.lookup (String.ofList label) with
    | some entry => wrap marked entry.tag.toList entry.definition.toList
    | none => '_' :: label

/-- One pass: numeral references first, then references to entries. -/
def expandOnce (r : Registry) (marked : Bool) (cs : List Char) : List Char :=
  let numerals := (segments numeralLabel? cs).flatMap (expandNumeral marked)
  (segments nameLabel? numerals).flatMap (r.expandName marked)

/-- Passes over a text until nothing changes, at most the given number of them. -/
def expandPasses (r : Registry) (marked : Bool) : (passes : Nat) → List Char → List Char
  | 0, cs => cs
  | passes + 1, cs =>
    let expanded := r.expandOnce marked cs
    if expanded = cs then cs else expandPasses r marked passes expanded

/-- A text with its references expanded. -/
def expand (r : Registry) (marked : Bool) (cs : List Char) : List Char :=
  r.expandPasses marked maxPasses cs

/-- The fault of the first numeral reference with more digits than are read. -/
def overlongNumeral? (limits : Limits) (cs : List Char) : Option Fault :=
  (segments numeralLabel? cs).findSome? fun segment =>
    match segment with
    | .plain _ => none
    | .reference label => limits.digitsFault? label.length

/-- Passes over a text inside the limits. -/
def expandPassesWithin (limits : Limits) (r : Registry) (marked : Bool) :
    (passes : Nat) → List Char → Except Fault (List Char)
  | 0, cs => .ok cs
  | passes + 1, cs =>
    match overlongNumeral? limits cs with
    | some fault => .error fault
    | none =>
      let expanded := r.expandOnce marked cs
      if expanded = cs then .ok cs else expandPassesWithin limits r marked passes expanded

/-- A text with its references expanded inside the limits. -/
def expandWithin (limits : Limits) (r : Registry) (marked : Bool) (cs : List Char) :
    Except Fault (List Char) :=
  r.expandPassesWithin limits marked maxPasses cs

theorem overlongNumeral?_unlimited (cs : List Char) : overlongNumeral? .unlimited cs = none := by
  rw [overlongNumeral?, List.findSome?_eq_none_iff]
  intro segment _
  cases segment <;> rfl

theorem expandPassesWithin_unlimited (r : Registry) (marked : Bool) (passes : Nat)
    (cs : List Char) :
    r.expandPassesWithin .unlimited marked passes cs = .ok (r.expandPasses marked passes cs) := by
  induction passes generalizing cs with
  | zero => rfl
  | succ passes ih =>
    simp only [expandPassesWithin, overlongNumeral?_unlimited, expandPasses]
    split
    · rfl
    · exact ih _

theorem expandWithin_unlimited (r : Registry) (marked : Bool) (cs : List Char) :
    r.expandWithin .unlimited marked cs = .ok (r.expand marked cs) :=
  expandPassesWithin_unlimited r marked maxPasses cs

end LambdaStepper.Registry
