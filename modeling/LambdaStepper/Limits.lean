import LambdaStepper.Report.Failure
import LambdaStepper.Term.Basic

/-! # Limits

The definitions of this library work on structures of every depth and on numerals of every length.  A
program may still refuse what lies beyond some bound, and says so instead of working on it;
`unlimited` refuses nothing. -/

namespace LambdaStepper

/-- The bounds of what a program works on; no number means no bound. -/
structure Limits where
  /-- The greatest depth of nesting. -/
  depth : Option Nat
  /-- The greatest number of digits that are read or written as one number. -/
  digits : Option Nat
  deriving DecidableEq, Repr

namespace Limits

/-- No bounds. -/
def unlimited : Limits :=
  ⟨none, none⟩

/-- The bounds of the command line and its sessions. -/
def standard : Limits :=
  ⟨some 500, some 4300⟩

/-- Whether structures of a depth are worked on. -/
def allows (limits : Limits) (depth : Nat) : Bool :=
  match limits.depth with
  | none => true
  | some bound => depth ≤ bound

/-- The fault of a number with so many digits, if they are more than are read. -/
def digitsFault? (limits : Limits) (count : Nat) : Option Fault :=
  match limits.digits with
  | none => none
  | some bound => if count ≤ bound then none else some (.tooManyDigits bound count)

/-- The fault of writing a whole number, if it has more digits than are written. -/
def writingFault? (limits : Limits) (n : Int) : Option Fault :=
  match limits.digits with
  | none => none
  | some bound => if (toString n.natAbs).length ≤ bound then none else some (.unwritable bound)

/-- A value computed from structures of the given depth, unless that is beyond the bound. -/
def guarded {α : Type} (limits : Limits) (depth : Nat) (value : Unit → α) : Except Failure α :=
  if limits.allows depth then .ok (value ()) else .error .tooDeep

/-- A term, unless it is nested deeper than the bound. -/
def within (limits : Limits) (t : Term) : Except Failure Term :=
  limits.guarded t.depth fun _ => t

@[simp] theorem allows_unlimited (depth : Nat) : unlimited.allows depth = true :=
  rfl

end Limits
end LambdaStepper
