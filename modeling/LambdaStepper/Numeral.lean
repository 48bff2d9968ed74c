import LambdaStepper.Decimal.Number
import LambdaStepper.Report.Failure
import LambdaStepper.Term.Basic
import LambdaStepper.Text.Character

/-! # Church numerals

The numeral `n` is the term that applies its first argument `n` times to its second.  It can be
written as text (`syntaxText`) and as a term (`term`, tagged with its name), and `recognise?` finds
the number a term denotes by following its chain of applications, up to a limit.

A value handed in from outside where a number is expected is a `Scalar`.  Only whole numbers from zero on are
natural; truth values and fractional numbers are not, whatever their value.  Any other scalar is shown in the
fault. -/

namespace LambdaStepper

open Decimal in
/-- A value from outside. -/
inductive Scalar where
  | none
  | truth (b : Bool)
  | number (n : Number)
  | text (s : String)
  deriving DecidableEq

/-- A scalar as it is shown. -/
def Scalar.shown : Scalar → String
  | .none => "None"
  | .truth b => if b then "True" else "False"
  | .number n => n.text
  | .text s => Text.quoted s

/-- The natural number that a scalar is. -/
def Scalar.natural? : Scalar → Except Fault Nat
  | .number (.whole n) =>
    if 0 ≤ n then .ok n.toNat else .error (.notNatural (Scalar.number (.whole n)).shown)
  | scalar => .error (.notNatural scalar.shown)

namespace Numeral

open Text

/-- The greatest number of applications followed in recognising a numeral. -/
def maxApplications : Nat :=
  200

/-- Whether a text ends here, or at a single line feed before its end. -/
def atEnd : List Char → Bool
  | [] => true
  | ['\n'] => true
  | _ => false

/-- Whether a text is an underscore followed by decimal digits, a line feed at the end aside. -/
def isNumeralName : List Char → Bool
  | '_' :: c :: cs => isDecimalDigit c && atEnd (cs.dropWhile isDecimalDigit)
  | _ => false

/-- Whether a tag names a numeral. -/
def isTag : Option String → Bool
  | some tag => isNumeralName tag.toList
  | none => false

/-- The name of a numeral. -/
def name (n : Nat) : String :=
  "_" ++ toString n

/-- The body of a written numeral: the variable `x` under `n` applications of `f`, every argument but
the variable in parentheses. -/
def syntaxBody : Nat → List Char
  | 0 => ['x']
  | n + 1 =>
    (List.replicate n ['f', ' ', '(']).flatten ++ ['f', ' ', 'x'] ++ List.replicate n ')'

/-- A numeral as it is written. -/
def syntaxText (n : Nat) : List Char :=
  ['λ', 'f', '.', 'λ', 'x', '.', ' '] ++ syntaxBody n

/-- The variable `x` under `n` applications of the variable `f`. -/
def chain (f x : String) : Nat → Term
  | 0 => .var {} x
  | n + 1 => .app {} (.var {} f) (chain f x n)

/-- A numeral as a term, tagged with its name. -/
def term (n : Nat) : Term :=
  .lam { tag := some (name n) } "f" (.lam {} "x" (chain "f" "x" n))

/-- The length of a chain of applications of the variable `f` that ends in the variable `x`. -/
def chainLength? (f x : String) : Term → Option Nat
  | .var _ y => if y = x then some 0 else none
  | .app _ (.var _ g) arg => if g = f then (chainLength? f x arg).map (· + 1) else none
  | _ => none

/-- The number that a term denotes if it is a numeral.  Where the inner binder hides the outer one,
only zero can be meant. -/
def recognise? : Term → Option Nat
  | .lam _ f (.lam _ x body) =>
    if f = x then
      match body with
      | .var _ y => if y = x then some 0 else none
      | _ => none
    else (chainLength? f x body).filter (· ≤ maxApplications)
  | _ => none

theorem syntaxBody_succ_succ (n : Nat) :
    syntaxBody (n + 2) = ['f', ' ', '('] ++ syntaxBody (n + 1) ++ [')'] := by
  simp [syntaxBody, List.replicate_succ, ← List.replicate_succ']

end Numeral
end LambdaStepper
