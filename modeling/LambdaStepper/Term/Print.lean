import LambdaStepper.Limits
import LambdaStepper.Numeral

/-! # Printing terms

Terms are printed with the fewest parentheses: abstractions and applications take them as functions
and as arguments only, since application associates to the left and bodies reach as far as they can.

A style fixes what is printed for names and nodes.  As written, names appear as they are stored;
canonically, every binder gets the next name of `@a`, `@b`, …, `@z`, `@26`, `@27`, …, counted over
the whole term in pre-order, so that terms that differ in bound names only print alike
(`alphaEquals`). -/

namespace LambdaStepper

/-- Where a term is printed. -/
inductive PrintContext where
  | func
  | arg
  | body
  | top
  deriving DecidableEq, Repr

/-- The context of the given name. -/
def PrintContext.ofName (name : String) : Except Fault PrintContext :=
  if name = "func" then .ok .func
  else if name = "arg" then .ok .arg
  else if name = "body" then .ok .body
  else if name = "top" then .ok .top
  else .error (.unknownContext name)

/-- How names and nodes are printed. -/
structure PrintStyle where
  /-- Whether binders get canonical names. -/
  canonical : Bool := false
  /-- Whether a node tagged with a numeral prints as its tag. -/
  numerals : Bool := true
  /-- What to print for a node instead of its structure. -/
  atom? : Term → Option String := fun _ => none

namespace PrintStyle

/-- Names as stored, numerals by their tags. -/
def written : PrintStyle :=
  {}

/-- Canonical names, numerals by their tags. -/
def canonicalNames : PrintStyle :=
  { canonical := true }

/-- Canonical names and nothing but structure, which decides alpha-equivalence. -/
def structural : PrintStyle :=
  { canonical := true, numerals := false }

end PrintStyle

namespace Term

/-- Whether a term has to be put in parentheses in a context. -/
def needsParentheses : Term → PrintContext → Bool
  | .var .., _ => false
  | .lam .., context => context = .func || context = .arg
  | .app .., context => context = .func || context = .arg

/-- The canonical name of a binder: a letter for the first 26, then the number itself. -/
def canonicalName (index : Nat) : String :=
  if index < 26 then String.ofList ['@', Char.ofNat (97 + index)] else "@" ++ toString index

/-- Text put in parentheses where a term needs them. -/
def bracket (t : Term) (context : PrintContext) (cs : List Char) : List Char :=
  if t.needsParentheses context then '(' :: cs ++ [')'] else cs

/-- What is printed for a node instead of its structure, if anything. -/
def atomText? (style : PrintStyle) (t : Term) : Option String :=
  match style.atom? t with
  | some s => some s
  | none => if style.numerals && Numeral.isTag t.tag then t.tag else none

/-- Prints a term inside binders whose printed names are given, the innermost first, when `counter`
binders have been named so far.  The result comes with the new count. -/
def printFrom (style : PrintStyle) (scope : List (String × String)) (counter : Nat)
    (context : PrintContext) : Term → List Char × Nat
  | .var m x =>
    let cs :=
      match atomText? style (.var m x) with
      | some s => s.toList
      | none => ((scope.lookup x).getD x).toList
    (bracket (.var m x) context cs, counter)
  | .lam m x body =>
    match atomText? style (.lam m x body) with
    | some s => (bracket (.lam m x body) context s.toList, counter)
    | none =>
      let param := if style.canonical then canonicalName counter else x
      let scope := if style.canonical then (x, param) :: scope else scope
      let counter := if style.canonical then counter + 1 else counter
      let (inner, counter) := printFrom style scope counter .body body
      (bracket (.lam m x body) context ('λ' :: param.toList ++ '.' :: inner), counter)
  | .app m func arg =>
    match atomText? style (.app m func arg) with
    | some s => (bracket (.app m func arg) context s.toList, counter)
    | none =>
      let (left, counter) := printFrom style scope counter .func func
      let (right, counter) := printFrom style scope counter .arg arg
      (bracket (.app m func arg) context (left ++ ' ' :: right), counter)

/-- A term printed in the given style and context. -/
def print (style : PrintStyle) (context : PrintContext) (t : Term) : String :=
  String.ofList (printFrom style [] 0 context t).1

/-- A term as it is shown: names as stored, numerals by their tags. -/
def shown (t : Term) : String :=
  t.print .written .top

/-- The canonical printing of a term, numerals by their tags. -/
def canonicalText (t : Term) : String :=
  t.print .canonicalNames .top

/-- Whether two terms differ in the names of bound variables only: whether their canonical
structures print alike. -/
def alphaEquals (t u : Term) : Bool :=
  t.print .structural .top = u.print .structural .top

/-- How deep printing descends.  A node that prints as its numeral tag is not entered. -/
def printDepth (numerals : Bool) : Term → Nat
  | .var .. => 1
  | .lam m _ body => if numerals && Numeral.isTag m.tag then 1 else body.printDepth numerals + 1
  | .app m func arg =>
    if numerals && Numeral.isTag m.tag then 1
    else max (func.printDepth numerals) (arg.printDepth numerals) + 1

/-- A printed term, unless printing descends beyond the depth limit. -/
def printWithin (limits : Limits) (style : PrintStyle) (context : PrintContext) (t : Term) :
    Except Failure String :=
  limits.guarded (t.printDepth style.numerals) fun _ => t.print style context

/-- A shown term, unless printing descends beyond the depth limit. -/
def shownWithin (limits : Limits) (t : Term) : Except Failure String :=
  t.printWithin limits .written .top

/-- The name of the root's kind with the shown term. -/
def describe (t : Term) : String :=
  t.kind.typeName ++ "('" ++ t.shown ++ "')"

/-- The canonical name at a signed index.  Below zero the characters before the letters are used. -/
def signedCanonicalName (index : Int) : Except Fault String :=
  if 0 ≤ index then .ok (canonicalName index.toNat)
  else if 0 ≤ 97 + index then .ok (String.ofList ['@', Char.ofNat (97 + index).toNat])
  else .error .noCharacter

end Term
end LambdaStepper
