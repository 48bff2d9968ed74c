import LambdaStepper.Layout.Fault
import LambdaStepper.Layout.Stroke

/-! # Tromp diagrams

A closed term is drawn on an integer grid.  An abstraction is a bar over the columns of its body, a
variable a wire from the bar of its binder down to its own row, and an application an elbow that
joins the wires of its function and its argument.

A function still owes its right wire to the application around it and an argument its left one
(`Owes`); the elbow of an application lacks the leg it owes.  What is owed starts at the `hook` of a
drawing, and the caller draws it. -/

namespace LambdaStepper.Layout

/-- The wire that a subterm leaves to the application around it. -/
inductive Owes where
  | nothing
  | left
  | right
  deriving DecidableEq, Repr

/-- What a variable needs to know of its binder: the row of the bar, and the tag of its wires. -/
structure Binding where
  row : Nat
  tag : Option String
  deriving DecidableEq, Repr

/-- A drawn subterm. -/
structure Sketch where
  /-- The row below the last one used. -/
  bottom : Nat
  /-- The column behind the last one used. -/
  right : Nat
  /-- Row and column where the owed wire starts. -/
  hook : Nat × Nat
  /-- The strokes in the order of drawing. -/
  strokes : List Stroke
  deriving DecidableEq, Repr

/-- The tag of a node, or the one of the named term around it.  An empty tag counts as none. -/
def inheritTag (own outer : Option String) : Option String :=
  match own with
  | some tag => if tag.isEmpty then outer else some tag
  | none => outer

/-- The elbow of an application whose function and argument leave wires at the given hooks. -/
def elbow (owes : Owes) (bottom : Nat) (left right : Nat × Nat) : Course :=
  match owes with
  | .nothing => .joint left.1 bottom right.1 left.2 right.2
  | .left => .backward right.1 bottom left.2 right.2
  | .right => .forward left.1 bottom left.2 right.2

/-- Draws a term with its upper left corner at the given row and column.  `scope` tells the binding of
each name in scope, `tag` the tag of the named term around the term, and `role` the part that the
surroundings play in the redex at position `target`.  A name out of scope is drawn as if bound in the
first row; drawings of open terms are never shown. -/
def sketch (target : Option Nat) (position : Nat) (owes : Owes) (row column : Nat)
    (scope : List (String × Binding)) (tag : Option String) (role : Option Role) : Term → Sketch
  | .var m x =>
    let binding := (scope.lookup x).getD ⟨0, none⟩
    let tag := inheritTag binding.tag (inheritTag m.tag tag)
    if owes = .nothing then
      ⟨row + 1, column + 1, (binding.row, column), [⟨.wire binding.row row column, tag, none, role⟩]⟩
    else ⟨row, column + 1, (binding.row, column), []⟩
  | .lam m x body =>
    let tag := inheritTag m.tag tag
    let inner := sketch target (position + 1) owes (row + 1) column ((x, ⟨row, tag⟩) :: scope) tag role
      body
    { inner with
      strokes := inner.strokes ++ [⟨.bar row column ((inner.right : Int) - 1), tag, some x, role⟩] }
  | .app m func arg =>
    let tag := inheritTag m.tag tag
    let isTarget := target = some position
    let own := if isTarget then some .primary else role
    let argRole := if isTarget then some .secondary else role
    let left := sketch target (position + 1) .right row column scope tag own func
    let right := sketch target (position + 1 + func.size) .left row left.right scope tag argRole arg
    let bottom := max left.bottom right.bottom
    let hook := if owes = .right then right.hook else left.hook
    ⟨bottom + 1, right.right, hook,
      left.strokes ++ right.strokes ++ [⟨elbow owes bottom left.hook right.hook, tag, none, own⟩]⟩

/-- A Tromp diagram: its strokes and the size of its grid. -/
structure Circuit where
  strokes : List Stroke
  width : Nat
  height : Nat
  deriving DecidableEq, Repr

/-- The Tromp diagram of a closed term, with the redex at the given position highlighted. -/
def circuit (target : Option Nat) (t : Term) : Circuit :=
  let whole := sketch target 0 .nothing 0 0 [] none none t
  ⟨whole.strokes, max 1 whole.right, max 1 whole.bottom⟩

/-- The Tromp diagram of a draft, which must be a closed term. -/
def circuitDrawing (limits : Limits) (target : Option Nat) (d : Draft) : Drawing Circuit :=
  d.draw limits true (circuit target)

/-- The scale of diagrams, in pixels per cell, where none is given. -/
def defaultScale : Nat :=
  20

/-- The rectangle that a grid of the given size shows. -/
def viewBox (width height : Nat) : String :=
  "0 0 " ++ toString width ++ " " ++ toString height

theorem circuitDrawing_of_free {target : Option Nat} {t : Term} {x : String} {xs : List String}
    (h : t.freeNames [] = x :: xs) :
    circuitDrawing .unlimited target (.ofTerm t) = .failed (.freeVariable x) := by
  simp [circuitDrawing, Draft.draw, Draft.firstFault?_ofTerm, h]

end LambdaStepper.Layout
