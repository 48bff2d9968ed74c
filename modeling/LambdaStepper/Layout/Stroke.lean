import LambdaStepper.Decimal.Number

/-! # Strokes

Diagrams are drawn on a grid, with the lines through the middle of its cells: column `c` at `c + 1/2`
and row `r` at `r + 1/2`.  A stroke is a bar or a wire, or an elbow that goes down its left column,
across a row and up its right column, or lacks one of the two legs.  A bar reaches a third of a cell
beyond its first and last column.

`Stroke.points` gives the exact points of a stroke.  `Stroke.writtenPoints` gives them as they are
written: every number is taken to binary64 first, and each sum is rounded once more. -/

namespace LambdaStepper.Layout

open Decimal

/-- The part a stroke plays in the next redex. -/
inductive Role where
  /-- The stroke belongs to the redex or to the abstraction applied in it. -/
  | primary
  /-- The stroke belongs to the argument about to be substituted. -/
  | secondary
  deriving DecidableEq, Repr

/-- The course of a stroke, in rows and columns of the grid. -/
inductive Course where
  /-- Along a row, over the given columns. -/
  | bar (row first last : Int)
  /-- Down a column. -/
  | wire (top bottom column : Int)
  /-- Down the left column, then across. -/
  | forward (top bottom left right : Int)
  /-- Across, then up the right column. -/
  | backward (top bottom left right : Int)
  /-- Down the left column, across, and up the right column to the row `back`. -/
  | joint (top bottom back left right : Int)
  deriving DecidableEq, Repr

/-- A stroke. -/
structure Stroke where
  course : Course
  tag : Option String := none
  /-- The parameter a bar stands for. -/
  title : Option String := none
  role : Option Role := none
  deriving DecidableEq, Repr

/-- A point of the plane. -/
abbrev Point := Rat × Rat

/-- How far bars reach, and how sums of coordinates are rounded. -/
structure Metric where
  /-- How far a bar reaches beyond its first and last column. -/
  overhang : Rat
  /-- The length of a bar over no columns. -/
  leastBar : Rat
  rounded : Rat → Rat

/-- Exact arithmetic. -/
def Metric.exact : Metric :=
  ⟨1 / 3, 1 / 5, id⟩

/-- Arithmetic on binary64 numbers. -/
def Metric.binary64 : Metric :=
  ⟨roundBinary64 (1 / 3), roundBinary64 (1 / 5), roundBinary64⟩

/-- The middle of a row or column. -/
def Metric.middle (m : Metric) (i : Int) : Rat :=
  m.rounded (m.rounded i + 1 / 2)

@[simp] theorem Metric.middle_exact (i : Int) : Metric.exact.middle i = i + 1 / 2 :=
  rfl

/-- The points a course goes through. -/
def Course.points (m : Metric) : Course → List Point
  | .bar row first last =>
    if last < first then
      [(m.middle first, m.middle row), (m.rounded (m.middle first + m.leastBar), m.middle row)]
    else
      [(m.rounded (m.middle first - m.overhang), m.middle row),
        (m.rounded (m.middle last + m.overhang), m.middle row)]
  | .wire top bottom column => [(m.middle column, m.middle top), (m.middle column, m.middle bottom)]
  | .forward top bottom left right =>
    [(m.middle left, m.middle top), (m.middle left, m.middle bottom),
      (m.middle right, m.middle bottom)]
  | .backward top bottom left right =>
    [(m.middle left, m.middle bottom), (m.middle right, m.middle bottom),
      (m.middle right, m.middle top)]
  | .joint top bottom back left right =>
    [(m.middle left, m.middle top), (m.middle left, m.middle bottom),
      (m.middle right, m.middle bottom), (m.middle right, m.middle back)]

/-- The word for the kind of a course. -/
def Course.word : Course → String
  | .bar .. => "bar"
  | .wire .. => "wire"
  | .forward .. => "fl"
  | .backward .. => "bl"
  | .joint .. => "u"

/-- Whether a course is a bar. -/
def Course.isBar : Course → Bool
  | .bar .. => true
  | _ => false

/-- Whether a course is an elbow. -/
def Course.isElbow : Course → Bool
  | .forward .. | .backward .. | .joint .. => true
  | _ => false

/-- The steps between neighbouring points. -/
def segmentsOf : List Point → List (Point × Point)
  | p :: q :: ps => (p, q) :: segmentsOf (q :: ps)
  | _ => []

/-- The vertical steps of a course: the parts of it that are the wire of a variable. -/
def Course.verticals (m : Metric) (c : Course) : List (Point × Point) :=
  if c.isBar then [] else (segmentsOf (c.points m)).filter fun s => s.1.1 = s.2.1

namespace Stroke

/-- The exact points of a stroke. -/
def points (s : Stroke) : List Point :=
  s.course.points .exact

/-- The exact vertical steps of a stroke. -/
def verticals (s : Stroke) : List (Point × Point) :=
  s.course.verticals .exact

/-- The points of a stroke as they are written. -/
def writtenPoints (s : Stroke) : List Point :=
  s.course.points .binary64

/-- The vertical steps of a stroke as they are written. -/
def writtenVerticals (s : Stroke) : List (Point × Point) :=
  s.course.verticals .binary64

/-- The element that draws a stroke. -/
def element (s : Stroke) : String :=
  if s.writtenPoints.length = 2 then "line" else "polyline"

/-- The points of a stroke in one line. -/
def pointList (s : Stroke) : String :=
  String.intercalate " " (s.writtenPoints.map fun p => writeReal p.1 ++ "," ++ writeReal p.2)

end Stroke

/-- The key of the stroke at a place in the order of drawing. -/
def strokeKey (index : Nat) : String :=
  "tromp-elem-" ++ toString index

end LambdaStepper.Layout
