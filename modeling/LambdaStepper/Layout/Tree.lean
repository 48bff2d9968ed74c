import LambdaStepper.Decimal.Number
import LambdaStepper.Layout.Fault

/-! # Tree layout

Every node of a term becomes a box, every edge a straight connector from the middle of the lower side
of a box to the middle of the upper side of a box below it.

A subtree is laid out in a block of its own whose left edge is at zero; a parent is centred over the
blocks of its children, which are moved into its block as they are.  At last the whole drawing is
moved so that its bounding box starts at the padding.  All coordinates are exact. -/

namespace LambdaStepper.Layout

open Decimal

/-- The least width of a box for a variable or an application. -/
def minNodeWidth : Nat := 30

/-- The least width of a box for an abstraction. -/
def minAbstractionWidth : Nat := 50

/-- The height of every box. -/
def nodeHeight : Nat := 40

/-- The distance between the blocks of two siblings. -/
def horizontalSpacing : Nat := 25

/-- The distance between a box and the boxes of its children. -/
def verticalSpacing : Nat := 60

/-- The estimated width of a character. -/
def charWidth : Nat := 8

/-- The margin of the text in a box. -/
def textPadding : Nat := 5

/-- The margin of the drawing. -/
def padding : Nat := 30

/-- The least size of a canvas. -/
def minCanvas : Nat × Nat := (200, 100)

/-- The size of the canvas in the place of a drawing that failed. -/
def faultCanvas : Nat × Nat := (300, 100)

/-- The identifier of a drawn element: what it is, and a number unique in the drawing. -/
structure ElementId where
  word : String
  serial : Nat
  deriving DecidableEq, Repr

/-- The text of an identifier. -/
def ElementId.text (id : ElementId) : String :=
  "svg-" ++ id.word ++ "-" ++ toString id.serial

/-- The box of a node. -/
structure Box where
  /-- The identity of the node. -/
  node : Int
  id : ElementId
  kind : NodeKind
  /-- The variable or the parameter; empty for an application. -/
  symbol : String
  tag : Option String
  highlighted : Bool
  x : Rat
  y : Int
  width : Nat
  deriving DecidableEq

/-- A connector between two boxes. -/
structure Connector where
  id : ElementId
  source : ElementId
  target : ElementId
  x1 : Rat
  y1 : Int
  x2 : Rat
  y2 : Int
  highlighted : Bool
  deriving DecidableEq

/-- The text in a box. -/
def caption (kind : NodeKind) (symbol : String) : String :=
  match kind with
  | .variable => symbol
  | .abstraction => "λ" ++ symbol ++ "."
  | .application => "@"

/-- The text in a box. -/
def Box.caption (b : Box) : String :=
  Layout.caption b.kind b.symbol

/-- A box moved to the right and down. -/
def Box.shift (dx : Rat) (dy : Int) (b : Box) : Box :=
  { b with x := b.x + dx, y := b.y + dy }

/-- A connector moved to the right and down. -/
def Connector.shift (dx : Rat) (dy : Int) (c : Connector) : Connector :=
  { c with x1 := c.x1 + dx, y1 := c.y1 + dy, x2 := c.x2 + dx, y2 := c.y2 + dy }

/-- A laid out subtree: the box of its root, the other boxes in pre-order, the connectors, and the
width. -/
structure Block where
  root : Box
  below : List Box
  connectors : List Connector
  width : Nat

/-- All boxes of a block, in pre-order. -/
def Block.boxes (b : Block) : List Box :=
  b.root :: b.below

/-- A block moved to the right. -/
def Block.shift (dx : Rat) (b : Block) : Block :=
  ⟨b.root.shift dx 0, b.below.map (Box.shift dx 0), b.connectors.map (Connector.shift dx 0), b.width⟩

/-- The width of a text in a box. -/
def textWidth (s : String) : Nat :=
  s.length * charWidth + 2 * textPadding

/-- The width of a box, wide enough for its text. -/
def boxWidth (kind : NodeKind) (symbol : String) : Nat :=
  let least := match kind with
    | .abstraction => minAbstractionWidth
    | .variable | .application => minNodeWidth
  max least (textWidth (caption kind symbol))

/-- The upper side of the boxes at a depth. -/
def levelTop (depth : Nat) : Int :=
  depth * (nodeHeight + verticalSpacing)

/-- The connector from a box to the box of a child. -/
def connect (serial : Nat) (parent child : Box) (highlighted : Bool) : Connector :=
  ⟨⟨"connector", serial⟩, parent.id, child.id,
    parent.x + (parent.width : Rat) / 2, parent.y + nodeHeight,
    child.x + (child.width : Rat) / 2, child.y, highlighted⟩

/-- Lays out a term whose root has the given position and depth, numbering elements from `serial` on.
`ids` gives the identity of the node at each position.  The node at position `target` is highlighted,
and so are nodes that are so marked.  The result comes with the next number. -/
def blockFrom (ids : Nat → Int) (target : Option Nat) (position depth serial : Nat) : Term → Block × Nat
  | .var m x =>
    let width := boxWidth .variable x
    let root : Box := ⟨ids position, ⟨NodeKind.variable.word, serial⟩, .variable, x, m.tag,
      target = some position || m.isRedex, 0, levelTop depth, width⟩
    (⟨root, [], [], width⟩, serial + 1)
  | .lam m x body =>
    let (inner, serial) := blockFrom ids target (position + 1) (depth + 1) serial body
    let own := boxWidth .abstraction x
    let width := max own inner.width
    let root : Box := ⟨ids position, ⟨NodeKind.abstraction.word, serial⟩, .abstraction, x, m.tag,
      target = some position || m.isRedex, ((width : Rat) - own) / 2, levelTop depth, own⟩
    let inner := inner.shift (((width : Rat) - inner.width) / 2)
    let edge := connect (serial + 1) root inner.root (target = some position && body.mark.isRedex)
    (⟨root, inner.boxes, inner.connectors ++ [edge], width⟩, serial + 2)
  | .app m func arg =>
    let (left, serial) := blockFrom ids target (position + 1) (depth + 1) serial func
    let (right, serial) := blockFrom ids target (position + 1 + func.size) (depth + 1) serial arg
    let own := boxWidth .application ""
    let span := left.width + horizontalSpacing + right.width
    let width := max own span
    let root : Box := ⟨ids position, ⟨NodeKind.application.word, serial⟩, .application, "", m.tag,
      target = some position || m.isRedex, ((width : Rat) - own) / 2, levelTop depth, own⟩
    let offset := ((width : Rat) - span) / 2
    let left := left.shift offset
    let right := right.shift (offset + left.width + horizontalSpacing)
    let leftEdge := connect (serial + 1) root left.root
      (target = some position && (func.mark.isRedex || func.isAbstraction))
    let rightEdge := connect (serial + 2) root right.root (target = some position && arg.mark.isRedex)
    (⟨root, left.boxes ++ right.boxes, left.connectors ++ right.connectors ++ [leftEdge, rightEdge],
      width⟩, serial + 3)

/-- A tree layout. -/
structure Tree where
  /-- The boxes, in pre-order. -/
  boxes : List Box
  connectors : List Connector
  canvasWidth : Rat
  canvasHeight : Int
  deriving DecidableEq

/-- The right side of a box. -/
def Box.right (b : Box) : Rat :=
  b.x + b.width

/-- The lower side of a box. -/
def Box.bottom (b : Box) : Int :=
  b.y + nodeHeight

/-- The least of some numbers. -/
def least {α : Type} [LT α] [DecidableLT α] (x : α) (xs : List α) : α :=
  xs.foldl (fun m y => if y < m then y else m) x

/-- The greatest of some numbers. -/
def greatest {α : Type} [LT α] [DecidableLT α] (x : α) (xs : List α) : α :=
  xs.foldl (fun m y => if m < y then y else m) x

/-- Moves a block so that its bounding box starts at the padding, on a canvas with the same padding on
the other sides. -/
def Block.place (b : Block) : Tree :=
  let minX := least b.root.x (b.below.map fun box => box.x)
  let maxX := greatest b.root.right (b.below.map Box.right)
  let minY := least b.root.y (b.below.map fun box => box.y)
  let maxY := greatest b.root.bottom (b.below.map Box.bottom)
  let dx := (padding : Rat) - minX
  let dy := (padding : Int) - minY
  ⟨b.boxes.map (Box.shift dx dy), b.connectors.map (Connector.shift dx dy),
    greatest (minCanvas.1 : Rat) [maxX - minX + 2 * padding],
    greatest (minCanvas.2 : Int) [maxY - minY + 2 * padding]⟩

/-- The tree layout of a term whose nodes have the given identities, with the node at the given position
highlighted. -/
def tree (ids : Nat → Int) (target : Option Nat) (t : Term) : Tree :=
  (blockFrom ids target 0 0 0 t).1.place

/-- The tree layout of a draft. -/
def treeDrawing (limits : Limits) (ids : Nat → Int) (target : Option Nat) (d : Draft) : Drawing Tree :=
  d.draw limits false (tree ids target)

/-- The path of a connector. -/
def Connector.path (c : Connector) : String :=
  "M " ++ writeReal c.x1 ++ " " ++ toString c.y1 ++ " L " ++ writeReal c.x2 ++ " " ++ toString c.y2

/-- A horizontal coordinate as it is written: whole only if there is nothing but one box. -/
def Tree.written (t : Tree) (x : Rat) : Number :=
  if t.boxes.length = 1 then .whole x.floor else .real x

/-- The width of the canvas as it is written; the least width is whole. -/
def Tree.writtenWidth (t : Tree) : Number :=
  if t.canvasWidth = minCanvas.1 then .whole minCanvas.1 else t.written t.canvasWidth

theorem levelTop_succ (depth : Nat) :
    levelTop (depth + 1) = levelTop depth + nodeHeight + verticalSpacing := by
  simp only [levelTop, nodeHeight, verticalSpacing]
  omega

end LambdaStepper.Layout
