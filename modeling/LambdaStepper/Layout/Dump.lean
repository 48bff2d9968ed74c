import LambdaStepper.Json
import LambdaStepper.Layout.Circuit
import LambdaStepper.Layout.Tree

/-! # Layouts as JSON

What other programs need to draw a layout.  Nodes are referred to by their identities, in the form `node-N`. -/

namespace LambdaStepper.Layout

open Decimal

/-- A horizontal coordinate of a tree. -/
def Tree.number (t : Tree) (x : Rat) : Json :=
  .number (t.written x)

/-- The identity of a node. -/
def nodeId (n : Int) : String :=
  "node-" ++ toString n

/-- A box. -/
def Box.json (t : Tree) (b : Box) : Json :=
  .object
    [("id", .text (nodeId b.node)),
     ("svg_id", .text b.id.text),
     ("type", .text b.kind.word),
     ("x", t.number b.x),
     ("y", .whole b.y),
     ("width", .whole b.width),
     ("height", .whole nodeHeight),
     ("is_highlighted", .bool b.highlighted),
     ("tag", .ofText? b.tag),
     ("name", if b.kind = .variable then .text b.symbol else .null),
     ("param", if b.kind = .abstraction then .text b.symbol else .null)]

/-- A connector. -/
def Connector.json (t : Tree) (c : Connector) : Json :=
  .object
    [("id", .text c.id.text),
     ("from_id", .text c.source.text),
     ("to_id", .text c.target.text),
     ("x1", t.number c.x1),
     ("y1", .whole c.y1),
     ("x2", t.number c.x2),
     ("y2", .whole c.y2),
     ("is_highlighted", .bool c.highlighted)]

/-- Width and height of the canvas of a tree layout. -/
def treeCanvas : Drawing Tree → Number × Number
  | .blank => (.whole 0, .whole 0)
  | .failed _ => (.whole faultCanvas.1, .whole faultCanvas.2)
  | .drawn t => (t.writtenWidth, .whole t.canvasHeight)

/-- A tree layout. -/
def treeJson (d : Drawing Tree) : Json :=
  let (nodes, connectors) : List Json × List Json :=
    match d with
    | .drawn t => (t.boxes.map (Box.json t), t.connectors.map (Connector.json t))
    | _ => ([], [])
  .object
    [("nodes", .list nodes),
     ("connectors", .list connectors),
     ("canvas_width", .number (treeCanvas d).1),
     ("canvas_height", .number (treeCanvas d).2),
     ("error", .ofText? d.error?)]

/-- A point. -/
def pointJson (p : Point) : Json :=
  .list [.number (.real p.1), .number (.real p.2)]

/-- A stroke at a place in the order of drawing. -/
def Stroke.json (index : Nat) (s : Stroke) : Json :=
  .object
    [("kind", .text s.course.word),
     ("key", .text (strokeKey index)),
     ("points", .list (s.writtenPoints.map pointJson)),
     ("tag", .ofText? s.tag),
     ("title", .ofText? s.title),
     ("primary", .bool (s.role = some .primary)),
     ("secondary", .bool (s.role = some .secondary))]

/-- The strokes of a diagram, none where it is not drawn. -/
def circuitStrokes : Drawing Circuit → List Stroke
  | .drawn c => c.strokes
  | _ => []

/-- Width and height of the grid of a diagram. -/
def circuitGrid : Drawing Circuit → Nat × Nat
  | .drawn c => (c.width, c.height)
  | _ => (0, 0)

/-- Width and height of a diagram in pixels, at the given scale. -/
def circuitPixels (scale : Number) : Drawing Circuit → Number × Number
  | .drawn c => (scale.times c.width, scale.times c.height)
  | _ => (.whole 0, .whole 0)

/-- The fault of writing the size of a diagram in pixels, if one of its numbers has more digits than are
written. -/
def pixelsFault? (limits : Limits) (pixels : Number × Number) : Option Fault :=
  [pixels.1, pixels.2].findSome? fun size =>
    match size with
    | .whole n => limits.writingFault? n
    | _ => none

/-- A Tromp diagram at the given scale. -/
def circuitJson (scale : Number) (d : Drawing Circuit) : Json :=
  let grid := circuitGrid d
  let pixels := circuitPixels scale d
  .object
    [("strokes", .list ((circuitStrokes d).mapIdx Stroke.json)),
     ("grid_width", .whole grid.1),
     ("grid_height", .whole grid.2),
     ("pixel_width", .number pixels.1),
     ("pixel_height", .number pixels.2),
     ("error", .ofText? d.error?),
     ("view_box", .text (viewBox grid.1 grid.2))]

end LambdaStepper.Layout
