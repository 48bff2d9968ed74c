import LambdaStepper.Identity.Reduction
import LambdaStepper.Layout.Circuit
import LambdaStepper.Layout.Tree

/-! # Layouts with identities

What a layout is to highlight is told by an identity, and every node is compared with it.  Apart from that the
layouts of terms with identities are those of terms: where the identities are pairwise distinct, an identity is
as good as the position it is found at (`position?`). -/

namespace LambdaStepper.Node

open Layout

/-- The first position with an identity. -/
def position? (n : Node) (id : Int) : Option Nat :=
  n.ids.idxOf? id

/-- Lays out a term whose root has the given depth, numbering elements from `serial` on.  Nodes with the identity
`target` are highlighted, and so are nodes that are so marked. -/
def blockFrom (target : Option Int) (depth serial : Nat) : Node → Block × Nat
  | .var i m x =>
    let width := boxWidth .variable x
    let root : Box := ⟨i, ⟨NodeKind.variable.word, serial⟩, .variable, x, m.tag,
      target = some i || m.isRedex, 0, levelTop depth, width⟩
    (⟨root, [], [], width⟩, serial + 1)
  | .lam i m x body =>
    let (inner, serial) := blockFrom target (depth + 1) serial body
    let own := boxWidth .abstraction x
    let width := max own inner.width
    let root : Box := ⟨i, ⟨NodeKind.abstraction.word, serial⟩, .abstraction, x, m.tag,
      target = some i || m.isRedex, ((width : Rat) - own) / 2, levelTop depth, own⟩
    let inner := inner.shift (((width : Rat) - inner.width) / 2)
    let edge := connect (serial + 1) root inner.root (target = some i && body.mark.isRedex)
    (⟨root, inner.boxes, inner.connectors ++ [edge], width⟩, serial + 2)
  | .app i m func arg =>
    let (left, serial) := blockFrom target (depth + 1) serial func
    let (right, serial) := blockFrom target (depth + 1) serial arg
    let own := boxWidth .application ""
    let span := left.width + horizontalSpacing + right.width
    let width := max own span
    let root : Box := ⟨i, ⟨NodeKind.application.word, serial⟩, .application, "", m.tag,
      target = some i || m.isRedex, ((width : Rat) - own) / 2, levelTop depth, own⟩
    let offset := ((width : Rat) - span) / 2
    let left := left.shift offset
    let right := right.shift (offset + left.width + horizontalSpacing)
    let leftEdge := connect (serial + 1) root left.root
      (target = some i && (func.mark.isRedex || func.term.isAbstraction))
    let rightEdge := connect (serial + 2) root right.root (target = some i && arg.mark.isRedex)
    (⟨root, left.boxes ++ right.boxes, left.connectors ++ right.connectors ++ [leftEdge, rightEdge],
      width⟩, serial + 3)

/-- Draws a term with its upper left corner at the given row and column, as the surroundings have it: `scope` tells
the binding of each name in scope, `tag` the tag of the named term around the term, and `role` the part that
they play in the redex with the identity `target`. -/
def sketch (target : Option Int) (owes : Owes) (row column : Nat) (scope : List (String × Binding))
    (tag : Option String) (role : Option Role) : Node → Sketch
  | .var _ m x =>
    let binding := (scope.lookup x).getD ⟨0, none⟩
    let tag := inheritTag binding.tag (inheritTag m.tag tag)
    if owes = .nothing then
      ⟨row + 1, column + 1, (binding.row, column), [⟨.wire binding.row row column, tag, none, role⟩]⟩
    else ⟨row, column + 1, (binding.row, column), []⟩
  | .lam _ m x body =>
    let tag := inheritTag m.tag tag
    let inner := sketch target owes (row + 1) column ((x, ⟨row, tag⟩) :: scope) tag role body
    { inner with
      strokes := inner.strokes ++ [⟨.bar row column ((inner.right : Int) - 1), tag, some x, role⟩] }
  | .app i m func arg =>
    let tag := inheritTag m.tag tag
    let isTarget := target = some i
    let own := if isTarget then some .primary else role
    let argRole := if isTarget then some .secondary else role
    let left := sketch target .right row column scope tag own func
    let right := sketch target .left row left.right scope tag argRole arg
    let bottom := max left.bottom right.bottom
    let hook := if owes = .right then right.hook else left.hook
    ⟨bottom + 1, right.right, hook,
      left.strokes ++ right.strokes ++ [⟨elbow owes bottom left.hook right.hook, tag, none, own⟩]⟩

/-- The tree layout of a term, with the nodes of an identity highlighted. -/
def treeDrawing (limits : Limits) (target : Option Int) (n : Node) : Drawing Tree :=
  (Draft.ofTerm n.term).draw limits false fun _ => (n.blockFrom target 0 0).1.place

/-- The Tromp diagram of a term, which must be closed, with the redexes of an identity highlighted. -/
def circuitDrawing (limits : Limits) (target : Option Int) (n : Node) : Drawing Circuit :=
  (Draft.ofTerm n.term).draw limits true fun _ =>
    let whole := n.sketch target .nothing 0 0 [] none none
    ⟨whole.strokes, max 1 whole.right, max 1 whole.bottom⟩

end LambdaStepper.Node
