/-! # Terms

Terms of the pure lambda calculus with names.  Every node carries a mark: the tag of the reference it
was expanded from, and whether it is highlighted as part of the next redex.

A node is referred to by its position, its index in the pre-order listing `nodes` of the term.
`length_nodes` says that a term has `size` positions. -/

namespace LambdaStepper

/-- What a node carries besides its shape and names. -/
structure Mark where
  /-- The reference the node was expanded from, such as `_PLUS` or `_2`. -/
  tag : Option String := none
  /-- Whether the node is highlighted as part of the next redex. -/
  isRedex : Bool := false
  deriving DecidableEq, Repr, Inhabited

/-- The mark that a node keeps when it is rebuilt with other children: its tag goes, since it no
longer is the named term it came from. -/
def Mark.untagged (m : Mark) : Mark :=
  { m with tag := none }

/-- A mark without its highlight. -/
def Mark.unlit (m : Mark) : Mark :=
  { m with isRedex := false }

/-- A term. -/
inductive Term where
  | var (mark : Mark) (name : String)
  | lam (mark : Mark) (param : String) (body : Term)
  | app (mark : Mark) (func arg : Term)
  deriving DecidableEq, Repr, Inhabited

/-- The three kinds of nodes. -/
inductive NodeKind where
  | variable
  | abstraction
  | application
  deriving DecidableEq, Repr

/-- The word for a kind of node. -/
def NodeKind.word : NodeKind → String
  | .variable => "variable"
  | .abstraction => "lambda"
  | .application => "application"

/-- The type name of nodes of a kind. -/
def NodeKind.typeName : NodeKind → String
  | .variable => "Variable"
  | .abstraction => "Abstraction"
  | .application => "Application"

namespace Term

/-- The kind of the root. -/
def kind : Term → NodeKind
  | .var .. => .variable
  | .lam .. => .abstraction
  | .app .. => .application

/-- The mark of the root. -/
def mark : Term → Mark
  | .var m _ => m
  | .lam m _ _ => m
  | .app m _ _ => m

/-- The tag of the root. -/
def tag (t : Term) : Option String :=
  t.mark.tag

/-- The same term with another mark at its root. -/
def setMark (m : Mark) : Term → Term
  | .var _ x => .var m x
  | .lam _ x body => .lam m x body
  | .app _ func arg => .app m func arg

/-- The same term with another tag at its root. -/
def setTag (tag : Option String) (t : Term) : Term :=
  t.setMark { t.mark with tag := tag }

/-- The children of the root, left to right. -/
def children : Term → List Term
  | .var .. => []
  | .lam _ _ body => [body]
  | .app _ func arg => [func, arg]

/-- The number of nodes. -/
def size : Term → Nat
  | .var .. => 1
  | .lam _ _ body => body.size + 1
  | .app _ func arg => func.size + arg.size + 1

/-- The number of nodes on the longest path from the root. -/
def depth : Term → Nat
  | .var .. => 1
  | .lam _ _ body => body.depth + 1
  | .app _ func arg => max func.depth arg.depth + 1

/-- The subterms at all positions, in pre-order. -/
def nodes : Term → List Term
  | .var m x => [.var m x]
  | .lam m x body => .lam m x body :: body.nodes
  | .app m func arg => .app m func arg :: (func.nodes ++ arg.nodes)

/-- The subterm at a position. -/
def node? (t : Term) (position : Nat) : Option Term :=
  t.nodes[position]?

/-- Whether a term is an abstraction. -/
def isAbstraction : Term → Bool
  | .lam .. => true
  | _ => false

/-- Whether a term is a redex: an application of an abstraction. -/
def isRedex : Term → Bool
  | .app _ func _ => func.isAbstraction
  | _ => false

theorem size_pos (t : Term) : 0 < t.size := by
  cases t <;> simp [size]

@[simp] theorem length_nodes (t : Term) : t.nodes.length = t.size := by
  induction t with
  | var => rfl
  | lam _ _ _ ih => simp [nodes, size, ih]
  | app _ _ _ ihf iha => simp [nodes, size, ihf, iha]

end Term
end LambdaStepper
