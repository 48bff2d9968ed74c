import LambdaStepper.Identity.Supply
import LambdaStepper.Term.Basic

/-! # Terms with identities

A node is a term each of whose nodes carries an identity; `term` forgets them.  Nothing keeps two
nodes from carrying the same identity, as they do where a subterm is shared.

`clone` gives every node a new identity, `copy` only the root: the children of a copy are those of
the node it is taken from, except for the ones that are changed. -/

namespace LambdaStepper

/-- A term with identities. -/
inductive Node where
  | var (id : Int) (mark : Mark) (name : String)
  | lam (id : Int) (mark : Mark) (param : String) (body : Node)
  | app (id : Int) (mark : Mark) (func arg : Node)
  deriving DecidableEq, Repr, Inhabited

namespace Node

/-- The term without identities. -/
def term : Node → Term
  | .var _ m x => .var m x
  | .lam _ m x body => .lam m x body.term
  | .app _ m func arg => .app m func.term arg.term

/-- The identity of the root. -/
def id : Node → Int
  | .var i _ _ => i
  | .lam i _ _ _ => i
  | .app i _ _ _ => i

/-- The mark of the root. -/
def mark : Node → Mark
  | .var _ m _ => m
  | .lam _ m _ _ => m
  | .app _ m _ _ => m

/-- The identities of all nodes, in pre-order. -/
def ids : Node → List Int
  | .var i _ _ => [i]
  | .lam i _ _ body => i :: body.ids
  | .app i _ func arg => i :: (func.ids ++ arg.ids)

/-- The children of the root, left to right. -/
def children : Node → List Node
  | .var .. => []
  | .lam _ _ _ body => [body]
  | .app _ _ func arg => [func, arg]

/-- A term with a new identity for every node. -/
def ofTerm : Term → Issuing Node
  | .var m x => do return .var (← Issuing.new) m x
  | .lam m x body => do
    let body ← ofTerm body
    return .lam (← Issuing.new) m x body
  | .app m func arg => do
    let func ← ofTerm func
    let arg ← ofTerm arg
    return .app (← Issuing.new) m func arg

/-- The same term with a new identity for every node. -/
def clone : Node → Issuing Node
  | .var _ m x => do return .var (← Issuing.new) m x
  | .lam _ m x body => do
    let body ← body.clone
    return .lam (← Issuing.new) m x body
  | .app _ m func arg => do
    let func ← func.clone
    let arg ← arg.clone
    return .app (← Issuing.new) m func arg

/-- What is to be different in a copy.  Changes for fields that a node does not have are ignored. -/
structure Changes where
  tag : Option (Option String) := none
  isRedex : Option Bool := none
  name : Option String := none
  param : Option String := none
  body : Option Node := none
  func : Option Node := none
  arg : Option Node := none

/-- A mark with the changes that concern it. -/
def Changes.mark (c : Changes) (m : Mark) : Mark :=
  ⟨c.tag.getD m.tag, c.isRedex.getD m.isRedex⟩

/-- A copy of the root with a new identity and the given changes. -/
def copy (c : Changes) : Node → Issuing Node
  | .var _ m x => do return .var (← Issuing.new) (c.mark m) (c.name.getD x)
  | .lam _ m x body => do
    return .lam (← Issuing.new) (c.mark m) (c.param.getD x) (c.body.getD body)
  | .app _ m func arg => do
    return .app (← Issuing.new) (c.mark m) (c.func.getD func) (c.arg.getD arg)

theorem term_clone (n : Node) (s : IdSupply) : (n.clone s).1.term = n.term := by
  induction n generalizing s with
  | var => rfl
  | lam i m x body ih => exact congrArg (Term.lam m x) (ih s)
  | app i m func arg ihf iha =>
    show Term.app m (func.clone s).1.term (arg.clone (func.clone s).2).1.term = _
    rw [ihf, iha, term]

theorem term_ofTerm (t : Term) (s : IdSupply) : (ofTerm t s).1.term = t := by
  induction t generalizing s with
  | var => rfl
  | lam m x body ih => exact congrArg (Term.lam m x) (ih s)
  | app m func arg ihf iha =>
    show Term.app m (ofTerm func s).1.term (ofTerm arg (ofTerm func s).2).1.term = _
    rw [ihf, iha]

end Node
end LambdaStepper
