import LambdaStepper.Reduction.Substitution

/-! # One step of reduction

`reduceStep` contracts the leftmost outermost redex of a term.  It says which one by its position in
the term before the step.  `nextRedex?` finds the same position by going through the nodes in
pre-order, without reducing anything, and `markRedex` highlights the redex and its abstraction.

Nodes on the path to the contracted redex lose their tags, and all that are rebuilt their
highlight. -/

namespace LambdaStepper

/-- The outcome of one step: the term after it and the position of the contracted redex, if there
was one. -/
structure Step where
  result : Term
  redex? : Option Nat
  deriving DecidableEq, Repr

/-- Whether a redex was contracted. -/
def Step.changed (s : Step) : Bool :=
  s.redex?.isSome

namespace Term

/-- The contraction of an abstraction, given by parameter and body, applied to an argument. -/
def contract (param : String) (body arg : Term) : Term :=
  (body.substitute param arg {}).1

/-- Contracts the leftmost outermost redex. -/
def reduceStep : Term → Step
  | .var m x => ⟨.var m.unlit x, none⟩
  | .lam m x body =>
    match body.reduceStep with
    | ⟨body', some i⟩ => ⟨.lam {} x body', some (i + 1)⟩
    | ⟨body', none⟩ => ⟨.lam m.unlit x body', none⟩
  | .app m func arg =>
    match func with
    | .lam _ x body => ⟨contract x body arg, some 0⟩
    | func =>
      match func.reduceStep with
      | ⟨func', some i⟩ => ⟨.app {} func' arg, some (i + 1)⟩
      | ⟨func', none⟩ =>
        match arg.reduceStep with
        | ⟨arg', some i⟩ => ⟨.app {} func' arg', some (i + func.size + 1)⟩
        | ⟨arg', none⟩ => ⟨.app m.unlit func' arg', none⟩

/-- The number of nodes of all terms of a stack. -/
def stackSize : List Term → Nat
  | [] => 0
  | t :: stack => t.size + stackSize stack

theorem stackSize_children (t : Term) (stack : List Term) :
    stackSize (t.children ++ stack) + 1 = stackSize (t :: stack) := by
  cases t <;> simp only [children, List.cons_append, List.nil_append, stackSize, size] <;> omega

/-- The first redex among the terms of a stack and their subterms, when `position` nodes were passed
before them. -/
def nextRedexFrom (position : Nat) : List Term → Option Nat
  | [] => none
  | t :: stack =>
    if t.isRedex then some position else nextRedexFrom (position + 1) (t.children ++ stack)
termination_by stack => stackSize stack
decreasing_by rw [← stackSize_children t stack]; exact Nat.lt_succ_self _

/-- The position of the redex that the next step contracts, or none in a normal form. -/
def nextRedex? (t : Term) : Option Nat :=
  nextRedexFrom 0 [t]

/-- Sets the highlight of every node: on for the node at `target` and for the function under it.
`position` is the position of the root, and `isHead` tells that the root is that function. -/
def highlight (target : Option Nat) (position : Nat) (isHead : Bool) : Term → Term
  | .var m x => .var { m with isRedex := isHead || target = some position } x
  | .lam m x body =>
    .lam { m with isRedex := isHead || target = some position } x
      (body.highlight target (position + 1) false)
  | .app m func arg =>
    .app { m with isRedex := isHead || target = some position }
      (func.highlight target (position + 1) (target = some position))
      (arg.highlight target (position + 1 + func.size) false)

/-- The term with its next redex and the abstraction of it highlighted, and nothing else. -/
def markRedex (t : Term) : Term :=
  t.highlight t.nextRedex? 0 false

end Term
end LambdaStepper
