import LambdaStepper.Identity.Node
import LambdaStepper.Reduction.Step

/-! # Reduction with identities

Renaming, substitution and reduction on terms with identities.  They compute what their counterparts
on terms compute (`term_rename`, `term_substituteFrom`), and build every node of their result anew. -/

namespace LambdaStepper.Node

/-- Renames the free occurrences of a name. -/
def rename (old new : String) : Node → Issuing Node
  | .var _ m x => do return .var (← Issuing.new) m (if x = old then new else x)
  | .lam i m x body =>
    if x = old then (Node.lam i m x body).clone
    else do
      let body ← body.rename old new
      return .lam (← Issuing.new) m x body
  | .app _ m func arg => do
    let func ← func.rename old new
    let arg ← arg.rename old new
    return .app (← Issuing.new) m func arg

/-- The number of nodes. -/
def size (n : Node) : Nat :=
  n.term.size

theorem term_rename (old new : String) (n : Node) (s : IdSupply) :
    (n.rename old new s).1.term = n.term.rename old new := by
  induction n generalizing s with
  | var => rfl
  | lam i m x body ih =>
    simp only [rename, term, Term.rename]
    split
    · exact term_clone _ s
    · exact congrArg (Term.lam m x) (ih s)
  | app i m func arg ihf iha =>
    show Term.app m (func.rename old new s).1.term
      (arg.rename old new (func.rename old new s).2).1.term = _
    rw [ihf, iha, term, Term.rename]

/-- Puts a copy of `replacement` in the place of every free occurrence of a name, with the given
freshener. -/
def substituteFrom (name : String) (replacement : Node) (captured : List String)
    (n : Node) (fresh : Freshener) (s : IdSupply) : (Node × Freshener) × IdSupply :=
  match n with
  | .var i m x =>
    let (n', s) := if x = name then replacement.clone s else (Node.var i m x).clone s
    ((n', fresh), s)
  | .lam i m x body =>
    if (Node.lam i m x body).term.isUntouched name || x = name then
      let (n', s) := (Node.lam i m x body).clone s
      ((n', fresh), s)
    else if x ∈ captured then
      let (x', fresh) := fresh.fresh x (body.term.allNames ++ captured ++ [name])
      let renamed := body.rename x x' s
      let (_, s) := renamed.2.issue
      let ((body', fresh), s) := substituteFrom name replacement captured renamed.1 fresh s
      let (id, s) := s.issue
      ((.lam id m.untagged x' body', fresh), s)
    else
      let ((body', fresh), s) := substituteFrom name replacement captured body fresh s
      let (id, s) := s.issue
      ((.lam id m.untagged x body', fresh), s)
  | .app i m func arg =>
    if (Node.app i m func arg).term.isUntouched name then
      let (n', s) := (Node.app i m func arg).clone s
      ((n', fresh), s)
    else
      let ((func', fresh), s) := substituteFrom name replacement captured func fresh s
      let ((arg', fresh), s) := substituteFrom name replacement captured arg fresh s
      let (id, s) := s.issue
      ((.app id m.untagged func' arg', fresh), s)
termination_by n.size
decreasing_by
  · simp only [size, term_rename, Term.size_rename, term, Term.size]; omega
  all_goals simp only [size, term, Term.size]; omega

/-- The term with copies of `replacement` in the place of a name. -/
def substitute (n : Node) (name : String) (replacement : Node) (fresh : Freshener) :
    Issuing (Node × Freshener) :=
  substituteFrom name replacement (replacement.term.freeNames []) n fresh

/-- Contracts the leftmost outermost redex.  The result comes with the identity of the redex. -/
def reduceStep : Node → Issuing (Node × Option Int)
  | .var _ m x => do return (.var (← Issuing.new) m.unlit x, none)
  | .lam _ m x body => do
    match ← body.reduceStep with
    | (body', some i) => return (.lam (← Issuing.new) {} x body', some i)
    | (body', none) => return (.lam (← Issuing.new) m.unlit x body', none)
  | .app i m func arg =>
    match func with
    | .lam _ _ x body => do
      let (result, _) ← body.substitute x arg {}
      return (result, some i)
    | func => do
      match ← func.reduceStep with
      | (func', some i) => do
        let arg' ← arg.clone
        return (.app (← Issuing.new) {} func' arg', some i)
      | (func', none) =>
        match ← arg.reduceStep with
        | (arg', some i) => return (.app (← Issuing.new) {} func' arg', some i)
        | (arg', none) => return (.app (← Issuing.new) m.unlit func' arg', none)

/-- So many steps, one after the other. -/
def steps (n : Node) : Nat → Issuing Node
  | 0 => return n
  | count + 1 => do
    let m ← n.steps count
    let (m', _) ← m.reduceStep
    return m'

/-- Sets the highlight of every node: on for the node with the identity `target` and for the function
under it. -/
def highlight (target : Option Int) (isHead : Bool) : Node → Issuing Node
  | .var i m x => do
    return .var (← Issuing.new) { m with isRedex := isHead || target = some i } x
  | .lam i m x body => do
    let body ← body.highlight target false
    return .lam (← Issuing.new) { m with isRedex := isHead || target = some i } x body
  | .app i m func arg => do
    let func ← func.highlight target (target = some i)
    let arg ← arg.highlight target false
    return .app (← Issuing.new) { m with isRedex := isHead || target = some i } func arg

/-- The identity at a position. -/
def idAt? (n : Node) (position : Nat) : Option Int :=
  n.ids[position]?

/-- The identity at a position of the term; beyond them it is of no account. -/
def idAt (n : Node) (position : Nat) : Int :=
  (n.idAt? position).getD 0

/-- The term with its next redex highlighted, and the identity of that redex in it. -/
def markRedex (n : Node) : Issuing (Node × Option Int) := do
  let marked ← n.highlight (n.term.nextRedex?.bind n.idAt?) false
  return (marked, marked.term.nextRedex?.bind marked.idAt?)

theorem term_substituteFrom (name : String) (replacement : Node) (captured : List String) (n : Node)
    (fresh : Freshener) (s : IdSupply) :
    let r := substituteFrom name replacement captured n fresh s
    (r.1.1.term, r.1.2) = Term.substituteFrom name replacement.term captured n.term fresh := by
  fun_induction substituteFrom name replacement captured n fresh s with
  | case1 fresh s i m x n' s' h =>
    rw [term, Term.substituteFrom]
    split at h
    · next hx =>
      have := term_clone replacement s
      rw [h] at this
      rw [if_pos hx]
      exact congrArg (·, fresh) this
    · next hx =>
      have := term_clone (Node.var i m x) s
      rw [h] at this
      rw [if_neg hx]
      exact congrArg (·, fresh) this
  | case2 fresh s i m x body hu n' s' h =>
    rw [term] at hu
    rw [term, Term.substituteFrom, if_pos hu]
    have := term_clone (Node.lam i m x body) s
    rw [h] at this
    exact congrArg (·, fresh) this
  | case3 fresh s i m x body hu hx x' fresh' hf renamed id s' hs body' fresh'' s'' hb id' s3 hi ih =>
    rw [term] at hu
    rw [term, Term.substituteFrom, if_neg hu, if_pos hx, hf]
    have hr : renamed.1.term = body.term.rename x x' := term_rename x x' body s
    rw [hr] at ih
    simp only [hb] at ih
    simp only [← ih, term]
  | case4 fresh s i m x body hu hx body' fresh' s' hb id s'' hi ih =>
    rw [term] at hu
    rw [term, Term.substituteFrom, if_neg hu, if_neg hx]
    simp only [hb] at ih
    simp only [← ih, term]
  | case5 fresh s i m func arg hu n' s' h =>
    rw [term] at hu
    rw [term, Term.substituteFrom, if_pos hu]
    have := term_clone (Node.app i m func arg) s
    rw [h] at this
    exact congrArg (·, fresh) this
  | case6 fresh s i m func arg hu func' fresh' s' hf arg' fresh'' s'' ha id s3 hi ihf iha =>
    rw [term] at hu
    rw [term, Term.substituteFrom, if_neg hu]
    simp only [hf] at ihf
    simp only [ha] at iha
    simp only [← ihf, ← iha, term]

end LambdaStepper.Node
