import LambdaStepper.Identity.Node
import LambdaStepper.Syntax.Parser

/-! # Parsing with identities

The parser of terms, with a new identity for every node that it builds.  An application takes its identity
when its argument is finished, an abstraction when its body is.  The tag of an expanded reference is set on a
copy of the root, whose first identity is in no term from then on.  Every stage does without identities what
its counterpart does on terms (`term_applyTo`, `term_tagged`, `term_finishBodies`). -/

namespace LambdaStepper.Node

open Syntax (Token ParseFault)

/-- A construct that is not finished yet, with the node to its left. -/
inductive Frame where
  /-- An open parenthesis, with the tag for the term inside it. -/
  | group (tag : Option String) (left : Option Node)
  /-- An abstraction whose body is being read. -/
  | body (param : String) (left : Option Node)
  deriving DecidableEq, Repr

/-- The frame without identities. -/
def Frame.term : Frame → Syntax.Frame
  | .group tag left => .group tag (left.map Node.term)
  | .body x left => .body x (left.map Node.term)

/-- A sequence with one more node at its right end. -/
def applyTo : Option Node → Node → Issuing Node
  | none, n => return n
  | some left, n => do return .app (← Issuing.new) {} left n

/-- Finishes the abstractions on top of the stack, whose bodies end with the given node. -/
def finishBodies : List Frame → Node → Issuing (List Frame × Node)
  | .body x left :: stack, n => do
    let abstraction := Node.lam (← Issuing.new) {} x n
    finishBodies stack (← applyTo left abstraction)
  | stack, n => return (stack, n)

/-- A node in parentheses: if it was expanded from a reference, a copy of it with the tag of the
reference. -/
def tagged (tag : Option String) (n : Node) : Issuing Node :=
  match tag with
  | none => return n
  | some tag => if tag.isEmpty then return n else n.copy { tag := some (some tag) }

/-- The stack with one more frame, if the depth limit allows it. -/
def enter (limits : Limits) (frame : Frame) (stack : List Frame) : Except ParseFault (List Frame) :=
  if limits.allows (stack.length + 1) then .ok (frame :: stack) else .error .tooDeep

/-- Reads the remaining tokens inside the frames of the stack, with `left` the sequence so far. -/
def parseFrom (limits : Limits) (stack : List Frame) (left : Option Node) :
    List Token → Issuing (Except ParseFault Node)
  | [] =>
    match left with
    | none => return .error (.unfinished .term)
    | some n => do
      match ← finishBodies stack n with
      | ([], n) => return .ok n
      | _ => return .error (.unfinished (.token ")"))
  | token :: rest =>
    match token.lexeme with
    | .name x => do
      let name := Node.var (← Issuing.new) {} x
      parseFrom limits stack (some (← applyTo left name)) rest
    | .binder =>
      match rest with
      | [] => return .error (.badParameter none)
      | ⟨.name x, _⟩ :: ⟨.point, _⟩ :: rest =>
        match enter limits (.body x left) stack with
        | .ok stack => parseFrom limits stack none rest
        | .error fault => return .error fault
      | ⟨.name _, _⟩ :: other :: _ => return .error (.unexpected other (.token "."))
      | [⟨.name _, _⟩] => return .error (.unfinished (.token "."))
      | found :: _ => return .error (.badParameter (some found))
    | .opening =>
      match rest with
      | ⟨.tag tag, _⟩ :: rest =>
        match enter limits (.group (some tag) left) stack with
        | .ok stack => parseFrom limits stack none rest
        | .error fault => return .error fault
      | rest =>
        match enter limits (.group none left) stack with
        | .ok stack => parseFrom limits stack none rest
        | .error fault => return .error fault
    | .closing =>
      match left with
      | none => return .error (.unexpected token .term)
      | some n => do
        match ← finishBodies stack n with
        | (.group tag left :: stack, n) =>
          let inner ← tagged tag n
          parseFrom limits stack (some (← applyTo left inner)) rest
        | _ => return .error (.unexpected token .ending)
    | .point =>
      match left with
      | none => return .error (.unexpected token .term)
      | some n => do
        match ← finishBodies stack n with
        | ([], _) => return .error (.unexpected token .ending)
        | _ => return .error (.unexpected token (.token ")"))
    | .tag _ => return .error (.unexpected token .term)

theorem term_applyTo (left : Option Node) (n : Node) (s : IdSupply) :
    (applyTo left n s).1.term = Syntax.applyTo (left.map term) n.term := by
  cases left <;> rfl

theorem term_tagged (tag : Option String) (n : Node) (s : IdSupply) :
    (tagged tag n s).1.term = Syntax.tagged tag n.term := by
  cases tag with
  | none => rfl
  | some tag =>
    simp only [tagged, Syntax.tagged]
    split
    · rfl
    · cases n <;> rfl

theorem term_finishBodies (stack : List Frame) (n : Node) (s : IdSupply) :
    let r := (finishBodies stack n s).1
    (r.1.map Frame.term, r.2.term) = Syntax.finishBodies (stack.map Frame.term) n.term := by
  induction stack generalizing n s with
  | nil => rfl
  | cons frame stack ih =>
    cases frame with
    | group => rfl
    | body x left =>
      rw [List.map_cons, Frame.term, Syntax.finishBodies]
      have happ := term_applyTo left (.lam s.issue.1 {} x n) s.issue.2
      rw [term] at happ
      rw [← happ]
      exact ih _ _

theorem term_enter (limits : Limits) (frame : Frame) (stack : List Frame) :
    (enter limits frame stack).map (List.map Frame.term)
      = Syntax.enter limits frame.term (stack.map Frame.term) := by
  unfold enter Syntax.enter
  rw [List.length_map]
  split <;> rfl

end LambdaStepper.Node

namespace LambdaStepper

open Syntax

/-- The term that a text spells once the references to the registry are expanded, with a new identity for
every node. -/
def Registry.parseNode (limits : Limits) (r : Registry) (text : String) :
    Issuing (Except SyntaxFault Node) :=
  if (Text.trim text.toList).isEmpty then return .error .empty
  else
    match r.expandWithin limits true text.toList with
    | .error fault => return .error (.badReference fault)
    | .ok expanded =>
      match tokenize expanded with
      | .error fault => return .error fault
      | .ok tokens => do
        match ← Node.parseFrom limits [] none tokens with
        | .ok n => return .ok n
        | .error fault => return .error (fault.inText text expanded)

end LambdaStepper
