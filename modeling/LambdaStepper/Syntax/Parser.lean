import LambdaStepper.Registry.Expansion
import LambdaStepper.Syntax.Token

/-! # Parsing

The grammar of terms is

    term     ::= binder name "." sequence | "(" sequence ")" | name
    sequence ::= term+

where a sequence associates to the left and the body of an abstraction reaches as far as it can.

The parser goes through the tokens once, with a stack of the parentheses and abstractions it is
inside of; every frame of the stack keeps the term to its left in the sequence it stands in.  The
height of the stack is the depth of nesting, which may be limited. -/

namespace LambdaStepper.Syntax

/-- A construct that is not finished yet, with the term to its left. -/
inductive Frame where
  /-- An open parenthesis, with the tag for the term inside it. -/
  | group (tag : Option String) (left : Option Term)
  /-- An abstraction whose body is being read. -/
  | body (param : String) (left : Option Term)
  deriving DecidableEq, Repr

/-- Why tokens are no term. -/
inductive ParseFault where
  /-- The tokens end too early. -/
  | unfinished (expected : Expectation)
  /-- A token stands at the wrong place. -/
  | unexpected (token : Token) (expected : Expectation)
  /-- No name follows a binder, but the given token or the end. -/
  | badParameter (found : Option Token)
  /-- The tokens are nested deeper than the depth limit. -/
  | tooDeep
  deriving DecidableEq, Repr

/-- A sequence with one more term at its right end. -/
def applyTo : Option Term → Term → Term
  | none, t => t
  | some left, t => .app {} left t

/-- Finishes the abstractions on top of the stack, whose bodies end with the given term. -/
def finishBodies : List Frame → Term → List Frame × Term
  | .body x left :: stack, t => finishBodies stack (applyTo left (.lam {} x t))
  | stack, t => (stack, t)

/-- A term in parentheses: the tag of the reference it was expanded from, if there is one, becomes
the tag of its root. -/
def tagged (tag : Option String) (t : Term) : Term :=
  match tag with
  | none => t
  | some tag => if tag.isEmpty then t else t.setTag (some tag)

/-- The stack with one more frame, if the depth limit allows it. -/
def enter (limits : Limits) (frame : Frame) (stack : List Frame) :
    Except ParseFault (List Frame) :=
  if limits.allows (stack.length + 1) then .ok (frame :: stack) else .error .tooDeep

/-- Reads the remaining tokens inside the frames of the stack, with `left` the sequence so far. -/
def parseFrom (limits : Limits) (stack : List Frame) (left : Option Term) :
    List Token → Except ParseFault Term
  | [] =>
    match left with
    | none => .error (.unfinished .term)
    | some t =>
      match finishBodies stack t with
      | ([], t) => .ok t
      | _ => .error (.unfinished (.token ")"))
  | token :: rest =>
    match token.lexeme with
    | .name x => parseFrom limits stack (some (applyTo left (.var {} x))) rest
    | .binder =>
      match rest with
      | [] => .error (.badParameter none)
      | ⟨.name x, _⟩ :: ⟨.point, _⟩ :: rest =>
        match enter limits (.body x left) stack with
        | .ok stack => parseFrom limits stack none rest
        | .error fault => .error fault
      | ⟨.name _, _⟩ :: other :: _ => .error (.unexpected other (.token "."))
      | [⟨.name _, _⟩] => .error (.unfinished (.token "."))
      | found :: _ => .error (.badParameter (some found))
    | .opening =>
      match rest with
      | ⟨.tag tag, _⟩ :: rest =>
        match enter limits (.group (some tag) left) stack with
        | .ok stack => parseFrom limits stack none rest
        | .error fault => .error fault
      | rest =>
        match enter limits (.group none left) stack with
        | .ok stack => parseFrom limits stack none rest
        | .error fault => .error fault
    | .closing =>
      match left with
      | none => .error (.unexpected token .term)
      | some t =>
        match finishBodies stack t with
        | (.group tag left :: stack, t) =>
          parseFrom limits stack (some (applyTo left (tagged tag t))) rest
        | _ => .error (.unexpected token .ending)
    | .point =>
      match left with
      | none => .error (.unexpected token .term)
      | some t =>
        match finishBodies stack t with
        | ([], _) => .error (.unexpected token .ending)
        | _ => .error (.unexpected token (.token ")"))
    | .tag _ => .error (.unexpected token .term)

/-- The term that tokens spell. -/
def parseTokens (limits : Limits) (tokens : List Token) : Except ParseFault Term :=
  parseFrom limits [] none tokens

/-- A fault of parsing, placed in the text: `expanded` is the text with its origin marks, `text` the
text before expansion. -/
def ParseFault.inText (text : String) (expanded : List Char) : ParseFault → SyntaxFault
  | .unfinished expected => .unfinished (String.ofList (stripMarks expanded)) expected
  | .unexpected token expected =>
    .badToken (String.ofList (stripMarks expanded)) token.lexeme.shown
      (shownPosition expanded token.position) token.lexeme.text.length expected
  | .badParameter found =>
    let shown := stripMarks expanded
    match found with
    | none => .badParameter (String.ofList shown) "end of input" shown.length
    | some token =>
      .badParameter (String.ofList shown) token.lexeme.text (shownPosition expanded token.position)
  | .tooDeep => .tooDeep text

end LambdaStepper.Syntax

namespace LambdaStepper

open Syntax

/-- The term that a text spells once the references to the registry are expanded. -/
def Registry.parse (limits : Limits) (r : Registry) (text : String) : Except SyntaxFault Term :=
  if (Text.trim text.toList).isEmpty then .error .empty
  else
    match r.expandWithin limits true text.toList with
    | .error fault => .error (.badReference fault)
    | .ok expanded =>
      match tokenize expanded with
      | .error fault => .error fault
      | .ok tokens =>
        match parseTokens limits tokens with
        | .ok t => .ok t
        | .error fault => .error (fault.inText text expanded)

end LambdaStepper
