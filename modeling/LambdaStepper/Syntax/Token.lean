import LambdaStepper.Registry.Reference
import LambdaStepper.Syntax.Fault

/-! # Tokens

A text is read as tokens: binders, parentheses, points, names and origin marks, with blank characters
between them.  The three spellings of a binder are made one beforehand (`unifyBinders`), so every
token's text is a slice of the unified text at the token's position. -/

namespace LambdaStepper.Syntax

/-- What a token says. -/
inductive Lexeme where
  | binder
  | opening
  | closing
  | point
  | name (x : String)
  /-- An origin mark. -/
  | tag (label : String)
  deriving DecidableEq, Repr

/-- The text of a token; of an origin mark, the tag alone. -/
def Lexeme.text : Lexeme → String
  | .binder => "λ"
  | .opening => "("
  | .closing => ")"
  | .point => "."
  | .name x => x
  | .tag label => label

/-- The word for the kind of a token. -/
def Lexeme.word : Lexeme → String
  | .binder => "lambda"
  | .opening => "("
  | .closing => ")"
  | .point => "."
  | .name _ => "ident"
  | .tag _ => "tag"

/-- How a token is shown in reports. -/
def Lexeme.shown : Lexeme → String
  | .tag label => "<" ++ label ++ ">"
  | lexeme => lexeme.text

/-- A lexeme at a position of the text. -/
structure Token where
  lexeme : Lexeme
  position : Nat
  deriving DecidableEq, Repr

/-- Whether a character starts a name: a letter or the underscore. -/
def startsName (c : Char) : Bool :=
  isLetter c || c = '_'

/-- Whether a character spells a binder. -/
def isBinder (c : Char) : Bool :=
  c = 'λ' || c = 'L' || c = '\\'

/-- A text whose binders are all spelled `λ`.  The counter holds how many characters still belong to
the origin mark found last, which stay as they are. -/
def unifyFrom : (owed : Nat) → List Char → List Char
  | _, [] => []
  | owed + 1, c :: cs => c :: unifyFrom owed cs
  | 0, c :: cs =>
    if c = markOpen then
      match closeMark? cs with
      | some (tag, _) => c :: unifyFrom (tag.length + 1) cs
      | none => c :: unifyFrom 0 cs
    else (if isBinder c then 'λ' else c) :: unifyFrom 0 cs

/-- A text whose binders are all spelled `λ`; origin marks stay as they are. -/
def unifyBinders (cs : List Char) : List Char :=
  unifyFrom 0 cs

/-- The lexeme that a text starts with, if any, and how many characters it takes. -/
def firstLexeme? : List Char → Option (Lexeme × Nat)
  | [] => none
  | c :: cs =>
    if c = markOpen then
      (closeMark? cs).map fun (tag, _) => (.tag (String.ofList tag), tag.length + 2)
    else if c = 'λ' then some (.binder, 1)
    else if c = '(' then some (.opening, 1)
    else if c = ')' then some (.closing, 1)
    else if c = '.' then some (.point, 1)
    else if startsName c then
      let word := c :: cs.takeWhile isWordChar
      some (.name (String.ofList word), word.length)
    else none

/-- The tokens of a text from `position` on, or the position of a character that belongs to none.
The counter holds how many characters still belong to the token found last. -/
def tokensFrom : (owed : Nat) → (position : Nat) → List Char → Except Nat (List Token)
  | _, _, [] => .ok []
  | owed + 1, position, _ :: cs => tokensFrom owed (position + 1) cs
  | 0, position, c :: cs =>
    match firstLexeme? (c :: cs) with
    | some (lexeme, width) =>
      (tokensFrom (width - 1) (position + 1) cs).map (⟨lexeme, position⟩ :: ·)
    | none =>
      if Text.isBlank c then tokensFrom 0 (position + 1) cs else .error position

/-- The tokens of a text.  A character that belongs to no token is reported in the text without its
origin marks. -/
def tokenize (cs : List Char) : Except SyntaxFault (List Token) :=
  let unified := unifyBinders cs
  match tokensFrom 0 0 unified with
  | .ok tokens => .ok tokens
  | .error position =>
    .error (.badCharacter (String.ofList (stripMarks unified)) (unified.getD position ' ')
      (shownPosition unified position))

theorem length_unifyFrom (owed : Nat) (cs : List Char) : (unifyFrom owed cs).length = cs.length := by
  induction cs generalizing owed with
  | nil => simp [unifyFrom]
  | cons c cs ih =>
    cases owed with
    | succ owed => simp [unifyFrom, ih]
    | zero =>
      rw [unifyFrom]
      split
      · split <;> simp [ih]
      · simp [ih]

theorem length_unifyBinders (cs : List Char) : (unifyBinders cs).length = cs.length :=
  length_unifyFrom 0 cs

end LambdaStepper.Syntax
