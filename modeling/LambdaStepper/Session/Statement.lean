import LambdaStepper.Report.Failure
import LambdaStepper.Text.Segment

/-! # Statements

A file holds statements: definitions `name := term`, and terms to be reduced.  A `;;` starts a
comment.  A line that leaves more parentheses open than it closes goes on with the next line, the two
joined by a blank; a statement has the number of the line it starts on.

`addLine` takes one line more to the statements read so far, `readStatements` a whole text. -/

namespace LambdaStepper

open Text

/-- A statement and the line it starts on. -/
structure Statement where
  text : String
  line : Int
  deriving DecidableEq, Repr

namespace Statement

/-- A line without its comment and the blank characters around it. -/
def cleanLine (line : List Char) : List Char :=
  trim (beforeFirst [';', ';'] line)

/-- Whether a text holds more opening than closing parentheses. -/
def isOpen (cs : List Char) : Bool :=
  cs.count ')' < cs.count '('

/-- The statements with one more, unless its text is empty. -/
def push (statements : List Statement) (text : List Char) (line : Int) : List Statement :=
  if text.isEmpty then statements else statements ++ [⟨String.ofList text, line⟩]

/-- The outcome of taking one line more: the text of its statement so far, and all statements. -/
structure Taken where
  text : List Char
  statements : List Statement
  deriving DecidableEq, Repr

/-- Takes one line more, as a new statement or, where the last one was left open, as a part of
that. -/
def addLine (continues : Bool) (number : Int) (statements : List Statement) (line : List Char) :
    Taken :=
  let line := cleanLine line
  match continues, statements.getLast? with
  | true, some last =>
    let joined := trim (last.text.toList ++ ' ' :: line)
    ⟨joined, push statements.dropLast joined last.line⟩
  | _, _ => ⟨line, push statements line number⟩

/-- Takes lines, numbered from `number` on, to the statements read so far, the last of which may have
been left open. -/
def addLines (continues : Bool) (number : Int) (statements : List Statement) :
    List (List Char) → List Statement
  | [] => statements
  | line :: lines =>
    let taken := addLine continues number statements line
    addLines (isOpen taken.text) (number + 1) taken.statements lines

/-- The statements of a text. -/
def readStatements (cs : List Char) : List Statement :=
  addLines false 1 [] (lines cs)

end Statement

/-- The files of a folder: names and octets. -/
abbrev Folder := List (String × List UInt8)

namespace Folder

/-- The names that a relative path goes through, or none for a path that leads to no file. -/
def pathNames? (path : String) : Option (List String) :=
  let parts := path.splitOn "/"
  match parts.head?, parts.getLast? with
  | some first, some last =>
    if (first = "" && 1 < parts.length) || last = "" || last = "." then none
    else some (parts.filter fun part => part != "" && part != ".")
  | _, _ => none

/-- The contents of the file at a path: the file of that very name, or else one whose path goes
through the same names. -/
def contents? (folder : Folder) (path : String) : Option (List UInt8) :=
  match folder.lookup path with
  | some octets => some octets
  | none =>
    match pathNames? path with
    | none => none
    | some names => (folder.find? fun file => pathNames? file.1 = some names).map Prod.snd

/-- The report on a file that cannot be opened. -/
def unopened (path : String) : Report :=
  (Report.about .generic ["'", "' could not be opened"] [path]).unmarked

/-- The statements of the file at a path. -/
def statements (folder : Folder) (path : String) : Except Failure (List Statement) :=
  if path.toList.contains (Char.ofNat 0) then .error (.fault .nullInPath)
  else
    match folder.contents? path with
    | none => .error (.report (unopened path))
    | some octets =>
      match decodeUtf8 octets with
      | .error fault => .error (.fault (.badEncoding fault))
      | .ok cs => .ok (Statement.readStatements cs)

end Folder
end LambdaStepper
