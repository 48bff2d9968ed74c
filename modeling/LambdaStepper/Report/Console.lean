import LambdaStepper.Report.Failure

/-! # The console

The console prints reports and remembers which line of which file is being worked on, so that a
report can say where it comes from.  After an error a fatal console leaves the program; any other
forgets the lines, so that the next statement starts clean.

`settle` decides what becomes of a failure that reaches the console. -/

namespace LambdaStepper

/-- A line that is being worked on. -/
structure ActiveLine where
  path : String
  line : String
  number : Int
  deriving DecidableEq, Repr

/-- A console: whether errors end the program, how it prints emphasis, the known files in order of registration
with the line being worked on in each, the warnings given so far, and everything printed. -/
structure Console where
  fatal : Bool := true
  emphasis : Emphasis := fun _ text => text
  files : List (String × Option (String × Int)) := []
  warnings : List Report := []
  output : String := ""

namespace Console

/-- Sets the line of a file; a file not seen before joins at the end. -/
def setLine (entry : Option (String × Int)) (path : String) :
    List (String × Option (String × Int)) → List (String × Option (String × Int))
  | [] => [(path, entry)]
  | (p, old) :: files =>
    if p = path then (p, entry) :: files else (p, old) :: setLine entry path files

/-- Makes a file known, with no line being worked on. -/
def registerFile (c : Console) (path : String) : Console :=
  { c with files := setLine none path c.files }

/-- Marks a line as the one being worked on. -/
def registerLine (c : Console) (path line : String) (number : Int) : Console :=
  { c with files := setLine (some (line, number)) path c.files }

/-- Forgets the line of a file. -/
def removeLine (c : Console) (path : String) : Console :=
  { c with files := setLine none path c.files }

/-- Forgets the lines of all files. -/
def forgetLines (c : Console) : Console :=
  { c with files := c.files.map fun file => (file.1, none) }

/-- The lines being worked on, outermost file first.  An empty line counts as none. -/
def activeLines (c : Console) : List ActiveLine :=
  c.files.filterMap fun (path, entry) =>
    match entry with
    | some (line, number) => if line.isEmpty then none else some ⟨path, line, number⟩
    | none => none

/-- Prints a text without ending the line. -/
def write (c : Console) (s : String) : Console :=
  { c with output := c.output ++ s }

/-- Prints a line. -/
def print (c : Console) (s : String) : Console :=
  c.write (s ++ "\n")

/-- Prints the diagnosis of a report that has one. -/
def printDiagnosis (c : Console) (colour : Colour) (r : Report) : Console :=
  if r.pointable then c.print (r.diagnosis c.emphasis colour) else c

/-- Prints a warning, behind the place it comes from, and keeps it. -/
def warn (c : Console) (r : Report) : Console :=
  let place :=
    match c.activeLines with
    | [] => ""
    | active :: _ => c.emphasis none (active.path ++ ":" ++ toString active.number ++ ": ")
  ({ c with warnings := c.warnings ++ [r] }.print
    (place ++ c.emphasis (some .magenta) "warning: " ++ r.coloured c.emphasis)).printDiagnosis .magenta r

/-- The lines that say where an error comes from. -/
def traceback (c : Console) : List String :=
  let active := c.activeLines
  let places := active.map fun a =>
    "  File '" ++ a.path ++ "', line " ++ toString a.number ++ ":\n    " ++ a.line
  if 1 < active.length then "Traceback:" :: places else places

/-- Prints an error under the lines being worked on. -/
def printError (c : Console) (r : Report) : Console :=
  let blame := if r.internal then c.emphasis (some .red) "[internal] " else ""
  let lines := c.traceback ++ [blame ++ c.emphasis (some .red) "error: " ++ r.coloured c.emphasis]
  (c.print (String.intercalate "\n" lines)).printDiagnosis .red r

/-- The status with which a fatal console leaves the program. -/
def errorStatus : String :=
  "1"

/-- Prints an error, then leaves the program or forgets the active lines. -/
def throw (c : Console) (r : Report) : Console × Option Failure :=
  let printed := c.printError r
  if c.fatal then (printed, some (.leave errorStatus)) else (printed.forgetLines, none)

/-- The report on nesting beyond the depth limit. -/
def depthReport : Report :=
  (Report.about .generic
    ["λ-term is too deeply nested: maximum recursion depth exceeded"] []).unmarked

/-- The report on an interruption. -/
def interruptReport : Report :=
  (Report.about .generic ["keyboard interrupt"] []).unmarked

/-- The report on a fault outside the domain of reports. -/
def faultReport (f : Fault) : Report :=
  (Report.about .generic ["unknown error: '", ": ", "'"] [f.label, f.message]).unmarked.blamed

/-- Prints the report that belongs to a failure.  The result tells which failure is left: a request
to leave passes through, and so does, after its report, a fault. -/
def settle (c : Console) : Failure → Console × Option Failure
  | .leave status => (c, some (.leave status))
  | .report r => c.throw r
  | .tooDeep => c.throw depthReport
  | .interrupted => c.throw interruptReport
  | .fault f =>
    match c.throw (faultReport f) with
    | (c', some left) => (c', some left)
    | (c', none) => (c', some (.fault f))

theorem activeLines_forgetLines (c : Console) : c.forgetLines.activeLines = [] := by
  simp [forgetLines, activeLines, List.filterMap_map]

end Console
end LambdaStepper
