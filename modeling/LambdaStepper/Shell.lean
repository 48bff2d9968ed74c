import LambdaStepper.Session.Basic

/-! # The interactive shell

The shell reads lines.  A line that starts with the word of a command runs it; any other line is a
statement, which is executed at once, or collected with the lines behind it while a parenthesis is
left open.  Whatever fails is reported by the console, and the shell goes on.

`respond` answers one line. -/

namespace LambdaStepper

open Decimal

/-- The commands of the shell. -/
inductive Command where
  | load
  | step
  | next
  | pretty
  | names
  | tree
  | tromp
  | help
  | endOfInput
  | quit
  deriving DecidableEq, Repr

namespace Command

/-- The commands with their words. -/
def table : List (String × Command) :=
  [("load", .load), ("step", .step), ("next", .next), ("pretty", .pretty), ("names", .names),
   ("tree", .tree), ("tromp", .tromp), ("help", .help), ("EOF", .endOfInput), ("exit", .quit)]

/-- The command of the given word. -/
def ofWord (word : String) : Option Command :=
  table.lookup word

/-- What `help` says about a command. -/
def summary : Command → String
  | .load => "Loads a λ-term to step through: load <λ-term>"
  | .step => "Contracts the next redex of the loaded term: step [count]"
  | .next => "Shows the redex the next step will contract."
  | .pretty => "Prints the loaded term with numerals and named terms collapsed."
  | .names => "Lists every named term, built-in and custom."
  | .tree => "Prints the tree layout of the loaded term as JSON."
  | .tromp => "Prints the Tromp diagram layout of the loaded term as JSON: tromp [scale]"
  | .help => "Short intro; \"help <command>\" still shows that command's docstring."
  | .endOfInput => "Exits lambdaviz."
  | .quit => "Exits lambdaviz."

end Command

/-- A shell: its session, the statement collected while a parenthesis is left open, and the number of
statement lines read. -/
structure Shell where
  session : Session
  pending : String := ""
  /-- Whether a statement is being collected. -/
  collecting : Bool := false
  lineNumber : Int := 0

/-- What the shell does after a line. -/
inductive Response where
  /-- Go on. -/
  | proceed
  /-- Go on; the line was empty. -/
  | idle
  | quit
  deriving DecidableEq, Repr

/-- How a line is read. -/
inductive Request where
  | empty
  | command (command : Command) (argument : String)
  | statement (line : String)
  deriving DecidableEq, Repr

namespace Shell

/-- The greeting. -/
def intro : String :=
  "lambdaviz :: step-by-step λ-calculus\nType '?' or 'help' for more information."

/-- The introduction that `help` prints. -/
def introduction : String :=
  "Welcome to lambdaviz!\n\n" ++
  "Type a λ-term such as '_PLUS _2 _3' to reduce it to normal form. 'λ', 'L' and '\\' all \n" ++
  "start an abstraction; _N is the Church numeral N and _NAME a named term (try 'names').\n" ++
  "Define your own with 'PAIR := λa.λb.λf.f a b', then use it as '_PAIR'.\n\n" ++
  "To watch a reduction, type 'load <λ-term>', then 'step' (or 'step 5'). 'next' shows the \n" ++
  "upcoming redex, 'pretty' the prettified term, and 'tree' / 'tromp' print its layouts."

/-- The prompt: another one while a statement is being collected. -/
def prompt (shell : Shell) : String :=
  if shell.collecting then ". " else "> "

/-- The reading of a line.  A question mark in front asks for help, an exclamation mark in front makes
the line a statement. -/
def read (line : String) : Request :=
  let cs := Text.trim line.toList
  let cs := match cs with
    | '?' :: rest => ['h', 'e', 'l', 'p', ' '] ++ rest
    | cs => cs
  if cs.isEmpty then .empty
  else
    let isCommandChar (c : Char) : Bool :=
      Syntax.isLetter c || ('0' ≤ c && c ≤ '9') || c = '_'
    match Command.ofWord (String.ofList (cs.takeWhile isCommandChar)) with
    | some command => .command command (String.ofList (Text.trim (cs.dropWhile isCommandChar)))
    | none => .statement (String.ofList cs)

/-- The report on a count that is none. -/
def badCount (text : String) : Report :=
  Report.about .generic ["'", "' is not a positive integer"] [text]

/-- A positive number written as an argument, or the given one for an empty argument.  The decimal
digits are read first, up to the first digit that is none. -/
def readCount (limits : Limits) (default : Nat) (argument : String) : Except Failure Nat :=
  let cs := Text.trim argument.toList
  if cs.isEmpty then .ok default
  else if !cs.all Text.isAnyDigit then .error (.report (badCount (String.ofList cs)))
  else
    match limits.digitsFault? (cs.takeWhile Text.isDecimalDigit).length with
    | some fault => .error (.fault fault)
    | none =>
      if !cs.all Text.isDecimalDigit then .error (.fault (.notAnInteger (String.ofList cs)))
      else if Text.digitsValue cs < 1 then .error (.report (badCount (String.ofList cs)))
      else .ok (Text.digitsValue cs)

/-- What is printed where there is no redex. -/
def normalForm : String :=
  "(normal form)"

/-- Makes steps and prints the term after each, until there is no redex. -/
def stepTimes : (count : Nat) → Session.Action Unit
  | 0 => pure ()
  | count + 1 => do
    let step ← Session.step
    if step.changed then
      let text ← Session.shown none
      Session.print (toString ((← get).history.length - 1) ++ ": " ++ text)
      stepTimes count
    else Session.print normalForm

/-- Prints the next redex of the loaded term. -/
def showNext : Session.Action Unit := do
  let s ← get
  match s.loaded, s.nextRedex? with
  | some n, some position =>
    match n.term.node? position with
    | some redex => Session.print (← Session.shown (some redex))
    | none => Session.print normalForm
  | _, _ => Session.print normalForm

/-- Prints the entries of the registry. -/
def showNames : Session.Action Unit := do
  let s ← get
  s.registry.entries.forM fun entry =>
    let description := match entry.description with
      | some text => if text.isEmpty then "" else "  ;; " ++ text
      | none => ""
    Session.print (entry.tag ++ " := " ++ entry.definition ++ description)

/-- Prints the results that were not read yet. -/
def showResults : Session.Action Unit := do
  let s ← get
  s.results.forM fun _ => do Session.print (← Session.pop).pretty

/-- Carries out a statement: adds it, reduces what waits and prints the results. -/
def carryOut (statement : String) (line : Int) : Session.Action Unit := do
  Session.add statement line
  Session.run
  showResults

/-- Runs an action on the session; its failure is reported by the console.  What is left of the
failure is returned. -/
def report (shell : Shell) (action : Session.Action Unit) : Shell × Option Failure :=
  match action.run.run shell.session with
  | (.ok _, session) => ({ shell with session }, none)
  | (.error failure, session) =>
    let (console, left) := session.console.settle failure
    ({ shell with session := { session with console } }, left)

/-- The text of the statement being collected, with one line more. -/
def joined (shell : Shell) (line : String) : List Char :=
  Statement.cleanLine (shell.pending.toList ++ ' ' :: line.toList)

/-- The statement that a line completes, if it does. -/
def completed? (shell : Shell) (line : String) : Option String :=
  let text := shell.joined line
  if Statement.isOpen text || text.isEmpty then none else some (String.ofList text)

/-- Takes a line of a statement.  A complete statement is carried out. -/
def takeStatement (shell : Shell) (line : String) : Shell × Option Failure :=
  let text := shell.joined line
  let isOpen := Statement.isOpen text
  let taken : Shell :=
    { session := shell.session
      pending := if isOpen then String.ofList text else ""
      collecting := isOpen
      lineNumber := shell.lineNumber + 1 }
  match shell.completed? line with
  | none => (taken, none)
  | some statement => taken.report (carryOut statement taken.lineNumber)

/-- What a command does, leaving apart the commands that end the shell. -/
def perform (command : Command) (argument : String) : Session.Action Unit :=
  match command with
  | .load => do
    let _ ← Session.load argument
    Session.print (← Session.shown none)
  | .step => do
    let limits := (← get).settings.limits
    stepTimes (← Session.lift (readCount limits 1 argument))
  | .next => showNext
  | .pretty => do Session.print (← Session.prettify none)
  | .names => showNames
  | .tree => do Session.print (← get).dumpTree
  | .tromp => do
    let limits := (← get).settings.limits
    let scale ← Session.lift (readCount limits Layout.defaultScale argument)
    Session.print (← Session.lift ((← get).dumpCircuit (.whole scale)))
  | .help =>
    if argument.isEmpty then Session.print introduction
    else
      match Command.ofWord argument with
      | some command => Session.print command.summary
      | none => Session.print ("*** No help on " ++ argument)
  | .endOfInput => Session.print ""
  | .quit => pure ()

/-- Whether a command ends the shell. -/
def ends : Command → Bool
  | .endOfInput | .quit => true
  | _ => false

/-- Answers a line.  A failure that the console does not swallow takes the place of the response. -/
def respond (shell : Shell) (line : String) : Shell × Except Failure Response :=
  let answer (done : Shell × Option Failure) (response : Response) : Shell × Except Failure Response :=
    match done with
    | (shell, none) => (shell, .ok response)
    | (shell, some failure) => (shell, .error failure)
  match read line with
  | .empty => (shell, .ok .idle)
  | .command command argument =>
    answer (shell.report (perform command argument)) (if ends command then .quit else .proceed)
  | .statement line => answer (shell.takeStatement line) .proceed

/-- Answers lines behind prompts until one ends the shell; the end of the lines does, too.  A failure
that the console does not swallow ends the shell as well. -/
def converse (shell : Shell) : List String → Shell × Option Failure
  | [] =>
    let shell : Shell := { shell with session.console := shell.session.console.write shell.prompt }
    match shell.respond "EOF" with
    | (shell, .ok _) => (shell, none)
    | (shell, .error failure) => (shell, some failure)
  | line :: lines =>
    let shell : Shell := { shell with session.console := shell.session.console.write shell.prompt }
    match shell.respond line with
    | (shell, .ok .quit) => (shell, none)
    | (shell, .ok _) => shell.converse lines
    | (shell, .error failure) => (shell, some failure)

end Shell
end LambdaStepper
