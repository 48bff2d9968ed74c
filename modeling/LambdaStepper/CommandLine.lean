import LambdaStepper.Shell

/-! # The command line

The program runs a file of statements, a single term, or, given neither, the shell.  Arguments are
options, which may be shortened as long as they stay unambiguous, and at most one file.

`Options.parse` reads the arguments, `run` says what the program prints and how it ends. -/

namespace LambdaStepper

/-- What the program is asked to do. -/
structure Options where
  file : Option String := none
  /-- A term to reduce after the file. -/
  expr : Option String := none
  maxSteps : Nat := Settings.defaultMaxSteps
  /-- Whether every intermediate term is printed. -/
  steps : Bool := false
  tree : Bool := false
  tromp : Bool := false
  scale : Nat := Layout.defaultScale
  structural : Bool := false
  /-- Whether results are printed as they are, not made readable. -/
  raw : Bool := false
  deriving DecidableEq, Repr

/-- The options. -/
inductive OptionName where
  | help
  | expr
  | maxSteps
  | steps
  | tree
  | tromp
  | scale
  | structural
  | raw
  deriving DecidableEq, Repr

/-- Why the arguments lead to no run. -/
inductive ArgumentFault where
  /-- Help was asked for. -/
  | helpWanted
  /-- The arguments are not understood. -/
  | misused
  deriving DecidableEq, Repr

namespace OptionName

/-- The spellings of the options. -/
def table : List (String × OptionName) :=
  [("-h", .help), ("--help", .help), ("-e", .expr), ("--expr", .expr), ("--max-steps", .maxSteps),
   ("--steps", .steps), ("--tree", .tree), ("--tromp", .tromp), ("--scale", .scale),
   ("--structural", .structural), ("--raw", .raw)]

/-- Whether an option is followed by a value. -/
def takesValue : OptionName → Bool
  | .expr | .maxSteps | .scale => true
  | _ => false

end OptionName

/-- How an argument is read. -/
inductive Argument where
  /-- A value of an option, or the file. -/
  | plain (text : String)
  /-- An option, maybe with a value attached. -/
  | option (name : OptionName) (value : Option String)
  /-- A wish for help together with an option that the next argument is the value of. -/
  | helpAnd (name : OptionName)
  /-- The end of the options. -/
  | endOfOptions
  /-- An option cut so short that it may be more than one. -/
  | ambiguous
  /-- An option that does not exist. -/
  | unknown
  deriving DecidableEq, Repr

namespace Argument

/-- Whether a text is a negative number: digits, or digits with a point before the last ones. -/
def isNegativeNumber (cs : List Char) : Bool :=
  match cs with
  | '-' :: rest =>
    let behind := rest.dropWhile Text.isDecimalDigit
    (Numeral.atEnd behind && rest.head?.any Text.isDecimalDigit) ||
      match behind with
      | '.' :: fraction =>
        fraction.head?.any Text.isDecimalDigit && Numeral.atEnd (fraction.dropWhile Text.isDecimalDigit)
      | _ => false
  | _ => false

/-- The options whose spelling starts with the given text; several spellings of one option count
apart. -/
def matching (start : List Char) : List OptionName :=
  (OptionName.table.filter fun entry => start.isPrefixOf entry.1.toList).map Prod.snd

/-- The reading of letters attached to `-h`, which are short options themselves.  Behind the first one
that takes a value the rest is that value, and a letter that is no option is of no account once help is
asked for; a value for the help itself is refused. -/
def readHelpLetters : List Char → Argument
  | [] => .option .help none
  | '-' :: rest => .option .help (some (String.ofList rest))
  | 'h' :: '=' :: value => .option .help (some (String.ofList value))
  | 'h' :: rest => readHelpLetters rest
  | ['e'] => .helpAnd .expr
  | _ => .option .help none

/-- The reading of an option that is written in full, followed by its value or shortened. -/
def readOption? (cs : List Char) : Option Argument :=
  let (spelling, value) :=
    match Text.splitFirst? ['='] cs with
    | some (spelling, value) => (spelling, some (String.ofList value))
    | none => (cs, none)
  match OptionName.table.lookup (String.ofList spelling) with
  | some name => some (.option name value)
  | none =>
    match cs with
    | '-' :: '-' :: _ =>
      match matching spelling with
      | [] => none
      | [name] => some (.option name value)
      | _ => some .ambiguous
    | '-' :: 'h' :: attached => some (readHelpLetters attached)
    | '-' :: c :: attached =>
      (OptionName.table.lookup (String.ofList ['-', c])).map fun name =>
        .option name (some (String.ofList attached))
    | _ => none

/-- The reading of an argument before the end of the options. -/
def read (text : String) : Argument :=
  let cs := text.toList
  match cs with
  | ['-', '-'] => .endOfOptions
  | '-' :: _ :: _ =>
    match readOption? cs with
    | some argument => argument
    | none => if isNegativeNumber cs || cs.contains ' ' then .plain text else .unknown
  | _ => .plain text

end Argument

namespace Options

/-- A positive number that an option is given. -/
def readPositive (text : String) : Except ArgumentFault Nat :=
  let digits := text.toList.countP Text.isDecimalDigit
  match Text.readInteger text.toList, Limits.standard.digitsFault? digits with
  | some n, none => if 1 ≤ n then .ok n.toNat else .error .misused
  | _, _ => .error .misused

/-- The options after one that takes no value. -/
def switchOn (options : Options) : OptionName → Except ArgumentFault Options
  | .help => .error .helpWanted
  | .steps => .ok { options with steps := true }
  | .tree => .ok { options with tree := true }
  | .tromp => .ok { options with tromp := true }
  | .structural => .ok { options with structural := true }
  | .raw => .ok { options with raw := true }
  | .expr | .maxSteps | .scale => .error .misused

/-- The options after one that takes a value. -/
def give (options : Options) (value : String) : OptionName → Except ArgumentFault Options
  | .expr => .ok { options with expr := some value }
  | .maxSteps => (readPositive value).map fun n => { options with maxSteps := n }
  | .scale => (readPositive value).map fun n => { options with scale := n }
  | _ => .error .misused

/-- Reads arguments in order.  `ended` tells that the options have ended, `stray` that an argument
found no place, and `awaiting` which option the next argument is the value of.  Arguments without a
place are a misuse only at the end, so that a wish for help behind them is heard.  The mark that ends
the options may stand right behind the file, but finds no place further behind it. -/
def readFrom (ended stray : Bool) (awaiting : Option OptionName) (options : Options) :
    List String → Except ArgumentFault Options
  | [] => if stray || awaiting.isSome then .error .misused else .ok options
  | text :: rest =>
    match if ended then .plain text else Argument.read text, awaiting with
    | .plain text, some name => do
      let options ← options.give text name
      readFrom ended stray none options rest
    | _, some _ => .error .misused
    | .plain text, none =>
      if options.file.isSome then readFrom ended true none options rest
      else
        let options := { options with file := some text }
        match ended, rest with
        | false, "--" :: rest => readFrom true stray none options rest
        | ended, rest => readFrom ended stray none options rest
    | .endOfOptions, none => readFrom true (stray || options.file.isSome) none options rest
    | .option name (some value), none => do
      let options ← options.give value name
      readFrom ended stray none options rest
    | .option name none, none => do
      if name.takesValue then readFrom ended stray (some name) options rest
      else
        let options ← options.switchOn name
        readFrom ended stray none options rest
    | .helpAnd _, none =>
      match rest.map Argument.read with
      | .plain _ :: _ => .error .helpWanted
      | _ => .error .misused
    | .ambiguous, none => .error .misused
    | .unknown, none => readFrom ended true none options rest

/-- Whether an argument before the end of the options is ambiguous. -/
def hasAmbiguous (arguments : List String) : Bool :=
  (arguments.takeWhile (· != "--")).any fun text => Argument.read text = .ambiguous

/-- Reads all arguments. -/
def parse (arguments : List String) : Except ArgumentFault Options :=
  if hasAmbiguous arguments then .error .misused else readFrom false false none {} arguments

/-- Whether the shell is to run. -/
def isInteractive (options : Options) : Bool :=
  options.file.isNone && options.expr.isNone

/-- The settings of the session. -/
def settings (options : Options) : Settings :=
  { path := options.file.getD Session.typedPath
    maxSteps := options.maxSteps
    structural := options.structural }

end Options

/-- How a run of the program ends: everything printed, the failure it ends with, and whether the
arguments were misused. -/
structure Outcome where
  output : String
  failure : Option Failure := none
  misused : Bool := false

/-- The sequence of terminals with the given code. -/
def Emphasis.escapeSequence (code : String) : String :=
  "\x1b[" ++ code ++ "m"

/-- The emphasis of terminals. -/
def Emphasis.terminal : Emphasis := fun colour text =>
  let colour := match colour with
    | none => ""
    | some .red => escapeSequence "31"
    | some .magenta => escapeSequence "35"
  escapeSequence "1" ++ colour ++ text ++ escapeSequence "0"

namespace CommandLine

/-- Prints a result as the options want it. -/
def showResult (options : Options) (result : Result) : Session.Action Unit := do
  if options.steps then
    (result.reduction.terms.zipIdx).forM fun (t, i) => do
      let text ← Session.shown (some t)
      Session.print (toString i ++ ": " ++ text)
  if options.raw then Session.print (← Session.shown (some result.reduction.result))
  else Session.print result.pretty

/-- Prints the layouts of a term that the options want. -/
def showLayouts (options : Options) (expr : String) : Session.Action Unit := do
  if options.tree || options.tromp then
    let _ ← Session.load expr
  if options.tree then Session.print (← get).dumpTree
  if options.tromp then
    Session.print (← Session.lift ((← get).dumpCircuit (.whole options.scale)))

/-- Reduces what the file holds, then the term of the options. -/
def batch (options : Options) : Session.Action Unit := do
  Session.run
  (← get).results.forM fun _ => do showResult options (← Session.pop)
  match options.expr with
  | none => pure ()
  | some expr => do
    showResult options (← Session.execute expr)
    showLayouts options expr

/-- The session that options start. -/
def session (emphasis : Emphasis) (options : Options) : Session :=
  Session.start options.settings options.isInteractive { emphasis }

/-- The end of a run whose last failure is settled by the console. -/
def finish (session : Session) (failure : Option Failure) : Outcome :=
  match failure with
  | none => ⟨session.console.output, none, false⟩
  | some failure =>
    let (console, left) := session.console.settle failure
    ⟨console.output, left, false⟩

/-- The shell on a session, its greeting printed. -/
def greet (session : Session) : Shell :=
  { session := { session with console := session.console.print Shell.intro } }

/-- What the program does, given its arguments, the files around it and the lines typed in. -/
def run (emphasis : Emphasis) (arguments : List String) (folder : Folder) (typed : List String) : Outcome :=
  match Options.parse arguments with
  | .error .helpWanted => ⟨"", some (.leave "0"), false⟩
  | .error .misused => ⟨"", some (.leave "2"), true⟩
  | .ok options =>
    match (Session.addFile folder).run.run (session emphasis options) with
    | (.error failure, session) => finish session (some failure)
    | (.ok _, session) =>
      if options.isInteractive then
        let (shell, failure) := (greet session).converse typed
        finish shell.session failure
      else
        match (batch options).run.run session with
        | (.ok _, session) => finish session none
        | (.error failure, session) => finish session (some failure)

end CommandLine
end LambdaStepper
