import LambdaStepper.Identity.Layout
import LambdaStepper.Identity.Parser
import LambdaStepper.Layout.Dump
import LambdaStepper.Prettify
import LambdaStepper.Reduction.Normalize
import LambdaStepper.Registry.Definition
import LambdaStepper.Report.Console
import LambdaStepper.Session.Statement

/-! # Sessions

A session keeps the registry, the statements that wait to be reduced, the results not read yet, and
the term that is being stepped through.  Definitions take effect at once; terms are reduced by `run`.

The operations are actions on the session that may fail.  A failure keeps the session as it is at that
moment: what was printed stays printed, and what was registered with the console stays
registered. -/

namespace LambdaStepper

/-- A statement that was reduced. -/
structure Result where
  expr : String
  reduction : Reduction
  /-- The readable form of the term reached. -/
  pretty : String
  deriving DecidableEq, Repr

/-- The greatest number of steps of a reduction where none is given. -/
def Settings.defaultMaxSteps : Nat :=
  1000

/-- What a session is set up with. -/
structure Settings where
  /-- The file that statements are read from. -/
  path : String
  /-- The greatest number of steps of a reduction. -/
  maxSteps : Int := Settings.defaultMaxSteps
  /-- Whether named terms are found as whole subterms. -/
  structural : Bool := false
  limits : Limits := .standard
  deriving DecidableEq, Repr

/-- A session. -/
structure Session where
  settings : Settings
  console : Console
  registry : Registry := .initial
  /-- The terms that wait to be reduced, by line, in order of addition. -/
  pending : List (Int × String) := []
  /-- The results not read yet, oldest first. -/
  results : List Result := []
  /-- The term being stepped through. -/
  loaded : Option Node := none
  /-- The terms stepped through, the loaded term last. -/
  history : List Term := []
  /-- The identities left.  Steps that end in a refusal for their depth count as if they had taken none. -/
  supply : IdSupply := {}

/-- The identities that go to a definition: its text is parsed if its name may join. -/
def Registry.issueDefinition (limits : Limits) (r : Registry) (entry : NamedTerm) : Issuing Unit :=
  match r.define limits entry with
  | .ok _ | .error (.unparsable _) => do
    let _ ← (r.append entry).parseNode limits entry.definition
  | .error _ => return

/-- The identities that go to the forms of entries, up to the first that fails. -/
def NamedForm.issueForms (limits : Limits) (r : Registry) : List NamedTerm → Issuing Unit
  | [] => return
  | entry :: entries => do
    let _ ← r.parseNode limits entry.definition
    match ofEntry limits r entry with
    | .ok (.error _) => return
    | _ => issueForms limits r entries

/-- The identities that go to the readable form of a term, which needs no forms if it is a numeral. -/
def Term.issuePretty (limits : Limits) (r : Registry) (t : Term) : Issuing Unit :=
  if (Numeral.recognise? t).isSome || Numeral.isTag t.tag then return
  else NamedForm.issueForms limits r r.entries

namespace Session

/-- An action on a session that may fail. -/
abbrev Action := ExceptT Failure (StateM Session)

/-- The path of statements that are typed in rather than read from a file. -/
def typedPath : String :=
  "<in>"

/-- A new session, known to the console.  On the command line no error is fatal. -/
def start (settings : Settings) (commandLine : Bool) (console : Console) : Session :=
  let console := console.registerFile settings.path
  { settings, console := if commandLine then { console with fatal := false } else console }

/-- A value, or the failure in its place. -/
def lift {α : Type} : Except Failure α → Action α
  | .ok a => pure a
  | .error failure => throw failure

/-- A value, or the failure that a fault ends in. -/
def liftWith {ε α : Type} (failure : ε → Failure) : Except ε α → Action α
  | .ok a => pure a
  | .error e => throw (failure e)

/-- Makes a value with the identities left. -/
def issuing {α : Type} (c : Issuing α) : Action α :=
  modifyGet fun s => ((c s.supply).1, { s with supply := (c s.supply).2 })

/-- Takes the identities that a computation takes. -/
def take {α : Type} (c : Issuing α) : Action Unit := do
  let _ ← issuing c

/-- Changes the console. -/
def onConsole (f : Console → Console) : Action Unit :=
  modify fun s => { s with console := f s.console }

/-- Prints a line. -/
def print (text : String) : Action Unit :=
  onConsole (·.print text)

/-- Prints warnings. -/
def warnAll (warnings : List Report) : Action Unit :=
  onConsole fun console => warnings.foldl Console.warn console

/-- Marks a line as the one being worked on. -/
def registerLine (line : String) (number : Int) : Action Unit := do
  let path := (← get).settings.path
  onConsole (·.registerLine path line number)

/-- Forgets the line being worked on. -/
def removeLine : Action Unit := do
  let path := (← get).settings.path
  onConsole (·.removeLine path)

/-- Parses a text with the registry of the session. -/
def parse (text : String) : Action Node := do
  let s ← get
  liftWith SyntaxFault.failure (← issuing (s.registry.parseNode s.settings.limits text))

/-- Registers a named term.  The action gives back its entry. -/
def define (name definition : String) (description : Option String) : Action NamedTerm := do
  let s ← get
  let entry : NamedTerm := ⟨name, definition, description⟩
  take (s.registry.issueDefinition s.settings.limits entry)
  let registry ← liftWith DefinitionFault.failure (s.registry.define s.settings.limits entry)
  modify fun s => { s with registry := registry }
  return entry

/-- Pending terms with one more; a term for a line that has one takes its place. -/
def setPending (line : Int) (expr : String) : List (Int × String) → List (Int × String)
  | [] => [(line, expr)]
  | (l, e) :: pending =>
    if l = line then (l, expr) :: pending else (l, e) :: setPending line expr pending

/-- Adds a statement: a definition takes effect, a term is checked and waits for `run`. -/
def add (expr : String) (line : Int) : Action Unit := do
  registerLine expr line
  match Text.splitFirst? [':', '='] expr.toList with
  | some (name, definition) =>
    let _ ← define (String.ofList (Text.trim name)) (String.ofList (Text.trim definition)) none
  | none =>
    let _ ← parse expr
    modify fun s => { s with pending := setPending line expr s.pending }
  removeLine

/-- Adds the statements of the file of the session. -/
def addFile (folder : Folder) : Action Unit := do
  let s ← get
  if s.settings.path = typedPath then pure ()
  else
    let statements ← lift (folder.statements s.settings.path)
    statements.forM fun statement => add statement.text statement.line

/-- The readable form of a term, or of the loaded one; nothing for no term. -/
def prettify (t? : Option Term) : Action String := do
  let s ← get
  match t? <|> s.loaded.map Node.term with
  | none => return ""
  | some t =>
    let (warnings, text) := t.prettify s.settings.limits s.registry s.settings.structural
    take (t.issuePretty s.settings.limits s.registry)
    warnAll warnings
    lift text

/-- The text of a term, or of the loaded one; nothing for no term. -/
def shown (t? : Option Term) : Action String := do
  let s ← get
  match t? <|> s.loaded.map Node.term with
  | none => return ""
  | some t => lift (t.shownWithin s.settings.limits)

/-- The warning on a term without a normal form within the step limit. -/
def limitWarning (expr : String) (maxSteps : Int) : Report :=
  (Report.about .stepLimit
    ["'", "' has no normal form within ", " steps: showing the last term reached"]
    [expr, toString maxSteps]).unmarked

/-- Reduces the term that a text spells. -/
def execute (expr : String) : Action Result := do
  let n ← parse expr
  let s ← get
  let reduction ← liftWith ReductionFault.failure
    (n.term.normalizeWithin s.settings.limits s.settings.maxSteps)
  -- a step that changes nothing is made to see that there is none, if one is left
  take (n.steps (min (reduction.steps + 1) s.settings.maxSteps.toNat))
  if reduction.limitExceeded then warnAll [limitWarning expr s.settings.maxSteps]
  let pretty ← prettify (some reduction.result)
  return ⟨expr, reduction, pretty⟩

/-- Reduces one pending term, which waits no longer whatever comes of it. -/
def runOne (line : Int) (expr : String) : Action Unit := do
  registerLine expr line
  let outcome ← observing (execute expr)
  modify fun s => { s with pending := s.pending.filter fun entry => entry.1 != line }
  let result ← lift outcome
  modify fun s => { s with results := s.results ++ [result] }
  removeLine
where
  /-- The outcome of an action that may fail, as a value. -/
  observing {α : Type} (action : Action α) : Action (Except Failure α) :=
    ExceptT.lift action.run

/-- Reduces all pending terms in order of addition, up to the first that fails. -/
def run : Action Unit := do
  (← get).pending.forM fun (line, expr) => runOne line expr

/-- Takes the oldest result not read yet. -/
def pop : Action Result := do
  let s ← get
  match s.results with
  | [] => throw (.fault .nothingToRead)
  | result :: results =>
    set { s with results := results }
    return result

/-- Makes a term the one to step through, after the given terms. -/
def enter (n : Node) (before : List Term) : Action Unit :=
  modify fun s => { s with loaded := some n, history := before ++ [n.term] }

/-- Makes the term that a text spells the one to step through. -/
def load (expr : String) : Action Term := do
  let n ← parse expr
  enter n []
  return n.term

/-- The report on stepping without a term. -/
def nothingLoaded : Report :=
  (Report.about .generic ["no λ-term loaded"] []).unmarked

/-- Contracts the next redex of the loaded term. -/
def step : Action Step := do
  let s ← get
  match s.loaded with
  | none => throw (.report nothingLoaded)
  | some n =>
    let step ← liftWith ReductionFault.failure (n.term.reduceStepWithin s.settings.limits)
    let (next, _) ← issuing n.reduceStep
    if step.changed then enter next s.history
    return step

/-- The position of the next redex of the loaded term. -/
def nextRedex? (s : Session) : Option Nat :=
  s.loaded.bind fun n => n.term.nextRedex?

/-- Whether the loaded term has a redex. -/
def reducible (s : Session) : Bool :=
  s.nextRedex?.isSome

/-- A drawing of the loaded term. -/
def drawing {α : Type} (s : Session)
    (draw : Limits → Option Int → Node → Drawing α) : Drawing α :=
  match s.loaded with
  | none => .blank
  | some n => draw s.settings.limits (n.term.nextRedex?.bind n.idAt?) n

/-- The tree layout of the loaded term, its next redex highlighted. -/
def tree (s : Session) : Drawing Layout.Tree :=
  s.drawing Node.treeDrawing

/-- The Tromp diagram of the loaded term, its next redex highlighted. -/
def circuit (s : Session) : Drawing Layout.Circuit :=
  s.drawing Node.circuitDrawing

/-- The JSON text of the tree layout. -/
def dumpTree (s : Session) : String :=
  (Layout.treeJson s.tree).render

/-- The JSON text of the Tromp diagram at the given scale, unless its size has too many digits. -/
def dumpCircuit (s : Session) (scale : Decimal.Number) : Except Failure String :=
  match Layout.pixelsFault? s.settings.limits (Layout.circuitPixels scale s.circuit) with
  | some fault => .error (.fault fault)
  | none => .ok (Layout.circuitJson scale s.circuit).render

end Session
end LambdaStepper
