import LambdaStepper.CommandLine

/-! # The program

Reads the file and the lines that `CommandLine.run` is a function of, prints what it prints, and ends
with its status.  In the shell every line is answered before the next one is read.  Emphasis is that of
terminals. -/

namespace LambdaStepper

/-- The summary of the arguments. -/
def usage : String :=
  "usage: lambdaviz [-h] [-e EXPR] [--max-steps MAX_STEPS] [--steps] [--tree] [--tromp]\n" ++
  "                 [--scale SCALE] [--structural] [--raw] [file]"

/-- The file that the options name, if it can be read. -/
def readFolder (options : Options) : IO Folder := do
  match options.file with
  | none => return []
  | some path =>
    try
      let octets ← IO.FS.readBinFile path
      return [(path, octets.toList)]
    catch _ => return []

/-- Prints what a shell has to print, and forgets it. -/
def flush (shell : Shell) : IO Shell := do
  let out ← IO.getStdout
  out.putStr shell.session.console.output
  out.flush
  return { shell with session.console.output := "" }

/-- Answers lines until one ends the shell. -/
partial def loop (shell : Shell) : IO (Shell × Option Failure) := do
  let shell ← flush { shell with session.console := shell.session.console.write shell.prompt }
  let line ← (← IO.getStdin).getLine
  let line := if line.isEmpty then "EOF" else line
  match shell.respond line with
  | (shell, .ok .quit) => return (shell, none)
  | (shell, .ok _) => loop shell
  | (shell, .error failure) => return (shell, some failure)

/-- Prints the end of a run and gives its status. -/
def conclude (outcome : Outcome) : IO UInt32 := do
  IO.print outcome.output
  match outcome.failure with
  | none => return 0
  | some (.leave status) => return status.toNat?.getD 1 |>.toUInt32
  | some (.fault fault) =>
    IO.eprintln (fault.label ++ ": " ++ fault.message)
    return 1
  | some _ => return 1

end LambdaStepper

open LambdaStepper in
/-- Runs the program. -/
def main (arguments : List String) : IO UInt32 := do
  match Options.parse arguments with
  | .error .helpWanted =>
    IO.println usage
    return 0
  | .error .misused =>
    IO.eprintln usage
    return 2
  | .ok options =>
    if options.isInteractive then
      let (shell, failure) ← loop (CommandLine.greet (CommandLine.session Emphasis.terminal options))
      conclude (CommandLine.finish shell.session failure)
    else conclude (CommandLine.run Emphasis.terminal arguments (← readFolder options) [])
