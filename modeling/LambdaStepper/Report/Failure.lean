import LambdaStepper.Report.Basic
import LambdaStepper.Text.Encoding
import LambdaStepper.Text.Printable

/-! # Failures

An operation that cannot answer ends in a failure: a report, a structure nested deeper than the
depth limit, an interruption, a request to leave the program, or a fault outside the domain of
reports.  Faults of the last kind have a label and a message, which the console prints as an unknown
error.

A template is a message in which pairs of braces stand for the snippets.  Filling it in takes at least as many
snippets as there are pairs (`Report.fill`). -/

namespace LambdaStepper

open Text

/-- A fault that no report describes. -/
inductive Fault where
  /-- Octets that encode no text. -/
  | badEncoding (fault : EncodingFault)
  /-- A text that is no whole number although it has only digits. -/
  | notAnInteger (text : String)
  /-- A number of `count` digits, where no more than `bound` are read. -/
  | tooManyDigits (bound count : Nat)
  /-- A number of more than `bound` digits that is to be written. -/
  | unwritable (bound : Nat)
  /-- A value, as it is shown, that is no natural number. -/
  | notNatural (shown : String)
  /-- The name of no print context. -/
  | unknownContext (name : String)
  /-- A field that an entry lacks. -/
  | missingField (name : String)
  /-- A text in the place of a term that is to be printed. -/
  | notPrintable
  /-- A value of the given type lacks a part that is wanted without looking first. -/
  | noPart (type part : String)
  /-- A code that no character has. -/
  | noCharacter
  /-- A path with a null character in it. -/
  | nullInPath
  /-- A template wants more snippets than the given number of them. -/
  | noSnippet (index : Nat)
  /-- No result is left to read. -/
  | nothingToRead
  /-- A fault of the surroundings. -/
  | other (label message : String)
  deriving DecidableEq, Repr

/-- How many characters of a quoted text are shown that is no whole number. -/
def shownOfInteger : Nat :=
  200

/-- The label of a fault. -/
def Fault.label : Fault → String
  | .badEncoding _ => "UnicodeDecodeError"
  | .notAnInteger _ | .tooManyDigits .. | .notNatural _ | .unknownContext _ => "ValueError"
  | .unwritable _ | .nullInPath | .noCharacter => "ValueError"
  | .missingField _ => "KeyError"
  | .notPrintable => "TypeError"
  | .noPart .. => "AttributeError"
  | .noSnippet _ | .nothingToRead => "IndexError"
  | .other label _ => label

/-- The message of a fault. -/
def Fault.message : Fault → String
  | .badEncoding fault => fault.message
  | .notAnInteger text =>
    "invalid literal for int() with base 10: "
      ++ String.ofList ((quoted text).toList.take shownOfInteger)
  | .tooManyDigits bound count =>
    "Exceeds the limit (" ++ toString bound ++ " digits) for integer string conversion: value has "
      ++ toString count ++ " digits; use sys.set_int_max_str_digits() to increase the limit"
  | .unwritable bound =>
    "Exceeds the limit (" ++ toString bound ++ " digits) for integer string conversion; "
      ++ "use sys.set_int_max_str_digits() to increase the limit"
  | .notNatural shown => "expected natural number, got " ++ shown
  | .unknownContext name => "unknown print context: " ++ quoted name
  | .missingField name => quoted name
  | .notPrintable => "unknown λ-term type: str"
  | .noPart type part => quoted type ++ " object has no attribute " ++ quoted part
  | .noCharacter => "chr() arg not in range(0x110000)"
  | .nullInPath => "embedded null byte"
  | .noSnippet index =>
    "Replacement index " ++ toString index ++ " out of range for positional args tuple"
  | .nothingToRead => "pop from empty list"
  | .other _ message => message

/-- Why an operation has no answer. -/
inductive Failure where
  | report (r : Report)
  /-- A structure is nested deeper than the depth limit. -/
  | tooDeep
  | interrupted
  /-- The program is to end with the given status. -/
  | leave (status : String)
  | fault (f : Fault)
  deriving DecidableEq, Repr

/-- The wording of a template around its pairs of braces. -/
def Report.templateParts (template : String) : List String :=
  template.splitOn "\x7b\x7d"

/-- A report whose snippets take the places of the pairs of braces in a template. -/
def Report.fill (kind : Kind) (template : String) (snippets : List String) : Except Fault Report :=
  let parts := templateParts template
  if parts.length ≤ snippets.length + 1 then .ok (.about kind parts snippets)
  else .error (.noSnippet snippets.length)

end LambdaStepper
