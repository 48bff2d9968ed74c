import LambdaStepper.Report.Failure

/-! # Faults of syntax

The ways in which a text fails to be a term, each with the failure it ends in.  Positions count the
characters of the shown text, that is, of the expanded text without origin marks. -/

namespace LambdaStepper

/-- What the grammar wants at some place. -/
inductive Expectation where
  /-- A variable, an abstraction or a term in parentheses. -/
  | term
  /-- The given token. -/
  | token (word : String)
  /-- The end of the text. -/
  | ending
  deriving DecidableEq, Repr

/-- How an expectation is put when the text ends too early. -/
def Expectation.wanted : Expectation → String
  | .token word => "'" ++ word ++ "'"
  | .term | .ending => "more tokens"

/-- How an expectation is put behind an unexpected token. -/
def Expectation.phrase : Expectation → String
  | .term => "(expected a variable, λ-abstraction or parenthesized λ-term)"
  | .token word => "(expected '" ++ word ++ "')"
  | .ending => "after end of λ-term"

/-- Why a text is no term. -/
inductive SyntaxFault where
  /-- The text is blank. -/
  | empty
  /-- A character belongs to no token. -/
  | badCharacter (shown : String) (c : Char) (position : Nat)
  /-- The text ends too early. -/
  | unfinished (shown : String) (expected : Expectation)
  /-- A token, here shown as `value` and `width` characters long, stands at the wrong place. -/
  | badToken (shown value : String) (position width : Nat) (expected : Expectation)
  /-- Something other than a variable follows a `λ`. -/
  | badParameter (shown found : String) (position : Nat)
  /-- The term is nested deeper than the depth limit. -/
  | tooDeep (text : String)
  /-- A reference cannot be expanded. -/
  | badReference (fault : Fault)
  deriving DecidableEq, Repr

/-- What a fault of syntax ends in: a report, unless a reference is at fault. -/
def SyntaxFault.failure : SyntaxFault → Failure
  | .empty => .report (Report.about .parse ["λ-term cannot be empty"] []).unmarked
  | .badCharacter shown c position =>
    .report <| (Report.about .parse ["'", "' contains unexpected character '", "' at position ", ""]
      [shown, c.toString, toString position]).spanning position (position + 1)
  | .unfinished shown expected =>
    .report <| (Report.about .parse ["'", "' ended unexpectedly: expected ", ""]
      [shown, expected.wanted]).spanning (shown.length - 1 : Nat) shown.length
  | .badToken shown value position width expected =>
    .report <| (Report.about .parse ["'", "' has unexpected token '", "' at position ", " ", ""]
      [shown, value, toString position, expected.phrase]).spanning position (position + width)
  | .badParameter shown found position =>
    .report <| (Report.about .parse
      ["'", "' has invalid parameter name: expected variable after 'λ' but found '", "'"]
      [shown, found]).spanning position (position + 1)
  | .tooDeep text =>
    .report (Report.about .parse ["'", "' is too deeply nested to parse"] [text]).unmarked
  | .badReference fault => .fault fault

end LambdaStepper
