import LambdaStepper.Text.Segment

/-! # Reports

A report is what the program says about something that went wrong or looks odd.  Its message mixes
plain wording with snippets of what the user wrote; the first snippet is the subject, and a span of
the subject can be pointed at by a line of marks below it (`diagnosis`).

`plain` and `coloured` are the same message without and with emphasis.  What emphasis looks like is left
to who prints it. -/

namespace LambdaStepper

open Text

/-- The colours of reports: red for errors, magenta for warnings. -/
inductive Colour where
  | red
  | magenta
  deriving DecidableEq, Repr

/-- How a text is set in bold, and in a colour if one is given. -/
abbrev Emphasis :=
  Option Colour → String → String

/-- What a report is about. -/
inductive Report.Kind where
  | generic
  | parse
  | reduction
  | layout
  | registration
  | stepLimit
  deriving DecidableEq, Repr

/-- A piece of a message. -/
inductive Report.Piece where
  | plain (s : String)
  | snippet (s : String)
  deriving DecidableEq, Repr

/-- A report. -/
structure Report where
  kind : Report.Kind
  message : List Report.Piece
  /-- The text a diagnosis shows; empty if there is none. -/
  subject : String
  /-- Where the marked span starts. -/
  start : Int
  /-- Where the marked span ends, exclusively. -/
  stop : Int
  /-- Whether a diagnosis is wanted. -/
  diagnosed : Bool := true
  /-- Whether the program itself is to blame. -/
  internal : Bool := false
  deriving DecidableEq, Repr

namespace Report

/-- Plain wording and snippets in turns, the wording first. -/
def interleave : List String → List String → List Piece
  | [], _ => []
  | part :: parts, [] => .plain part :: interleave parts []
  | part :: parts, snippet :: snippets =>
    if parts.isEmpty then [.plain part]
    else .plain part :: .snippet snippet :: interleave parts snippets

/-- A report whose snippets stand between the given parts of wording.  The first snippet is the
subject, and the whole of it is the marked span. -/
def about (kind : Kind) (parts snippets : List String) : Report :=
  let subject := snippets.head?.getD ""
  ⟨kind, interleave parts snippets, subject, 0, subject.length, true, false⟩

/-- The same report with another marked span. -/
def spanning (r : Report) (start stop : Int) : Report :=
  { r with start := start, stop := stop }

/-- The same report without a diagnosis. -/
def unmarked (r : Report) : Report :=
  { r with diagnosed := false }

/-- The same report, blaming the program. -/
def blamed (r : Report) : Report :=
  { r with internal := true }

/-- The wording of a piece. -/
def Piece.plainText : Piece → String
  | .plain s => s
  | .snippet s => s

/-- The wording of a piece, snippets in bold. -/
def Piece.colouredText (emphasis : Emphasis) : Piece → String
  | .plain s => s
  | .snippet s => emphasis none s

/-- The message without emphasis. -/
def plain (r : Report) : String :=
  String.join (r.message.map Piece.plainText)

/-- The message with its snippets in bold. -/
def coloured (emphasis : Emphasis) (r : Report) : String :=
  String.join (r.message.map (Piece.colouredText emphasis))

/-- Whether a line of marks can be drawn under the subject. -/
def pointable (r : Report) : Bool :=
  r.diagnosed && !r.internal && !r.subject.isEmpty

/-- The end of the span that is marked: at least one character is. -/
def markedStop (r : Report) : Int :=
  max r.stop (r.start + 1)

/-- The line of marks, without colour. -/
def marks (r : Report) : List Char :=
  '^' :: List.replicate (r.markedStop - r.start - 1).toNat '~'

/-- The subject and a line of marks under its span.  `emphasis` is put on the span and the marks. -/
def diagnosisWith (emphasis : String → String) (r : Report) : String :=
  let cs := r.subject.toList
  let stop := r.markedStop
  let before := String.ofList (slice cs 0 r.start)
  let span := String.ofList (slice cs r.start stop)
  let after := String.ofList (slice cs stop cs.length)
  let indent := String.ofList (List.replicate r.start.toNat ' ')
  "  " ++ before ++ emphasis span ++ after ++ "\n  " ++ indent ++ emphasis (String.ofList r.marks)

/-- The subject with its span in colour, and a line of marks under the span. -/
def diagnosis (emphasis : Emphasis) (colour : Colour) (r : Report) : String :=
  r.diagnosisWith (emphasis (some colour))

end Report
end LambdaStepper
