import LambdaStepper.Reduction.Step
import LambdaStepper.Limits
import LambdaStepper.Term.Print

/-! # Full reduction

A term is reduced step by step until it is in normal form or a number of steps has been made.
Reaching that number is an outcome like the other (`Reduction.Status`), not a failure.

`normalizeWithin` refuses to make a step on a term nested deeper than the depth limit;
`normalizeWithin_unlimited` says that without a limit it is `normalize`. -/

namespace LambdaStepper

/-- Why reduction stopped. -/
inductive Reduction.Status where
  | normal
  | stepLimit
  deriving DecidableEq, Repr

/-- The word for a status. -/
def Reduction.Status.word : Reduction.Status → String
  | .normal => "normal"
  | .stepLimit => "step_limit"

/-- A reduction: the input, the terms after each step, and why there are no more. -/
structure Reduction where
  input : Term
  later : List Term
  status : Reduction.Status
  deriving DecidableEq, Repr

/-- Why a term cannot be reduced. -/
inductive ReductionFault where
  /-- Something, shown as given, stands in the place of a term. -/
  | notATerm (shown : String)
  /-- A term, with a root of the given kind, is nested deeper than the depth limit. -/
  | tooDeep (kind : NodeKind)
  deriving DecidableEq, Repr

/-- What a fault of reduction ends in. -/
def ReductionFault.failure : ReductionFault → Failure
  | .notATerm shown => .report (Report.about .reduction ["'", "' is not a λ-term"] [shown]).blamed
  | .tooDeep kind =>
    .report (Report.about .reduction ["λ-term (", ") is too deeply nested to reduce"]
      [kind.word]).unmarked

namespace Reduction

/-- Every term of a reduction, the input first. -/
def terms (r : Reduction) : List Term :=
  r.input :: r.later

/-- The term reached. -/
def result (r : Reduction) : Term :=
  r.later.getLastD r.input

/-- The number of steps made. -/
def steps (r : Reduction) : Nat :=
  r.later.length

/-- Whether reduction stopped before a normal form. -/
def limitExceeded (r : Reduction) : Bool :=
  r.status = .stepLimit

/-- The report on a reduction that did not reach a normal form. -/
def limitReport? (r : Reduction) : Option Report :=
  if r.limitExceeded then
    some (Report.about .stepLimit ["no normal form reached after ", " reduction steps"]
      [toString r.steps]).unmarked
  else none

/-- A reduction in one line. -/
def describe (r : Reduction) : String :=
  "Reduction(status='" ++ r.status.word ++ "', steps=" ++ toString r.steps ++ ", result="
    ++ r.result.describe ++ ")"

/-- The reduction of `first` that makes a step to `input` before `r`. -/
def after (first : Term) (r : Reduction) : Reduction :=
  ⟨first, r.terms, r.status⟩

end Reduction

namespace Term

/-- Why reduction stops at a term when no more steps may be made. -/
def stopStatus (t : Term) : Reduction.Status :=
  if t.nextRedex?.isNone then .normal else .stepLimit

/-- Reduces a term with at most the given number of steps. -/
def reduceTimes : (steps : Nat) → Term → Reduction
  | 0, t => ⟨t, [], t.stopStatus⟩
  | steps + 1, t =>
    let step := t.reduceStep
    if step.changed then (reduceTimes steps step.result).after t else ⟨t, [], .normal⟩

/-- Reduces a term until it is in normal form or `maxSteps` steps have been made; a negative number
allows none. -/
def normalize (maxSteps : Int) (t : Term) : Reduction :=
  reduceTimes maxSteps.toNat t

/-- One step, unless the term is nested deeper than the depth limit. -/
def reduceStepWithin (limits : Limits) (t : Term) : Except ReductionFault Step :=
  if limits.allows t.depth then .ok t.reduceStep else .error (.tooDeep t.kind)

/-- Reduces a term with at most the given number of steps inside the depth limit. -/
def reduceTimesWithin (limits : Limits) : (steps : Nat) → Term → Except ReductionFault Reduction
  | 0, t => .ok ⟨t, [], t.stopStatus⟩
  | steps + 1, t =>
    match t.reduceStepWithin limits with
    | .error fault => .error fault
    | .ok step =>
      if step.changed then
        (reduceTimesWithin limits steps step.result).map (Reduction.after t)
      else .ok ⟨t, [], .normal⟩

/-- Reduces a term inside the depth limit. -/
def normalizeWithin (limits : Limits) (maxSteps : Int) (t : Term) :
    Except ReductionFault Reduction :=
  reduceTimesWithin limits maxSteps.toNat t

theorem reduceTimesWithin_unlimited (steps : Nat) (t : Term) :
    reduceTimesWithin .unlimited steps t = .ok (reduceTimes steps t) := by
  induction steps generalizing t with
  | zero => rfl
  | succ steps ih =>
    simp only [reduceTimesWithin, reduceTimes, reduceStepWithin, Limits.allows_unlimited, if_true]
    split
    · rw [ih]; rfl
    · rfl

theorem normalizeWithin_unlimited (maxSteps : Int) (t : Term) :
    t.normalizeWithin .unlimited maxSteps = .ok (t.normalize maxSteps) :=
  reduceTimesWithin_unlimited _ t

end Term
end LambdaStepper
