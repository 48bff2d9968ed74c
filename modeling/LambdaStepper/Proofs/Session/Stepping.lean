import Mathlib
import LambdaStepper.Proofs.Identity.NormalOrder
import LambdaStepper.Proofs.Identity.Parsing
import LambdaStepper.Proofs.Prettify.Forms
import LambdaStepper.Proofs.Reduction.Runs
import LambdaStepper.Session.Basic

/-! # Stepping through a term

A session reduces a term at once (`execute`) or step by step (`load`, then `step`).  Both make the same steps
inside the same limits: the terms stepped through are the terms of the reduction
(`outcome_stepThrough_of_execute`), and where stepping fails, reducing fails in the same way
(`outcome_execute_of_stepThrough_error`).

An action is followed through its stages by `run_bind`, one equation for each of the elementary actions. -/

namespace LambdaStepper.Session

/-! ### Running actions -/

section Run

variable {α β : Type} (s : Session)

/-- The session in which a term is the one to step through, after the given terms. -/
def entered (n : Node) (before : List Term) : Session :=
  { s with loaded := some n, history := before ++ [n.term] }

/-- The session with the identities that a computation leaves. -/
def issuedBy (c : Issuing α) : Session :=
  { s with supply := (c s.supply).2 }

@[simp] theorem loaded_entered (n : Node) (before : List Term) : (s.entered n before).loaded = some n :=
  rfl

@[simp] theorem history_entered (n : Node) (before : List Term) :
    (s.entered n before).history = before ++ [n.term] :=
  rfl

@[simp] theorem settings_entered (n : Node) (before : List Term) :
    (s.entered n before).settings = s.settings :=
  rfl

@[simp] theorem settings_issuedBy (c : Issuing α) : (s.issuedBy c).settings = s.settings :=
  rfl

theorem run_bind (action : Action α) (next : α → Action β) :
    (action >>= next).run.run s = match action.run.run s with
      | (.ok a, s') => (next a).run.run s'
      | (.error failure, s') => (.error failure, s') := by
  show StateT.run (ExceptT.run (action >>= next)) s = _
  simp only [ExceptT.run_bind, StateT.run_bind]
  cases h : StateT.run (ExceptT.run action) s with
  | mk a s' => cases a <;> rfl

theorem run_pure (a : α) : (pure a : Action α).run.run s = (.ok a, s) :=
  rfl

theorem run_get : (get : Action Session).run.run s = (.ok s, s) :=
  rfl

theorem run_liftWith {ε : Type} (failure : ε → Failure) (result : Except ε α) :
    (liftWith failure result).run.run s = (result.mapError failure, s) := by
  cases result <;> rfl

theorem run_enter (n : Node) (before : List Term) :
    (enter n before).run.run s = (.ok (), s.entered n before) :=
  rfl

theorem run_issuing (c : Issuing α) : (issuing c).run.run s = (.ok (c s.supply).1, s.issuedBy c) :=
  rfl

theorem run_take (c : Issuing α) : (take c).run.run s = (.ok (), s.issuedBy c) :=
  rfl

theorem run_parse (text : String) :
    (parse text).run.run s
      = ((s.registry.parseNode s.settings.limits text s.supply).1.mapError SyntaxFault.failure,
        s.issuedBy (s.registry.parseNode s.settings.limits text)) := by
  unfold parse
  simp only [run_bind, run_get, run_issuing, run_liftWith]

end Run

/-! ### Stepping -/

/-- Makes steps until nothing changes, at most the given number of them. -/
def stepUntil : (count : Nat) → Action Unit
  | 0 => pure ()
  | count + 1 => do
    let step ← step
    if step.changed then stepUntil count

/-- Loads the term that a text spells, makes steps until nothing changes, at most the given number of them, and
gives back the terms stepped through. -/
def stepThrough (text : String) (count : Nat) : Action (List Term) := do
  let _ ← load text
  stepUntil count
  return (← get).history

/-- What comes of an action. -/
def outcome {α : Type} (s : Session) (action : Action α) : Except Failure α :=
  (action.run.run s).1

theorem run_load (s : Session) (expr : String) :
    (load expr).run.run s = match (s.registry.parseNode s.settings.limits expr s.supply).1 with
      | .ok n => (.ok n.term, (s.issuedBy (s.registry.parseNode s.settings.limits expr)).entered n [])
      | .error fault => (.error fault.failure, s.issuedBy (s.registry.parseNode s.settings.limits expr)) := by
  unfold load
  rw [run_bind, run_parse]
  cases (s.registry.parseNode s.settings.limits expr s.supply).1 <;> rfl

theorem run_load_of_error {s : Session} {expr : String} {fault : SyntaxFault}
    (h : s.registry.parse s.settings.limits expr = .error fault) :
    (load expr).run.run s
      = (.error fault.failure, s.issuedBy (s.registry.parseNode s.settings.limits expr)) := by
  rw [← s.registry.term_parseNode s.settings.limits expr s.supply] at h
  rw [run_load]
  cases hparsed : (s.registry.parseNode s.settings.limits expr s.supply).1 with
  | ok n =>
      rw [hparsed] at h
      cases h
  | error fault' =>
      rw [hparsed] at h
      obtain rfl := Except.error.inj h
      rfl

theorem run_step_of_blank {s : Session} (hloaded : s.loaded = none) :
    step.run.run s = (.error (.report nothingLoaded), s) := by
  unfold step
  rw [run_bind, run_get]
  simp only [hloaded]
  rfl

theorem run_step {s : Session} {n : Node} (hloaded : s.loaded = some n) :
    step.run.run s = match n.term.reduceStepWithin s.settings.limits with
      | .error fault => (.error fault.failure, s)
      | .ok step => (.ok step,
        if step.changed then (s.issuedBy n.reduceStep).entered (n.reduceStep s.supply).1.1 s.history
        else s.issuedBy n.reduceStep) := by
  unfold step
  simp only [run_bind, run_get, hloaded, run_liftWith]
  cases n.term.reduceStepWithin s.settings.limits with
  | error fault => rfl
  | ok step =>
      cases hchanged : step.changed with
      | false => simp only [Except.mapError, run_issuing, hchanged, Bool.false_eq_true, if_false, run_pure]
      | true => simp only [Except.mapError, run_issuing, hchanged, if_true, run_bind, run_enter, run_pure]

theorem reduceStep_of_within {limits : Limits} {t : Term} {step : Step} (h : t.reduceStepWithin limits = .ok step) :
    t.reduceStep = step := by
  unfold Term.reduceStepWithin at h
  split at h
  · exact Except.ok.inj h
  · cases h

theorem run_stepUntil {s : Session} {n : Node} (hloaded : s.loaded = some n) (count : Nat) :
    ∃ s', (stepUntil count).run.run s
        = (((n.term.reduceTimesWithin s.settings.limits count).mapError ReductionFault.failure).map
            fun _ => (), s') ∧
      ∀ r, n.term.reduceTimesWithin s.settings.limits count = .ok r → s'.history = s.history ++ r.later := by
  induction count generalizing s n with
  | zero =>
      refine ⟨s, rfl, ?_⟩
      intro r hr
      obtain rfl := Except.ok.inj hr
      rw [List.append_nil]
  | succ count ih =>
      unfold stepUntil Term.reduceTimesWithin
      rw [run_bind, run_step hloaded]
      cases hstep : n.term.reduceStepWithin s.settings.limits with
      | error fault =>
          refine ⟨s, rfl, ?_⟩
          intro r hr
          cases hr
      | ok step =>
          cases hchanged : step.changed with
          | false =>
              simp only [hchanged, Bool.false_eq_true, if_false]
              refine ⟨s.issuedBy n.reduceStep, rfl, ?_⟩
              intro r hr
              obtain rfl := Except.ok.inj hr
              exact (List.append_nil _).symm
          | true =>
              simp only [hchanged, if_true]
              have hresult : (n.reduceStep s.supply).1.1.term = step.result := by
                rw [Node.term_reduceStep, reduceStep_of_within hstep]
              obtain ⟨s', hrun, hhistory⟩ :=
                ih (loaded_entered (s.issuedBy n.reduceStep) (n.reduceStep s.supply).1.1 s.history)
              rw [settings_entered, settings_issuedBy, hresult] at hrun hhistory
              refine ⟨s', ?_, ?_⟩
              · rw [hrun]
                cases Term.reduceTimesWithin s.settings.limits count step.result <;> rfl
              · intro r hr
                cases hrest : Term.reduceTimesWithin s.settings.limits count step.result with
                | error fault =>
                    rw [hrest] at hr
                    cases hr
                | ok r' =>
                    rw [hrest] at hr
                    obtain rfl := Except.ok.inj hr
                    rw [hhistory r' hrest, history_entered, hresult, List.append_assoc, List.singleton_append,
                      ← Term.input_eq_of_within hrest]
                    rfl

theorem outcome_stepThrough (s : Session) (text : String) (count : Nat) :
    s.outcome (stepThrough text count)
      = ((s.registry.parse s.settings.limits text).mapError SyntaxFault.failure).bind fun t =>
          ((t.reduceTimesWithin s.settings.limits count).mapError ReductionFault.failure).map
            Reduction.terms := by
  unfold outcome stepThrough
  rw [run_bind, run_load, ← s.registry.term_parseNode s.settings.limits text s.supply]
  cases (s.registry.parseNode s.settings.limits text s.supply).1 with
  | error fault => rfl
  | ok n =>
      obtain ⟨s', hrun, hhistory⟩ := run_stepUntil
        (loaded_entered (s.issuedBy (s.registry.parseNode s.settings.limits text)) n []) count
      simp only [settings_entered, settings_issuedBy, history_entered, List.nil_append] at hrun hhistory
      simp only [Except.map, Except.mapError, run_bind, hrun, Except.bind]
      cases hr : n.term.reduceTimesWithin s.settings.limits count with
      | error fault => rfl
      | ok r =>
          simp only [run_get, hhistory r hr, List.singleton_append, ← Term.input_eq_of_within hr]
          rfl

/-! ### Reducing at once -/

theorem run_warnAll (s : Session) (warnings : List Report) :
    (warnAll warnings).run.run s = (.ok (), { s with console := warnings.foldl Console.warn s.console }) :=
  rfl

theorem run_lift {α : Type} (s : Session) (result : Except Failure α) :
    (lift result).run.run s = (result, s) := by
  cases result <;> rfl

theorem exists_run_prettify (s : Session) (t : Term) :
    ∃ console supply, (prettify (some t)).run.run s
      = ((t.prettify s.settings.limits s.registry s.settings.structural).2, { s with console, supply }) := by
  unfold Session.prettify
  rw [run_bind, run_get]
  show ∃ console supply, StateT.run (ExceptT.run (take _ >>= fun _ => warnAll _ >>= fun _ => lift _)) s = _
  simp only [run_bind, run_take, run_warnAll, run_lift]
  exact ⟨_, _, rfl⟩

/-- Executing reduces the term that the text spells and makes it readable; nothing but the console and the
identities left changes. -/
theorem exists_run_execute (s : Session) (text : String) :
    ∃ console supply, (execute text).run.run s
      = (((s.registry.parse s.settings.limits text).mapError SyntaxFault.failure).bind fun t =>
          ((t.normalizeWithin s.settings.limits s.settings.maxSteps).mapError ReductionFault.failure).bind
            fun r => (r.result.prettify s.settings.limits s.registry s.settings.structural).2.map
              (Result.mk text r), { s with console, supply }) := by
  unfold execute
  rw [run_bind, run_parse, ← s.registry.term_parseNode s.settings.limits text s.supply]
  cases (s.registry.parseNode s.settings.limits text s.supply).1 with
  | error fault => exact ⟨s.console, _, rfl⟩
  | ok n =>
      simp only [Except.map, Except.mapError, Except.bind, run_bind, run_get, run_liftWith, settings_issuedBy]
      cases n.term.normalizeWithin s.settings.limits s.settings.maxSteps with
      | error fault => exact ⟨s.console, _, rfl⟩
      | ok r =>
          -- neither a warning nor the identities left change what the readable form depends on
          have hpretty : ∀ console supply, ∃ console' supply', (prettify (some r.result) >>= fun pretty =>
              pure (Result.mk text r pretty)).run.run { s with console, supply }
                = ((r.result.prettify s.settings.limits s.registry s.settings.structural).2.map
                    (Result.mk text r), { s with console := console', supply := supply' }) := by
            intro console supply
            obtain ⟨console', supply', hrun⟩ := exists_run_prettify { s with console, supply } r.result
            refine ⟨console', supply', ?_⟩
            rw [run_bind, hrun]
            cases (r.result.prettify s.settings.limits s.registry s.settings.structural).2 <;> rfl
          dsimp only
          rw [run_take]
          cases r.limitExceeded with
          | false =>
              simp only [Bool.false_eq_true, if_false]
              exact hpretty s.console _
          | true =>
              simp only [if_true]
              rw [run_bind, run_warnAll]
              dsimp only [issuedBy]
              exact hpretty _ _

theorem outcome_execute (s : Session) (text : String) :
    s.outcome (execute text)
      = ((s.registry.parse s.settings.limits text).mapError SyntaxFault.failure).bind fun t =>
          ((t.normalizeWithin s.settings.limits s.settings.maxSteps).mapError ReductionFault.failure).bind
            fun r => (r.result.prettify s.settings.limits s.registry s.settings.structural).2.map
              (Result.mk text r) := by
  obtain ⟨console, supply, hrun⟩ := exists_run_execute s text
  exact congrArg Prod.fst hrun

/-! ### The agreement -/

section Agreement

variable {s : Session} {text : String} {n : Nat} (hmax : s.settings.maxSteps = n)

include hmax

/-- What is executed can be stepped through. -/
theorem outcome_stepThrough_of_execute {result : Result} (h : s.outcome (execute text) = .ok result) :
    s.outcome (stepThrough text n) = .ok result.reduction.terms := by
  rw [outcome_execute, hmax] at h
  rw [outcome_stepThrough]
  cases hparse : s.registry.parse s.settings.limits text with
  | error fault =>
      rw [hparse] at h
      cases h
  | ok t =>
      simp only [hparse, Except.mapError, Except.bind, Term.normalizeWithin, Int.toNat_natCast] at h ⊢
      cases hr : t.reduceTimesWithin s.settings.limits n with
      | error fault =>
          rw [hr] at h
          cases h
      | ok r =>
          rw [hr] at h
          simp only [] at h
          cases hpretty : (r.result.prettify s.settings.limits s.registry s.settings.structural).2 with
          | error failure =>
              rw [hpretty] at h
              cases h
          | ok pretty =>
              rw [hpretty] at h
              obtain rfl := Except.ok.inj h
              rfl

/-- Where stepping through a term fails, executing it fails in the same way. -/
theorem outcome_execute_of_stepThrough_error {failure : Failure}
    (h : s.outcome (stepThrough text n) = .error failure) :
    s.outcome (execute text) = .error failure := by
  rw [outcome_stepThrough] at h
  rw [outcome_execute, hmax]
  cases hparse : s.registry.parse s.settings.limits text with
  | error fault =>
      rw [hparse] at h
      exact congrArg Except.error (Except.error.inj h)
  | ok t =>
      simp only [hparse, Except.mapError, Except.bind, Term.normalizeWithin, Int.toNat_natCast] at h ⊢
      cases hr : t.reduceTimesWithin s.settings.limits n with
      | error fault =>
          rw [hr] at h
          exact congrArg Except.error (Except.error.inj h)
      | ok r =>
          rw [hr] at h
          cases h

theorem exists_outcome_execute (hlimits : s.settings.limits = .unlimited) {terms : List Term}
    (h : s.outcome (stepThrough text n) = .ok terms) :
    ∃ result, s.outcome (execute text) = .ok result := by
  rw [outcome_stepThrough, hlimits] at h
  rw [outcome_execute, hmax, hlimits]
  cases hparse : s.registry.parse .unlimited text with
  | error fault =>
      rw [hparse] at h
      cases h
  | ok t =>
      obtain ⟨warnings, pretty, hpretty⟩ :=
        (t.normalize n).result.exists_prettify s.registry s.settings.structural
      refine ⟨⟨text, t.normalize n, pretty⟩, ?_⟩
      simp only [Except.mapError, Except.bind, Term.normalizeWithin_unlimited, hpretty]
      rfl

end Agreement

/-- **Reducing at once, in parts and step by step agree.**  Full reduction makes steps from the term on, until
no redex is left or `maxSteps` steps are made.  Some steps and then some more from the term reached are all
these steps.  Inside limits full reduction is the same, where it is not refused.  And a session that may make
`n` steps steps through the terms of the reduction that it executes; where stepping fails, executing fails in the
same way, and without limits all that can be stepped through can be executed. -/
theorem stepwise_reduction :
    (∀ (t : Term) (maxSteps : Int), (t.normalize maxSteps).IsRun t maxSteps.toNat) ∧
    (∀ (t : Term) (m n : Nat),
      (t.normalize (m + n)).terms = (t.normalize m).terms ++ ((t.normalize m).result.normalize n).terms.tail ∧
        (t.normalize (m + n)).status = ((t.normalize m).result.normalize n).status) ∧
    (∀ (limits : Limits) (t : Term) (maxSteps : Int) (r : Reduction),
      t.normalizeWithin limits maxSteps = .ok r → r = t.normalize maxSteps) ∧
    ∀ (s : Session) (text : String) (n : Nat), s.settings.maxSteps = n →
      (∀ result, s.outcome (execute text) = .ok result →
        s.outcome (stepThrough text n) = .ok result.reduction.terms) ∧
      (∀ failure, s.outcome (stepThrough text n) = .error failure →
        s.outcome (execute text) = .error failure) ∧
      (s.settings.limits = .unlimited → ∀ terms, s.outcome (stepThrough text n) = .ok terms →
        ∃ result, s.outcome (execute text) = .ok result) := by
  refine ⟨Term.isRun_normalize, ?_, fun limits _ _ _ h => Term.eq_reduceTimes_of_within limits h, ?_⟩
  · intro t m n
    rw [Term.normalize_add]
    exact ⟨rfl, rfl⟩
  · intro s text n hmax
    refine ⟨?_, ?_, ?_⟩
    · intro result h
      exact outcome_stepThrough_of_execute hmax h
    · intro failure h
      exact outcome_execute_of_stepThrough_error hmax h
    · intro hlimits terms h
      exact exists_outcome_execute hmax hlimits h

/-- A reduction that is stopped after its first step. -/
theorem stepwise_reduction_stopped :
    let s : Session := start { path := typedPath, maxSteps := 1, limits := .unlimited } true {}
    s.settings.maxSteps = (1 : Nat) ∧ ∃ result, s.outcome (execute "(λx.λy.x) a b") = .ok result ∧
      result.reduction.terms.map Term.shown = ["((λx.λy.x) a) b", "(λy.a) b"] ∧
      s.outcome (stepThrough "(λx.λy.x) a b" 1) = .ok result.reduction.terms := by
  intro s
  have hmax : s.settings.maxSteps = (1 : Nat) := rfl
  obtain ⟨hterms, -, hexecute⟩ := stepwise_reduction.2.2.2 s "(λx.λy.x) a b" 1 hmax
  let first : Term := .app {} (.app {} (.lam {} "x" (.lam {} "y" (.var {} "x"))) (.var {} "a")) (.var {} "b")
  let second : Term := .app {} (.lam {} "y" (.var {} "a")) (.var {} "b")
  have hstepped : s.outcome (stepThrough "(λx.λy.x) a b" 1) = .ok [first, second] := by
    have hparse : s.registry.parse s.settings.limits "(λx.λy.x) a b" = .ok first := by rfl
    have hreduction : first.reduceTimesWithin s.settings.limits 1 = .ok ⟨first, [second], .stepLimit⟩ := by
      rw [show s.settings.limits = .unlimited from rfl, Term.reduceTimesWithin_unlimited]
      cbv
    rw [outcome_stepThrough, hparse]
    simp only [Except.mapError, Except.bind, hreduction]
    rfl
  obtain ⟨result, hresult⟩ := hexecute rfl _ hstepped
  have hagree := hterms result hresult
  have hlist : [first, second] = result.reduction.terms := Except.ok.inj (hstepped.symm.trans hagree)
  refine ⟨hmax, result, hresult, ?_, hagree⟩
  rw [← hlist]
  decide

end LambdaStepper.Session
