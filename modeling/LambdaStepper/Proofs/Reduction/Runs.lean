import LambdaStepper.Proofs.Reduction.Normalization
import Mathlib.Data.List.Chain

/-! # Runs of steps

What full reduction returns is a run of steps (`Reduction.IsRun`): it starts with the term, every later term
is what a step makes of the one before, and it goes on until no redex is left or no step may be made
(`isRun_normalize`).

A run may be stopped and taken up again at its last term (`normalize_add`): no step knows of the steps
before it.  This is so inside a depth limit as well (`reduceTimesWithin_add`), which stops a run at the same
term, be it in one part or in two. -/

namespace LambdaStepper

namespace Reduction

/-- Whether a reduction is a run of at most `bound` steps from `t` on. -/
structure IsRun (t : Term) (bound : Nat) (r : Reduction) : Prop where
  starts : r.terms.head? = some t
  follows : r.terms.IsChain fun u v => u.reduceStep.changed = true ∧ v = u.reduceStep.result
  bounded : r.steps ≤ bound
  reaches : r.terms.getLast? = some r.result
  normal_iff : r.status = .normal ↔ r.result.IsNormal
  exhausted : r.status ≠ .normal → r.steps = bound

/-- A reduction that goes on as another one, which starts where it stops. -/
def continuedBy (r r' : Reduction) : Reduction :=
  ⟨r.input, r.later ++ r'.later, r'.status⟩

theorem getLast?_terms (r : Reduction) : r.terms.getLast? = some r.result := by
  unfold terms result
  rw [List.getLast?_cons, List.getLastD_eq_getLast?]

theorem stopped_continuedBy (t : Term) (status : Status) (r : Reduction) :
    (⟨t, [], status⟩ : Reduction).continuedBy r = ⟨t, r.later, r.status⟩ :=
  rfl

end Reduction

namespace Term

theorem changed_reduceStep_eq_false_iff (t : Term) : t.reduceStep.changed = false ↔ t.IsNormal := by
  unfold Step.changed
  rw [isNormal_iff_findIdx?, redex?_reduceStep]
  exact Option.isSome_eq_false_iff.trans Option.isNone_iff_eq_none

theorem stopStatus_eq_normal_iff (t : Term) : t.stopStatus = .normal ↔ t.IsNormal := by
  unfold stopStatus
  rw [isNormal_iff_findIdx?, nextRedex?_eq_findIdx?]
  cases t.nodes.findIdx? isRedex <;> simp

/-! ### One run -/

@[simp] theorem input_reduceTimes (steps : Nat) (t : Term) : (reduceTimes steps t).input = t := by
  cases steps with
  | zero => rfl
  | succ steps =>
      simp only [reduceTimes]
      split <;> rfl

theorem isRun_stopped {t : Term} {bound : Nat} {status : Reduction.Status}
    (hstatus : status = .normal ↔ t.IsNormal) (hbound : status ≠ .normal → bound = 0) :
    Reduction.IsRun t bound ⟨t, [], status⟩ where
  starts := rfl
  follows := .singleton t
  bounded := Nat.zero_le bound
  reaches := rfl
  normal_iff := hstatus
  exhausted h := (hbound h).symm

theorem isRun_after {t : Term} {bound : Nat} {r : Reduction} (hchanged : t.reduceStep.changed = true)
    (h : r.IsRun t.reduceStep.result bound) : (r.after t).IsRun t (bound + 1) where
  starts := rfl
  follows := by
    apply List.IsChain.cons h.follows
    intro u hu
    rw [h.starts, Option.mem_some_iff] at hu
    exact ⟨hchanged, hu.symm⟩
  bounded := Nat.succ_le_succ h.bounded
  reaches := Reduction.getLast?_terms _
  normal_iff := by
    rw [Reduction.status_after, Reduction.result_after]
    exact h.normal_iff
  exhausted hstatus := congrArg Nat.succ (h.exhausted hstatus)

theorem isRun_reduceTimes (steps : Nat) (t : Term) : (reduceTimes steps t).IsRun t steps := by
  induction steps generalizing t with
  | zero => exact isRun_stopped t.stopStatus_eq_normal_iff fun _ => rfl
  | succ steps ih =>
      cases hchanged : t.reduceStep.changed with
      | true =>
          simp only [reduceTimes, hchanged, if_true]
          exact isRun_after hchanged (ih t.reduceStep.result)
      | false =>
          have hnormal := t.changed_reduceStep_eq_false_iff.mp hchanged
          simp only [reduceTimes, hchanged, Bool.false_eq_true, if_false]
          exact isRun_stopped (iff_of_true rfl hnormal) fun h => absurd rfl h

/-- Full reduction is a run of steps, which ends at a normal form or after the steps that it may make. -/
theorem isRun_normalize (t : Term) (maxSteps : Int) : (t.normalize maxSteps).IsRun t maxSteps.toNat :=
  isRun_reduceTimes _ t

/-! ### A run in two parts -/

variable (limits : Limits)

theorem eq_reduceTimes_of_within {steps : Nat} {t : Term} {r : Reduction}
    (h : reduceTimesWithin limits steps t = .ok r) : r = reduceTimes steps t := by
  induction steps generalizing t r with
  | zero => exact (Except.ok.inj h).symm
  | succ steps ih =>
      unfold reduceTimesWithin reduceStepWithin at h
      unfold reduceTimes
      split at h
      · cases h
      · next step hstep =>
        split at hstep
        · obtain rfl := Except.ok.inj hstep
          cases hchanged : t.reduceStep.changed with
          | false =>
              simp only [hchanged, Bool.false_eq_true, if_false] at h ⊢
              exact (Except.ok.inj h).symm
          | true =>
              simp only [hchanged, if_true] at h ⊢
              cases hrest : reduceTimesWithin limits steps t.reduceStep.result with
              | error fault =>
                  rw [hrest] at h
                  cases h
              | ok r' =>
                  rw [hrest] at h
                  rw [← ih hrest]
                  exact (Except.ok.inj h).symm
        · cases hstep

theorem input_eq_of_within {limits : Limits} {steps : Nat} {t : Term} {r : Reduction}
    (h : reduceTimesWithin limits steps t = .ok r) : r.input = t := by
  rw [eq_reduceTimes_of_within limits h, input_reduceTimes]

/-- Where a run makes no step, it makes none when it is taken up again. -/
theorem reduceTimesWithin_unchanged {t : Term} {step : Step} (hstep : t.reduceStepWithin limits = .ok step)
    (hchanged : step.changed = false) (steps : Nat) :
    reduceTimesWithin limits steps t = .ok ⟨t, [], .normal⟩ := by
  cases steps with
  | zero =>
      unfold reduceStepWithin at hstep
      split at hstep
      · obtain rfl := Except.ok.inj hstep
        have hnormal := t.changed_reduceStep_eq_false_iff.mp hchanged
        unfold reduceTimesWithin
        rw [t.stopStatus_eq_normal_iff.mpr hnormal]
      · cases hstep
  | succ steps => simp [reduceTimesWithin, hstep, hchanged]

/-- Some steps and then some more are all these steps, inside the same limits. -/
theorem reduceTimesWithin_add (m n : Nat) (t : Term) :
    reduceTimesWithin limits (m + n) t =
      (reduceTimesWithin limits m t).bind fun r =>
        (reduceTimesWithin limits n r.result).map r.continuedBy := by
  induction m generalizing t with
  | zero =>
      rw [Nat.zero_add]
      show _ = (reduceTimesWithin limits n t).map _
      cases hrun : reduceTimesWithin limits n t with
      | error fault => rfl
      | ok r =>
          rw [Except.map, Reduction.stopped_continuedBy, ← input_eq_of_within hrun]
  | succ m ih =>
      rw [Nat.add_right_comm]
      cases hstep : t.reduceStepWithin limits with
      | error fault => simp [reduceTimesWithin, hstep, Except.bind]
      | ok step =>
          cases hchanged : step.changed with
          | false =>
              rw [reduceTimesWithin_unchanged limits hstep hchanged, reduceTimesWithin_unchanged limits hstep hchanged]
              show _ = (reduceTimesWithin limits n t).map _
              rw [reduceTimesWithin_unchanged limits hstep hchanged]
              rfl
          | true =>
              simp only [reduceTimesWithin, hstep, hchanged, if_true, ih]
              cases reduceTimesWithin limits m step.result with
              | error fault => rfl
              | ok r =>
                  simp only [Except.bind, Except.map, Reduction.result_after]
                  cases reduceTimesWithin limits n r.result with
                  | error fault => rfl
                  | ok r' => rfl

/-- Some steps and then some more are all these steps. -/
theorem normalize_add (m n : Nat) (t : Term) :
    t.normalize (m + n) = (t.normalize m).continuedBy ((t.normalize m).result.normalize n) := by
  have h := reduceTimesWithin_add .unlimited m n t
  simp only [reduceTimesWithin_unlimited, Except.bind, Except.map, Except.ok.injEq] at h
  exact h

end Term
end LambdaStepper
