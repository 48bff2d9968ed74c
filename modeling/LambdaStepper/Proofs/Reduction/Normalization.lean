import LambdaStepper.Proofs.Reduction.Standardization
import LambdaStepper.Reduction.Normalize

/-! # Normalization

Full reduction finds the normal form of every term that has one (`normalize_finds_normalForm`).  Each
of its steps is one of `leftmost?` on the nameless form, so it follows the leftmost reduction that
standardization provides, and ends where that ends (`reduceTimes_follows`). -/

namespace LambdaStepper

namespace Reduction

@[simp] theorem status_after (first : Term) (r : Reduction) : (r.after first).status = r.status :=
  rfl

@[simp] theorem result_after (first : Term) (r : Reduction) : (r.after first).result = r.result := by
  unfold result after terms
  rw [List.getLastD_cons]

end Reduction

namespace Term

open Relation

theorem leftmost?_nameless (t : Term) :
    t.nameless.leftmost? = if t.reduceStep.changed then some t.reduceStep.result.nameless else none := by
  unfold nameless Step.changed
  rw [leftmost?_namelessIn]
  cases t.reduceStep.redex? <;> rfl

theorem isNormal_nameless_iff (t : Term) : t.nameless.IsNormal ↔ t.IsNormal := by
  rw [Nameless.isNormal_iff_leftmost?, isNormal_iff_findIdx?, ← redex?_reduceStep, nameless,
    leftmost?_namelessIn, Option.map_eq_none_iff]

theorem reduceTimes_of_isNormal {t : Term} (h : t.IsNormal) (steps : Nat) :
    reduceTimes steps t = ⟨t, [], .normal⟩ := by
  rw [isNormal_iff_findIdx?] at h
  cases steps with
  | zero => simp [reduceTimes, stopStatus, nextRedex?_eq_findIdx?, h]
  | succ steps =>
      have hstep : t.reduceStep.changed = false := by simp [Step.changed, redex?_reduceStep, h]
      simp [reduceTimes, hstep]

/-- Full reduction follows a leftmost reduction to a normal form, if it may make enough steps. -/
theorem reduceTimes_follows {t : Term} {n : Nameless}
    (h : ReflTransGen Nameless.Leftmost t.nameless n) (hn : n.IsNormal) :
    ∃ k, ∀ steps, k ≤ steps →
      (reduceTimes steps t).status = .normal ∧ (reduceTimes steps t).result.nameless = n := by
  generalize hu : t.nameless = u at h
  induction h using ReflTransGen.head_induction_on generalizing t with
  | refl =>
      subst hu
      refine ⟨0, fun steps _ => ?_⟩
      rw [reduceTimes_of_isNormal ((isNormal_nameless_iff t).mp hn)]
      exact ⟨rfl, rfl⟩
  | @head u v hs _ ih =>
      have hstep := t.leftmost?_nameless
      rw [hu, hs] at hstep
      cases hchanged : t.reduceStep.changed with
      | false => simp [hchanged] at hstep
      | true =>
          rw [hchanged, if_pos rfl] at hstep
          obtain ⟨k, hk⟩ := ih (Option.some.inj hstep).symm
          refine ⟨k + 1, fun steps hsteps => ?_⟩
          obtain ⟨m, rfl⟩ : ∃ m, steps = m + 1 := ⟨steps - 1, by omega⟩
          have hm := hk m (by omega)
          simpa [reduceTimes, hchanged] using hm

/-- **Normal order finds the normal form.**  If some sequence of contractions, of whatever redexes in
whatever order, leads from a term to a term without redexes, then full reduction ends in that term as
soon as it may make enough steps. -/
theorem normalize_finds_normalForm {t n : Term} (h : Nameless.Reduces t.nameless n.nameless)
    (hn : n.IsNormal) :
    ∃ k : Int, ∀ maxSteps, k ≤ maxSteps →
      (t.normalize maxSteps).status = .normal ∧ (t.normalize maxSteps).result.AlphaEquiv n := by
  have hnormal := (isNormal_nameless_iff n).mpr hn
  have hleft := Nameless.leftmost_of_standard (Nameless.standard_of_reduces h) hnormal
  obtain ⟨k, hk⟩ := reduceTimes_follows hleft hnormal
  exact ⟨k, fun maxSteps hmax => hk maxSteps.toNat (by omega)⟩

/-- An argument that reduces to itself for ever is contracted once and then left out. -/
theorem normalize_finds_normalForm_discarding :
    let selfApply : Term := .lam {} "x" (.app {} (.var {} "x") (.var {} "x"))
    let t : Term := .app {} (.lam {} "y" (.lam {} "x" (.var {} "z"))) (.app {} selfApply selfApply)
    let n : Term := .lam {} "w" (.var {} "z")
    Nameless.Reduces t.nameless n.nameless ∧ n.IsNormal ∧
      ∃ k : Int, ∀ maxSteps, k ≤ maxSteps →
        (t.normalize maxSteps).status = .normal ∧ (t.normalize maxSteps).result.AlphaEquiv n := by
  intro selfApply t n
  have hloop : Nameless.Beta t.nameless t.nameless := .arg _ (.contract _ _)
  have hdiscard : Nameless.Beta t.nameless n.nameless := .contract _ _
  have hreduces : Nameless.Reduces t.nameless n.nameless := .step hloop (.step hdiscard (.refl _))
  have hnormal : n.IsNormal := by decide
  exact ⟨hreduces, hnormal, normalize_finds_normalForm hreduces hnormal⟩

end Term
end LambdaStepper
