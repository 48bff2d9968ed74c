import LambdaStepper.Reduction.Substitution
import LambdaStepper.Term.Nameless

/-! # Terms without marks

`bare` takes tags and highlights off a term.  What is left is its structure and its names, so names,
nameless form and renaming are those of the term. -/

namespace LambdaStepper.Term

/-- The term without the marks of its nodes. -/
def bare : Term → Term
  | .var _ x => .var {} x
  | .lam _ x body => .lam {} x body.bare
  | .app _ func arg => .app {} func.bare arg.bare

@[simp] theorem bare_setMark (m : Mark) (t : Term) : (t.setMark m).bare = t.bare := by
  cases t <;> rfl

@[simp] theorem bare_setTag (tag : Option String) (t : Term) : (t.setTag tag).bare = t.bare :=
  bare_setMark _ t

@[simp] theorem bare_bare (t : Term) : t.bare.bare = t.bare := by
  induction t with
  | var => rfl
  | lam _ x _ ih => exact congrArg (lam {} x) ih
  | app _ _ _ ihf iha => simp only [bare, ihf, iha]

@[simp] theorem allNames_bare (t : Term) : t.bare.allNames = t.allNames := by
  induction t with
  | var => rfl
  | lam _ x _ ih => exact congrArg (x :: ·) ih
  | app _ _ _ ihf iha => simp only [bare, allNames, ihf, iha]

@[simp] theorem freeNames_bare (t : Term) (bound : List String) :
    t.bare.freeNames bound = t.freeNames bound := by
  induction t generalizing bound with
  | var => rfl
  | lam _ x _ ih => exact ih (x :: bound)
  | app _ _ _ ihf iha => simp only [bare, freeNames, ihf, iha]

@[simp] theorem namelessIn_bare (t : Term) (scope : List String) :
    t.bare.namelessIn scope = t.namelessIn scope := by
  induction t generalizing scope with
  | var => rfl
  | lam _ x _ ih => exact congrArg Nameless.lam (ih (x :: scope))
  | app _ _ _ ihf iha => simp only [bare, namelessIn, ihf, iha]

theorem alphaEquiv_of_bare_eq {t u : Term} (h : t.bare = u.bare) : t.AlphaEquiv u := by
  unfold AlphaEquiv nameless
  rw [← namelessIn_bare t, h, namelessIn_bare]

theorem rename_eq_self {old new : String} {t : Term} (h : old ∉ t.freeNames []) :
    t.rename old new = t := by
  induction t with
  | var m x =>
      have hx : x ≠ old := by simpa [freeNames, eq_comm] using h
      simp only [rename, hx, if_false]
  | lam m x body ih =>
      by_cases hx : x = old
      · simp only [rename, hx, if_true]
      · have hbody : old ∉ body.freeNames [] := by
          intro hfree
          exact h ((mem_freeNames_iff body old [x]).mpr ⟨hfree, by simpa using Ne.symm hx⟩)
        simp only [rename, hx, if_false, ih hbody]
  | app m func arg ihf iha =>
      simp only [freeNames, List.mem_append, not_or] at h
      simp only [rename, ihf h.1, iha h.2]

end LambdaStepper.Term
