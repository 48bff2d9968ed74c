import LambdaStepper.Proofs.Reduction.NormalOrder

/-! # The names of a reduction

A step makes no names but those of its freshener, a name of the term with a count behind it.  So whatever
holds of the names of a term and survives a count at the end holds of the names after a step
(`forall_allNames_reduceStep`).

`afterSteps` is the term after any number of steps.  What a step preserves is preserved by all of them
(`afterSteps_induction`). -/

namespace LambdaStepper.Term

variable {P : String → Prop} {t : Term}

theorem mem_allNames_rename {old new y : String} (h : y ∈ (t.rename old new).allNames) :
    y = new ∨ y ∈ t.allNames := by
  induction t with
  | var m x =>
      simp only [rename, allNames, List.mem_singleton] at h ⊢
      split at h
      · exact .inl h
      · exact .inr h
  | lam m x body ih =>
      simp only [rename] at h
      split at h
      · exact .inr h
      · rcases List.mem_cons.mp h with rfl | h
        · exact .inr List.mem_cons_self
        · exact (ih h).imp_right (List.mem_cons_of_mem x)
  | app m func arg ihf iha =>
      rcases List.mem_append.mp h with h | h
      · exact (ihf h).imp_right (List.mem_append_left _)
      · exact (iha h).imp_right (List.mem_append_right _)

theorem forall_allNames_substituteFrom (hcount : ∀ x n, P x → P (Freshener.candidate x n))
    {name : String} {replacement : Term} {captured : List String}
    (hreplacement : ∀ x ∈ replacement.allNames, P x) (h : ∀ x ∈ t.allNames, P x)
    (fresh : Freshener) :
    ∀ x ∈ (substituteFrom name replacement captured t fresh).1.allNames, P x := by
  fun_induction substituteFrom name replacement captured t fresh with
  | case1 m x fresh =>
      dsimp only
      split
      · exact hreplacement
      · exact h
  | case2 | case5 => exact h
  | case3 m x body fresh _ _ x' fresh' hfresh body' fresh'' hbody ih =>
      obtain ⟨hx, hinner⟩ := List.forall_mem_cons.mp h
      have hx' : P x' := by
        have hname : (fresh.fresh x (body.allNames ++ captured ++ [name])).1 = x' :=
          congrArg Prod.fst hfresh
        rw [← hname]
        exact hcount x _ hx
      have hrenamed : ∀ y ∈ (body.rename x x').allNames, P y := by
        intro y hy
        rcases mem_allNames_rename hy with rfl | hy
        · exact hx'
        · exact hinner y hy
      rw [hbody] at ih
      exact List.forall_mem_cons.mpr ⟨hx', ih hrenamed⟩
  | case4 m x body fresh _ _ body' fresh' hbody ih =>
      obtain ⟨hx, hinner⟩ := List.forall_mem_cons.mp h
      rw [hbody] at ih
      exact List.forall_mem_cons.mpr ⟨hx, ih hinner⟩
  | case6 m func arg fresh _ func' fresh' hfunc arg' fresh'' harg ihf iha =>
      obtain ⟨hf, ha⟩ := List.forall_mem_append.mp h
      rw [hfunc] at ihf
      rw [harg] at iha
      exact List.forall_mem_append.mpr ⟨ihf hf, iha ha⟩

@[simp] theorem allNames_unlit (t : Term) : t.unlit.allNames = t.allNames := by
  induction t with
  | var => rfl
  | lam _ x _ ih => exact congrArg (x :: ·) ih
  | app _ _ _ ihf iha => simp only [unlit, allNames, ihf, iha]

/-- A step makes no names but old ones with counts behind them. -/
theorem forall_allNames_reduceStep (hcount : ∀ x n, P x → P (Freshener.candidate x n))
    (h : ∀ x ∈ t.allNames, P x) : ∀ x ∈ t.reduceStep.result.allNames, P x := by
  fun_induction reduceStep t with
  | case1 m x => exact h
  | case2 m x body body' i hb ih =>
      obtain ⟨hx, hbody⟩ := List.forall_mem_cons.mp h
      rw [hb] at ih
      exact List.forall_mem_cons.mpr ⟨hx, ih hbody⟩
  | case3 m x body body' hb ih =>
      rw [eq_unlit_of_reduceStep hb]
      simpa [allNames] using h
  | case4 m arg m' x body =>
      obtain ⟨hfunc, harg⟩ := List.forall_mem_append.mp h
      exact forall_allNames_substituteFrom hcount harg (List.forall_mem_cons.mp hfunc).2 {}
  | case5 m arg func hfunc func' i hf ih =>
      obtain ⟨hfunc, harg⟩ := List.forall_mem_append.mp h
      rw [hf] at ih
      exact List.forall_mem_append.mpr ⟨ih hfunc, harg⟩
  | case6 m arg func hfunc func' hf arg' i ha ihf iha =>
      obtain ⟨hfunc, harg⟩ := List.forall_mem_append.mp h
      rw [hf] at ihf
      rw [ha] at iha
      exact List.forall_mem_append.mpr ⟨ihf hfunc, iha harg⟩
  | case7 m arg func hfunc func' hf arg' ha ihf iha =>
      rw [eq_unlit_of_reduceStep hf, eq_unlit_of_reduceStep ha]
      simpa [allNames] using h

/-- The term after the given number of steps. -/
def afterSteps : (steps : Nat) → Term → Term
  | 0, t => t
  | steps + 1, t => afterSteps steps t.reduceStep.result

/-- What every step preserves holds after any number of them. -/
theorem afterSteps_induction {Q : Term → Prop} (hstep : ∀ t, Q t → Q t.reduceStep.result)
    (steps : Nat) (h : Q t) : Q (t.afterSteps steps) := by
  induction steps generalizing t with
  | zero => exact h
  | succ steps ih => exact ih (hstep t h)

end LambdaStepper.Term
