import LambdaStepper.Proofs.Reduction.Freshness
import LambdaStepper.Proofs.Term.Scope

/-! # Substitution avoids capture

Substitution on terms with names is substitution on nameless terms, where nothing can be captured
(`nameless_substitute`).  The proof follows the recursion of `substituteFrom` through every scope that
does not bind the replaced name (`namelessIn_substituteFrom`): under each binder the form of the
replacement is only shifted, since a binder of a name that is free in it is renamed first. -/

namespace LambdaStepper

namespace Nameless

theorem mem_freeNames_replaceFree (x name : String) (new t : Nameless) :
    x ∈ (replaceFree name new t).freeNames ↔
      (x ∈ t.freeNames ∧ x ≠ name) ∨ (name ∈ t.freeNames ∧ x ∈ new.freeNames) := by
  induction t generalizing new with
  | bound i => simp [replaceFree, freeNames]
  | free y =>
      by_cases hy : y = name
      · subst hy
        simp [replaceFree, freeNames]
      · simp only [replaceFree, hy, if_false, freeNames, List.mem_singleton, Ne.symm hy, false_and,
          or_false, iff_self_and]
        rintro rfl
        exact hy
  | lam body ih =>
      have h := ih (new.shift 0)
      rw [freeNames_shift] at h
      exact h
  | app func arg ihf iha =>
      simp only [replaceFree, freeNames, List.mem_append, ihf new, iha new]
      tauto

end Nameless

namespace Term

theorem replaceFree_of_isUntouched {name : String} {t : Term} (h : t.isUntouched name = true)
    (new : Nameless) (scope : List String) :
    Nameless.replaceFree name new (t.namelessIn scope) = t.namelessIn scope := by
  apply Nameless.replaceFree_of_notMem
  rw [freeNames_namelessIn, mem_freeNames_iff]
  unfold isUntouched at h
  rw [Bool.and_eq_true] at h
  intro hmem
  simp [hmem.1] at h

/-- Inside any scope that does not bind the name, substitution puts the form of the replacement in the
place of the name. -/
theorem namelessIn_substituteFrom {name : String} {replacement : Term} {captured : List String}
    (hcap : ∀ x ∈ replacement.freeNames [], x ∈ captured) (t : Term) (fresh : Freshener)
    {scope : List String} (hname : name ∉ scope) :
    (substituteFrom name replacement captured t fresh).1.namelessIn scope
      = Nameless.replaceFree name (replacement.namelessIn scope) (t.namelessIn scope) := by
  fun_induction substituteFrom name replacement captured t fresh generalizing scope with
  | case1 m x fresh =>
      by_cases hx : x = name
      · subst hx
        simp [namelessIn, Nameless.replaceFree, List.idxOf?_eq_none_iff.mpr hname]
      · simp only [hx, if_false, namelessIn]
        cases scope.idxOf? x <;> simp [Nameless.replaceFree, hx]
  | case2 m x body fresh h =>
      rw [Bool.or_eq_true] at h
      rcases h with h | h
      · exact (replaceFree_of_isUntouched h _ scope).symm
      · have hx : x = name := of_decide_eq_true h
        symm
        apply Nameless.replaceFree_of_notMem
        rw [freeNames_namelessIn, freeNames, mem_freeNames_iff]
        simp [hx]
  | case3 m x body fresh hleft hx x' fresh' hf body' fresh'' hb ih =>
      -- the new name is in no part of the body and captures nothing of the replacement
      have hnew := (fresh.fresh_notMem x (body.allNames ++ captured ++ [name])).1
      rw [hf] at hnew
      simp only [List.mem_append, List.mem_singleton, not_or] at hnew
      obtain ⟨⟨hbody, hcaptured⟩, hne⟩ := hnew
      have hfree : x' ∉ replacement.freeNames [] := fun h => hcaptured (hcap x' h)
      have hscope : name ∉ x' :: scope := by simp [Ne.symm hne, hname]
      have h := ih hscope
      rw [hb, namelessIn_rename_cons hbody, namelessIn_cons_of_notMem hfree] at h
      exact congrArg Nameless.lam h
  | case4 m x body fresh hleft hx body' fresh' hb ih =>
      rw [Bool.or_eq_true, not_or, decide_eq_true_eq] at hleft
      have hfree : x ∉ replacement.freeNames [] := fun h => hx (hcap x h)
      have hscope : name ∉ x :: scope := by simp [Ne.symm hleft.2, hname]
      have h := ih hscope
      rw [hb, namelessIn_cons_of_notMem hfree] at h
      exact congrArg Nameless.lam h
  | case5 m func arg fresh h =>
      exact (replaceFree_of_isUntouched h _ scope).symm
  | case6 m func arg fresh hleft func' fresh' hf arg' fresh'' ha ihf iha =>
      have h1 := ihf hname
      have h2 := iha hname
      rw [hf] at h1
      rw [ha] at h2
      simp only [namelessIn, Nameless.replaceFree, h1, h2]

theorem nameless_substitute (t replacement : Term) (name : String) (fresh : Freshener) :
    (t.substitute name replacement fresh).1.nameless
      = Nameless.replaceFree name replacement.nameless t.nameless :=
  namelessIn_substituteFrom (fun _ h => h) t fresh List.not_mem_nil

/-- Substitution, from any state of the supply of fresh names, is capture-avoiding: on nameless terms
it puts the replacement in the place of the name.  The names that are free in the result are those of
the term without the replaced name, and those of the replacement if there was something to replace. -/
theorem substitute_avoids_capture (t replacement : Term) (name : String) (fresh : Freshener) :
    (t.substitute name replacement fresh).1.nameless
        = Nameless.replaceFree name replacement.nameless t.nameless
      ∧ ∀ x, x ∈ (t.substitute name replacement fresh).1.freeNames [] ↔
          (x ∈ t.freeNames [] ∧ x ≠ name) ∨
            (name ∈ t.freeNames [] ∧ x ∈ replacement.freeNames []) := by
  have h := nameless_substitute t replacement name fresh
  refine ⟨h, ?_⟩
  intro x
  rw [← freeNames_nameless, h, Nameless.mem_freeNames_replaceFree]
  simp only [freeNames_nameless]

end Term
end LambdaStepper
