import LambdaStepper.Proofs.Reduction.Arithmetic
import LambdaStepper.Proofs.Reduction.NumeralTags
import LambdaStepper.Proofs.Term.CanonicalText

/-! # The shape of numerals

A term is recognised as a number exactly if it is the numeral of that number up to the names of bound variables,
and the number is not beyond the limit (`Numeral.recognises_exactly`).

Recognition compares names, alpha-equivalence compares binders.  Both agree on the two binders of a numeral as
long as these have different names (`Numeral.chainLength?_eq_some_iff`).  Where the inner one hides the outer
one, no variable refers to the outer one, so that nothing but zero is left (`Numeral.hidden_iff`).  A numeral is
closed, so it does not matter which other binders stand around it (`Numeral.recognise?_eq_some_iff_church`). -/

namespace LambdaStepper

namespace Term

variable {m : Mark} {f x y : String} {scope : List String}

theorem namelessIn_var_eq_bound_zero_iff : (var m y).namelessIn (x :: scope) = .bound 0 ↔ y = x := by
  by_cases hy : x = y
  · simp [namelessIn, List.idxOf?_cons, hy]
  · simp only [namelessIn, List.idxOf?_cons, beq_iff_eq, hy, if_false, Ne.symm hy, iff_false]
    cases scope.idxOf? y <;> simp

/-- A variable refers to the binder around the innermost one exactly if it has the name of that and not of the
innermost one. -/
theorem namelessIn_var_eq_bound_one_iff :
    (var m y).namelessIn (x :: f :: scope) = .bound 1 ↔ y = f ∧ y ≠ x := by
  by_cases hx : x = y
  · simp [namelessIn, List.idxOf?_cons, hx]
  by_cases hf : f = y
  · simp [namelessIn, List.idxOf?_cons, hx, hf, Ne.symm hx]
  · simp only [namelessIn, List.idxOf?_cons, beq_iff_eq, hx, hf, if_false, Ne.symm hf, false_and, iff_false]
    cases scope.idxOf? y <;> simp

theorem exists_var_of_namelessIn_eq_bound {t : Term} {i : Nat} (h : t.namelessIn scope = .bound i) :
    ∃ m y, t = var m y := by
  cases t with
  | var m y => exact ⟨m, y, rfl⟩
  | lam | app => cases h

end Term

namespace Numeral

open Syntax Term

variable {f x : String} {scope : List String} {t : Term} {n : Nat}

/-- A chain of applications has the length of its nameless form, if its two variables have different names. -/
theorem chainLength?_eq_some_iff (hfx : f ≠ x) :
    chainLength? f x t = some n ↔ t.namelessIn (x :: f :: scope) = .iterate (.bound 1) (.bound 0) n := by
  induction t generalizing n with
  | var m y =>
      cases n with
      | zero => simp [chainLength?, Nameless.iterate, namelessIn_var_eq_bound_zero_iff]
      | succ n =>
          have hbound : (var m y).namelessIn (x :: f :: scope) ≠ .iterate (.bound 1) (.bound 0) (n + 1) := by
            simp only [namelessIn, Nameless.iterate]
            split <;> simp
          simp [chainLength?, hbound]
  | lam m y body ih => cases n <;> simp [chainLength?, namelessIn, Nameless.iterate]
  | app m func arg ihf iha =>
      cases n with
      | zero =>
          have hsome : chainLength? f x (app m func arg) ≠ some 0 := by
            cases func with
            | var m' g => simp only [chainLength?]; split <;> simp
            | lam | app => simp [chainLength?]
          simp [hsome, namelessIn, Nameless.iterate]
      | succ n =>
          rw [namelessIn, Nameless.iterate, Nameless.app.injEq, ← iha]
          constructor
          · intro h
            cases func with
            | lam | app => cases h
            | var m' g =>
                rw [chainLength?] at h
                split at h
                · next hg =>
                  obtain ⟨k, hk, hkn⟩ := Option.map_eq_some_iff.mp h
                  obtain rfl := Nat.succ_inj.mp hkn
                  exact ⟨namelessIn_var_eq_bound_one_iff.mpr ⟨hg, hg ▸ hfx⟩, hk⟩
                · cases h
          · rintro ⟨hfunc, harg⟩
            obtain ⟨m', g, rfl⟩ := exists_var_of_namelessIn_eq_bound hfunc
            have hg := (namelessIn_var_eq_bound_one_iff.mp hfunc).1
            rw [chainLength?, if_pos hg, harg]
            rfl

/-- Where the inner binder of a numeral hides the outer one, the body is the inner variable. -/
theorem hidden_iff :
    t.namelessIn (x :: x :: scope) = .iterate (.bound 1) (.bound 0) n ↔ n = 0 ∧ ∃ m, t = var m x := by
  cases n with
  | zero =>
      rw [Nameless.iterate]
      constructor
      · intro h
        obtain ⟨m, y, rfl⟩ := exists_var_of_namelessIn_eq_bound h
        exact ⟨rfl, m, by rw [namelessIn_var_eq_bound_zero_iff.mp h]⟩
      · rintro ⟨-, m, rfl⟩
        exact namelessIn_var_eq_bound_zero_iff.mpr rfl
  | succ n =>
      refine iff_of_false ?_ (by simp)
      intro h
      cases t with
      | var m y =>
          rw [namelessIn, Nameless.iterate] at h
          split at h <;> cases h
      | lam m y body => cases h
      | app m func arg =>
          -- no variable refers to the outer binder
          obtain ⟨hfunc, -⟩ := Nameless.app.inj h
          obtain ⟨m', g, rfl⟩ := exists_var_of_namelessIn_eq_bound hfunc
          obtain ⟨hg, hg'⟩ := namelessIn_var_eq_bound_one_iff.mp hfunc
          exact hg' hg

/-- A term is recognised as a number exactly if its nameless form is that of the numeral, whatever binders stand
around it, and the number is not beyond the limit. -/
theorem recognise?_eq_some_iff_church (scope : List String) :
    recognise? t = some n ↔ n ≤ maxApplications ∧ t.namelessIn scope = .church n := by
  unfold recognise?
  split
  · next f _ x body =>
    rw [namelessIn, namelessIn, Nameless.church, Nameless.lam.injEq, Nameless.lam.injEq]
    split
    · next hfx =>
      subst hfx
      rw [hidden_iff]
      constructor
      · intro h
        split at h
        · next m y =>
          split at h
          · next hy =>
            obtain rfl := Option.some.inj h
            exact ⟨Nat.zero_le _, rfl, m, by rw [hy]⟩
          · cases h
        · cases h
      · rintro ⟨-, rfl, m, rfl⟩
        exact if_pos rfl
    · next hfx =>
      rw [← chainLength?_eq_some_iff hfx, Option.filter_eq_some_iff, decide_eq_true_eq, and_comm]
  · next hshape =>
    refine iff_of_false (by simp) ?_
    rintro ⟨-, h⟩
    obtain ⟨m, f, inner, rfl, hinner⟩ := exists_lam_of_namelessIn_eq_lam h
    obtain ⟨m', x, body, rfl, -⟩ := exists_lam_of_namelessIn_eq_lam hinner
    exact hshape _ _ _ _ _ rfl

/-- **Numerals are recognised exactly, up to the names of bound variables**: a term is recognised as a number if
and only if it is alpha-equivalent to the numeral and the number is not beyond the limit.  Where the names of the
term are identifiers, that is decided by canonical printing. -/
theorem recognises_exactly (t : Term) (n : Nat) :
    (recognise? t = some n ↔ n ≤ maxApplications ∧ t.AlphaEquiv (term n)) ∧
      ((∀ x ∈ t.allNames, isIdentifier x.toList = true) →
        (recognise? t = some n ↔ n ≤ maxApplications ∧ t.alphaEquals (term n) = true)) := by
  have hequiv : recognise? t = some n ↔ n ≤ maxApplications ∧ t.AlphaEquiv (term n) := by
    rw [recognise?_eq_some_iff_church [], AlphaEquiv, nameless_term]
    rfl
  refine ⟨hequiv, fun ht => ?_⟩
  have hnumeral : ∀ x ∈ (term n).allNames, isIdentifier x.toList = true := by
    intro x hx
    rcases List.mem_pair.mp (allNames_numeral_subset n hx) with rfl | rfl <;> rfl
  rw [hequiv, alphaEquals_iff_alphaEquiv t (term n) ht hnumeral]

/-- A numeral of other names than usual, with tags that do not tell what it is. -/
theorem recognises_exactly_renamed :
    let t : Term := .lam ⟨some "_TRUE", true⟩ "x" (.lam ⟨some "_7", false⟩ "f"
      (.app {} (.var {} "x") (.app ⟨some "_ID", false⟩ (.var {} "x") (.var {} "f"))))
    (∀ x ∈ t.allNames, isIdentifier x.toList = true) ∧ recognise? t = some 2 ∧ t.AlphaEquiv (term 2) ∧
      t.alphaEquals (term 2) = true := by
  intro t
  have ht : ∀ x ∈ t.allNames, isIdentifier x.toList = true := by decide +kernel
  obtain ⟨hequiv, hequals⟩ := recognises_exactly t 2
  have h : recognise? t = some 2 := by rfl
  exact ⟨ht, h, (hequiv.mp h).2, ((hequals ht).mp h).2⟩

end Numeral
end LambdaStepper
