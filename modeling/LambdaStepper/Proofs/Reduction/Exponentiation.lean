import Mathlib.Algebra.Group.Nat.Defs
import LambdaStepper.Proofs.Reduction.Arithmetic

/-! # Powers of numerals

The built-in power applies the exponent to the base (`normalize_power`).

A numeral applied to a term is the function that applies that term so many times (`beta_church`), and such a
function repeated is one again, with the product for its number (`reduces_powerOf_powerOf`).  So a chain of equal
numerals in front of a term multiplies up to a power, by induction on the chain
(`reduces_iterate_church_succ`).  The induction starts at one numeral: an empty chain leaves the term as it is.
The exponent zero therefore gives the identity function, which is the numeral one up to an eta-contraction only
(`not_normalize_power`). -/

namespace LambdaStepper

namespace Nameless

variable (v : Nameless) (b e m n : Nat)

/-- The function that applies a term the given number of times. -/
def powerOf (v : Nameless) (n : Nat) : Nameless :=
  .lam (iterate (v.shift 0) (.bound 0) n)

theorem beta_church : Beta (.app (church n) v) (powerOf v n) :=
  .contract_of_eq (by rw [instantiate, instantiate_iterate, instantiate_bound_self,
    instantiate_bound_of_lt _ (by omega), powerOf])

theorem reduces_powerOf (arg : Nameless) : Reduces (.app (powerOf v n) arg) (iterate v arg n) :=
  .single (.contract_of_eq (by rw [instantiate_iterate, instantiate_shift, instantiate_bound_self]))

theorem shift_powerOf : (powerOf v n).shift 0 = powerOf (v.shift 0) n := by
  rw [powerOf, shift, shift_iterate, shift_shift (Nat.le_refl 0), shift_bound_of_lt (by omega), powerOf]

/-- Repeating a function that repeats a term multiplies. -/
theorem reduces_powerOf_powerOf : Reduces (powerOf (powerOf v n) m) (powerOf v (m * n)) := by
  rw [powerOf, shift_powerOf]
  exact (reduces_iterate (reduces_powerOf (v.shift 0) n) (.bound 0) m).lam

/-- A chain of equal numerals in front of a term applies it as many times as their product says. -/
theorem reduces_iterate_church_succ :
    Reduces (iterate (church b) v (e + 1)) (powerOf v (b ^ (e + 1))) := by
  induction e with
  | zero =>
      rw [Nat.pow_one]
      exact .single (beta_church v b)
  | succ e ih =>
      have hlast := Reduces.single (beta_church (powerOf v (b ^ (e + 1))) b)
      have hproduct := reduces_powerOf_powerOf v b (b ^ (e + 1))
      rw [Nat.pow_succ']
      exact (ih.arg (church b)).trans (hlast.trans hproduct)

/-- The nameless form of the built-in power. -/
def pow : Nameless :=
  .lam (.lam (.app (.bound 0) (.bound 1)))

theorem reduces_pow_powerOf :
    Reduces (.app (.app pow (church b)) (church e)) (powerOf (church b) e) := by
  have hbase : Beta (.app pow (church b)) (.lam (.app (.bound 0) (church b))) :=
    .contract_of_eq (by simp [instantiate])
  have hexponent : Beta (.app (.lam (.app (.bound 0) (church b))) (church e)) (.app (church e) (church b)) :=
    .contract_of_eq (by simp [instantiate])
  exact .step (.func _ hbase) (.step hexponent (.single (beta_church (church b) e)))

theorem reduces_pow_succ :
    Reduces (.app (.app pow (church b)) (church (e + 1))) (church (b ^ (e + 1))) := by
  have hchain := reduces_iterate_church_succ (.bound 0) b e
  have hpow := reduces_pow_powerOf b (e + 1)
  rw [powerOf, shift_church] at hpow
  exact hpow.trans hchain.lam

theorem reduces_pow_zero : Reduces (.app (.app pow (church b)) (church 0)) (.lam (.bound 0)) :=
  reduces_pow_powerOf b 0

end Nameless

namespace Term

theorem NormalizesTo.alphaEquiv {t n n' : Term} (h : t.NormalizesTo n) (h' : t.NormalizesTo n') :
    n.AlphaEquiv n' := by
  obtain ⟨k, hk⟩ := h
  obtain ⟨k', hk'⟩ := h'
  have hn := (hk (max k k') (by omega)).2
  have hn' := (hk' (max k k') (by omega)).2
  exact hn.symm.trans hn'

/-- The identity function, which a power with the exponent zero is. -/
def identity : Term :=
  .lam {} "x" (.var {} "x")

theorem exists_parse_pow : ∃ pow, Registry.initial.parse .unlimited "_POW" = .ok pow ∧ pow.nameless = .pow :=
  ⟨_, rfl, rfl⟩

theorem normalizesTo_pow_zero {pow : Term} (hpow : pow.nameless = .pow) (b : Nat) :
    (app {} (app {} pow (Numeral.term b)) (Numeral.term 0)).NormalizesTo identity := by
  refine normalizesTo_of_reduces ?_ ((isNormal_nameless_iff identity).mpr (by decide))
  rw [nameless_app, nameless_app, hpow, Numeral.nameless_term, Numeral.nameless_term]
  exact Nameless.reduces_pow_zero b

/-- **The built-in power is right for all numbers.**  The base to a positive exponent normalizes to the numeral
of the power, and to the exponent zero to the identity function. -/
theorem normalize_power :
    ∃ pow : Term,
      Registry.initial.parse .unlimited "_POW" = .ok pow ∧
      ∀ b e : Nat,
        (app {} (app {} pow (Numeral.term b)) (Numeral.term (e + 1))).NormalizesTo
          (Numeral.term (b ^ (e + 1))) ∧
        (app {} (app {} pow (Numeral.term b)) (Numeral.term 0)).NormalizesTo identity := by
  obtain ⟨pow, hparse, hpow⟩ := exists_parse_pow
  refine ⟨pow, hparse, fun b e => ⟨?_, normalizesTo_pow_zero hpow b⟩⟩
  refine normalizesTo_of_reduces ?_ (Numeral.nameless_term _ ▸ Nameless.isNormal_church _)
  rw [nameless_app, nameless_app, hpow, Numeral.nameless_term, Numeral.nameless_term, Numeral.nameless_term]
  exact Nameless.reduces_pow_succ b e

/-- Two to the exponent zero is not the numeral one. -/
theorem not_normalize_power :
    ∃ pow : Term,
      Registry.initial.parse .unlimited "_POW" = .ok pow ∧
      ¬ (app {} (app {} pow (Numeral.term 2)) (Numeral.term 0)).NormalizesTo (Numeral.term (2 ^ 0)) := by
  obtain ⟨pow, hparse, hpow⟩ := exists_parse_pow
  refine ⟨pow, hparse, fun h => ?_⟩
  have heq := (normalizesTo_pow_zero hpow 2).alphaEquiv h
  exact absurd heq (by decide)

end Term
end LambdaStepper
