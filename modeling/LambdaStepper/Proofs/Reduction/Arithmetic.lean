import LambdaStepper.Proofs.Reduction.Normalization
import LambdaStepper.Registry.Definition

/-! # Arithmetic on numerals

The built-in terms for successor, sum and product compute them (`normalize_arithmetic`).

A numeral applied to a function and an argument reduces to that many applications of the function
(`reduces_church`), whatever the two are, so every operator reduces to a numeral by a few contractions that
unfold it and those that unfold the numerals in its body.  Full reduction makes other steps in another order,
but ends in the same normal form (`Term.normalizesTo_of_reduces`). -/

namespace LambdaStepper

namespace Nameless

/-! ### Reduction of the parts -/

theorem Reduces.single {t u : Nameless} (h : Beta t u) : Reduces t u :=
  .step h (.refl u)

theorem Reduces.lam {t u : Nameless} (h : Reduces t u) : Reduces (.lam t) (.lam u) := by
  induction h with
  | refl t => exact .refl _
  | step hb _ ih => exact .step (.body hb) ih

theorem Reduces.arg {t u : Nameless} (func : Nameless) (h : Reduces t u) :
    Reduces (.app func t) (.app func u) := by
  induction h with
  | refl t => exact .refl _
  | step hb _ ih => exact .step (.arg func hb) ih

theorem Beta.contract_of_eq {body arg u : Nameless} (h : instantiate 0 arg body = u) :
    Beta (.app (.lam body) arg) u :=
  h ▸ .contract body arg

/-! ### Numerals -/

/-- The given number of applications of a function, one inside the other. -/
def iterate (func arg : Nameless) : Nat → Nameless
  | 0 => arg
  | n + 1 => .app func (iterate func arg n)

/-- The nameless form of a numeral. -/
def church (n : Nat) : Nameless :=
  .lam (.lam (iterate (.bound 1) (.bound 0) n))

variable (func arg : Nameless) (m n : Nat)

theorem iterate_add : iterate func arg (m + n) = iterate func (iterate func arg n) m := by
  induction m with
  | zero => rw [Nat.zero_add, iterate]
  | succ m ih => rw [Nat.succ_add, iterate, iterate, ih]

theorem shift_iterate (depth : Nat) :
    (iterate func arg n).shift depth = iterate (func.shift depth) (arg.shift depth) n := by
  induction n with
  | zero => rfl
  | succ n ih => rw [iterate, iterate, shift, ih]

theorem instantiate_iterate (depth : Nat) (new : Nameless) :
    instantiate depth new (iterate func arg n)
      = iterate (instantiate depth new func) (instantiate depth new arg) n := by
  induction n with
  | zero => rfl
  | succ n ih => rw [iterate, iterate, instantiate, ih]

@[simp] theorem shift_church (depth : Nat) : (church n).shift depth = church n := by
  rw [church, shift, shift, shift_iterate, shift_bound_of_lt (by omega), shift_bound_of_lt (by omega)]

@[simp] theorem instantiate_church (depth : Nat) (new : Nameless) :
    instantiate depth new (church n) = church n := by
  rw [church, instantiate, instantiate, instantiate_iterate, instantiate_bound_of_lt _ (by omega),
    instantiate_bound_of_lt _ (by omega)]

theorem isNormal_church : (church n).IsNormal := by
  have hiterate : (iterate (.bound 1) (.bound 0) n).leftmost? = none := by
    induction n with
    | zero => rfl
    | succ n ih => simp [iterate, leftmost?, contract?, ih]
  rw [isNormal_iff_leftmost?, church, leftmost?, leftmost?, hiterate]
  rfl

/-- A numeral applies a function as many times as it says. -/
theorem reduces_church : Reduces (.app (.app (church n) func) arg) (iterate func arg n) := by
  have hfunc := Beta.contract (.lam (iterate (.bound 1) (.bound 0) n)) func
  have harg := Beta.contract (iterate (func.shift 0) (.bound 0) n) arg
  rw [instantiate, instantiate_iterate, instantiate_bound_self, instantiate_bound_of_lt _ (by omega)] at hfunc
  rw [instantiate_iterate, instantiate_shift, instantiate_bound_self] at harg
  exact .step (.func arg hfunc) (.single harg)

/-- Applications of a term that itself applies a function so many times multiply. -/
theorem reduces_iterate {func g : Nameless} {n : Nat}
    (hg : ∀ arg, Reduces (.app g arg) (iterate func arg n)) (arg : Nameless) (m : Nat) :
    Reduces (iterate g arg m) (iterate func arg (m * n)) := by
  induction m with
  | zero => rw [Nat.zero_mul]; exact .refl _
  | succ m ih =>
      have hinner := Reduces.arg g ih
      rw [Nat.succ_mul, Nat.add_comm (m * n) n, iterate_add func arg n, iterate]
      exact hinner.trans (hg _)

/-! ### Operators -/

/-- The nameless form of the built-in successor. -/
def succ : Nameless :=
  .lam (.lam (.lam (.app (.bound 1) (.app (.app (.bound 2) (.bound 1)) (.bound 0)))))

/-- The nameless form of the built-in sum. -/
def plus : Nameless :=
  .lam (.lam (.lam (.lam (.app (.app (.bound 3) (.bound 1)) (.app (.app (.bound 2) (.bound 1)) (.bound 0))))))

/-- The nameless form of the built-in product. -/
def mult : Nameless :=
  .lam (.lam (.lam (.app (.bound 2) (.app (.bound 1) (.bound 0)))))

theorem reduces_succ : Reduces (.app succ (church n)) (church (n + 1)) := by
  have hunfold : Beta (.app succ (church n))
      (.lam (.lam (.app (.bound 1) (.app (.app (church n) (.bound 1)) (.bound 0))))) :=
    .contract_of_eq (by simp [instantiate])
  exact .step hunfold ((reduces_church (.bound 1) (.bound 0) n).arg (.bound 1)).lam.lam

theorem reduces_plus : Reduces (.app (.app plus (church m)) (church n)) (church (m + n)) := by
  have hleft : Beta (.app plus (church m))
      (.lam (.lam (.lam (.app (.app (church m) (.bound 1)) (.app (.app (.bound 2) (.bound 1)) (.bound 0)))))) :=
    .contract_of_eq (by simp [instantiate])
  have hright : Beta
      (.app (.lam (.lam (.lam (.app (.app (church m) (.bound 1))
        (.app (.app (.bound 2) (.bound 1)) (.bound 0)))))) (church n))
      (.lam (.lam (.app (.app (church m) (.bound 1)) (.app (.app (church n) (.bound 1)) (.bound 0))))) :=
    .contract_of_eq (by simp [instantiate])
  have hinner := (reduces_church (.bound 1) (.bound 0) n).arg (.app (church m) (.bound 1))
  have houter := reduces_church (.bound 1) (iterate (.bound 1) (.bound 0) n) m
  rw [← iterate_add] at houter
  exact .step (.func _ hleft) (.step hright (hinner.trans houter).lam.lam)

theorem reduces_mult : Reduces (.app (.app mult (church m)) (church n)) (church (m * n)) := by
  have hleft : Beta (.app mult (church m)) (.lam (.lam (.app (church m) (.app (.bound 1) (.bound 0))))) :=
    .contract_of_eq (by simp [instantiate])
  have hright : Beta (.app (.lam (.lam (.app (church m) (.app (.bound 1) (.bound 0))))) (church n))
      (.lam (.app (church m) (.app (church n) (.bound 0)))) :=
    .contract_of_eq (by simp [instantiate])
  have hfunc : Beta (.app (church m) (.app (church n) (.bound 0)))
      (.lam (iterate (.app (church n) (.bound 1)) (.bound 0) m)) :=
    .contract_of_eq (by simp [instantiate, instantiate_iterate, shift])
  have hproduct := reduces_iterate (fun arg => reduces_church (.bound 1) arg n) (.bound 0) m
  exact .step (.func _ hleft) (.step hright (.step (.body hfunc) hproduct.lam.lam))

end Nameless

theorem Term.nameless_app (m : Mark) (func arg : Term) :
    (Term.app m func arg).nameless = .app func.nameless arg.nameless :=
  rfl

namespace Numeral

theorem namelessIn_chain (n : Nat) :
    (chain "f" "x" n).namelessIn ["x", "f"] = .iterate (.bound 1) (.bound 0) n := by
  induction n with
  | zero => rfl
  | succ n ih =>
      rw [chain, Term.namelessIn, ih]
      rfl

@[simp] theorem nameless_term (n : Nat) : (term n).nameless = .church n :=
  congrArg (Nameless.lam <| .lam ·) (namelessIn_chain n)

end Numeral

namespace Term

/-- Whether full reduction of a term ends in a normal form, which is the given one up to the names of bound
variables, as soon as it may make enough steps. -/
def NormalizesTo (t n : Term) : Prop :=
  ∃ k : Int, ∀ maxSteps, k ≤ maxSteps →
    (t.normalize maxSteps).status = .normal ∧ (t.normalize maxSteps).result.AlphaEquiv n

theorem normalizesTo_of_reduces {t n : Term} (h : Nameless.Reduces t.nameless n.nameless)
    (hn : n.nameless.IsNormal) : t.NormalizesTo n := by
  have hleft := Nameless.leftmost_of_standard (Nameless.standard_of_reduces h) hn
  obtain ⟨k, hk⟩ := reduceTimes_follows hleft hn
  exact ⟨k, fun maxSteps hmax => hk maxSteps.toNat (by omega)⟩

/-- **The built-in arithmetic is right for all numbers.** -/
theorem normalize_arithmetic :
    ∃ succ plus mult : Term,
      Registry.initial.parse .unlimited "_SUCC" = .ok succ ∧
      Registry.initial.parse .unlimited "_PLUS" = .ok plus ∧
      Registry.initial.parse .unlimited "_MULT" = .ok mult ∧
      ∀ m n : Nat,
        (app {} succ (Numeral.term m)).NormalizesTo (Numeral.term (m + 1)) ∧
        (app {} (app {} plus (Numeral.term m)) (Numeral.term n)).NormalizesTo (Numeral.term (m + n)) ∧
        (app {} (app {} mult (Numeral.term m)) (Numeral.term n)).NormalizesTo (Numeral.term (m * n)) := by
  obtain ⟨succ, hparse, hs⟩ : ∃ t, Registry.initial.parse .unlimited "_SUCC" = .ok t ∧ t.nameless = .succ :=
    ⟨_, rfl, rfl⟩
  obtain ⟨plus, hparse', hp⟩ : ∃ t, Registry.initial.parse .unlimited "_PLUS" = .ok t ∧ t.nameless = .plus :=
    ⟨_, rfl, rfl⟩
  obtain ⟨mult, hparse'', hm⟩ : ∃ t, Registry.initial.parse .unlimited "_MULT" = .ok t ∧ t.nameless = .mult :=
    ⟨_, rfl, rfl⟩
  refine ⟨succ, plus, mult, hparse, hparse', hparse'', fun m n => ⟨?_, ?_, ?_⟩⟩ <;>
    refine normalizesTo_of_reduces ?_ (Numeral.nameless_term _ ▸ Nameless.isNormal_church _)
  · rw [nameless_app, hs, Numeral.nameless_term, Numeral.nameless_term]
    exact Nameless.reduces_succ m
  · rw [nameless_app, nameless_app, hp, Numeral.nameless_term, Numeral.nameless_term, Numeral.nameless_term]
    exact Nameless.reduces_plus m n
  · rw [nameless_app, nameless_app, hm, Numeral.nameless_term, Numeral.nameless_term, Numeral.nameless_term]
    exact Nameless.reduces_mult m n

end Term
end LambdaStepper
