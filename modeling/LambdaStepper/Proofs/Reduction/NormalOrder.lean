import LambdaStepper.Proofs.Reduction.CaptureAvoidance
import LambdaStepper.Reduction.Beta

/-! # Normal order

A step contracts the leftmost outermost redex.  On nameless terms `Nameless.leftmost?` says what that
is: the redex at the root, else one in the function, else one in the argument.

Three facts describe a step: it contracts at the first redex in pre-order (`redex?_reduceStep`), it
does on the nameless form what `leftmost?` does (`leftmost?_namelessIn`), and where there is no redex
it only takes the highlights away (`result_of_unchanged`). -/

namespace LambdaStepper

namespace Nameless

/-- The term after the contraction of its leftmost outermost redex, if there is one. -/
def leftmost? : Nameless → Option Nameless
  | .bound _ => none
  | .free _ => none
  | .lam body => body.leftmost?.map .lam
  | .app func arg =>
    match func.contract? arg with
    | some t => some t
    | none =>
      match func.leftmost? with
      | some func' => some (.app func' arg)
      | none => arg.leftmost?.map (.app func)

/-- Whether a term is an abstraction. -/
def IsLam (t : Nameless) : Prop :=
  ∃ body, t = .lam body

theorem contract?_eq_none {func : Nameless} (h : ¬ func.IsLam) (arg : Nameless) :
    func.contract? arg = none := by
  cases func with
  | lam body => exact absurd ⟨body, rfl⟩ h
  | bound | free | app => rfl

theorem leftmost?_app {func : Nameless} (h : ¬ func.IsLam) (arg : Nameless) :
    (app func arg).leftmost?
      = (func.leftmost?.map (app · arg)).or (arg.leftmost?.map (app func)) := by
  rw [leftmost?, contract?_eq_none h]
  cases func.leftmost? <;> rfl

theorem beta_of_leftmost? {t u : Nameless} (h : t.leftmost? = some u) : Beta t u := by
  induction t generalizing u with
  | bound => simp [leftmost?] at h
  | free => simp [leftmost?] at h
  | lam body ih =>
      obtain ⟨v, hv, rfl⟩ := Option.map_eq_some_iff.mp h
      exact .body (ih hv)
  | app func arg ihf iha =>
      by_cases hlam : func.IsLam
      · obtain ⟨body, rfl⟩ := hlam
        obtain rfl := Option.some.inj h
        exact .contract body arg
      · rw [leftmost?_app hlam] at h
        rcases Option.or_eq_some_iff.mp h with h | ⟨-, h⟩
        · obtain ⟨v, hv, rfl⟩ := Option.map_eq_some_iff.mp h
          exact .func arg (ihf hv)
        · obtain ⟨v, hv, rfl⟩ := Option.map_eq_some_iff.mp h
          exact .arg func (iha hv)

end Nameless

namespace Term

/-- A term without its highlights. -/
def unlit : Term → Term
  | .var m x => .var m.unlit x
  | .lam m x body => .lam m.unlit x body.unlit
  | .app m func arg => .app m.unlit func.unlit arg.unlit

@[simp] theorem namelessIn_unlit (t : Term) (scope : List String) :
    t.unlit.namelessIn scope = t.namelessIn scope := by
  induction t generalizing scope with
  | var => rfl
  | lam _ x _ ih => exact congrArg Nameless.lam (ih (x :: scope))
  | app _ _ _ ihf iha => simp only [unlit, namelessIn, ihf, iha]

theorem isAbstraction_eq_false {t : Term} (h : ∀ m x body, t = .lam m x body → False) :
    t.isAbstraction = false := by
  cases t with
  | lam m x body => exact (h m x body rfl).elim
  | var | app => rfl

theorem not_isLam_namelessIn {t : Term} (h : t.isAbstraction = false) (scope : List String) :
    ¬ (t.namelessIn scope).IsLam := by
  rintro ⟨body, hbody⟩
  cases t with
  | lam => simp [isAbstraction] at h
  | app => simp [namelessIn] at hbody
  | var m x =>
      simp only [namelessIn] at hbody
      split at hbody <;> cases hbody

theorem namelessIn_contract (x : String) (body arg : Term) (scope : List String) :
    (contract x body arg).namelessIn scope
      = Nameless.instantiate 0 (arg.namelessIn scope) (body.namelessIn (x :: scope)) := by
  rw [namelessIn_eq_enclose, contract, nameless_substitute, ← Nameless.instantiate_enclose,
    ← namelessIn_eq_enclose, ← namelessIn_eq_enclose]

/-! ### The first redex -/

theorem findIdx?_nodes_lam (m : Mark) (x : String) (body : Term) :
    (lam m x body).nodes.findIdx? isRedex = (body.nodes.findIdx? isRedex).map (· + 1) := by
  simp [nodes, List.findIdx?_cons, isRedex]

theorem findIdx?_nodes_app {func : Term} (h : func.isAbstraction = false) (m : Mark) (arg : Term) :
    (app m func arg).nodes.findIdx? isRedex
      = ((func.nodes.findIdx? isRedex).map (· + 1)).or
          ((arg.nodes.findIdx? isRedex).map (· + func.size + 1)) := by
  simp only [nodes, List.findIdx?_cons, isRedex, h, Bool.false_eq_true, if_false,
    List.findIdx?_append, length_nodes]
  cases func.nodes.findIdx? isRedex with
  | some i => rfl
  | none => cases arg.nodes.findIdx? isRedex <;> rfl

theorem isNormal_iff_findIdx? (t : Term) : t.IsNormal ↔ t.nodes.findIdx? isRedex = none := by
  rw [List.findIdx?_eq_none_iff]
  rfl

/-! ### One step -/

theorem redex?_reduceStep (t : Term) : t.reduceStep.redex? = t.nodes.findIdx? isRedex := by
  fun_induction reduceStep t with
  | case1 m x => rfl
  | case2 m x body body' i hb ih =>
      rw [hb] at ih
      rw [findIdx?_nodes_lam, ← ih]
      rfl
  | case3 m x body body' hb ih =>
      rw [hb] at ih
      rw [findIdx?_nodes_lam, ← ih]
      rfl
  | case4 m arg m' x body => rfl
  | case5 m arg func hfunc func' i hf ih =>
      rw [hf] at ih
      rw [findIdx?_nodes_app (isAbstraction_eq_false hfunc), ← ih]
      rfl
  | case6 m arg func hfunc func' hf arg' i ha ihf iha =>
      rw [hf] at ihf
      rw [ha] at iha
      rw [findIdx?_nodes_app (isAbstraction_eq_false hfunc), ← ihf, ← iha]
      rfl
  | case7 m arg func hfunc func' hf arg' ha ihf iha =>
      rw [hf] at ihf
      rw [ha] at iha
      rw [findIdx?_nodes_app (isAbstraction_eq_false hfunc), ← ihf, ← iha]
      rfl

/-- Where there is nothing to contract, a step only takes the highlights away. -/
theorem result_of_unchanged {t : Term} (h : t.reduceStep.redex? = none) :
    t.reduceStep.result = t.unlit := by
  fun_induction reduceStep t with
  | case1 m x => rfl
  | case3 m x body body' hb ih =>
      rw [hb] at ih
      exact congrArg (lam m.unlit x) (ih rfl)
  | case7 m arg func hfunc func' hf arg' ha ihf iha =>
      rw [hf] at ihf
      rw [ha] at iha
      exact congrArg₂ (app m.unlit) (ihf rfl) (iha rfl)
  | case2 | case4 | case5 | case6 => cases h

theorem eq_unlit_of_reduceStep {t t' : Term} (h : t.reduceStep = ⟨t', none⟩) : t' = t.unlit := by
  have hr := result_of_unchanged (t := t) (by rw [h])
  rwa [h] at hr

theorem contractAt?_reduceStep {t : Term} {i : Nat} (h : t.reduceStep.redex? = some i)
    (scope : List String) :
    (t.namelessIn scope).contractAt? i = some (t.reduceStep.result.namelessIn scope) := by
  fun_induction reduceStep t generalizing i scope with
  | case1 | case3 | case7 => cases h
  | case2 m x body body' j hb ih =>
      obtain rfl := Option.some.inj h
      rw [hb] at ih
      simp [namelessIn, Nameless.contractAt?, ih rfl (x :: scope)]
  | case4 m arg m' x body =>
      obtain rfl := Option.some.inj h
      rw [namelessIn_contract]
      rfl
  | case5 m arg func hfunc func' j hf ih =>
      obtain rfl := Option.some.inj h
      rw [hf] at ih
      have hj := Nameless.lt_size_of_contractAt? (ih rfl scope)
      have h1 : j + 1 ≤ (func.namelessIn scope).size := hj
      simp only [namelessIn, Nameless.contractAt?, Nat.add_one_ne_zero, if_false, h1, if_true,
        Nat.add_sub_cancel, ih rfl scope, Option.map_some]
  | case6 m arg func hfunc func' hf arg' j ha ihf iha =>
      obtain rfl := Option.some.inj h
      rw [ha] at iha
      have h1 : ¬ j + func.size + 1 ≤ func.size := by omega
      have h2 : j + func.size + 1 - 1 - func.size = j := by omega
      simp only [namelessIn, Nameless.contractAt?, size_namelessIn, Nat.add_one_ne_zero, if_false,
        h1, h2, iha rfl scope, Option.map_some, eq_unlit_of_reduceStep hf, namelessIn_unlit]

/-- A step does on the nameless form what `leftmost?` does. -/
theorem leftmost?_namelessIn (t : Term) (scope : List String) :
    (t.namelessIn scope).leftmost?
      = t.reduceStep.redex?.map fun _ => t.reduceStep.result.namelessIn scope := by
  fun_induction reduceStep t generalizing scope with
  | case1 m x =>
      simp only [namelessIn]
      cases scope.idxOf? x <;> rfl
  | case2 m x body body' i hb ih | case3 m x body body' hb ih =>
      rw [namelessIn, Nameless.leftmost?, ih, hb]
      rfl
  | case4 m arg m' x body =>
      rw [namelessIn_contract]
      rfl
  | case5 m arg func hfunc func' i hf ih =>
      have hlam := not_isLam_namelessIn (isAbstraction_eq_false hfunc) scope
      rw [namelessIn, Nameless.leftmost?_app hlam, ih, hf]
      rfl
  | case6 m arg func hfunc func' hf arg' i ha ihf iha =>
      have hlam := not_isLam_namelessIn (isAbstraction_eq_false hfunc) scope
      rw [namelessIn, Nameless.leftmost?_app hlam, ihf, iha, hf, ha, eq_unlit_of_reduceStep hf]
      simp [namelessIn]
  | case7 m arg func hfunc func' hf arg' ha ihf iha =>
      have hlam := not_isLam_namelessIn (isAbstraction_eq_false hfunc) scope
      rw [namelessIn, Nameless.leftmost?_app hlam, ihf, iha, hf, ha]
      rfl

end Term
end LambdaStepper
