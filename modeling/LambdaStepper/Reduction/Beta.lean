import LambdaStepper.Reduction.Step
import LambdaStepper.Term.Nameless

/-! # Beta reduction

What reduction is, said on nameless terms and without an order: `Beta` contracts one redex, wherever
it stands, `Reduces` any number of them one after the other, and a normal term has none to contract.

`contractAt?` contracts the redex at a given position. -/

namespace LambdaStepper

namespace Nameless

/-- The number of nodes. -/
def size : Nameless → Nat
  | .bound _ => 1
  | .free _ => 1
  | .lam body => body.size + 1
  | .app func arg => func.size + arg.size + 1

/-- One contraction of a redex. -/
inductive Beta : Nameless → Nameless → Prop where
  | contract (body arg : Nameless) : Beta (.app (.lam body) arg) (instantiate 0 arg body)
  | body {t u : Nameless} (h : Beta t u) : Beta (.lam t) (.lam u)
  | func {t u : Nameless} (arg : Nameless) (h : Beta t u) : Beta (.app t arg) (.app u arg)
  | arg {t u : Nameless} (func : Nameless) (h : Beta t u) : Beta (.app func t) (.app func u)

/-- Any number of contractions, one after the other. -/
inductive Reduces : Nameless → Nameless → Prop where
  | refl (t : Nameless) : Reduces t t
  | step {t u v : Nameless} (h : Beta t u) (h' : Reduces u v) : Reduces t v

/-- Whether no redex is left. -/
def IsNormal (t : Nameless) : Prop :=
  ∀ u, ¬ Beta t u

/-- What an application contracts to, if it is a redex. -/
def contract? (func arg : Nameless) : Option Nameless :=
  match func with
  | .lam body => some (instantiate 0 arg body)
  | _ => none

/-- The term after the contraction of the redex at a position, if there is a redex. -/
def contractAt? (position : Nat) : Nameless → Option Nameless
  | .bound _ => none
  | .free _ => none
  | .lam body =>
    if position = 0 then none else (body.contractAt? (position - 1)).map .lam
  | .app func arg =>
    if position = 0 then func.contract? arg
    else if position ≤ func.size then (func.contractAt? (position - 1)).map fun u => .app u arg
    else (arg.contractAt? (position - 1 - func.size)).map fun u => .app func u

theorem Reduces.trans {t u v : Nameless} (h : Reduces t u) (h' : Reduces u v) : Reduces t v := by
  induction h with
  | refl => exact h'
  | step hb _ ih => exact .step hb (ih h')

theorem lt_size_of_contractAt? {position : Nat} {t u : Nameless}
    (h : t.contractAt? position = some u) : position < t.size := by
  induction t generalizing position u with
  | bound => simp [contractAt?] at h
  | free => simp [contractAt?] at h
  | lam body ih =>
    rw [contractAt?] at h
    split at h
    · simp at h
    · obtain ⟨v, hv, rfl⟩ := Option.map_eq_some_iff.1 h
      have := ih hv
      simp only [size]
      omega
  | app func arg ihf iha =>
    rw [contractAt?] at h
    simp only [size]
    split at h
    · omega
    · split at h
      · omega
      · obtain ⟨v, hv, rfl⟩ := Option.map_eq_some_iff.1 h
        have := iha hv
        omega

end Nameless

namespace Term

/-- Whether no subterm is a redex. -/
def IsNormal (t : Term) : Prop :=
  ∀ u ∈ t.nodes, u.isRedex = false

instance (t : Term) : Decidable t.IsNormal :=
  inferInstanceAs (Decidable (∀ u ∈ t.nodes, u.isRedex = false))

@[simp] theorem size_namelessIn (scope : List String) (t : Term) :
    (t.namelessIn scope).size = t.size := by
  induction t generalizing scope with
  | var _ x =>
    simp only [namelessIn]
    split <;> rfl
  | lam _ x body ih => simp only [namelessIn, Nameless.size, size, ih]
  | app _ func arg ihf iha => simp only [namelessIn, Nameless.size, size, ihf, iha]

theorem nodes_eq_cons (t : Term) : t.nodes = t :: t.children.flatMap nodes := by
  cases t <;> simp [nodes, children]

theorem nextRedexFrom_eq (position : Nat) (stack : List Term) :
    nextRedexFrom position stack =
      ((stack.flatMap nodes).findIdx? isRedex).map (· + position) := by
  fun_induction nextRedexFrom position stack with
  | case1 => rfl
  | case2 position t stack h =>
    simp [nodes_eq_cons t, List.findIdx?_cons, h]
  | case3 position t stack h ih =>
    rw [ih, List.flatMap_append, List.flatMap_cons, nodes_eq_cons t, List.cons_append,
      List.findIdx?_cons, if_neg h, Option.map_map]
    congr 1
    funext i
    simp only [Function.comp]
    omega

theorem nextRedex?_eq_findIdx? (t : Term) : t.nextRedex? = t.nodes.findIdx? isRedex := by
  simp [nextRedex?, nextRedexFrom_eq]

end Term
end LambdaStepper
