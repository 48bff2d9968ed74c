import LambdaStepper.Term.Basic

/-! # Names of a term

`freeNames` lists the names of the free occurrences of variables in pre-order, `allNames` every name
a node holds.  As lists they keep order and number of the occurrences; read as sets they are the
free variables and the names of the term. -/

namespace LambdaStepper.Term

/-- The names of the variable occurrences that neither a binder inside the term nor `bound` binds,
in pre-order. -/
def freeNames (bound : List String) : Term → List String
  | .var _ x => if x ∈ bound then [] else [x]
  | .lam _ x body => body.freeNames (x :: bound)
  | .app _ func arg => func.freeNames bound ++ arg.freeNames bound

/-- Every name in a term, bound, binding or free, in pre-order. -/
def allNames : Term → List String
  | .var _ x => [x]
  | .lam _ x body => x :: body.allNames
  | .app _ func arg => func.allNames ++ arg.allNames

/-- Each of the given names once, in the order of their characters. -/
def distinct (names : List String) : List String :=
  names.eraseDups.mergeSort fun a b => a ≤ b

/-- Whether a term has no free variables. -/
def isClosed (t : Term) : Bool :=
  (t.freeNames []).isEmpty

theorem mem_freeNames_iff (t : Term) (x : String) (bound : List String) :
    x ∈ t.freeNames bound ↔ x ∈ t.freeNames [] ∧ x ∉ bound := by
  induction t generalizing bound with
  | var _ y =>
    simp only [freeNames, List.not_mem_nil, if_false, List.mem_singleton]
    by_cases h : y ∈ bound
    · simp only [h, if_true, List.not_mem_nil, false_iff, not_and]
      rintro rfl hx
      exact hx h
    · simp only [h, if_false, List.mem_singleton]
      exact ⟨fun e => ⟨e, e ▸ h⟩, fun e => e.1⟩
  | lam _ y body ih =>
    simp only [freeNames]
    rw [ih (y :: bound), ih [y]]
    simp only [List.mem_cons, not_or, List.not_mem_nil, not_false_iff, and_true]
    exact and_assoc.symm
  | app _ func arg ihf iha =>
    simp only [freeNames, List.mem_append]
    rw [ihf bound, iha bound]
    exact or_and_right.symm

theorem allNames_of_mem_freeNames {t : Term} {x : String} {bound : List String}
    (h : x ∈ t.freeNames bound) : x ∈ t.allNames := by
  induction t generalizing bound with
  | var _ y =>
    by_cases hy : y ∈ bound <;> simp_all [freeNames, allNames]
  | lam _ y body ih => exact List.mem_cons_of_mem _ (ih h)
  | app _ func arg ihf iha =>
    simp only [freeNames, List.mem_append] at h
    simp only [allNames, List.mem_append]
    exact h.imp ihf iha

end LambdaStepper.Term
