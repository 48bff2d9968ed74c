import LambdaStepper.Term.Names

/-! # Nameless terms

A nameless term refers to a binder by the number of binders in between and to everything else by
name.  The nameless form of a term forgets its marks and the names of bound variables, so two terms
are alpha-equivalent exactly if their nameless forms are the same (`AlphaEquiv`).

On nameless terms nothing can be captured by accident: `replaceFree` puts a term in the place of a
name, `instantiate` in the place of the variable of a binder.  `freeNames_namelessIn` says that a term
and its nameless form have the same free names. -/

namespace LambdaStepper

/-- A nameless term. -/
inductive Nameless where
  /-- The variable of the binder that has `index` binders between it and here. -/
  | bound (index : Nat)
  | free (name : String)
  | lam (body : Nameless)
  | app (func arg : Nameless)
  deriving DecidableEq, Repr

namespace Nameless

/-- The term seen from inside one more binder, which stands outside the `depth` innermost ones. -/
def shift (depth : Nat) : Nameless → Nameless
  | .bound i => .bound (if i < depth then i else i + 1)
  | .free x => .free x
  | .lam body => .lam (body.shift (depth + 1))
  | .app func arg => .app (func.shift depth) (arg.shift depth)

/-- The term with `new` in the place of a free name. -/
def replaceFree (name : String) (new : Nameless) : Nameless → Nameless
  | .bound i => .bound i
  | .free x => if x = name then new else .free x
  | .lam body => .lam (replaceFree name (new.shift 0) body)
  | .app func arg => .app (replaceFree name new func) (replaceFree name new arg)

/-- The body of a binder with `new` in the place of its variable.  The binder has `depth` binders
between it and here. -/
def instantiate (depth : Nat) (new : Nameless) : Nameless → Nameless
  | .bound i => if i < depth then .bound i else if i = depth then new else .bound (i - 1)
  | .free x => .free x
  | .lam body => .lam (instantiate (depth + 1) (new.shift 0) body)
  | .app func arg => .app (instantiate depth new func) (instantiate depth new arg)

/-- The free names, in pre-order. -/
def freeNames : Nameless → List String
  | .bound _ => []
  | .free x => [x]
  | .lam body => body.freeNames
  | .app func arg => func.freeNames ++ arg.freeNames

@[simp] theorem freeNames_shift (depth : Nat) (t : Nameless) :
    (t.shift depth).freeNames = t.freeNames := by
  induction t generalizing depth with
  | bound => rfl
  | free => rfl
  | lam body ih => exact ih (depth + 1)
  | app func arg ihf iha => simp only [shift, freeNames, ihf, iha]

theorem replaceFree_of_notMem {name : String} {new t : Nameless} (h : name ∉ t.freeNames) :
    replaceFree name new t = t := by
  induction t generalizing new with
  | bound => rfl
  | free x =>
    simp only [freeNames, List.mem_singleton] at h
    simp [replaceFree, Ne.symm h]
  | lam body ih => exact congrArg lam (ih h)
  | app func arg ihf iha =>
    simp only [freeNames, List.mem_append, not_or] at h
    simp only [replaceFree, ihf h.1, iha h.2]

theorem instantiate_shift (depth : Nat) (new t : Nameless) :
    instantiate depth new (t.shift depth) = t := by
  induction t generalizing depth new with
  | bound i =>
    by_cases h : i < depth
    · simp [shift, instantiate, h]
    · have h1 : ¬ i + 1 < depth := by omega
      have h2 : i + 1 ≠ depth := by omega
      simp [shift, instantiate, h, h1, h2]
  | free => rfl
  | lam body ih => exact congrArg lam (ih (depth + 1) (new.shift 0))
  | app func arg ihf iha => simp only [shift, instantiate, ihf, iha]

end Nameless

namespace Term

/-- The nameless form of a term inside binders of the names in `scope`, the innermost first. -/
def namelessIn (scope : List String) : Term → Nameless
  | .var _ x =>
    match scope.idxOf? x with
    | some i => .bound i
    | none => .free x
  | .lam _ x body => .lam (body.namelessIn (x :: scope))
  | .app _ func arg => .app (func.namelessIn scope) (arg.namelessIn scope)

/-- The nameless form of a term. -/
def nameless (t : Term) : Nameless :=
  t.namelessIn []

/-- Whether two terms differ in their marks and in the names of bound variables only. -/
def AlphaEquiv (t u : Term) : Prop :=
  t.nameless = u.nameless

instance (t u : Term) : Decidable (t.AlphaEquiv u) :=
  inferInstanceAs (Decidable (t.nameless = u.nameless))

theorem AlphaEquiv.symm {t u : Term} (h : t.AlphaEquiv u) : u.AlphaEquiv t :=
  Eq.symm h

theorem AlphaEquiv.trans {t u v : Term} (h : t.AlphaEquiv u) (h' : u.AlphaEquiv v) :
    t.AlphaEquiv v :=
  Eq.trans h h'

theorem freeNames_namelessIn (t : Term) (scope : List String) :
    (t.namelessIn scope).freeNames = t.freeNames scope := by
  induction t generalizing scope with
  | var _ x =>
    by_cases h : x ∈ scope
    · obtain ⟨i, hi⟩ := Option.isSome_iff_exists.1 (List.isSome_idxOf?.2 h)
      simp [namelessIn, freeNames, Nameless.freeNames, hi, h]
    · simp [namelessIn, freeNames, Nameless.freeNames, List.idxOf?_eq_none_iff.2 h, h]
  | lam _ x body ih => exact ih (x :: scope)
  | app _ func arg ihf iha => simp only [namelessIn, freeNames, Nameless.freeNames, ihf, iha]

end Term
end LambdaStepper
