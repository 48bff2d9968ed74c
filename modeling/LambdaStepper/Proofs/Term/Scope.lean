import LambdaStepper.Reduction.Substitution
import LambdaStepper.Term.Nameless
import Mathlib.Tactic.SplitIfs

/-! # Scopes

How the nameless form of a term depends on the scope it stands in.  `Nameless.enclose` puts a nameless
term inside binders of given names, so that the form in any scope is the form in the empty one,
enclosed (`namelessIn_eq_enclose`).  What a scope does to names then follows on nameless terms:

* a scope without the free names of a term does nothing to it (`namelessIn_of_disjoint`);
* a binder whose name is not free in a term shifts it (`namelessIn_cons_of_notMem`);
* renaming a binder along with its variable changes nothing (`namelessIn_rename_cons`);
* a redex is contracted inside a scope as it is outside (`instantiate_enclose`).

Where names in scope come with data, looking up a name is looking up its index (`lookup_eq_bind_idxOf?`),
and no index in a nameless form reaches beyond the scope (`scoped_namelessIn`). -/

namespace LambdaStepper

/-- What is known of a name in scope is what is known of the binder its index refers to. -/
theorem lookup_eq_bind_idxOf? {β : Type} (scope : List (String × β)) (x : String) :
    scope.lookup x = ((scope.map Prod.fst).idxOf? x).bind fun i => (scope.map Prod.snd)[i]? := by
  induction scope with
  | nil => rfl
  | cons entry scope ih =>
      obtain ⟨y, b⟩ := entry
      by_cases hxy : x = y
      · subst hxy
        simp [List.idxOf?_cons]
      · have hyx : (y == x) = false := by simpa using Ne.symm hxy
        have hbeq : (x == y) = false := by simpa using hxy
        rw [List.lookup_cons, hbeq, ih, List.map_cons, List.idxOf?_cons, hyx]
        cases (scope.map Prod.fst).idxOf? x <;> rfl

namespace Nameless

/-- No index refers to more than `depth` binders around the term. -/
def Scoped (depth : Nat) : Nameless → Prop
  | .bound i => i < depth
  | .free _ => True
  | .lam body => body.Scoped (depth + 1)
  | .app func arg => func.Scoped depth ∧ arg.Scoped depth

/-- The term inside binders of the names in `scope`, the innermost first, which stand outside the
`depth` innermost ones. -/
def enclose (scope : List String) (depth : Nat) : Nameless → Nameless
  | .bound i => .bound (if i < depth then i else i + scope.length)
  | .free x =>
    match scope.idxOf? x with
    | some i => .bound (i + depth)
    | none => .free x
  | .lam body => .lam (body.enclose scope (depth + 1))
  | .app func arg => .app (func.enclose scope depth) (arg.enclose scope depth)

theorem enclose_cons_of_notMem {x : String} {t : Nameless} (h : x ∉ t.freeNames)
    (scope : List String) (depth : Nat) :
    t.enclose (x :: scope) depth = (t.enclose scope depth).shift depth := by
  induction t generalizing depth with
  | bound i =>
      by_cases hi : i < depth
      · simp [enclose, shift, hi]
      · have hj : ¬ i + scope.length < depth := by omega
        simp only [enclose, shift, hi, hj, if_false, List.length_cons, bound.injEq]
        omega
  | free y =>
      have hy : x ≠ y := by simpa [freeNames] using h
      simp only [enclose, List.idxOf?_cons, beq_iff_eq, hy, if_false]
      cases scope.idxOf? y with
      | none => rfl
      | some i =>
          have hi : ¬ i + depth < depth := by omega
          simp only [Option.map_some, shift, hi, if_false, bound.injEq]
          omega
  | lam body ih => exact congrArg lam (ih h (depth + 1))
  | app func arg ihf iha =>
      simp only [freeNames, List.mem_append, not_or] at h
      simp only [enclose, shift, ihf h.1, iha h.2]

/-- A free name and the binder of it may be renamed together. -/
theorem enclose_replaceFree_cons {old new : String} {t : Nameless} (h : new ∉ t.freeNames)
    (scope : List String) (depth : Nat) :
    (replaceFree old (.free new) t).enclose (new :: scope) depth = t.enclose (old :: scope) depth := by
  induction t generalizing depth with
  | bound i => rfl
  | free y =>
      have hy : new ≠ y := by simpa [freeNames] using h
      by_cases ho : y = old
      · simp [replaceFree, enclose, List.idxOf?_cons, ho]
      · simp [replaceFree, enclose, List.idxOf?_cons, ho, hy, Ne.symm ho]
  | lam body ih => exact congrArg lam (ih h (depth + 1))
  | app func arg ihf iha =>
      simp only [freeNames, List.mem_append, not_or] at h
      simp only [replaceFree, enclose, ihf h.1, iha h.2]

/-- Binders outside of `depth` others do not mind a shift further inside. -/
theorem enclose_shift (scope : List String) (inner depth : Nat) (t : Nameless) :
    (t.shift inner).enclose scope (inner + depth + 1) = (t.enclose scope (inner + depth)).shift inner := by
  induction t generalizing inner with
  | bound i =>
      simp only [enclose, shift, bound.injEq]
      split_ifs <;> omega
  | free y =>
      simp only [enclose, shift]
      cases scope.idxOf? y with
      | none => rfl
      | some i =>
          have hi : ¬ i + (inner + depth) < inner := by omega
          simp only [shift, hi, if_false, bound.injEq]
          omega
  | lam body ih =>
      have h := ih (inner + 1)
      rw [show inner + 1 + depth + 1 = inner + depth + 1 + 1 by omega,
        show inner + 1 + depth = inner + depth + 1 by omega] at h
      exact congrArg lam h
  | app func arg ihf iha => simp only [enclose, shift, ihf, iha]

/-- Putting a term in the place of a name, and putting it in the place of the variable of a binder of
that name, come to the same inside any scope. -/
theorem instantiate_enclose (x : String) (scope : List String) (depth : Nat) (new t : Nameless) :
    instantiate depth (new.enclose scope depth) (t.enclose (x :: scope) depth)
      = (replaceFree x new t).enclose scope depth := by
  induction t generalizing depth new with
  | bound i =>
      by_cases hi : i < depth
      · simp [enclose, instantiate, replaceFree, hi]
      · have h1 : ¬ i + (scope.length + 1) < depth := by omega
        have h2 : i + (scope.length + 1) ≠ depth := by omega
        simp only [enclose, instantiate, replaceFree, hi, if_false, List.length_cons, h1, h2,
          bound.injEq]
        omega
  | free y =>
      by_cases hy : y = x
      · simp [enclose, instantiate, replaceFree, List.idxOf?_cons, hy]
      · simp only [enclose, replaceFree, List.idxOf?_cons, beq_iff_eq, Ne.symm hy, hy, if_false]
        cases scope.idxOf? y with
        | none => rfl
        | some i =>
            have h1 : ¬ i + 1 + depth < depth := by omega
            have h2 : i + 1 + depth ≠ depth := by omega
            simp only [Option.map_some, instantiate, h1, h2, if_false, bound.injEq]
            omega
  | lam body ih =>
      have hs := enclose_shift scope 0 depth new
      rw [Nat.zero_add] at hs
      simp only [enclose, instantiate, replaceFree]
      rw [← hs, ih]
  | app func arg ihf iha => simp only [enclose, instantiate, replaceFree, ihf, iha]

theorem enclose_of_disjoint {t : Nameless} {scope : List String} {depth : Nat}
    (h : ∀ x ∈ t.freeNames, x ∉ scope) (ht : t.Scoped depth) : t.enclose scope depth = t := by
  induction t generalizing depth with
  | bound i => exact congrArg bound (if_pos ht)
  | free x =>
      have hx : scope.idxOf? x = none := List.idxOf?_eq_none_iff.mpr (h x (List.mem_singleton_self x))
      rw [enclose, hx]
  | lam body ih => exact congrArg lam (ih h ht)
  | app func arg ihf iha =>
      obtain ⟨hf, ha⟩ := List.forall_mem_append.mp h
      rw [enclose, ihf hf ht.1, iha ha ht.2]

theorem notMem_of_scoped_enclose {t : Nameless} {scope : List String} {depth : Nat}
    (h : (t.enclose scope depth).Scoped depth) : ∀ x ∈ t.freeNames, x ∉ scope := by
  induction t generalizing depth with
  | bound i => simp [freeNames]
  | free x =>
      intro y hy hmem
      obtain rfl := List.mem_singleton.mp hy
      obtain ⟨i, hi⟩ := Option.isSome_iff_exists.mp (List.isSome_idxOf?.mpr hmem)
      simp only [enclose, hi, Scoped] at h
      omega
  | lam body ih => exact ih h
  | app func arg ihf iha => exact List.forall_mem_append.mpr ⟨ihf h.1, iha h.2⟩

end Nameless

namespace Term

/-- The form in a longer scope is the form in its inner part, enclosed in the rest. -/
theorem namelessIn_append (t : Term) (inner outer : List String) :
    t.namelessIn (inner ++ outer) = (t.namelessIn inner).enclose outer inner.length := by
  induction t generalizing inner with
  | var m x =>
      have happ : (inner ++ outer).idxOf? x
          = (inner.idxOf? x).or ((outer.idxOf? x).map (· + inner.length)) := by
        simp [List.idxOf?, List.findIdx?_append]
      simp only [namelessIn, happ]
      cases hx : inner.idxOf? x with
      | none => cases hy : outer.idxOf? x <;> simp [Nameless.enclose, hy]
      | some i =>
          obtain ⟨hi, -⟩ := List.idxOf?_eq_some_iff.mp hx
          simp [Nameless.enclose, hi]
  | lam m x body ih => exact congrArg Nameless.lam (ih (x :: inner))
  | app m func arg ihf iha => simp only [namelessIn, Nameless.enclose, ihf, iha]

theorem namelessIn_eq_enclose (t : Term) (scope : List String) :
    t.namelessIn scope = t.nameless.enclose scope 0 :=
  t.namelessIn_append [] scope

theorem scoped_namelessIn (t : Term) (scope : List String) :
    (t.namelessIn scope).Scoped scope.length := by
  induction t generalizing scope with
  | var m x =>
      simp only [namelessIn]
      cases hx : scope.idxOf? x with
      | none => trivial
      | some i =>
          obtain ⟨hi, -⟩ := List.idxOf?_eq_some_iff.mp hx
          exact hi
  | lam m x body ih => exact ih (x :: scope)
  | app m func arg ihf iha => exact ⟨ihf scope, iha scope⟩

theorem freeNames_nameless (t : Term) : t.nameless.freeNames = t.freeNames [] :=
  t.freeNames_namelessIn []

/-- A term none of whose free names is in a scope has the same nameless form in it. -/
theorem namelessIn_of_disjoint {t : Term} {scope : List String}
    (h : ∀ x ∈ t.freeNames [], x ∉ scope) : t.namelessIn scope = t.nameless := by
  rw [namelessIn_eq_enclose]
  refine Nameless.enclose_of_disjoint ?_ (t.scoped_namelessIn [])
  rwa [freeNames_nameless]

theorem exists_lam_of_namelessIn_eq_lam {t : Term} {scope : List String} {n : Nameless}
    (h : t.namelessIn scope = .lam n) :
    ∃ m x body, t = lam m x body ∧ body.namelessIn (x :: scope) = n := by
  cases t with
  | var m y =>
      rw [namelessIn] at h
      split at h <;> cases h
  | lam m x body => exact ⟨m, x, body, rfl, Nameless.lam.inj h⟩
  | app => cases h

theorem exists_app_of_namelessIn_eq_app {t : Term} {scope : List String} {n n' : Nameless}
    (h : t.namelessIn scope = .app n n') :
    ∃ m func arg, t = app m func arg ∧ func.namelessIn scope = n ∧ arg.namelessIn scope = n' := by
  cases t with
  | var m y =>
      rw [namelessIn] at h
      split at h <;> cases h
  | lam m x body => cases h
  | app m func arg =>
      obtain ⟨hfunc, harg⟩ := Nameless.app.inj h
      exact ⟨m, func, arg, rfl, hfunc, harg⟩

theorem namelessIn_cons_of_notMem {x : String} {t : Term} (h : x ∉ t.freeNames [])
    (scope : List String) : t.namelessIn (x :: scope) = (t.namelessIn scope).shift 0 := by
  rw [namelessIn_eq_enclose, namelessIn_eq_enclose t scope]
  rw [← freeNames_nameless] at h
  exact Nameless.enclose_cons_of_notMem h scope 0

/-- Renaming to a name that is not in the term puts the new name in the place of the old. -/
theorem namelessIn_rename {old new : String} {t : Term} {scope : List String}
    (hnew : new ∉ t.allNames) (hold : old ∉ scope) (hscope : new ∉ scope) :
    (t.rename old new).namelessIn scope
      = Nameless.replaceFree old (.free new) (t.namelessIn scope) := by
  induction t generalizing scope with
  | var m x =>
      by_cases hx : x = old
      · subst hx
        simp [rename, namelessIn, Nameless.replaceFree, List.idxOf?_eq_none_iff.mpr hold,
          List.idxOf?_eq_none_iff.mpr hscope]
      · simp only [rename, namelessIn, hx, if_false]
        cases scope.idxOf? x <;> simp [Nameless.replaceFree, hx]
  | lam m x body ih =>
      simp only [allNames, List.mem_cons, not_or] at hnew
      by_cases hx : x = old
      · -- the binder shadows the old name, which is then not free in the body
        have hfree : old ∉ (body.namelessIn (x :: scope)).freeNames := by
          rw [freeNames_namelessIn, mem_freeNames_iff]
          simp [hx]
        simp only [rename, hx, if_true, namelessIn, Nameless.replaceFree]
        rw [← hx] at hfree ⊢
        rw [Nameless.replaceFree_of_notMem hfree]
      · simp only [rename, hx, if_false, namelessIn, Nameless.replaceFree, Nameless.shift]
        rw [ih hnew.2]
        · simp [Ne.symm hx, hold]
        · simp [hnew.1, hscope]
  | app m func arg ihf iha =>
      simp only [allNames, List.mem_append, not_or] at hnew
      simp only [rename, namelessIn, Nameless.replaceFree]
      rw [ihf hnew.1 hold hscope, iha hnew.2 hold hscope]

theorem nameless_rename {old new : String} {t : Term} (hnew : new ∉ t.allNames) :
    (t.rename old new).nameless = Nameless.replaceFree old (.free new) t.nameless :=
  namelessIn_rename hnew List.not_mem_nil List.not_mem_nil

/-- Inside a binder, the variable may be renamed with the binder. -/
theorem namelessIn_rename_cons {old new : String} {t : Term} (hnew : new ∉ t.allNames)
    (scope : List String) :
    (t.rename old new).namelessIn (new :: scope) = t.namelessIn (old :: scope) := by
  have hfree : new ∉ t.nameless.freeNames := by
    rw [freeNames_nameless]
    exact fun h => hnew (allNames_of_mem_freeNames h)
  rw [namelessIn_eq_enclose, namelessIn_eq_enclose t, nameless_rename hnew]
  exact Nameless.enclose_replaceFree_cons hfree scope 0

end Term
end LambdaStepper
