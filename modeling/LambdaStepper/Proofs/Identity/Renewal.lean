import Mathlib.Data.List.Perm.Subperm
import LambdaStepper.Identity.Parser
import LambdaStepper.Proofs.Identity.Issuance
import LambdaStepper.Proofs.Identity.NormalOrder

/-! # Terms built anew

Cloning, renaming, substitution, reduction and highlighting give every node of their result another one of the
identities that they take (`NewIn`), also where the input shares nodes or a replacement is put in several
places.  How many identities they take is the same for every supply: what decides about it, the names and
whether a redex is found, does not depend on identities. -/

namespace LambdaStepper.Node

open Issuing

/-! ### Terms built from new identities -/

/-- The nodes of a term have different ones of the given identities. -/
def NewIn (issued : List Int) (n : Node) : Prop :=
  n.ids.Subperm issued

theorem NewIn.append_left {issued : List Int} {n : Node} (h : n.NewIn issued) (before : List Int) :
    n.NewIn (before ++ issued) :=
  h.trans (List.sublist_append_right before issued).subperm

theorem NewIn.var (i : Int) (m : Mark) (x : String) : (Node.var i m x).NewIn [i] :=
  List.Subperm.refl [i]

theorem NewIn.lam {issued : List Int} {body : Node} (h : body.NewIn issued) (i : Int) (m : Mark) (x : String) :
    (Node.lam i m x body).NewIn (issued ++ [i]) :=
  ((List.subperm_cons i).mpr h).trans (List.perm_append_singleton i issued).symm.subperm

theorem NewIn.app {issued issued' : List Int} {func arg : Node} (hfunc : func.NewIn issued)
    (harg : arg.NewIn issued') (i : Int) (m : Mark) :
    (Node.app i m func arg).NewIn (issued ++ (issued' ++ [i])) := by
  rw [← List.append_assoc]
  exact ((List.subperm_cons i).mpr (hfunc.append harg)).trans
    (List.perm_append_singleton i (issued ++ issued')).symm.subperm

/-! ### Cloning and renaming -/

theorem spec_clone (n : Node) : n.clone.Spec n.size fun issued n' => n'.NewIn issued := by
  induction n with
  | var i m x => exact .root fun i => .var i m x
  | lam i m x body ih => exact ih.bind fun _ _ hbody => .root fun i => hbody.lam i m x
  | app i m func arg ihf iha =>
    rw [size, term, Term.size, Nat.add_assoc]
    exact ihf.bind fun _ _ hfunc => iha.bind fun _ _ harg => .root fun i => hfunc.app harg i m

theorem spec_rename (old new : String) (n : Node) :
    (n.rename old new).Spec n.size fun issued n' => n'.NewIn issued := by
  induction n with
  | var i m x => exact .root fun i => .var i m _
  | lam i m x body ih =>
    unfold rename
    split
    · exact spec_clone (.lam i m x body)
    · exact ih.bind fun _ _ hbody => .root fun i => hbody.lam i m x
  | app i m func arg ihf iha =>
    rw [size, term, Term.size, Nat.add_assoc]
    exact ihf.bind fun _ _ hfunc => iha.bind fun _ _ harg => .root fun i => hfunc.app harg i m

/-! ### Substitution -/

section Substitution

variable (name : String) (replacement : Node) (captured : List String)

/-- Substitution as a computation that gives out identities. -/
abbrev substituting (n : Node) (fresh : Freshener) : Issuing (Node × Freshener) :=
  substituteFrom name replacement captured n fresh

theorem substituting_var (i : Int) (m : Mark) (x : String) (fresh : Freshener) :
    substituting name replacement captured (.var i m x) fresh
      = (do
        let n ← if x = name then replacement.clone else (Node.var i m x).clone
        return (n, fresh)) := by
  funext s
  rw [substituting, substituteFrom]
  by_cases h : x = name
  · rw [if_pos h, if_pos h]
    rfl
  · rw [if_neg h, if_neg h]
    rfl

theorem substituting_lam_untouched {i : Int} {m : Mark} {x : String} {body : Node}
    (h : (Term.lam m x body.term).isUntouched name || x = name) (fresh : Freshener) :
    substituting name replacement captured (.lam i m x body) fresh
      = (do return (← (Node.lam i m x body).clone, fresh)) := by
  funext s
  rw [substituting, substituteFrom, term, if_pos h]
  rfl

theorem substituting_lam_captured {i : Int} {m : Mark} {x : String} {body : Node}
    (h : ¬ ((Term.lam m x body.term).isUntouched name || x = name)) (hx : x ∈ captured)
    {fresh fresh' : Freshener} {x' : String}
    (hfresh : fresh.fresh x (body.term.allNames ++ captured ++ [name]) = (x', fresh')) :
    substituting name replacement captured (.lam i m x body) fresh = (do
      let renamed ← body.rename x x'
      let _ ← new
      let (body', fresh) ← substituting name replacement captured renamed fresh'
      return (.lam (← new) m.untagged x' body', fresh)) := by
  funext s
  rw [substituting, substituteFrom, term, if_neg h, if_pos hx, hfresh]
  rfl

theorem substituting_lam {i : Int} {m : Mark} {x : String} {body : Node}
    (h : ¬ ((Term.lam m x body.term).isUntouched name || x = name)) (hx : x ∉ captured) (fresh : Freshener) :
    substituting name replacement captured (.lam i m x body) fresh = (do
      let (body', fresh) ← substituting name replacement captured body fresh
      return (.lam (← new) m.untagged x body', fresh)) := by
  funext s
  rw [substituting, substituteFrom, term, if_neg h, if_neg hx]
  rfl

theorem substituting_app_untouched {i : Int} {m : Mark} {func arg : Node}
    (h : (Term.app m func.term arg.term).isUntouched name) (fresh : Freshener) :
    substituting name replacement captured (.app i m func arg) fresh
      = (do return (← (Node.app i m func arg).clone, fresh)) := by
  funext s
  rw [substituting, substituteFrom, term, if_pos h]
  rfl

theorem substituting_app {i : Int} {m : Mark} {func arg : Node}
    (h : ¬ (Term.app m func.term arg.term).isUntouched name) (fresh : Freshener) :
    substituting name replacement captured (.app i m func arg) fresh = (do
      let (func', fresh) ← substituting name replacement captured func fresh
      let (arg', fresh) ← substituting name replacement captured arg fresh
      return (.app (← new) m.untagged func' arg', fresh)) := by
  funext s
  rw [substituting, substituteFrom, term, if_neg h]
  rfl

/-- How many identities substitution takes depends on the term only, not on its identities: a body in which
a binder was renamed has different ones for every supply. -/
theorem exists_spec_substituting (t : Term) (fresh : Freshener) :
    ∃ count, ∀ n : Node, n.term = t → (substituting name replacement captured n fresh).Spec count
      fun issued r => r.1.NewIn issued
        ∧ r.2 = (Term.substituteFrom name replacement.term captured t fresh).2 := by
  fun_induction Term.substituteFrom name replacement.term captured t fresh with
  | case1 m x fresh =>
    by_cases hx : x = name
    · refine ⟨replacement.size, ?_⟩
      rintro (⟨i, m, x⟩ | _ | _) ht <;> cases ht
      rw [substituting_var, if_pos hx]
      exact (spec_clone replacement).map fun _ _ hn => ⟨hn, rfl⟩
    · refine ⟨1, ?_⟩
      rintro (⟨i, m, x⟩ | _ | _) ht <;> cases ht
      rw [substituting_var, if_neg hx]
      exact (spec_clone (.var i m x)).map fun _ _ hn => ⟨hn, rfl⟩
  | case2 m x body fresh hu =>
    refine ⟨(Term.lam m x body).size, ?_⟩
    rintro (_ | ⟨i, m, x, body⟩ | _) ht <;> cases ht
    rw [substituting_lam_untouched _ _ _ hu]
    exact (spec_clone (.lam i m x body)).map fun _ _ hn => ⟨hn, rfl⟩
  | case3 m x body fresh hu hx x' fresh' hf body' fresh'' hb ih =>
    obtain ⟨count, ih⟩ := ih
    refine ⟨body.size + (1 + (count + 1)), ?_⟩
    rintro (_ | ⟨i, m, x, body⟩ | _) ht <;> cases ht
    rw [substituting_lam_captured _ _ _ hu hx hf]
    have hrenamed : (body.rename x x').Spec body.size fun issued n =>
        n.NewIn issued ∧ n.term = body.term.rename x x' :=
      (spec_rename x x' body).and_of_forall (term_rename x x' body)
    refine hrenamed.bind fun issued renamed hr => ?_
    refine spec_new.bind fun issued' _ _ => (ih renamed hr.2).bind fun issued'' r hbody => .root fun i => ?_
    rw [hb] at hbody
    refine ⟨?_, hbody.2⟩
    exact ((hbody.1.lam i _ x').append_left issued').append_left issued
  | case4 m x body fresh hu hx body' fresh' hb ih =>
    obtain ⟨count, ih⟩ := ih
    refine ⟨count + 1, ?_⟩
    rintro (_ | ⟨i, m, x, body⟩ | _) ht <;> cases ht
    rw [substituting_lam _ _ _ hu hx]
    refine (ih body rfl).bind fun issued r hbody => .root fun i => ?_
    rw [hb] at hbody
    exact ⟨hbody.1.lam i _ x, hbody.2⟩
  | case5 m func arg fresh hu =>
    refine ⟨(Term.app m func arg).size, ?_⟩
    rintro (_ | _ | ⟨i, m, func, arg⟩) ht <;> cases ht
    rw [substituting_app_untouched _ _ _ hu]
    exact (spec_clone (.app i m func arg)).map fun _ _ hn => ⟨hn, rfl⟩
  | case6 m func arg fresh hu func' fresh' hf arg' fresh'' ha ihf iha =>
    obtain ⟨countf, ihf⟩ := ihf
    obtain ⟨counta, iha⟩ := iha
    refine ⟨countf + (counta + 1), ?_⟩
    rintro (_ | _ | ⟨i, m, func, arg⟩) ht <;> cases ht
    rw [substituting_app _ _ _ hu]
    refine (ihf func rfl).bind fun issued rf hfunc => ?_
    rw [hf] at hfunc
    obtain ⟨hfunc, rfl⟩ := hfunc
    refine (iha arg rfl).bind fun issued' ra harg => .root fun i => ?_
    rw [ha] at harg
    exact ⟨hfunc.app harg.1 i _, harg.2⟩

end Substitution

theorem exists_spec_substitute (n : Node) (name : String) (replacement : Node) (fresh : Freshener) :
    ∃ count, (n.substitute name replacement fresh).Spec count fun issued r => r.1.NewIn issued := by
  obtain ⟨count, h⟩ := exists_spec_substituting name replacement (replacement.term.freeNames []) n.term fresh
  exact ⟨count, (h n rfl).imp fun _ _ hn => hn.1⟩

/-! ### Reduction -/

theorem isSome_reduceStep (n : Node) (s : IdSupply) :
    (n.reduceStep s).1.2.isSome = n.term.reduceStep.changed := by
  obtain ⟨r, s', ⟨i, id, ht, -, hr⟩ | ⟨ht, hr⟩⟩ := n.reduceStep_cases s
  · rw [hr, Step.changed, ht]
    rfl
  · rw [hr, Step.changed, ht]
    rfl

theorem exists_spec_reduceStep (n : Node) :
    ∃ count, n.reduceStep.Spec count fun issued r => r.1.NewIn issued := by
  fun_induction reduceStep n with
  | case1 i m x => exact ⟨1, .root fun i => .var i _ x⟩
  | case2 i m x body ih =>
    obtain ⟨count, ih⟩ := ih
    refine ⟨count + 1, ih.bind fun issued r hbody => ?_⟩
    obtain ⟨body', redex | _⟩ := r
    · exact .root fun i => hbody.lam i _ x
    · exact .root fun i => hbody.lam i _ x
  | case3 i m arg j m' x body =>
    obtain ⟨count, hsub⟩ := body.exists_spec_substitute x arg {}
    exact ⟨count, hsub.map fun _ _ hr => hr⟩
  | case4 i m arg func hfunc ihf iha =>
    obtain ⟨countf, ihf⟩ := ihf
    obtain ⟨counta, iha⟩ := iha
    have hfound : func.reduceStep.Spec countf fun issued r =>
        r.1.NewIn issued ∧ r.2.isSome = func.term.reduceStep.changed :=
      ihf.and_of_forall func.isSome_reduceStep
    -- whether the argument is cloned or reduced is the same for every supply
    cases hchanged : func.term.reduceStep.changed with
    | true =>
      refine ⟨countf + (arg.size + 1), hfound.bind fun issued r hr => ?_⟩
      obtain ⟨func', redex | _⟩ := r
      · exact absurd (hr.2.trans hchanged) (by simp)
      · exact (spec_clone arg).bind fun _ _ harg => .root fun i => hr.1.app harg i _
    | false =>
      refine ⟨countf + (counta + 1), hfound.bind fun issued r hr => ?_⟩
      obtain ⟨func', redex | _⟩ := r
      · refine iha.bind fun issued' ra harg => ?_
        obtain ⟨arg', redex | _⟩ := ra
        · exact .root fun i => hr.1.app harg i _
        · exact .root fun i => hr.1.app harg i _
      · exact absurd (hr.2.trans hchanged) (by simp)

/-! ### Highlighting -/

theorem spec_highlight (target : Option Int) (isHead : Bool) (n : Node) :
    (n.highlight target isHead).Spec n.size fun issued n' => n'.NewIn issued := by
  induction n generalizing isHead with
  | var i m x => exact .root fun i => .var i _ x
  | lam i m x body ih => exact (ih false).bind fun _ _ hbody => .root fun i => hbody.lam i _ x
  | app i m func arg ihf iha =>
    rw [size, term, Term.size, Nat.add_assoc]
    exact (ihf _).bind fun _ _ hfunc => (iha false).bind fun _ _ harg => .root fun i => hfunc.app harg i _

theorem spec_markRedex (n : Node) : n.markRedex.Spec n.size fun issued r => r.1.NewIn issued :=
  (spec_highlight _ false n).map fun _ _ hn => hn

end LambdaStepper.Node
