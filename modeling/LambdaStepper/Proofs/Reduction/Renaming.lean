import LambdaStepper.Proofs.Term.Bare
import LambdaStepper.Proofs.Term.Scope

/-! # Renaming is safe

Renaming a name to one that does not occur in a term does on the nameless form what its name says
(`nameless_rename`), and changes nothing else: binders, marks and shape stay (`frame_rename`), and renaming back
gives the term again (`rename_rename_cancel`).  So an abstraction may have its parameter renamed along with
the occurrences of it (`alphaEquiv_alphaConvert`).  `rename_is_safe` says all of this of a term.

Renaming back stops at the binders of the new name, of which there are none, and goes on below those of the old
one, where renaming has stopped; but there the new name does not occur. -/

namespace LambdaStepper.Term

variable {old new : String} {t : Term}

/-- A term with the names of its variables left out: its shape, its binders and its marks. -/
def frame : Term → Term
  | .var m _ => .var m ""
  | .lam m x body => .lam m x body.frame
  | .app m func arg => .app m func.frame arg.frame

/-- Renaming keeps the shape, the binders and the marks, wherever the names occur. -/
theorem frame_rename (old new : String) (t : Term) : (t.rename old new).frame = t.frame := by
  induction t with
  | var m x => rfl
  | lam m x body ih =>
      simp only [rename]
      split
      · rfl
      · exact congrArg (lam m x) ih
  | app m func arg ihf iha => simp only [rename, frame, ihf, iha]

/-- A renamed name that does not occur in the term may be renamed back. -/
theorem rename_rename_cancel (hnew : new ∉ t.allNames) : (t.rename old new).rename new old = t := by
  induction t with
  | var m x =>
      have hx : x ≠ new := by
        rintro rfl
        exact hnew (List.mem_singleton_self x)
      by_cases hold : x = old
      · simp only [rename, hold, if_true]
      · simp only [rename, hold, hx, if_false]
  | lam m x body ih =>
      simp only [allNames, List.mem_cons, not_or] at hnew
      obtain ⟨hx, hbody⟩ := hnew
      by_cases hold : x = old
      · -- nothing was renamed below this binder, and nothing is found there to be renamed back
        have hfree : new ∉ (lam m x body).freeNames [] := by
          intro h
          rcases List.mem_cons.mp (allNames_of_mem_freeNames h) with h | h
          · exact hx h
          · exact hbody h
        have hstop : (lam m x body).rename old new = lam m x body := by
          rw [rename, if_pos hold]
        rw [hstop, rename_eq_self hfree]
      · rw [rename, if_neg hold, rename, if_neg (Ne.symm hx), ih hbody]
  | app m func arg ihf iha =>
      simp only [allNames, List.mem_append, not_or] at hnew
      rw [rename, rename, ihf hnew.1, iha hnew.2]

/-- An abstraction may get any parameter that does not occur in its body. -/
theorem alphaEquiv_alphaConvert (hnew : new ∉ t.allNames) (m : Mark) (x : String) :
    ((lam m x t).alphaConvert new).AlphaEquiv (lam m x t) :=
  congrArg Nameless.lam (namelessIn_rename_cons hnew [])

/-- **Renaming is safe.**  Let a name not occur in a term.  Renaming another one to it replaces just the free
occurrences of that one: in the nameless form the new name stands in its place, binders, marks and shape stay
as they are, and renaming back gives the very term.  The parameter of an abstraction of the term, whatever it
is, may be renamed to it, too, and what comes out is alpha-equivalent. -/
theorem rename_is_safe (old : String) (hnew : new ∉ t.allNames) :
    (t.rename old new).nameless = Nameless.replaceFree old (.free new) t.nameless
      ∧ (t.rename old new).frame = t.frame
      ∧ (t.rename old new).rename new old = t
      ∧ ∀ m x, (∃ body, (lam m x t).alphaConvert new = lam m new body) ∧
          ((lam m x t).alphaConvert new).AlphaEquiv (lam m x t) := by
  refine ⟨nameless_rename hnew, frame_rename old new t, rename_rename_cancel hnew, ?_⟩
  intro m x
  exact ⟨⟨_, rfl⟩, alphaEquiv_alphaConvert hnew m x⟩

/-- A name that is free at one place and bound at two others, under a binder of itself and under that one under
another binder. -/
theorem rename_is_safe_shadowed :
    let t : Term := .app ⟨some "_T", true⟩ (.lam {} "y" (.app {} (.var {} "x")
      (.lam ⟨some "_ID", false⟩ "x" (.app {} (.var {} "x") (.var {} "y"))))) (.lam {} "x" (.var {} "x"))
    let renamed : Term := .app ⟨some "_T", true⟩ (.lam {} "y" (.app {} (.var {} "z")
      (.lam ⟨some "_ID", false⟩ "x" (.app {} (.var {} "x") (.var {} "y"))))) (.lam {} "x" (.var {} "x"))
    "z" ∉ t.allNames ∧ t.rename "x" "z" = renamed ∧
      renamed.nameless = Nameless.replaceFree "x" (.free "z") t.nameless ∧ renamed.rename "z" "x" = t ∧
      (lam {} "z" renamed).AlphaEquiv (lam {} "x" t) := by
  intro t renamed
  have hnew : "z" ∉ t.allNames := by decide
  have hrenamed : t.rename "x" "z" = renamed := by decide
  obtain ⟨hnameless, -, hback, hconvert⟩ := rename_is_safe "x" hnew
  have hconverted : (lam {} "x" t).alphaConvert "z" = lam {} "z" renamed := congrArg (lam {} "z") hrenamed
  rw [hrenamed] at hnameless hback
  exact ⟨hnew, hrenamed, hnameless, hback, hconverted ▸ (hconvert {} "x").2⟩

end LambdaStepper.Term
