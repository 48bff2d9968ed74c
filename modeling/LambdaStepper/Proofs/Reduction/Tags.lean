import LambdaStepper.Proofs.Reduction.Freshness
import LambdaStepper.Proofs.Reduction.NormalOrder
import LambdaStepper.Proofs.Term.Bare

/-! # What tags say

A tag says something of the node that it stands at: that the node is a numeral, or the term of a definition.
What it says is a matter of the tag and of the structure and the names of the node, so it is a relation
between tags and terms without marks, and it is to hold at every node (`TagsHold`).

Reduction keeps it if it survives the renaming of a free name to a fresh one, for that is all that can happen
to a node that keeps its tag (`Lasting`, `tagsHold_reduceStep`).  All other nodes that are rebuilt lose their
tags, and highlights have no part in it (`tagsHold_unlit`). -/

namespace LambdaStepper.Term

/-- Whether what its tag says holds of every node of a term. -/
def TagsHold (P : Option String → Term → Prop) (t : Term) : Prop :=
  ∀ s ∈ t.nodes, P s.tag s.bare

/-- What tags can say of a node so that it stays true: nothing where there is no tag, and nothing that the
renaming of a free name to one that does not occur could change. -/
structure Lasting (P : Option String → Term → Prop) : Prop where
  untagged : ∀ t, P none t
  rename : ∀ {tag : Option String} {t : Term} {x : String} {n : Nat},
    P tag t → Freshener.candidate x n ∉ t.allNames → P tag (t.rename x (Freshener.candidate x n))

variable {P : Option String → Term → Prop} {m : Mark} {x : String} {t func arg body : Term}

theorem tagsHold_var : (var m x).TagsHold P ↔ P m.tag (var {} x) := by
  simp [TagsHold, nodes, tag, mark, bare]

theorem tagsHold_lam :
    (lam m x body).TagsHold P ↔ P m.tag (lam {} x body.bare) ∧ body.TagsHold P := by
  simp [TagsHold, nodes, tag, mark, bare]

theorem tagsHold_app :
    (app m func arg).TagsHold P ↔
      P m.tag (app {} func.bare arg.bare) ∧ func.TagsHold P ∧ arg.TagsHold P := by
  simp [TagsHold, nodes, tag, mark, bare, or_imp, forall_and]

theorem TagsHold.root (h : t.TagsHold P) : P t.tag t.bare := by
  apply h
  cases t <;> exact List.mem_cons_self

theorem TagsHold.setMark (h : t.TagsHold P) (hroot : P m.tag t.bare) : (t.setMark m).TagsHold P := by
  cases t with
  | var => exact tagsHold_var.mpr hroot
  | lam => exact tagsHold_lam.mpr ⟨hroot, (tagsHold_lam.mp h).2⟩
  | app => exact tagsHold_app.mpr ⟨hroot, (tagsHold_app.mp h).2⟩

@[simp] theorem bare_unlit (t : Term) : t.unlit.bare = t.bare := by
  induction t with
  | var => rfl
  | lam _ x _ ih => exact congrArg (lam {} x) ih
  | app _ _ _ ihf iha => simp only [unlit, bare, ihf, iha]

/-- Highlights have no part in what tags say. -/
theorem tagsHold_unlit : t.unlit.TagsHold P ↔ t.TagsHold P := by
  induction t with
  | var =>
      rw [unlit, tagsHold_var, tagsHold_var]
      exact Iff.rfl
  | lam m x body ih =>
      rw [unlit, tagsHold_lam, tagsHold_lam, ih, bare_unlit]
      exact Iff.rfl
  | app m func arg ihf iha =>
      rw [unlit, tagsHold_app, tagsHold_app, ihf, iha, bare_unlit, bare_unlit]
      exact Iff.rfl

@[simp] theorem bare_rename (old new : String) (t : Term) :
    (t.rename old new).bare = t.bare.rename old new := by
  induction t with
  | var => rfl
  | lam m x body ih =>
      simp only [Term.rename, bare]
      split
      · rfl
      · rw [bare, ih]
  | app m func arg ihf iha => simp only [Term.rename, bare, ihf, iha]

section Lasting

variable (hP : Lasting P)
include hP

theorem tagsHold_bare (t : Term) : t.bare.TagsHold P := by
  induction t with
  | var => exact tagsHold_var.mpr (hP.untagged _)
  | lam _ _ _ ih => exact tagsHold_lam.mpr ⟨hP.untagged _, ih⟩
  | app _ _ _ ihf iha => exact tagsHold_app.mpr ⟨hP.untagged _, ihf, iha⟩

/-! ### Renaming and substitution -/

theorem TagsHold.root_rename {n : Nat} (h : t.TagsHold P) (hfresh : Freshener.candidate x n ∉ t.allNames) :
    P t.tag (t.rename x (Freshener.candidate x n)).bare := by
  rw [← allNames_bare] at hfresh
  rw [bare_rename]
  exact hP.rename h.root hfresh

theorem TagsHold.rename {n : Nat} (h : t.TagsHold P) (hfresh : Freshener.candidate x n ∉ t.allNames) :
    (t.rename x (Freshener.candidate x n)).TagsHold P := by
  induction t with
  | var m y => exact tagsHold_var.mpr (h.root_rename hP hfresh)
  | lam m y body ih =>
      have hroot := h.root_rename hP hfresh
      have hbody := ih (tagsHold_lam.mp h).2 fun hmem => hfresh (List.mem_cons_of_mem y hmem)
      simp only [Term.rename] at hroot ⊢
      split
      · exact h
      · next hy =>
        rw [if_neg hy] at hroot
        exact tagsHold_lam.mpr ⟨hroot, hbody⟩
  | app m func arg ihf iha =>
      obtain ⟨-, hfunc, harg⟩ := tagsHold_app.mp h
      have hfunc' := ihf hfunc fun hmem => hfresh (List.mem_append_left _ hmem)
      have harg' := iha harg fun hmem => hfresh (List.mem_append_right _ hmem)
      exact tagsHold_app.mpr ⟨h.root_rename hP hfresh, hfunc', harg'⟩

/-- What is rebuilt has no tag that could say anything. -/
theorem tagsHold_substituteFrom {name : String} {replacement : Term} {captured : List String}
    (hreplacement : replacement.TagsHold P) (h : t.TagsHold P) (fresh : Freshener) :
    (substituteFrom name replacement captured t fresh).1.TagsHold P := by
  fun_induction substituteFrom name replacement captured t fresh with
  | case1 m x fresh =>
      dsimp only
      split
      · exact hreplacement
      · exact h
  | case2 | case5 => exact h
  | case3 m x body fresh _ _ x' fresh' hfresh body' fresh'' hbody ih =>
      have hnew : x' ∉ body.allNames := by
        have hnot := (fresh.fresh_notMem x (body.allNames ++ captured ++ [name])).1
        rw [hfresh, List.append_assoc] at hnot
        exact fun hmem => hnot (List.mem_append_left _ hmem)
      obtain ⟨n, rfl⟩ : ∃ n, x' = Freshener.candidate x n := ⟨_, (congrArg Prod.fst hfresh).symm⟩
      rw [hbody] at ih
      have hinner := ih ((tagsHold_lam.mp h).2.rename hP hnew)
      exact tagsHold_lam.mpr ⟨hP.untagged _, hinner⟩
  | case4 m x body fresh _ _ body' fresh' hbody ih =>
      rw [hbody] at ih
      exact tagsHold_lam.mpr ⟨hP.untagged _, ih (tagsHold_lam.mp h).2⟩
  | case6 m func arg fresh _ func' fresh' hfunc arg' fresh'' harg ihf iha =>
      rw [hfunc] at ihf
      rw [harg] at iha
      obtain ⟨-, hf, ha⟩ := tagsHold_app.mp h
      exact tagsHold_app.mpr ⟨hP.untagged _, ihf hf, iha ha⟩

/-! ### Steps -/

/-- A step keeps what tags say. -/
theorem tagsHold_reduceStep (h : t.TagsHold P) : t.reduceStep.result.TagsHold P := by
  fun_induction reduceStep t with
  | case1 m x => exact tagsHold_unlit.mpr h
  | case2 m x body body' i hb ih =>
      rw [hb] at ih
      exact tagsHold_lam.mpr ⟨hP.untagged _, ih (tagsHold_lam.mp h).2⟩
  | case3 m x body body' hb ih =>
      rw [eq_unlit_of_reduceStep hb]
      exact tagsHold_unlit.mpr h
  | case4 m arg m' x body =>
      obtain ⟨-, hfunc, harg⟩ := tagsHold_app.mp h
      exact tagsHold_substituteFrom hP harg (tagsHold_lam.mp hfunc).2 {}
  | case5 m arg func hfunc func' i hf ih =>
      obtain ⟨-, hfunc, harg⟩ := tagsHold_app.mp h
      rw [hf] at ih
      exact tagsHold_app.mpr ⟨hP.untagged _, ih hfunc, harg⟩
  | case6 m arg func hfunc func' hf arg' i ha ihf iha =>
      obtain ⟨-, hfunc, harg⟩ := tagsHold_app.mp h
      rw [hf] at ihf
      rw [ha] at iha
      exact tagsHold_app.mpr ⟨hP.untagged _, ihf hfunc, iha harg⟩
  | case7 m arg func hfunc func' hf arg' ha ihf iha =>
      rw [eq_unlit_of_reduceStep hf, eq_unlit_of_reduceStep ha]
      exact tagsHold_unlit.mpr h

end Lasting

end LambdaStepper.Term
