import LambdaStepper.Numeral
import LambdaStepper.Proofs.Reduction.Tags

/-! # Numeral tags tell the truth

A node whose tag names a numeral is that numeral (`NumeralsHold`): the tag states how often the first
argument is applied.  Reduction keeps it that way (`numeralsHold_reduceStep`), for a numeral is closed, so
that no renaming changes it (`lasting_namesNumeral`). -/

namespace LambdaStepper

/-- The label of a numeral reference: decimal digits of any script. -/
def Numeral.IsLabel (label : List Char) : Prop :=
  label ≠ [] ∧ ∀ c ∈ label, Text.isDecimalDigit c = true

namespace Term

theorem bare_chain (f x : String) (n : Nat) : (Numeral.chain f x n).bare = Numeral.chain f x n := by
  induction n with
  | zero => rfl
  | succ n ih => rw [Numeral.chain, bare, bare, ih]

/-- If the tag of the root names a numeral, the term is that numeral. -/
def TagHolds (t : Term) : Prop :=
  Numeral.isTag t.tag = true → ∃ label, Numeral.IsLabel label ∧
    t.tag = some (String.ofList ('_' :: label)) ∧
    t.bare = (Numeral.term (Text.digitsValue label)).bare

/-- Every node whose tag names a numeral is that numeral. -/
def NumeralsHold (t : Term) : Prop :=
  ∀ s ∈ t.nodes, s.TagHolds

variable {m : Mark} {x : String} {t func arg body : Term}

theorem tagHolds_of_isTag_eq_false (h : Numeral.isTag t.tag = false) : t.TagHolds := by
  intro htag
  rw [h] at htag
  cases htag

theorem numeralsHold_var : (var m x).NumeralsHold ↔ (var m x).TagHolds := by
  simp [NumeralsHold, nodes]

theorem numeralsHold_lam :
    (lam m x body).NumeralsHold ↔ (lam m x body).TagHolds ∧ body.NumeralsHold := by
  simp [NumeralsHold, nodes]

theorem numeralsHold_app :
    (app m func arg).NumeralsHold ↔
      (app m func arg).TagHolds ∧ func.NumeralsHold ∧ arg.NumeralsHold := by
  simp [NumeralsHold, nodes, or_imp, forall_and]

theorem NumeralsHold.setMark (h : t.NumeralsHold) (htag : (t.setMark m).TagHolds) :
    (t.setMark m).NumeralsHold := by
  cases t with
  | var => exact numeralsHold_var.mpr htag
  | lam => exact numeralsHold_lam.mpr ⟨htag, (numeralsHold_lam.mp h).2⟩
  | app => exact numeralsHold_app.mpr ⟨htag, (numeralsHold_app.mp h).2⟩

theorem NumeralsHold.tagHolds (h : t.NumeralsHold) : t.TagHolds := by
  apply h
  cases t <;> exact List.mem_cons_self

/-! ### Reduction -/

theorem freeNames_chain (n : Nat) : (Numeral.chain "f" "x" n).freeNames ["x", "f"] = [] := by
  induction n with
  | zero => rfl
  | succ n ih => simp [Numeral.chain, freeNames, ih]

theorem allNames_chain_subset (n : Nat) : (Numeral.chain "f" "x" n).allNames ⊆ ["f", "x"] := by
  induction n with
  | zero => decide
  | succ n ih =>
      have hf : ["f"] ⊆ ["f", "x"] := by decide
      exact List.append_subset.mpr ⟨hf, ih⟩

theorem allNames_numeral_subset (n : Nat) : (Numeral.term n).allNames ⊆ ["f", "x"] := by
  have hbinders : ["f", "x"] ⊆ ["f", "x"] := List.Subset.refl _
  exact List.append_subset.mpr ⟨hbinders, allNames_chain_subset n⟩

theorem freeNames_numeral (n : Nat) : (Numeral.term n).freeNames [] = [] :=
  freeNames_chain n

/-- What a tag that names a numeral states of a term without marks. -/
def NamesNumeral (tag : Option String) (t : Term) : Prop :=
  Numeral.isTag tag = true → ∃ label, Numeral.IsLabel label ∧
    tag = some (String.ofList ('_' :: label)) ∧ t = (Numeral.term (Text.digitsValue label)).bare

theorem numeralsHold_iff : t.NumeralsHold ↔ t.TagsHold NamesNumeral :=
  Iff.rfl

theorem lasting_namesNumeral : Lasting NamesNumeral where
  untagged _ h := by cases h
  rename := by
    intro tag t x n h _ htag
    obtain ⟨label, hlabel, hname, rfl⟩ := h htag
    have hclosed : x ∉ (Numeral.term (Text.digitsValue label)).bare.freeNames [] := by
      rw [freeNames_bare, freeNames_numeral]
      exact List.not_mem_nil
    exact ⟨label, hlabel, hname, rename_eq_self hclosed⟩

theorem numeralsHold_bare (t : Term) : t.bare.NumeralsHold :=
  tagsHold_bare lasting_namesNumeral t

/-- A step keeps numeral tags true. -/
theorem numeralsHold_reduceStep (h : t.NumeralsHold) : t.reduceStep.result.NumeralsHold :=
  tagsHold_reduceStep lasting_namesNumeral h

end Term
end LambdaStepper
