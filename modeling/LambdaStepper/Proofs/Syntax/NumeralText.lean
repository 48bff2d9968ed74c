import LambdaStepper.Proofs.Syntax.RoundTrip

/-! # Numerals in a text

The text that is put in the place of a numeral reference spells the lexemes of the numeral as a term
(`spells_syntaxText`), of which `reads_lexemes` says that they are read as that term. -/

namespace LambdaStepper

open Syntax Term

namespace Numeral

theorem spells_syntaxBody (n : Nat) :
    Spells (syntaxBody n) ((chain "f" "x" n).lexemes .body) := by
  match n with
  | 0 =>
      intro rest ms hrest hms
      exact .name "x" (by decide) hrest hms
  | 1 =>
      intro rest ms hrest hms
      exact .name "f" (by decide) rfl (.blank ' ' rfl (.name "x" (by decide) hrest hms))
  | n + 2 =>
      intro rest ms hrest hms
      have hinner := spells_syntaxBody (n + 1) (')' :: rest) _ rfl (.sign ')' .closing rfl hms)
      have hopened := Spelled.blank ' ' rfl (.sign '(' .opening rfl hinner)
      have hname := Spelled.name "f" (by decide) rfl hopened
      rw [syntaxBody_succ_succ]
      simpa [chain, lexemes, bracketed, needsParentheses] using hname

theorem spells_syntaxText (n : Nat) : Spells (syntaxText n) ((term n).lexemes .top) := by
  intro rest ms hrest hms
  have hbody := Spelled.blank ' ' rfl (spells_syntaxBody n rest ms hrest hms)
  have hx := Spelled.name "x" (by decide) rfl (Spelled.sign '.' .point rfl hbody)
  have hinner := Spelled.sign 'λ' .binder rfl hx
  have hf := Spelled.name "f" (by decide) rfl (Spelled.sign '.' .point rfl hinner)
  exact Spelled.sign 'λ' .binder rfl hf

theorem spelled_syntaxText (n : Nat) : Spelled (syntaxText n) ((term n).lexemes .top) := by
  simpa using spells_syntaxText n [] [] rfl .nil

/-- The characters that numerals are written with. -/
def alphabet : List Char :=
  ['λ', '.', 'f', 'x', ' ', '(', ')']

theorem syntaxBody_subset_alphabet (n : Nat) : syntaxBody n ⊆ alphabet := by
  match n with
  | 0 | 1 => decide
  | n + 2 =>
      rw [syntaxBody_succ_succ]
      have hopen : ['f', ' ', '('] ⊆ alphabet := by decide
      have hclose : [')'] ⊆ alphabet := by decide
      exact List.append_subset.mpr
        ⟨List.append_subset.mpr ⟨hopen, syntaxBody_subset_alphabet (n + 1)⟩, hclose⟩

theorem syntaxText_subset_alphabet (n : Nat) : syntaxText n ⊆ alphabet := by
  have hhead : ['λ', 'f', '.', 'λ', 'x', '.', ' '] ⊆ alphabet := by decide
  exact List.append_subset.mpr ⟨hhead, syntaxBody_subset_alphabet n⟩

end Numeral
end LambdaStepper
