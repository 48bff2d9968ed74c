import LambdaStepper.Proofs.Prettify.Meaning
import LambdaStepper.Proofs.Registry.Meaning

/-! # Numerals as text and as terms

A numeral can be referred to by its name, written out, or built as a term.  All three are the same numeral
(`parse_numeral`): the first pass puts the written numeral in the place of its name and no pass changes it
further (`expandPasses_numeral`), and the written numeral spells the lexemes of the term
(`Numeral.readsMarked_numeralLexemes`). -/

namespace LambdaStepper

open Syntax

namespace Numeral

theorem bare_term (n : Nat) : (term n).bare = (term n).setTag none := by
  simp only [term, Term.bare, Term.bare_chain]
  rfl

theorem toList_name (n : Nat) : (name n).toList = '_' :: (toString n).toList := by
  rw [name, String.toList_append]
  rfl

theorem writable_of_mem_lexemes (r : Registry) {n : Nat} {x : String}
    (hx : .name x ∈ (term n).lexemes .top) : r.Writable x := by
  have hwritable : ∀ y ∈ ["f", "x"], isIdentifier y.toList = true ∧ 'L' ∉ y.toList ∧
      isNumeralName y.toList = false ∧ y.toList.head? ≠ some '_' := by decide
  obtain ⟨hid, hbinder, hnumeral, hhead⟩ :=
    hwritable x (Term.allNames_numeral_subset n (Term.mem_allNames_of_mem_lexemes hx))
  refine ⟨hid, hbinder, hnumeral, ?_⟩
  rintro entry - rfl
  rw [String.toList_append] at hhead
  exact hhead rfl

theorem exists_tokenize_block {label : List Char} (h : IsLabel label) :
    ∃ tokens, tokenize (block label) = .ok tokens ∧ tokens.map Token.lexeme = numeralLexemes label := by
  obtain ⟨tokens, hlexemes, htokens⟩ := tokensFrom_block h [] 0
  have hunified := unifyFrom_block h []
  rw [List.append_nil] at hunified htokens
  refine ⟨tokens, ?_, hlexemes⟩
  rw [tokenize_eq_ok_iff, hunified]
  simpa [unifyFrom, tokensFrom, Except.map] using htokens

/-- The written numeral behind its tag is read as the numeral. -/
theorem readsMarked_numeralLexemes (n : Nat) :
    ReadsMarked .sequence (numeralLexemes (toString n).toList) (term n) := by
  have hname : String.ofList ('_' :: (toString n).toList) = name n := by
    rw [← toList_name, String.ofList_toList]
  have htagged : tagged (some (name n)) (term n).bare = term n := by
    rw [← hname, Term.tagged_reference, hname, bare_term]
    rfl
  have hread := (Term.reads_lexemes (term n) .top).marked
  have hgroup := ReadsMarked.atoms (.single (.group (some (name n)) hread))
  rw [htagged] at hgroup
  rw [numeralLexemes, Text.digitsValue_toString, hname]
  simpa [markLexemes] using hgroup

end Numeral

namespace Registry

variable (r : Registry) {label : List Char}

theorem expandOnce_numeral (h : Numeral.IsLabel label) : r.expandOnce true ('_' :: label) = Numeral.block label := by
  have hlabel : numeralLabel? (label ++ []) = some label.length := numeralLabel?_append h rfl
  have hfound : referenceLabel? r.names (label ++ []) = some label.length := by
    rw [referenceLabel?, hlabel]
  have hscan : segments (referenceLabel? r.names) ('_' :: (label ++ [])) = [.reference label] :=
    segmentsFrom_label rfl hfound
  rw [List.append_nil] at hscan
  rw [expandOnce_eq, hscan, List.flatMap_singleton, fill, r.content_of_isLabel h, Numeral.block]

theorem expandPasses_syntaxText (passes n : Nat) :
    r.expandPasses true passes (Numeral.syntaxText n) = Numeral.syntaxText n := by
  have hfixed := r.expandOnce_of_spelled true (Numeral.spelled_syntaxText n)
    fun _ => Numeral.writable_of_mem_lexemes r
  rw [expandPasses_eq_iterate, Function.iterate_fixed hfixed]

/-- A reference to a numeral expands to the written numeral, behind its tag. -/
theorem expandPasses_numeral (h : Numeral.IsLabel label) (passes : Nat) :
    r.expandPasses true (passes + 1) ('_' :: label) = Numeral.block label := by
  rw [expandPasses_eq_iterate, Function.iterate_succ_apply, r.expandOnce_numeral h, ← expandPasses_eq_iterate,
    Numeral.block, r.expandPasses_wrap h.inert, r.expandPasses_syntaxText]

/-- **Numerals are the same as text and as terms.**  Whatever is in a registry, the name of a numeral is read as
the numeral, with that name as its tag, and the written numeral is read as the numeral without a tag. -/
theorem parse_numeral (n : Nat) :
    r.parse .unlimited (Numeral.name n) = .ok (Numeral.term n) ∧
      r.parse .unlimited (String.ofList (Numeral.syntaxText n)) = .ok ((Numeral.term n).setTag none) := by
  have hname := Numeral.toList_name n
  have hlabel := Numeral.isLabel_toString n
  constructor
  · have hexpand : r.expand true (Numeral.name n).toList = Numeral.block (toString n).toList := by
      rw [hname]
      exact r.expandPasses_numeral hlabel (maxPasses - 1)
    obtain ⟨tokens, htokens, hlexemes⟩ := Numeral.exists_tokenize_block hlabel
    refine parse_of_readsMarked ?_ (by rw [hexpand]; exact htokens) ?_
    · intro htrim
      have hblank := isBlank_of_trim_eq_nil htrim '_' (by rw [hname]; exact List.mem_cons_self)
      cases hblank
    · rw [hlexemes]
      exact Numeral.readsMarked_numeralLexemes n
  · rw [← Numeral.bare_term]
    exact parse_of_spelled (Numeral.spelled_syntaxText n) (fun _ => Numeral.writable_of_mem_lexemes r)
      (Term.reads_lexemes (Numeral.term n) .top)

end Registry
end LambdaStepper
