import LambdaStepper.Proofs.Registry.Unreferenced
import LambdaStepper.Proofs.Syntax.Reading
import LambdaStepper.Proofs.Term.Bare
import LambdaStepper.Term.Print

/-! # Printing and parsing

A term that is printed without its tags spells a list of lexemes (`spells_printFrom`), and that list is
read as the term itself (`reads_lexemes`): the printer puts in parentheses just what has to be an atom.
So the text of a term whose names are writable parses to the term (`parse_print`). -/

namespace LambdaStepper

open Syntax

/-- Names as stored, and nothing but structure. -/
def PrintStyle.spelledOut : PrintStyle :=
  { numerals := false }

/-- The part of a sequence that a term printed in a context is. -/
def PrintContext.part : PrintContext → Part
  | .func | .arg => .atom
  | .body | .top => .sequence

namespace Term

/-- Lexemes put in parentheses where a term needs them. -/
def bracketed (t : Term) (context : PrintContext) (ls : List Lexeme) : List Lexeme :=
  if t.needsParentheses context then .opening :: ls ++ [.closing] else ls

/-- The lexemes of a term printed in a context. -/
def lexemes (context : PrintContext) : Term → List Lexeme
  | .var _ x => [.name x]
  | .lam m x body => (Term.lam m x body).bracketed context
      (.binder :: .name x :: .point :: body.lexemes .body)
  | .app m func arg => (Term.app m func arg).bracketed context
      (func.lexemes .func ++ arg.lexemes .arg)

/-! ### The text of a term -/

theorem spells_bracket {t : Term} {cs : List Char} {ls : List Lexeme} (h : Spells cs ls)
    (context : PrintContext) : Spells (bracket t context cs) (bracketed t context ls) := by
  unfold bracket bracketed
  split
  · intro rest ms hrest hms
    rw [List.cons_append, List.cons_append, List.append_assoc, List.append_assoc]
    exact .sign '(' .opening rfl (h _ _ rfl (.sign ')' .closing rfl hms))
  · exact h

/-- A printed term spells its lexemes. -/
theorem spells_printFrom {t : Term} (h : ∀ x ∈ t.allNames, isIdentifier x.toList = true)
    (counter : Nat) (context : PrintContext) :
    Spells (printFrom .spelledOut [] counter context t).1 (t.lexemes context) := by
  induction t generalizing counter context with
  | var m x =>
      intro rest ms hrest hms
      exact .name x (h x List.mem_cons_self) hrest hms
  | lam m x body ih =>
      refine spells_bracket ?_ context
      intro rest ms hrest hms
      have hbody := ih (fun y hy => h y (List.mem_cons_of_mem x hy)) counter .body rest ms hrest hms
      have hpoint := Spelled.sign '.' .point rfl hbody
      have hname := Spelled.name x (h x List.mem_cons_self) rfl hpoint
      simpa [PrintStyle.spelledOut] using Spelled.sign 'λ' .binder rfl hname
  | app m func arg ihf iha =>
      refine spells_bracket ?_ context
      intro rest ms hrest hms
      have harg := iha (fun y hy => h y (List.mem_append_right _ hy))
        (printFrom .spelledOut [] counter .func func).2 .arg rest ms hrest hms
      have hfunc := ihf (fun y hy => h y (List.mem_append_left _ hy)) counter .func _ _ rfl
        (Spelled.blank ' ' rfl harg)
      simpa using hfunc

theorem name_mem_bracketed {t : Term} {context : PrintContext} {ls : List Lexeme} {x : String}
    (h : .name x ∈ t.bracketed context ls) : .name x ∈ ls := by
  unfold bracketed at h
  split at h
  · simpa using h
  · exact h

theorem mem_allNames_of_mem_lexemes {t : Term} {context : PrintContext} {x : String}
    (h : .name x ∈ t.lexemes context) : x ∈ t.allNames := by
  induction t generalizing context with
  | var m y =>
      simp only [lexemes, List.mem_singleton, Lexeme.name.injEq] at h
      exact List.mem_singleton.mpr h
  | lam m y body ih =>
      have hx := name_mem_bracketed h
      simp only [List.mem_cons, reduceCtorEq, Lexeme.name.injEq, false_or] at hx
      exact List.mem_cons.mpr (hx.imp_right ih)
  | app m func arg ihf iha =>
      have hx := List.mem_append.mp (name_mem_bracketed h)
      exact List.mem_append.mpr (hx.imp ihf iha)

/-! ### The term of a text -/

theorem reads_bracketed {t u : Term} {ls : List Lexeme} {context : PrintContext}
    (ht : t.needsParentheses context = decide (context.part = .atom)) (h : Reads .sequence ls u) :
    Reads context.part (t.bracketed context ls) u := by
  unfold bracketed
  rw [ht]
  cases context with
  | func | arg => exact .group h
  | body | top => exact h

/-- The lexemes of a term are read as the term. -/
theorem reads_lexemes (t : Term) (context : PrintContext) :
    Reads context.part (t.lexemes context) t.bare := by
  induction t generalizing context with
  | var m x =>
      cases context with
      | func | arg => exact .name x
      | body | top => exact .atoms (.single (.name x))
  | lam m x body ih =>
      refine reads_bracketed ?_ (.abstraction x (ih .body))
      cases context <;> rfl
  | app m func arg ihf iha =>
      refine reads_bracketed ?_ (.atoms (.apply (.single (ihf .func)) (iha .arg)))
      cases context <;> rfl

end Term

/-! ### Parsing what was printed -/

theorem Registry.parse_of_spelled {r : Registry} {cs : List Char} {ls : List Lexeme} {t : Term}
    (h : Spelled cs ls) (hw : ∀ x, .name x ∈ ls → r.Writable x) (ht : Reads .sequence ls t) :
    r.parse .unlimited (String.ofList cs) = .ok t := by
  have htrim := trim_ne_nil_of_spelled h (ne_nil_of_derives (derives_of_reads ht))
  obtain ⟨tokens, htokens, rfl⟩ := tokenize_of_spelled h fun x hx => (hw x hx).no_binder
  unfold Registry.parse
  rw [String.toList_ofList, if_neg (by simpa using htrim)]
  simp only [r.expandWithin_of_spelled true h hw, htokens, parseTokens_of_reads ht]

namespace Term

/-- A printed term whose names are writable parses to the term itself. -/
theorem parse_print (r : Registry) (t : Term) (context : PrintContext)
    (h : ∀ x ∈ t.allNames, r.Writable x) :
    r.parse .unlimited (t.print .spelledOut context) = .ok t.bare := by
  have hspells := spells_printFrom (fun x hx => (h x hx).identifier) 0 context [] [] rfl .nil
  rw [List.append_nil, List.append_nil] at hspells
  refine Registry.parse_of_spelled hspells ?_ (reads_sequence (reads_lexemes t context))
  exact fun x hx => h x (mem_allNames_of_mem_lexemes hx)

/-- Binders that shadow one another, an application as an argument and a tag that is not printed. -/
theorem parse_print_shadowed :
    let func : Term :=
      .lam ⟨some "_ID", false⟩ "x" (.lam {} "x" (.app {} (.var {} "x") (.var {} "_y'")))
    let arg : Term := .app ⟨some "_2", true⟩ (.var {} "f") (.lam {} "f" (.var {} "f"))
    let t : Term := .app {} func arg
    (∀ x ∈ t.allNames, Registry.initial.Writable x) ∧
      Registry.initial.parse .unlimited (t.print .spelledOut .arg) = .ok t.bare := by
  intro func arg t
  have h : ∀ x ∈ t.allNames, Registry.initial.Writable x := by decide +kernel
  exact ⟨h, parse_print .initial t .arg h⟩

end Term
end LambdaStepper
