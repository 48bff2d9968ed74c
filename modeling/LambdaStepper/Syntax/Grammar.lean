import LambdaStepper.Syntax.Parser

/-! # The grammar of terms

The grammar as rules on lists of lexemes, apart from any parser.  `Derives` is the grammar as it
stands, under which some lists have more than one tree.  `Reads` picks the tree that is meant:
sequences associate to the left, and since only the last term of a sequence may be an abstraction
without parentheses, its body reaches as far as it can.

`derives_of_reads` says that the tree that is meant is one of the grammar's. -/

namespace LambdaStepper.Syntax

/-- What a list of lexemes may be derived from. -/
inductive Category where
  | term
  | sequence
  deriving DecidableEq, Repr

/-- The lists of lexemes that the grammar derives, leaving tags apart. -/
inductive Derives : Category → List Lexeme → Prop where
  | name (x : String) : Derives .term [.name x]
  | group {ls : List Lexeme} (h : Derives .sequence ls) :
      Derives .term (.opening :: ls ++ [.closing])
  | abstraction (x : String) {ls : List Lexeme} (h : Derives .sequence ls) :
      Derives .term (.binder :: .name x :: .point :: ls)
  | single {ls : List Lexeme} (h : Derives .term ls) : Derives .sequence ls
  | more {ls ms : List Lexeme} (h : Derives .term ls) (h' : Derives .sequence ms) :
      Derives .sequence (ls ++ ms)

/-- The parts of a sequence as it is read. -/
inductive Part where
  /-- A name or a term in parentheses. -/
  | atom
  /-- Atoms one after the other. -/
  | atoms
  /-- Atoms, with an abstraction at the end or without, or an abstraction alone. -/
  | sequence
  deriving DecidableEq, Repr

/-- The term as which a list of lexemes is read. -/
inductive Reads : Part → List Lexeme → Term → Prop where
  | name (x : String) : Reads .atom [.name x] (.var {} x)
  | group {ls : List Lexeme} {t : Term} (h : Reads .sequence ls t) :
      Reads .atom (.opening :: ls ++ [.closing]) t
  | single {ls : List Lexeme} {t : Term} (h : Reads .atom ls t) : Reads .atoms ls t
  | apply {ls ms : List Lexeme} {t u : Term} (h : Reads .atoms ls t) (h' : Reads .atom ms u) :
      Reads .atoms (ls ++ ms) (.app {} t u)
  | atoms {ls : List Lexeme} {t : Term} (h : Reads .atoms ls t) : Reads .sequence ls t
  | abstraction (x : String) {ls : List Lexeme} {t : Term} (h : Reads .sequence ls t) :
      Reads .sequence (.binder :: .name x :: .point :: ls) (.lam {} x t)
  | applyLast (x : String) {ls ms : List Lexeme} {t u : Term} (h : Reads .atoms ls t)
      (h' : Reads .sequence ms u) :
      Reads .sequence (ls ++ .binder :: .name x :: .point :: ms) (.app {} t (.lam {} x u))

/-- What a part of a sequence is derived from. -/
def Part.category : Part → Category
  | .atom => .term
  | .atoms | .sequence => .sequence

theorem derives_append {ls ms : List Lexeme} (h : Derives .sequence ls)
    (h' : Derives .sequence ms) : Derives .sequence (ls ++ ms) := by
  generalize hc : Category.sequence = c at h
  induction h with
  | name => cases hc
  | group => cases hc
  | abstraction => cases hc
  | single h => exact .more h h'
  | more h _ _ ih => rw [List.append_assoc]; exact .more h (ih hc)

theorem derives_of_reads {part : Part} {ls : List Lexeme} {t : Term} (h : Reads part ls t) :
    Derives part.category ls := by
  induction h with
  | name x => exact .name x
  | group _ ih => exact .group ih
  | single _ ih => exact .single ih
  | apply _ _ ih ih' => exact derives_append ih (.single ih')
  | atoms _ ih => exact ih
  | abstraction x _ ih => exact .single (.abstraction x ih)
  | applyLast x _ _ ih ih' => exact derives_append ih (.single (.abstraction x ih'))

theorem ne_nil_of_derives {c : Category} {ls : List Lexeme} (h : Derives c ls) : ls ≠ [] := by
  induction h with
  | name | group | abstraction => simp
  | single _ ih => exact ih
  | more _ _ ih _ => simp [ih]

end LambdaStepper.Syntax
