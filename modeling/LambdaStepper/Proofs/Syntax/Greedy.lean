import LambdaStepper.Proofs.Syntax.Reading
import Mathlib.Data.List.Forall2

/-! # Which tree of the grammar is meant

The grammar does not say where the body of an abstraction ends, so a list of lexemes may have several
trees.  `Parses` lists them, each with its term, sequences associating to the left, and with the lengths of
the bodies of its abstractions.  No body reaches beyond the parenthesis that closes around it or the end
(`reach`, `le_reaches_of_parses`).

The tree that is meant has the longest bodies: `Reads` is the tree in which every body reaches as far as
that (`parses_of_reads`, `reads_of_parses`), so it is the one tree no body of which is longer in another
(`reads_iff_longest_bodies`), and every list that the grammar derives has it (`exists_reads_of_derives`).
The parser finds it, and fails with a report on every other list (`parseTokens_accepts_grammar`). -/

namespace LambdaStepper.Syntax

/-- The trees of the grammar: the term that a list of lexemes stands for when it is derived in some way, and
the lengths of the bodies of the abstractions, in the order of their binders. -/
inductive Parses : Category → List Lexeme → Term → List Nat → Prop where
  | name (x : String) : Parses .term [.name x] (.var {} x) []
  | group {ls : List Lexeme} {t : Term} {bodies : List Nat} (h : Parses .sequence ls t bodies) :
      Parses .term (.opening :: ls ++ [.closing]) t bodies
  | abstraction (x : String) {ls : List Lexeme} {t : Term} {bodies : List Nat}
      (h : Parses .sequence ls t bodies) :
      Parses .term (.binder :: .name x :: .point :: ls) (.lam {} x t) (ls.length :: bodies)
  | single {ls : List Lexeme} {t : Term} {bodies : List Nat} (h : Parses .term ls t bodies) :
      Parses .sequence ls t bodies
  | apply {ls ms : List Lexeme} {t u : Term} {bodies bodies' : List Nat}
      (h : Parses .sequence ls t bodies) (h' : Parses .term ms u bodies') :
      Parses .sequence (ls ++ ms) (.app {} t u) (bodies ++ bodies')

theorem derives_of_parses {c : Category} {ls : List Lexeme} {t : Term} {bodies : List Nat}
    (h : Parses c ls t bodies) : Derives c ls := by
  induction h with
  | name x => exact .name x
  | group _ ih => exact .group ih
  | abstraction x _ ih => exact .abstraction x ih
  | single _ ih => exact .single ih
  | apply _ _ ih ih' => exact derives_append ih (.single ih')

/-! ### Every derivable list is read -/

theorem exists_reads_atom_append {ls ms : List Lexeme} {t u : Term} (h : Reads .atom ls t)
    (h' : Reads .sequence ms u) : ∃ v, Reads .sequence (ls ++ ms) v := by
  have hatoms {ms : List Lexeme} {u : Term} (h' : Reads .atoms ms u) :
      ∃ v, Reads .atoms (ls ++ ms) v := by
    generalize hp : Part.atoms = p at h'
    induction h' with
    | name | group | atoms | abstraction | applyLast => cases hp
    | single h' => exact ⟨_, .apply (.single h) h'⟩
    | apply _ h' ih _ =>
        obtain ⟨v, hv⟩ := ih hp
        rw [← List.append_assoc]
        exact ⟨_, .apply hv h'⟩
  cases h' with
  | atoms h' =>
      obtain ⟨v, hv⟩ := hatoms h'
      exact ⟨v, .atoms hv⟩
  | abstraction x h' => exact ⟨_, .applyLast x (.single h) h'⟩
  | applyLast x h' h'' =>
      obtain ⟨v, hv⟩ := hatoms h'
      rw [← List.append_assoc]
      exact ⟨_, .applyLast x hv h''⟩

/-- What follows a sequence goes to the body of the abstraction at its end, if there is one. -/
theorem exists_reads_append {ls ms : List Lexeme} {t u : Term} (h : Reads .sequence ls t)
    (h' : Reads .sequence ms u) : ∃ v, Reads .sequence (ls ++ ms) v := by
  have hatoms {ls : List Lexeme} {t : Term} (h : Reads .atoms ls t) {ms : List Lexeme} {u : Term}
      (h' : Reads .sequence ms u) : ∃ v, Reads .sequence (ls ++ ms) v := by
    generalize hp : Part.atoms = p at h
    induction h generalizing ms u with
    | name | group | atoms | abstraction | applyLast => cases hp
    | single h => exact exists_reads_atom_append h h'
    | apply _ h ih _ =>
        obtain ⟨v, hv⟩ := exists_reads_atom_append h h'
        rw [List.append_assoc]
        exact ih hv hp
  generalize hp : Part.sequence = p at h
  induction h with
  | name | group | single | apply => cases hp
  | atoms h => exact hatoms h h'
  | abstraction x _ ih =>
      obtain ⟨v, hv⟩ := ih hp
      exact ⟨_, .abstraction x hv⟩
  | applyLast x h _ _ ih =>
      obtain ⟨v, hv⟩ := ih hp
      rw [List.append_assoc]
      exact ⟨_, .applyLast x h hv⟩

theorem exists_reads_of_derives {c : Category} {ls : List Lexeme} (h : Derives c ls) :
    ∃ t, Reads .sequence ls t := by
  induction h with
  | name x => exact ⟨_, .atoms (.single (.name x))⟩
  | group _ ih =>
      obtain ⟨t, ht⟩ := ih
      exact ⟨t, .atoms (.single (.group ht))⟩
  | abstraction x _ ih =>
      obtain ⟨t, ht⟩ := ih
      exact ⟨_, .abstraction x ht⟩
  | single _ ih => exact ih
  | more _ _ ih ih' =>
      obtain ⟨t, ht⟩ := ih
      obtain ⟨u, hu⟩ := ih'
      exact exists_reads_append ht hu

/-! ### How far bodies reach -/

/-- The number of lexemes before the first parenthesis that closes outside, when `depth` parentheses are
open. -/
def reach : (depth : Nat) → List Lexeme → Nat
  | _, [] => 0
  | depth, .opening :: ls => reach (depth + 1) ls + 1
  | 0, .closing :: _ => 0
  | depth + 1, .closing :: ls => reach depth ls + 1
  | depth, _ :: ls => reach depth ls + 1

/-- How far the body of every abstraction could reach, in a list of lexemes that the given ones follow. -/
def reaches (rest : List Lexeme) : List Lexeme → List Nat
  | [] => []
  | .binder :: ls => reach 0 ((ls ++ rest).drop 2) :: reaches rest ls
  | _ :: ls => reaches rest ls

theorem reach_append {c : Category} {ls : List Lexeme} (h : Derives c ls) (depth : Nat)
    (rest : List Lexeme) : reach depth (ls ++ rest) = ls.length + reach depth rest := by
  induction h generalizing depth rest with
  | name x => simp only [List.singleton_append, List.length_singleton, reach]; omega
  | group _ ih =>
      simp only [List.cons_append, List.append_assoc, List.nil_append, reach, ih, List.length_cons,
        List.length_append, List.length_nil]
      omega
  | abstraction x _ ih =>
      simp only [List.cons_append, reach, ih, List.length_cons]
      omega
  | single _ ih => exact ih depth rest
  | more _ _ ih ih' =>
      rw [List.append_assoc, ih, ih', List.length_append]
      omega

theorem reaches_append (rest ls ms : List Lexeme) :
    reaches rest (ls ++ ms) = reaches (ms ++ rest) ls ++ reaches rest ms := by
  induction ls with
  | nil => rfl
  | cons l ls ih => cases l <;> simp [reaches, ih]

@[simp] theorem reaches_group (rest ls : List Lexeme) :
    reaches rest (.opening :: ls ++ [.closing]) = reaches (.closing :: rest) ls := by
  rw [reaches_append]
  simp [reaches]

@[simp] theorem reaches_abstraction (rest ls : List Lexeme) (x : String) :
    reaches rest (.binder :: .name x :: .point :: ls) = reach 0 (ls ++ rest) :: reaches rest ls :=
  rfl

/-- No body reaches beyond the parenthesis that closes around it. -/
theorem le_reaches_of_parses {c : Category} {ls : List Lexeme} {t : Term} {bodies : List Nat}
    (h : Parses c ls t bodies) (rest : List Lexeme) :
    List.Forall₂ (· ≤ ·) bodies (reaches rest ls) := by
  induction h generalizing rest with
  | name => exact .nil
  | group _ ih =>
      rw [reaches_group]
      exact ih _
  | abstraction x h ih =>
      rw [reaches_abstraction, reach_append (derives_of_parses h)]
      exact .cons (Nat.le_add_right _ _) (ih rest)
  | single _ ih => exact ih rest
  | apply _ _ ih ih' =>
      rw [reaches_append]
      exact List.rel_append (ih _) (ih' rest)

/-- What is read is a tree in which every body reaches as far as it can. -/
theorem parses_of_reads {part : Part} {ls : List Lexeme} {t : Term} (h : Reads part ls t)
    {rest : List Lexeme} (hrest : part = .sequence → reach 0 rest = 0) :
    Parses part.category ls t (reaches rest ls) := by
  induction h generalizing rest with
  | name x => exact .name x
  | group _ ih =>
      rw [reaches_group]
      exact .group (ih fun _ => rfl)
  | single _ ih => exact .single (ih nofun)
  | apply _ _ ih ih' =>
      rw [reaches_append]
      exact .apply (ih nofun) (ih' nofun)
  | atoms _ ih => exact ih nofun
  | abstraction x h ih =>
      rw [reaches_abstraction, reach_append (derives_of_reads h), hrest rfl]
      exact .single (.abstraction x (ih hrest))
  | applyLast x h h' ih ih' =>
      rw [reaches_append, reaches_abstraction, reach_append (derives_of_reads h'), hrest rfl]
      exact .apply (ih nofun) (.abstraction x (ih' hrest))

/-- What a tree whose bodies reach as far as they can is read as.  An abstraction without parentheses can
only be the last of a sequence, since its body would reach into what follows. -/
def ReadsBefore (rest : List Lexeme) (ls : List Lexeme) (t : Term) : Category → Prop
  | .term => Reads .atom ls t ∨ reach 0 rest = 0 ∧ ∃ x ms u,
      ls = .binder :: .name x :: .point :: ms ∧ t = .lam {} x u ∧ Reads .sequence ms u
  | .sequence => Reads .atoms ls t ∨ reach 0 rest = 0 ∧ Reads .sequence ls t

theorem readsBefore_of_parses {c : Category} {ls : List Lexeme} {t : Term} {bodies : List Nat}
    (h : Parses c ls t bodies) {rest : List Lexeme} (hbodies : bodies = reaches rest ls) :
    ReadsBefore rest ls t c := by
  induction h generalizing rest with
  | name x => exact .inl (.name x)
  | group _ ih =>
      rw [reaches_group] at hbodies
      rcases ih hbodies with h | ⟨-, h⟩
      · exact .inl (.group (.atoms h))
      · exact .inl (.group h)
  | abstraction x h ih =>
      rw [reaches_abstraction, reach_append (derives_of_parses h), List.cons.injEq] at hbodies
      have hrest : reach 0 rest = 0 := by omega
      refine .inr ⟨hrest, x, _, _, rfl, rfl, ?_⟩
      rcases ih hbodies.2 with h | ⟨-, h⟩
      · exact .atoms h
      · exact h
  | single _ ih =>
      rcases ih hbodies with h | ⟨hrest, x, ms, u, rfl, rfl, h⟩
      · exact .inl (.single h)
      · exact .inr ⟨hrest, .abstraction x h⟩
  | @apply ls ms t u bodies bodies' h h' ih ih' =>
      rw [reaches_append] at hbodies
      have hlength := (le_reaches_of_parses h (ms ++ rest)).length_eq
      obtain ⟨hleft, hright⟩ := List.append_inj hbodies hlength
      have hatoms : Reads .atoms ls t := by
        rcases ih hleft with h | ⟨hzero, -⟩
        · exact h
        · have hne := ne_nil_of_derives (derives_of_parses h')
          rw [reach_append (derives_of_parses h'), Nat.add_eq_zero_iff, List.length_eq_zero_iff] at hzero
          exact absurd hzero.1 hne
      rcases ih' hright with h | ⟨hrest, x, ms, u, rfl, rfl, h⟩
      · exact .inl (.apply hatoms h)
      · exact .inr ⟨hrest, .applyLast x hatoms h⟩

theorem reads_of_parses {ls : List Lexeme} {t : Term} (h : Parses .sequence ls t (reaches [] ls)) :
    Reads .sequence ls t := by
  rcases readsBefore_of_parses h rfl with h | ⟨-, h⟩
  · exact .atoms h
  · exact h

/-- The tree that is meant is the one with the longest bodies. -/
theorem reads_iff_longest_bodies {ls : List Lexeme} {t : Term} :
    Reads .sequence ls t ↔ ∃ bodies, Parses .sequence ls t bodies ∧
      ∀ u bodies', Parses .sequence ls u bodies' → List.Forall₂ (· ≤ ·) bodies' bodies := by
  constructor
  · intro h
    exact ⟨reaches [] ls, parses_of_reads h fun _ => rfl, fun u bodies' h' => le_reaches_of_parses h' []⟩
  · rintro ⟨bodies, h, hlongest⟩
    obtain ⟨u, hu⟩ := exists_reads_of_derives (derives_of_parses h)
    have hle := le_reaches_of_parses h []
    have hends : Part.sequence = .sequence → reach 0 [] = 0 := fun _ => rfl
    have hge := hlongest u _ (parses_of_reads hu hends)
    have heq : bodies = reaches [] ls :=
      List.ext_get hle.length_eq fun i h₁ h₂ => Nat.le_antisymm (hle.get h₁ h₂) (hge.get h₂ h₁)
    rw [heq] at h
    exact reads_of_parses h

/-! ### The parser -/

theorem exists_report_of_parseFault (fault : ParseFault) (text : String) (expanded : List Char) :
    ∃ report, (fault.inText text expanded).failure = .report report ∧ report.kind = .parse := by
  cases fault with
  | unfinished | unexpected | tooDeep => exact ⟨_, rfl, rfl⟩
  | badParameter found => cases found <;> exact ⟨_, rfl, rfl⟩

/-- **The parser accepts exactly the grammar.**  On tokens without origin marks it succeeds exactly if they
are derived from a sequence, and gives the term of the tree whose bodies reach as far to the right as those
of any tree.  All other tokens end in a report on the text, under any limits. -/
theorem parseTokens_accepts_grammar (tokens : List Token)
    (hmarks : ∀ label, .tag label ∉ tokens.map Token.lexeme) :
    let ls := tokens.map Token.lexeme
    ((∃ t, parseTokens .unlimited tokens = .ok t) ↔ Derives .sequence ls)
      ∧ (∀ t, parseTokens .unlimited tokens = .ok t ↔ ∃ bodies, Parses .sequence ls t bodies ∧
          ∀ u bodies', Parses .sequence ls u bodies' → List.Forall₂ (· ≤ ·) bodies' bodies)
      ∧ (¬ Derives .sequence ls → ∀ limits, ∃ fault, parseTokens limits tokens = .error fault ∧
          ∀ text expanded, ∃ report, (fault.inText text expanded).failure = .report report
            ∧ report.kind = .parse) := by
  intro ls
  have hreads {limits : Limits} {t : Term} (h : parseTokens limits tokens = .ok t) :
      Reads .sequence ls t :=
    (readsMarked_of_parseFrom h .nil rfl).unmarked hmarks
  refine ⟨⟨?_, ?_⟩, fun t => ⟨?_, ?_⟩, ?_⟩
  · rintro ⟨t, h⟩
    exact derives_of_reads (hreads h)
  · intro h
    obtain ⟨t, ht⟩ := exists_reads_of_derives h
    exact ⟨t, parseTokens_of_reads ht⟩
  · exact fun h => reads_iff_longest_bodies.mp (hreads h)
  · exact fun h => parseTokens_of_reads (reads_iff_longest_bodies.mpr h)
  · intro h limits
    cases hparse : parseTokens limits tokens with
    | ok t => exact absurd (derives_of_reads (hreads hparse)) h
    | error fault => exact ⟨fault, rfl, exists_report_of_parseFault fault⟩

/-- An abstraction behind an application, whose body holds another one in parentheses: `x y λz.z (λw.w) z`. -/
theorem parseTokens_accepts_grammar_nested :
    let tokens : List Token := [⟨.name "x", 0⟩, ⟨.name "y", 2⟩, ⟨.binder, 4⟩, ⟨.name "z", 5⟩, ⟨.point, 6⟩,
      ⟨.name "z", 7⟩, ⟨.opening, 9⟩, ⟨.binder, 10⟩, ⟨.name "w", 11⟩, ⟨.point, 12⟩, ⟨.name "w", 13⟩,
      ⟨.closing, 14⟩, ⟨.name "z", 16⟩]
    let ls := tokens.map Token.lexeme
    (∀ label, .tag label ∉ ls)
      ∧ ((∃ t, parseTokens .unlimited tokens = .ok t) ↔ Derives .sequence ls)
      ∧ (∀ t, parseTokens .unlimited tokens = .ok t ↔ ∃ bodies, Parses .sequence ls t bodies ∧
          ∀ u bodies', Parses .sequence ls u bodies' → List.Forall₂ (· ≤ ·) bodies' bodies)
      ∧ (¬ Derives .sequence ls → ∀ limits, ∃ fault, parseTokens limits tokens = .error fault ∧
          ∀ text expanded, ∃ report, (fault.inText text expanded).failure = .report report
            ∧ report.kind = .parse) := by
  intro tokens ls
  have hmarks : ∀ label, .tag label ∉ ls := by simp [ls, tokens]
  exact ⟨hmarks, parseTokens_accepts_grammar tokens hmarks⟩

end LambdaStepper.Syntax
