import LambdaStepper.Syntax.Parser

/-! # Defining terms

A definition joins the registry if its name is well-formed and new, if it does not refer back to
itself through other entries, and if its text can be parsed with the new entry in place.

`reachesFrom` follows references depth first.  Every step either drops a name from the stack or
visits an entry for the first time, which is why it ends. -/

namespace LambdaStepper

open Syntax

/-- Why a definition is refused. -/
inductive DefinitionFault where
  /-- The name is not a letter followed by letters, digits, underscores and apostrophes. -/
  | invalidName (name : String)
  | alreadyDefined (name : String)
  /-- The definition refers back to itself. -/
  | recursive (name : String)
  /-- The text is no term. -/
  | unparsable (fault : SyntaxFault)
  deriving DecidableEq, Repr

/-- What a refused definition ends in. -/
def DefinitionFault.failure : DefinitionFault → Failure
  | .invalidName name =>
    .report (Report.about .registration ["'", "' is not a valid name"] [name]).unmarked
  | .alreadyDefined name =>
    .report (Report.about .registration ["'", "' is already defined"] [name]).unmarked
  | .recursive name =>
    .report (Report.about .registration
      ["recursive definitions not supported: '", "' refers to itself"] [name]).unmarked
  | .unparsable fault => fault.failure

/-- Whether a text is the name of an entry, a line feed at its end aside. -/
def isEntryName : List Char → Bool
  | [] => false
  | c :: cs => isLetter c && Numeral.atEnd (cs.dropWhile isWordChar)

/-- The entry with the given fields, of which name and definition must be there. -/
def NamedTerm.ofFields (name definition description : Option String) : Except Fault NamedTerm :=
  match name, definition with
  | none, _ => .error (.missingField "name")
  | some _, none => .error (.missingField "lambda")
  | some name, some definition => .ok ⟨name, definition, description⟩

namespace Registry

/-- The names that the entry of the given name refers to. -/
def referencesOf (r : Registry) (name : String) : List String :=
  ((r.lookup name).map NamedTerm.references).getD []

theorem countP_lt_of_unseen {names seen : List String} {name : String} (hmem : name ∈ names)
    (hseen : name ∉ seen) :
    names.countP (fun n => decide (n ∉ name :: seen)) < names.countP (fun n => decide (n ∉ seen)) := by
  induction names with
  | nil => simp at hmem
  | cons n names ih =>
    have hle : names.countP (fun n => decide (n ∉ name :: seen)) ≤
        names.countP (fun n => decide (n ∉ seen)) := by
      apply List.countP_mono_left
      intro m _ hm
      simp only [List.mem_cons, not_or, decide_eq_true_eq] at hm ⊢
      exact hm.2
    by_cases hn : n = name
    · subst hn
      simp only [List.countP_cons, List.mem_cons, true_or, not_true, decide_false, hseen,
        not_false_iff, decide_true, if_true, Bool.false_eq_true, if_false]
      simp only [List.mem_cons] at hle
      omega
    · have hmem' : name ∈ names := by
        simp only [List.mem_cons] at hmem
        rcases hmem with rfl | h
        · exact absurd rfl hn
        · exact h
      have := ih hmem'
      simp only [List.countP_cons, List.mem_cons, hn, false_or] at this ⊢
      omega

/-- Whether a search through references from the names of a stack meets `target`.  Names in `seen`
were searched before. -/
def reachesFrom (r : Registry) (target : String) (seen stack : List String) : Bool :=
  match stack with
  | [] => false
  | name :: stack =>
    if name = target then true
    else if _h : name ∈ r.names ∧ name ∉ seen then
      r.reachesFrom target (name :: seen) (r.referencesOf name ++ stack)
    else r.reachesFrom target seen stack
termination_by (r.names.countP (fun n => decide (n ∉ seen)), stack.length)
decreasing_by
  · exact Prod.Lex.left _ _ (countP_lt_of_unseen _h.1 _h.2)
  · exact Prod.Lex.right _ (by simp)

/-- Whether the definition of a name refers back to the name, possibly through other entries. -/
def refersToItself (r : Registry) (name : String) : Bool :=
  r.reachesFrom name [] (r.referencesOf name)

/-- Whether an entry may join the registry. -/
def validate (limits : Limits) (r : Registry) (entry : NamedTerm) : Except DefinitionFault Unit :=
  if !isEntryName entry.name.toList then .error (.invalidName entry.name)
  else if r.contains entry.name then .error (.alreadyDefined entry.name)
  else if (r.append entry).refersToItself entry.name then .error (.recursive entry.name)
  else
    match (r.append entry).parse limits entry.definition with
    | .ok _ => .ok ()
    | .error fault => .error (.unparsable fault)

/-- The registry with one more custom entry, if that may join. -/
def define (limits : Limits) (r : Registry) (entry : NamedTerm) : Except DefinitionFault Registry :=
  (r.validate limits entry).map fun _ => r.append entry

theorem define_eq_append {limits : Limits} {r r' : Registry} {entry : NamedTerm}
    (h : r.define limits entry = .ok r') : r' = r.append entry := by
  unfold define at h
  cases hv : r.validate limits entry with
  | error e => simp [hv, Except.map] at h
  | ok u => simpa [hv, Except.map] using h.symm

theorem define_eq_ok {limits : Limits} {r : Registry} {entry : NamedTerm} {t : Term}
    (hname : isEntryName entry.name.toList = true) (hnew : r.contains entry.name = false)
    (hacyclic : (r.append entry).refersToItself entry.name = false)
    (hparse : (r.append entry).parse limits entry.definition = .ok t) :
    r.define limits entry = .ok (r.append entry) := by
  simp [define, validate, hname, hnew, hacyclic, hparse, Except.map]

end Registry
end LambdaStepper
