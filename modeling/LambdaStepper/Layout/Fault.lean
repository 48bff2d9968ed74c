import LambdaStepper.Draft.Basic
import LambdaStepper.Term.Names

/-! # Faults of layout

Why a draft cannot be laid out.  A layout never fails otherwise: what comes out is nothing for no term,
a fault, or the drawing (`Drawing`). -/

namespace LambdaStepper

/-- Why there is no drawing. -/
inductive LayoutFault where
  /-- Something, shown as given, stands in the place of a term. -/
  | notATerm (shown : String)
  /-- A diagram needs a closed term, but this name is free. -/
  | freeVariable (name : String)
  /-- The term is nested deeper than the depth limit. -/
  | tooDeep
  deriving DecidableEq, Repr

/-- The message that is shown in the place of a drawing. -/
def LayoutFault.message (fault : LayoutFault) : String :=
  "Layout Error: " ++
    match fault with
    | .notATerm shown => "cannot lay out '" ++ shown ++ "': not a λ-term"
    | .freeVariable name => "'" ++ name ++ "' is a free variable: Tromp diagrams need closed λ-terms"
    | .tooDeep => "maximum recursion depth exceeded"

/-- What comes out of laying out a term. -/
inductive Drawing (α : Type) where
  /-- There is no term. -/
  | blank
  | failed (fault : LayoutFault)
  | drawn (layout : α)
  deriving DecidableEq, Repr

/-- The message of a failed drawing. -/
def Drawing.error? {α : Type} : Drawing α → Option String
  | .failed fault => some fault.message
  | _ => none

namespace Draft

/-- The first place in pre-order that keeps a draft from being laid out, when its root is at the given
depth inside binders of the names in `scope`.  Free variables count only where terms must be
closed. -/
def firstFault? (limits : Limits) (closed : Bool) (depth : Nat) (scope : List String) :
    Draft → Option LayoutFault
  | .text s => some (.notATerm (Text.quoted s))
  | .var _ x =>
    if !limits.allows depth then some .tooDeep
    else if closed && x ∉ scope then some (.freeVariable x) else none
  | .lam _ x body =>
    if limits.allows depth then body.firstFault? limits closed (depth + 1) (x :: scope)
    else some .tooDeep
  | .app _ func arg =>
    if limits.allows depth then
      match func.firstFault? limits closed (depth + 1) scope with
      | some fault => some fault
      | none => arg.firstFault? limits closed (depth + 1) scope
    else some .tooDeep

/-- Lays out a draft by the given function on terms, unless it has a fault. -/
def draw {α : Type} (limits : Limits) (closed : Bool) (d : Draft) (layout : Term → α) :
    Drawing α :=
  match d.firstFault? limits closed 1 [] with
  | some fault => .failed fault
  | none =>
    match d.term? with
    | .ok t => .drawn (layout t)
    | .error s => .failed (.notATerm (Text.quoted s))

theorem firstFault?_ofTerm (t : Term) (depth : Nat) (scope : List String) :
    (ofTerm t).firstFault? .unlimited true depth scope
      = (t.freeNames scope).head?.map LayoutFault.freeVariable := by
  induction t generalizing depth scope with
  | var _ x => by_cases h : x ∈ scope <;> simp [ofTerm, firstFault?, Term.freeNames, h]
  | lam _ x body ih => simp [ofTerm, firstFault?, Term.freeNames, ih]
  | app _ func arg ihf iha =>
    simp only [ofTerm, firstFault?, Limits.allows_unlimited, if_true, ihf, iha, Term.freeNames,
      List.head?_append]
    cases (func.freeNames scope).head? <;> simp

theorem firstFault?_ofTerm_of_open (t : Term) (depth : Nat) (scope : List String) :
    (ofTerm t).firstFault? .unlimited false depth scope = none := by
  induction t generalizing depth scope with
  | var _ x => simp [ofTerm, firstFault?]
  | lam _ x body ih => simp [ofTerm, firstFault?, ih]
  | app _ func arg ihf iha => simp [ofTerm, firstFault?, ihf, iha]

end Draft
end LambdaStepper
