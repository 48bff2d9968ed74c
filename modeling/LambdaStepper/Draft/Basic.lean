import LambdaStepper.Limits

/-! # Drafts

A draft is a term as it is handed in, where a text may stand in the place of a subterm.  It is a term
if no text stands in it (`term?`); `term?_eq_ok_iff` says that nothing but the drafts of terms passes.

An operation looks for texts only where it comes by, and stops at the first obstacle: a text, or
nesting that is too deep.  `firstObstacle?` finds the obstacle of an operation that goes through the
whole draft in pre-order, and `checked` is the term that the draft is for such an operation. -/

namespace LambdaStepper

/-- A term some of whose subterms may be mere texts. -/
inductive Draft where
  | var (mark : Mark) (name : String)
  | lam (mark : Mark) (param : String) (body : Draft)
  | app (mark : Mark) (func arg : Draft)
  /-- A text where a term is expected. -/
  | text (s : String)
  deriving DecidableEq, Repr, Inhabited

/-- The type name of texts. -/
def textType : String :=
  "str"

/-- What stops an operation on a draft. -/
inductive Obstacle where
  /-- A text in the place of a term. -/
  | text (s : String)
  /-- Nesting beyond the limit. -/
  | tooDeep
  deriving DecidableEq, Repr

/-- The failure of an operation at an obstacle; what it makes of a text is given. -/
def Obstacle.failure (onText : String → Failure) : Obstacle → Failure
  | .text s => onText s
  | .tooDeep => .tooDeep

namespace Draft

/-- A term as a draft. -/
def ofTerm : Term → Draft
  | .var m x => .var m x
  | .lam m x body => .lam m x (ofTerm body)
  | .app m func arg => .app m (ofTerm func) (ofTerm arg)

/-- The term that a draft is, or the first text in it. -/
def term? : Draft → Except String Term
  | .var m x => .ok (.var m x)
  | .lam m x body =>
    match body.term? with
    | .ok body => .ok (.lam m x body)
    | .error s => .error s
  | .app m func arg =>
    match func.term?, arg.term? with
    | .ok func, .ok arg => .ok (.app m func arg)
    | .error s, _ => .error s
    | .ok _, .error s => .error s
  | .text s => .error s

/-- The kind of the root; a text has none. -/
def kind? : Draft → Option NodeKind
  | .var .. => some .variable
  | .lam .. => some .abstraction
  | .app .. => some .application
  | .text _ => none

/-- The tag of the root; a text has none. -/
def tag : Draft → Option String
  | .var m _ => m.tag
  | .lam m _ _ => m.tag
  | .app m _ _ => m.tag
  | .text _ => none

/-- The children of the root, left to right. -/
def children : Draft → List Draft
  | .var .. => []
  | .lam _ _ body => [body]
  | .app _ func arg => [func, arg]
  | .text _ => []

/-- The number of nodes, texts included. -/
def size : Draft → Nat
  | .var .. => 1
  | .lam _ _ body => body.size + 1
  | .app _ func arg => func.size + arg.size + 1
  | .text _ => 1

/-- Whether a draft is an abstraction. -/
def isAbstraction : Draft → Bool
  | .lam .. => true
  | _ => false

/-- Whether a draft is a redex: an application of an abstraction. -/
def isRedex : Draft → Bool
  | .app _ func _ => func.isAbstraction
  | _ => false

/-- The first obstacle in pre-order, when the root is at the given depth. -/
def firstObstacle? (limits : Limits) (depth : Nat) : Draft → Option Obstacle
  | .text s => some (.text s)
  | .var .. => if limits.allows depth then none else some .tooDeep
  | .lam _ _ body =>
    if limits.allows depth then body.firstObstacle? limits (depth + 1) else some .tooDeep
  | .app _ func arg =>
    if limits.allows depth then
      match func.firstObstacle? limits (depth + 1) with
      | some obstacle => some obstacle
      | none => arg.firstObstacle? limits (depth + 1)
    else some .tooDeep

/-- The term that a draft is, for an operation that goes through all of it in pre-order. -/
def checked (limits : Limits) (onText : String → Failure) (d : Draft) : Except Failure Term :=
  match d.firstObstacle? limits 1 with
  | some obstacle => .error (obstacle.failure onText)
  | none =>
    match d.term? with
    | .ok t => .ok t
    | .error s => .error (onText s)

@[simp] theorem term?_ofTerm (t : Term) : (ofTerm t).term? = .ok t := by
  induction t with
  | var => rfl
  | lam _ _ _ ih => simp [ofTerm, term?, ih]
  | app _ _ _ ihf iha => simp [ofTerm, term?, ihf, iha]

/-- The drafts that are terms are the drafts of terms. -/
theorem term?_eq_ok_iff {d : Draft} {t : Term} : d.term? = .ok t ↔ d = ofTerm t := by
  refine ⟨fun h => ?_, fun h => h ▸ term?_ofTerm t⟩
  induction d generalizing t with
  | var => cases h; rfl
  | lam m x body ih =>
    cases hb : body.term? with
    | error s => simp [term?, hb] at h
    | ok b =>
      simp only [term?, hb, Except.ok.injEq] at h
      subst h
      rw [ofTerm, ih hb]
  | app m func arg ihf iha =>
    cases hf : func.term? with
    | error s => simp [term?, hf] at h
    | ok f =>
      cases ha : arg.term? with
      | error s => simp [term?, hf, ha] at h
      | ok a =>
        simp only [term?, hf, ha, Except.ok.injEq] at h
        subst h
        rw [ofTerm, ihf hf, iha ha]
  | text s => simp [term?] at h

theorem firstObstacle?_ofTerm (t : Term) (depth : Nat) :
    (ofTerm t).firstObstacle? .unlimited depth = none := by
  induction t generalizing depth with
  | var => rfl
  | lam _ _ _ ih => simp [ofTerm, firstObstacle?, ih]
  | app _ _ _ ihf iha => simp [ofTerm, firstObstacle?, ihf, iha]

theorem exists_of_firstObstacle? {limits : Limits} {depth : Nat} {d : Draft}
    (h : d.firstObstacle? limits depth = none) : ∃ t, d = ofTerm t := by
  induction d generalizing depth with
  | var m x => exact ⟨.var m x, rfl⟩
  | lam m x body ih =>
    simp only [firstObstacle?] at h
    split at h
    · obtain ⟨t, rfl⟩ := ih h
      exact ⟨.lam m x t, rfl⟩
    · cases h
  | app m func arg ihf iha =>
    simp only [firstObstacle?] at h
    split at h
    · split at h
      · cases h
      · obtain ⟨f, rfl⟩ := ihf ‹_›
        obtain ⟨a, rfl⟩ := iha h
        exact ⟨.app m f a, rfl⟩
    · cases h
  | text s => simp [firstObstacle?] at h

theorem checked_ok {limits : Limits} {onText : String → Failure} {d : Draft} {t : Term}
    (h : d.checked limits onText = .ok t) : d = ofTerm t := by
  unfold checked at h
  split at h
  · cases h
  · split at h
    · cases h
      exact term?_eq_ok_iff.mp ‹_›
    · cases h

theorem checked_ofTerm (onText : String → Failure) (t : Term) :
    (ofTerm t).checked .unlimited onText = .ok t := by
  simp [checked, firstObstacle?_ofTerm]

end Draft
end LambdaStepper
