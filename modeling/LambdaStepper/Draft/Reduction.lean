import LambdaStepper.Draft.Basic
import LambdaStepper.Reduction.Normalize
import LambdaStepper.Text.Printable

/-! # Reducing drafts

Reduction comes by the texts in a draft in an order of its own: the parts of a redex are checked before
they are put together, tagged nodes before they are left alone, and all else is copied on trust.
`stepOutcome` and `substituteFailure?` follow that order to the first obstacle.  A draft with a text in
it has no step (`exists_of_stepOutcome`), so where there is no obstacle the step is that of the term
(`reduceStep`).

The next redex is found without looking behind it, so texts there do no harm (`nextRedex?`). -/

namespace LambdaStepper.Draft

/-- The failure where a check finds a text in the place of a term. -/
def notATerm (s : String) : Failure :=
  (ReductionFault.notATerm (Text.quoted s)).failure

/-- The failure where a text is taken for a term and the given part of it is wanted. -/
def lacks (part : String) (_ : String) : Failure :=
  .fault (.noPart textType part)

/-- The names that occur free in a draft, in pre-order and with repetitions. -/
def freeNames (limits : Limits) (bound : List String) (d : Draft) : Except Failure (List String) :=
  (d.checked limits notATerm).map fun t => t.freeNames bound

/-- Every name in a draft, in pre-order and with repetitions. -/
def allNames (d : Draft) : Except Failure (List String) :=
  match d, d.term? with
  | _, .ok t => .ok t.allNames
  | .text s, _ => .error (lacks "walk" s)
  | _, .error s => .error (lacks "nodes" s)

/-- The failure of renaming a name in a draft whose root is at the given depth. -/
def renameFailure? (limits : Limits) (old : String) (depth : Nat) : Draft → Option Failure
  | .text s => some (lacks "copy" s)
  | .var .. => if limits.allows depth then none else some .tooDeep
  | .lam _ x body =>
    if !limits.allows depth then some .tooDeep
    else if x = old then
      (body.firstObstacle? limits (depth + 1)).map (Obstacle.failure (lacks "clone"))
    else body.renameFailure? limits old (depth + 1)
  | .app _ func arg =>
    if !limits.allows depth then some .tooDeep
    else
      match func.renameFailure? limits old (depth + 1) with
      | some failure => some failure
      | none => arg.renameFailure? limits old (depth + 1)

/-- The failure of substituting for a name in a draft whose root is at the given depth.  The names in
`captured` are free in the replacement. -/
def substituteFailure? (limits : Limits) (name : String) (captured : List String) (depth : Nat)
    (d : Draft) : Option Failure :=
  if d.tag.isSome && d.kind? != some .variable then
    (d.firstObstacle? limits depth).map (Obstacle.failure notATerm)
  else
    match d with
    | .text s => some (lacks "tag" s)
    | .var .. => if limits.allows depth then none else some .tooDeep
    | .lam _ x body =>
      if !limits.allows depth then some .tooDeep
      else if x = name then
        (body.firstObstacle? limits (depth + 1)).map (Obstacle.failure (lacks "clone"))
      else if x ∈ captured then
        match body.allNames with
        | .error failure => some failure
        | .ok _ => (body.firstObstacle? limits (depth + 1)).map (Obstacle.failure (lacks "copy"))
      else body.substituteFailure? limits name captured (depth + 1)
    | .app _ func arg =>
      if !limits.allows depth then some .tooDeep
      else
        match func.substituteFailure? limits name captured (depth + 1) with
        | some failure => some failure
        | none => arg.substituteFailure? limits name captured (depth + 1)

/-- The names free in a replacement that is put into a draft, both checked as far as is done before
anything is replaced. -/
def checkParts (limits : Limits) (body replacement : Draft) : Except Failure (List String) :=
  match body with
  | .text s => .error (notATerm s)
  | _ => replacement.freeNames limits []

/-- The failure of putting a replacement in the place of a name. -/
def replaceFailure? (limits : Limits) (name : String) (body replacement : Draft) : Option Failure :=
  match checkParts limits body replacement with
  | .error failure => some failure
  | .ok captured => body.substituteFailure? limits name captured 1

/-- Whether a step contracts a redex in a draft whose root is at the given depth, or the failure it
ends in. -/
def stepOutcome (limits : Limits) (depth : Nat) : Draft → Except Failure Bool
  | .text s => .error (notATerm s)
  | .var .. => if limits.allows depth then .ok false else .error .tooDeep
  | .lam _ _ body =>
    if limits.allows depth then body.stepOutcome limits (depth + 1) else .error .tooDeep
  | .app _ func arg =>
    if !limits.allows depth then .error .tooDeep
    else
      match func with
      | .lam _ x body =>
        match replaceFailure? limits x body arg with
        | some failure => .error failure
        | none => .ok true
      | func =>
        match func.stepOutcome limits (depth + 1) with
        | .error failure => .error failure
        | .ok false => arg.stepOutcome limits (depth + 1)
        | .ok true =>
          match arg.firstObstacle? limits (depth + 1) with
          | some obstacle => .error (obstacle.failure (lacks "clone"))
          | none => .ok true

/-- One step on a draft. -/
def reduceStep (limits : Limits) (d : Draft) : Except Failure Step :=
  match d.term?, d.kind? with
  | .ok t, _ =>
    match t.reduceStepWithin limits with
    | .ok step => .ok step
    | .error fault => .error fault.failure
  | .error s, none => .error (notATerm s)
  | .error s, some kind =>
    match d.stepOutcome limits 1 with
    | .error .tooDeep => .error (ReductionFault.tooDeep kind).failure
    | .error failure => .error failure
    | .ok _ => .error (notATerm s)

/-- A draft with `replacement` in the place of a name. -/
def substitute (limits : Limits) (d : Draft) (name : String) (replacement : Draft)
    (fresh : Freshener) : Except Failure (Term × Freshener) :=
  match replaceFailure? limits name d replacement with
  | some failure => .error failure
  | none =>
    match d.term?, replacement.term? with
    | .ok t, .ok new => .ok (t.substitute name new fresh)
    | .error s, _ => .error (notATerm s)
    | _, .error s => .error (notATerm s)

/-- A draft with the free occurrences of a name renamed. -/
def rename (limits : Limits) (old new : String) (d : Draft) : Except Failure Term :=
  match d.renameFailure? limits old 1, d.term? with
  | some failure, _ => .error failure
  | none, .ok t => .ok (t.rename old new)
  | none, .error s => .error (lacks "copy" s)

/-- An abstraction with another parameter, a name that does not occur in its body. -/
def alphaConvert (limits : Limits) (new : String) : Draft → Except Failure Term
  | .lam m x body => (body.rename limits x new).map (Term.lam m new)
  | .var .. => .error (.fault (.noPart NodeKind.variable.typeName "body"))
  | .app .. => .error (.fault (.noPart NodeKind.application.typeName "body"))
  | .text s => .error (lacks "copy" s)

/-- The number of nodes of all drafts of a stack. -/
def stackSize : List Draft → Nat
  | [] => 0
  | d :: stack => d.size + stackSize stack

theorem stackSize_children_lt (d : Draft) (stack : List Draft) :
    stackSize (d.children ++ stack) < stackSize (d :: stack) := by
  cases d <;> simp only [children, List.cons_append, List.nil_append, stackSize, size] <;> omega

/-- The first redex among the drafts of a stack and their parts, when `position` nodes were passed
before them. -/
def nextRedexFrom (position : Nat) : List Draft → Except Failure (Option Nat)
  | [] => .ok none
  | d :: stack =>
    if d.isRedex then .ok (some position)
    else
      match d with
      | .text s => .error (lacks "nodes" s)
      | d => nextRedexFrom (position + 1) (d.children ++ stack)
termination_by stack => stackSize stack
decreasing_by exact stackSize_children_lt _ _

/-- The position of the redex that the next step contracts, or none in a normal form. -/
def nextRedex? (d : Draft) : Except Failure (Option Nat) :=
  match d with
  | .text s => .error (notATerm s)
  | d => nextRedexFrom 0 [d]

/-- A draft with its next redex highlighted. -/
def markRedex (limits : Limits) (d : Draft) : Except Failure Term :=
  match d.nextRedex? with
  | .error failure => .error failure
  | .ok _ => (d.checked limits (lacks "id")).map Term.markRedex

/-- Reduces a draft with at most the given number of steps.  Without a step the draft has to be shown
all the same. -/
def normalize (limits : Limits) (maxSteps : Int) (d : Draft) : Except Failure Reduction :=
  match d.term? with
  | .ok t =>
    match t.normalizeWithin limits maxSteps with
    | .ok r => .ok r
    | .error fault => .error fault.failure
  | .error s =>
    if 0 < maxSteps then
      match d.reduceStep limits with
      | .error failure => .error failure
      | .ok _ => .error (notATerm s)
    else
      match d.nextRedex? with
      | .error failure => .error failure
      | .ok _ => .error (lacks "tag" s)

theorem exists_of_allNames {d : Draft} {names : List String} (h : d.allNames = .ok names) :
    ∃ t, d = ofTerm t := by
  unfold allNames at h
  split at h
  · exact ⟨_, term?_eq_ok_iff.mp ‹_›⟩
  · cases h
  · cases h

theorem exists_of_substituteFailure? {limits : Limits} {name : String} {captured : List String}
    {depth : Nat} {d : Draft} (h : d.substituteFailure? limits name captured depth = none) :
    ∃ t, d = ofTerm t := by
  induction d generalizing depth with
  | var m x => exact ⟨.var m x, rfl⟩
  | text s => simp [substituteFailure?, tag] at h
  | lam m x body ih =>
    simp only [substituteFailure?] at h
    split at h
    · exact exists_of_firstObstacle? (Option.map_eq_none_iff.mp h)
    · split at h
      · cases h
      · have hbody : ∃ t, body = ofTerm t := by
          split at h
          · exact exists_of_firstObstacle? (Option.map_eq_none_iff.mp h)
          · split at h
            · split at h
              · cases h
              · exact exists_of_allNames ‹_›
            · exact ih h
        obtain ⟨t, rfl⟩ := hbody
        exact ⟨.lam m x t, rfl⟩
  | app m func arg ihf iha =>
    simp only [substituteFailure?] at h
    split at h
    · exact exists_of_firstObstacle? (Option.map_eq_none_iff.mp h)
    · split at h
      · cases h
      · split at h
        · cases h
        · obtain ⟨f, rfl⟩ := ihf ‹_›
          obtain ⟨a, rfl⟩ := iha h
          exact ⟨.app m f a, rfl⟩

theorem exists_of_freeNames {limits : Limits} {bound names : List String} {d : Draft}
    (h : d.freeNames limits bound = .ok names) : ∃ t, d = ofTerm t := by
  unfold freeNames at h
  cases hc : d.checked limits notATerm with
  | error failure => simp [hc, Except.map] at h
  | ok t => exact ⟨t, checked_ok hc⟩

theorem exists_of_replaceFailure? {limits : Limits} {name : String} {body replacement : Draft}
    (h : replaceFailure? limits name body replacement = none) :
    (∃ t, body = ofTerm t) ∧ ∃ u, replacement = ofTerm u := by
  unfold replaceFailure? at h
  split at h
  · cases h
  · rename_i hparts
    refine ⟨exists_of_substituteFailure? h, ?_⟩
    unfold checkParts at hparts
    split at hparts
    · cases hparts
    · exact exists_of_freeNames hparts

/-- A step that meets no obstacle is one of a term. -/
theorem exists_of_stepOutcome {limits : Limits} {depth : Nat} {d : Draft} {contracted : Bool}
    (h : d.stepOutcome limits depth = .ok contracted) : ∃ t, d = ofTerm t := by
  induction d generalizing depth contracted with
  | var m x => exact ⟨.var m x, rfl⟩
  | text s => simp [stepOutcome] at h
  | lam m x body ih =>
    simp only [stepOutcome] at h
    split at h
    · obtain ⟨t, rfl⟩ := ih h
      exact ⟨.lam m x t, rfl⟩
    · cases h
  | app m func arg ihf iha =>
    cases func with
    | lam m' x body =>
      simp only [stepOutcome] at h
      split at h
      · cases h
      · split at h
        · cases h
        · obtain ⟨⟨t, rfl⟩, u, rfl⟩ := exists_of_replaceFailure? ‹_›
          exact ⟨.app m (.lam m' x t) u, rfl⟩
    | _ =>
      rw [stepOutcome.eq_def] at h
      simp only at h
      split at h
      · cases h
      · split at h
        · cases h
        · obtain ⟨f, hf⟩ := ihf ‹_›
          obtain ⟨a, rfl⟩ := iha h
          exact ⟨.app m f a, by rw [hf, ofTerm]⟩
        · obtain ⟨f, hf⟩ := ihf ‹_›
          split at h
          · cases h
          · obtain ⟨a, rfl⟩ := exists_of_firstObstacle? ‹_›
            exact ⟨.app m f a, by rw [hf, ofTerm]⟩

theorem nextRedexFrom_ofTerm (position : Nat) (stack : List Term) :
    nextRedexFrom position (stack.map ofTerm) = .ok (Term.nextRedexFrom position stack) := by
  have hred (t : Term) : (ofTerm t).isRedex = t.isRedex := by
    cases t with
    | app _ func _ => cases func <;> rfl
    | _ => rfl
  have hchildren (t : Term) : (ofTerm t).children = t.children.map ofTerm := by cases t <;> rfl
  fun_induction Term.nextRedexFrom position stack with
  | case1 => rw [List.map_nil, nextRedexFrom]
  | case2 position t stack h =>
    cases t <;> simp only [List.map_cons, ofTerm, nextRedexFrom] <;> exact if_pos ((hred _).trans h)
  | case3 position t stack h ih =>
    rw [List.map_append, ← hchildren] at ih
    cases t <;> simp only [List.map_cons, ofTerm, nextRedexFrom] <;>
      exact (if_neg fun hd => h ((hred _).symm.trans hd)).trans ih

theorem nextRedex?_ofTerm (t : Term) : (ofTerm t).nextRedex? = .ok t.nextRedex? := by
  have h := nextRedexFrom_ofTerm 0 [t]
  cases t <;> exact h

theorem freeNames_ofTerm (bound : List String) (t : Term) :
    (ofTerm t).freeNames .unlimited bound = .ok (t.freeNames bound) := by
  simp [freeNames, checked_ofTerm, Except.map]

theorem allNames_ofTerm (t : Term) : (ofTerm t).allNames = .ok t.allNames := by
  simp [allNames]

theorem renameFailure?_ofTerm (old : String) (depth : Nat) (t : Term) :
    (ofTerm t).renameFailure? .unlimited old depth = none := by
  induction t generalizing depth with
  | var => rfl
  | lam _ _ _ ih => simp [ofTerm, renameFailure?, firstObstacle?_ofTerm, ih]
  | app _ _ _ ihf iha => simp [ofTerm, renameFailure?, ihf, iha]

theorem rename_ofTerm (old new : String) (t : Term) :
    (ofTerm t).rename .unlimited old new = .ok (t.rename old new) := by
  simp [rename, renameFailure?_ofTerm]

theorem alphaConvert_ofTerm (new x : String) (m : Mark) (body : Term) :
    (ofTerm (.lam m x body)).alphaConvert .unlimited new
      = .ok ((Term.lam m x body).alphaConvert new) := by
  simp [ofTerm, alphaConvert, rename_ofTerm, Except.map, Term.alphaConvert]

theorem substituteFailure?_ofTerm (name : String) (captured : List String) (depth : Nat)
    (t : Term) : (ofTerm t).substituteFailure? .unlimited name captured depth = none := by
  induction t generalizing depth with
  | var => simp [ofTerm, substituteFailure?, kind?]
  | lam m x body ih =>
    have h := firstObstacle?_ofTerm (.lam m x body) depth
    rw [ofTerm] at h
    simp [ofTerm, substituteFailure?, h, firstObstacle?_ofTerm, allNames_ofTerm, ih]
  | app m func arg ihf iha =>
    have h := firstObstacle?_ofTerm (.app m func arg) depth
    rw [ofTerm] at h
    simp [ofTerm, substituteFailure?, h, ihf, iha]

theorem substitute_ofTerm (t : Term) (name : String) (replacement : Term) (fresh : Freshener) :
    (ofTerm t).substitute .unlimited name (ofTerm replacement) fresh
      = .ok (t.substitute name replacement fresh) := by
  have hparts : checkParts .unlimited (ofTerm t) (ofTerm replacement)
      = .ok (replacement.freeNames []) := by
    cases t <;> exact freeNames_ofTerm [] replacement
  simp [substitute, replaceFailure?, hparts, substituteFailure?_ofTerm]

theorem reduceStep_ofTerm (t : Term) : (ofTerm t).reduceStep .unlimited = .ok t.reduceStep := by
  simp [reduceStep, Term.reduceStepWithin]

theorem markRedex_ofTerm (t : Term) : (ofTerm t).markRedex .unlimited = .ok t.markRedex := by
  simp [markRedex, nextRedex?_ofTerm, checked_ofTerm, Except.map]

theorem normalize_ofTerm (maxSteps : Int) (t : Term) :
    (ofTerm t).normalize .unlimited maxSteps = .ok (t.normalize maxSteps) := by
  simp [normalize, Term.normalizeWithin_unlimited]

end LambdaStepper.Draft
