import LambdaStepper.Layout.Dump
import LambdaStepper.Proofs.Layout.Faithful
import LambdaStepper.Proofs.Reduction.NameGrowth
import LambdaStepper.Proofs.Reduction.Normalization

/-! # What can be drawn

A diagram can be drawn of the closed terms and of no others, and reduction keeps terms closed
(`circuitDrawing_iff_closed`).

The names in scope are told twice: by the bindings that a drawing looks its wires up in, and by the bound names
that free names are counted against.  `sketch?` draws in one go and stops at the first name that it finds no
binding of.  It stops at the first free name (`sketch?_eq`), however names shadow each other, so it is the
same whether the term is searched for free names first (`circuitDrawing_eq_sketch?`).

A contraction puts the argument in the place of a variable, so it makes no free names (`freeNames_of_beta`);
that what is renamed on the way keeps its free names is known from the nameless form. -/

namespace LambdaStepper

namespace Nameless

theorem mem_freeNames_instantiate {x : String} {new t : Nameless} {depth : Nat}
    (h : x ∈ (instantiate depth new t).freeNames) : x ∈ new.freeNames ∨ x ∈ t.freeNames := by
  induction t generalizing depth new with
  | bound i =>
      rw [instantiate] at h
      split at h
      · cases h
      · split at h
        · exact .inl h
        · cases h
  | free y => exact .inr h
  | lam body ih => exact (ih h).imp_left fun hnew => by rwa [freeNames_shift] at hnew
  | app func arg ihf iha =>
      rcases List.mem_append.mp h with h | h
      · exact (ihf h).imp_right (List.mem_append_left _)
      · exact (iha h).imp_right (List.mem_append_right _)

/-- A contraction makes no free names. -/
theorem freeNames_of_beta {t u : Nameless} (h : Beta t u) : u.freeNames ⊆ t.freeNames := by
  induction h with
  | contract body arg =>
      intro x hx
      rcases mem_freeNames_instantiate hx with harg | hbody
      · exact List.mem_append_right _ harg
      · exact List.mem_append_left _ hbody
  | body _ ih => exact ih
  | @func t u arg _ ih =>
      have hfunc := List.Subset.trans ih (List.subset_append_left t.freeNames arg.freeNames)
      exact List.append_subset.mpr ⟨hfunc, List.subset_append_right _ _⟩
  | @arg t u func _ ih =>
      have harg := List.Subset.trans ih (List.subset_append_right func.freeNames t.freeNames)
      exact List.append_subset.mpr ⟨List.subset_append_left _ _, harg⟩

end Nameless

namespace Term

theorem beta_reduceStep (t : Term) :
    t.reduceStep.result.nameless = t.nameless ∨ Nameless.Beta t.nameless t.reduceStep.result.nameless := by
  have hleftmost := t.leftmost?_nameless
  cases hchanged : t.reduceStep.changed with
  | false =>
      have hredex : t.reduceStep.redex? = none := by simpa [Step.changed] using hchanged
      exact .inl (by rw [result_of_unchanged hredex, nameless, nameless, namelessIn_unlit])
  | true =>
      rw [hchanged, if_pos rfl] at hleftmost
      exact .inr (Nameless.beta_of_leftmost? hleftmost)

theorem freeNames_reduceStep (t : Term) : t.reduceStep.result.freeNames [] ⊆ t.freeNames [] := by
  rw [← freeNames_nameless, ← freeNames_nameless]
  rcases t.beta_reduceStep with hsame | hbeta
  · rw [hsame]
    exact List.Subset.refl _
  · exact Nameless.freeNames_of_beta hbeta

theorem freeNames_afterSteps (t : Term) (steps : Nat) : (t.afterSteps steps).freeNames [] ⊆ t.freeNames [] :=
  afterSteps_induction (Q := fun u => u.freeNames [] ⊆ t.freeNames [])
    (fun u hu => List.Subset.trans (freeNames_reduceStep u) hu) steps (List.Subset.refl _)

end Term
end LambdaStepper

namespace LambdaStepper.Layout

/-- Draws a term as `sketch` does, but stops at the first name that `scope` has no binding of. -/
def sketch? (target : Option Nat) (position : Nat) (owes : Owes) (row column : Nat)
    (scope : List (String × Binding)) (tag : Option String) (role : Option Role) :
    Term → Except String Sketch
  | .var m x =>
    match scope.lookup x with
    | none => .error x
    | some binding =>
      let tag := inheritTag binding.tag (inheritTag m.tag tag)
      if owes = .nothing then
        .ok ⟨row + 1, column + 1, (binding.row, column), [⟨.wire binding.row row column, tag, none, role⟩]⟩
      else .ok ⟨row, column + 1, (binding.row, column), []⟩
  | .lam m x body =>
    let tag := inheritTag m.tag tag
    match sketch? target (position + 1) owes (row + 1) column ((x, ⟨row, tag⟩) :: scope) tag role body with
    | .error x => .error x
    | .ok inner =>
      .ok { inner with
        strokes := inner.strokes ++ [⟨.bar row column ((inner.right : Int) - 1), tag, some x, role⟩] }
  | .app m func arg =>
    let tag := inheritTag m.tag tag
    let isTarget := target = some position
    let own := if isTarget then some .primary else role
    let argRole := if isTarget then some .secondary else role
    match sketch? target (position + 1) .right row column scope tag own func with
    | .error x => .error x
    | .ok left =>
      match sketch? target (position + 1 + func.size) .left row left.right scope tag argRole arg with
      | .error x => .error x
      | .ok right =>
        let bottom := max left.bottom right.bottom
        let hook := if owes = .right then right.hook else left.hook
        .ok ⟨bottom + 1, right.right, hook,
          left.strokes ++ right.strokes ++ [⟨elbow owes bottom left.hook right.hook, tag, none, own⟩]⟩

theorem lookup_eq_none_iff_notMem (scope : List (String × Binding)) (x : String) :
    scope.lookup x = none ↔ x ∉ scope.map Prod.fst := by
  rw [List.lookup_eq_none_iff, List.mem_map, not_exists]
  refine forall_congr' fun entry => ?_
  rw [not_and, bne_iff_ne, ne_comm]

/-- What there is unless a name is free, of which the first is told. -/
def unlessFree {α : Type} (names : List String) (a : α) : Except String α :=
  match names with
  | [] => .ok a
  | x :: _ => .error x

/-- A drawing stops at the first free name, and is complete if there is none. -/
theorem sketch?_eq (target : Option Nat) (position : Nat) (owes : Owes) (row column : Nat)
    (scope : List (String × Binding)) (tag : Option String) (role : Option Role) (t : Term) :
    sketch? target position owes row column scope tag role t
      = unlessFree (t.freeNames (scope.map Prod.fst))
          (sketch target position owes row column scope tag role t) := by
  induction t generalizing position owes row column scope tag role with
  | var m x =>
      cases hx : scope.lookup x with
      | none =>
          have hfree := (lookup_eq_none_iff_notMem scope x).mp hx
          simp [sketch?, hx, Term.freeNames, hfree, unlessFree]
      | some binding =>
          have hbound : x ∈ scope.map Prod.fst := by
            by_contra hfree
            rw [(lookup_eq_none_iff_notMem scope x).mpr hfree] at hx
            cases hx
          by_cases ho : owes = .nothing <;> simp [sketch?, sketch, hx, Term.freeNames, hbound, unlessFree, ho]
  | lam m x body ih =>
      simp only [sketch?, sketch, ih, Term.freeNames, List.map_cons]
      cases body.freeNames (x :: scope.map Prod.fst) <;> rfl
  | app m func arg ihf iha =>
      simp only [sketch?, sketch, ihf, iha, Term.freeNames]
      cases func.freeNames (scope.map Prod.fst) with
      | nil =>
          rw [List.nil_append]
          cases arg.freeNames (scope.map Prod.fst) <;> rfl
      | cons y ys => rfl

/-- To draw a term is to look up the binding of each of its names, or to fail with the first that has none. -/
theorem circuitDrawing_eq_sketch? (target : Option Nat) (t : Term) :
    circuitDrawing .unlimited target (.ofTerm t)
      = match sketch? target 0 .nothing 0 0 [] none none t with
        | .ok whole => .drawn ⟨whole.strokes, max 1 whole.right, max 1 whole.bottom⟩
        | .error x => .failed (.freeVariable x) := by
  rw [sketch?_eq]
  cases hfree : t.freeNames [] with
  | nil =>
      rw [circuitDrawing_of_closed target (List.isEmpty_iff.mpr hfree)]
      simp only [List.map_nil, hfree, unlessFree, circuit]
  | cons x xs =>
      rw [circuitDrawing_of_free hfree]
      simp only [List.map_nil, hfree, unlessFree]

/-- A drawing fails exactly if a name is free, and the message is about the first. -/
theorem error?_circuitDrawing (target : Option Nat) (t : Term) :
    (circuitDrawing .unlimited target (.ofTerm t)).error?
      = (t.freeNames []).head?.map fun x => (LayoutFault.freeVariable x).message := by
  rw [circuitDrawing_eq_sketch?, sketch?_eq]
  cases hfree : t.freeNames [] <;> simp [hfree, unlessFree, Drawing.error?]

/-- **Terms can be drawn if they are closed, and then for ever.**  A drawing fails only because of the first free
name of the term, and then nothing is drawn.  No step makes a free name. -/
theorem circuitDrawing_iff_closed (target : Option Nat) (t : Term) :
    ((circuitDrawing .unlimited target (.ofTerm t)).error? = none ↔ t.freeNames [] = []) ∧
      (∀ x xs, t.freeNames [] = x :: xs →
        circuitStrokes (circuitDrawing .unlimited target (.ofTerm t)) = [] ∧
        (circuitDrawing .unlimited target (.ofTerm t)).error? = some (LayoutFault.freeVariable x).message) ∧
      t.reduceStep.result.freeNames [] ⊆ t.freeNames [] ∧
      (t.freeNames [] = [] → ∀ steps,
        (circuitDrawing .unlimited target (.ofTerm (t.afterSteps steps))).error? = none) := by
  have hiff : ∀ u : Term, (circuitDrawing .unlimited target (.ofTerm u)).error? = none ↔ u.freeNames [] = [] := by
    intro u
    rw [error?_circuitDrawing, Option.map_eq_none_iff, List.head?_eq_none_iff]
  refine ⟨hiff t, ?_, t.freeNames_reduceStep, ?_⟩
  · intro x xs hfree
    rw [error?_circuitDrawing, circuitDrawing_of_free hfree, hfree]
    exact ⟨rfl, rfl⟩
  · intro hclosed steps
    have hsubset := t.freeNames_afterSteps steps
    rw [hclosed] at hsubset
    exact (hiff _).mpr (List.subset_nil.mp hsubset)

/-- A name that is bound twice on the way to one of its occurrences and free at another, and a closed term whose
step has to rename a binder. -/
theorem circuitDrawing_iff_closed_shadowed :
    let t : Term := .app {} (.lam {} "x" (.lam {} "x" (.app {} (.var {} "x") (.var {} "y")))) (.var {} "x")
    let u : Term := .lam {} "y"
      (.app {} (.lam {} "x" (.lam {} "y" (.app {} (.var {} "x") (.var {} "y")))) (.var {} "y"))
    (t.freeNames [] = ["y", "x"] ∧
      (circuitDrawing .unlimited none (.ofTerm t)).error? = some (LayoutFault.freeVariable "y").message) ∧
    (u.freeNames [] = [] ∧ ∀ steps,
      (circuitDrawing .unlimited (some 1) (.ofTerm (u.afterSteps steps))).error? = none) := by
  intro t u
  have ht : t.freeNames [] = ["y", "x"] := rfl
  have hu : u.freeNames [] = [] := rfl
  exact ⟨⟨ht, ((circuitDrawing_iff_closed none t).2.1 "y" ["x"] ht).2⟩,
    hu, (circuitDrawing_iff_closed (some 1) u).2.2.2 hu⟩

end LambdaStepper.Layout
