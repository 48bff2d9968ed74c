import LambdaStepper.Draft.Basic
import LambdaStepper.Prettify

/-! # Printing drafts

A draft prints like a term as long as no text comes to be printed; texts inside nodes that print as
atoms or as their numeral tags do no harm.  `print_ofTerm` says that drafts that are terms print as
the terms do.

The readable form of a draft (`prettify`) follows that of terms in the same way. -/

namespace LambdaStepper.Draft

/-- Whether a draft has to be put in parentheses in a context. -/
def needsParentheses (d : Draft) (context : PrintContext) : Bool :=
  match d with
  | .var .. | .text _ => false
  | .lam .. | .app .. => context = .func || context = .arg

/-- Text put in parentheses where a draft needs them. -/
def bracket (d : Draft) (context : PrintContext) (cs : List Char) : List Char :=
  if d.needsParentheses context then '(' :: cs ++ [')'] else cs

/-- How the nodes of drafts are printed. -/
structure Style where
  /-- Whether binders get canonical names. -/
  canonical : Bool := false
  /-- Whether a node tagged with a numeral prints as its tag. -/
  numerals : Bool := true
  /-- What to print for a node instead of its structure. -/
  atom? : Draft → Except Failure (Option String) := fun _ => .ok none

namespace Style

/-- Names as stored, numerals by their tags. -/
def written : Style :=
  {}

/-- Canonical names, numerals by their tags. -/
def canonicalNames : Style :=
  { canonical := true }

/-- Canonical names and nothing but structure. -/
def structural : Style :=
  { canonical := true, numerals := false }

end Style

/-- The numeral that a draft is tagged with.  The tag of a text is wanted in vain. -/
def numeralTag? : Draft → Except Failure (Option String)
  | .text _ => .error (.fault (.noPart textType "tag"))
  | d => .ok (if Numeral.isTag d.tag then d.tag else none)

/-- What is printed for a node at the given depth instead of its structure, if anything. -/
def atomText? (limits : Limits) (style : Style) (depth : Nat) (d : Draft) :
    Except Failure (Option String) :=
  if !limits.allows depth then .error .tooDeep
  else
    match style.atom? d with
    | .error failure => .error failure
    | .ok (some s) => .ok (some s)
    | .ok none => if style.numerals then d.numeralTag? else .ok none

/-- Prints a draft whose root is at the given depth, inside binders whose printed names are given, the
innermost first, when `counter` binders have been named so far.  The result comes with the new
count. -/
def printFrom (limits : Limits) (style : Style) (depth : Nat) (scope : List (String × String))
    (counter : Nat) (context : PrintContext) : Draft → Except Failure (List Char × Nat)
  | .text t =>
    match atomText? limits style depth (.text t) with
    | .error failure => .error failure
    | .ok (some s) => .ok (s.toList, counter)
    | .ok none => .error (.fault .notPrintable)
  | .var m x =>
    match atomText? limits style depth (.var m x) with
    | .error failure => .error failure
    | .ok (some s) => .ok (s.toList, counter)
    | .ok none => .ok (((scope.lookup x).getD x).toList, counter)
  | .lam m x body =>
    match atomText? limits style depth (.lam m x body) with
    | .error failure => .error failure
    | .ok (some s) => .ok ((Draft.lam m x body).bracket context s.toList, counter)
    | .ok none =>
      let param := if style.canonical then Term.canonicalName counter else x
      let scope := if style.canonical then (x, param) :: scope else scope
      let counter := if style.canonical then counter + 1 else counter
      match body.printFrom limits style (depth + 1) scope counter .body with
      | .error failure => .error failure
      | .ok (inner, counter) =>
        .ok ((Draft.lam m x body).bracket context ('λ' :: param.toList ++ '.' :: inner), counter)
  | .app m func arg =>
    match atomText? limits style depth (.app m func arg) with
    | .error failure => .error failure
    | .ok (some s) => .ok ((Draft.app m func arg).bracket context s.toList, counter)
    | .ok none =>
      match func.printFrom limits style (depth + 1) scope counter .func with
      | .error failure => .error failure
      | .ok (left, counter) =>
        match arg.printFrom limits style (depth + 1) scope counter .arg with
        | .error failure => .error failure
        | .ok (right, counter) =>
          .ok ((Draft.app m func arg).bracket context (left ++ ' ' :: right), counter)

/-- A draft printed in the given style and context. -/
def print (limits : Limits) (style : Style) (context : PrintContext) (d : Draft) :
    Except Failure String :=
  (d.printFrom limits style 1 [] 0 context).map fun printed => String.ofList printed.1

/-- Whether two drafts differ in the names of bound variables only.  Nothing equals a text, and a text
on the left cannot be compared at all. -/
def alphaEquals (limits : Limits) (left right : Draft) : Except Failure Bool :=
  match left, right with
  | .text _, _ => .error (.fault (.noPart textType "alpha_equals"))
  | _, .text _ => .ok false
  | left, right => do
    let left ← left.print limits .structural .top
    let right ← right.print limits .structural .top
    return left = right

/-- The number that a draft denotes if it is a numeral. -/
def recognise? (d : Draft) : Option Nat :=
  match d.term? with
  | .ok t => Numeral.recognise? t
  | .error _ => none

/-- The reference to show for a part of a draft: a numeral, or a form with the same canonical
printing. -/
def referenceFor? (limits : Limits) (forms : List NamedForm) (d : Draft) :
    Except Failure (Option String) :=
  if d.kind? = some .variable then .ok none
  else
    match d.recognise? with
    | some n => .ok (some (Numeral.name n))
    | none => do
      let printed ← d.print limits .canonicalNames .top
      return (forms.find? fun form => form.printed = printed).map NamedForm.reference

/-- The style that shows whole parts by references. -/
def bySubterms (limits : Limits) (forms : List NamedForm) : Style :=
  { canonical := true, atom? := referenceFor? limits forms }

/-- The readable form of a draft, with the warnings given on the way. -/
def prettify (limits : Limits) (r : Registry) (structural : Bool) (d : Draft) :
    List Report × Except Failure String :=
  match d.recognise?, d.numeralTag? with
  | some n, _ => ([], .ok (Numeral.name n))
  | none, .error failure => ([], .error failure)
  | none, .ok (some tag) => ([], .ok tag)
  | none, .ok none =>
    let (warnings, forms) := NamedForm.ofRegistry limits r
    (warnings, forms.bind fun forms =>
      if structural then d.print limits (bySubterms limits forms) .top
      else (d.print limits .canonicalNames .top).map (Term.byText forms))

/-- The style for drafts that prints as the given one does for terms. -/
def Style.ofPrintStyle (style : PrintStyle) : Style :=
  { canonical := style.canonical
    numerals := style.numerals
    atom? := fun d =>
      match d.term? with
      | .ok t => .ok (style.atom? t)
      | .error _ => .ok none }

theorem bracket_ofTerm (t : Term) (context : PrintContext) (cs : List Char) :
    (ofTerm t).bracket context cs = t.bracket context cs := by
  cases t <;> rfl

theorem atomText?_ofTerm (style : PrintStyle) (depth : Nat) (t : Term) :
    atomText? .unlimited (.ofPrintStyle style) depth (ofTerm t) = .ok (t.atomText? style) := by
  have htag : (ofTerm t).numeralTag? = .ok (if Numeral.isTag t.tag then t.tag else none) := by
    cases t <;> rfl
  simp only [atomText?, Term.atomText?, Style.ofPrintStyle, term?_ofTerm, htag,
    Limits.allows_unlimited, Bool.not_true, Bool.false_eq_true, if_false]
  cases style.atom? t with
  | some s => rfl
  | none => by_cases hn : style.numerals <;> simp [hn]

theorem printFrom_ofTerm (style : PrintStyle) (depth : Nat) (scope : List (String × String))
    (counter : Nat) (context : PrintContext) (t : Term) :
    (ofTerm t).printFrom .unlimited (.ofPrintStyle style) depth scope counter context
      = .ok (t.printFrom style scope counter context) := by
  induction t generalizing depth scope counter context with
  | var m x =>
    have ha := atomText?_ofTerm style depth (.var m x)
    rw [ofTerm] at ha
    rw [ofTerm, printFrom, ha, Term.printFrom]
    cases (Term.var m x).atomText? style <;> simp [Term.bracket, Term.needsParentheses]
  | lam m x body ih =>
    have ha := atomText?_ofTerm style depth (.lam m x body)
    have hb := bracket_ofTerm (.lam m x body) context
    have hc : (Style.ofPrintStyle style).canonical = style.canonical := rfl
    rw [ofTerm] at ha hb
    rw [ofTerm, printFrom, ha, Term.printFrom]
    cases (Term.lam m x body).atomText? style with
    | some s => simp only [hb]
    | none => simp only [hc, ih, hb]
  | app m func arg ihf iha =>
    have ha := atomText?_ofTerm style depth (.app m func arg)
    have hb := bracket_ofTerm (.app m func arg) context
    rw [ofTerm] at ha hb
    rw [ofTerm, printFrom, ha, Term.printFrom]
    cases (Term.app m func arg).atomText? style with
    | some s => simp only [hb]
    | none => simp only [ihf, iha, hb]

theorem print_ofTerm (style : PrintStyle) (context : PrintContext) (t : Term) :
    (ofTerm t).print .unlimited (.ofPrintStyle style) context = .ok (t.print style context) := by
  simp [print, printFrom_ofTerm, Term.print, Except.map]

theorem structural_ofPrintStyle : Style.ofPrintStyle .structural = .structural := by
  simp only [Style.ofPrintStyle, Style.structural, PrintStyle.structural, Style.mk.injEq, true_and]
  funext d
  cases d.term? <;> rfl

theorem alphaEquals_ofTerm (t u : Term) :
    (ofTerm t).alphaEquals .unlimited (ofTerm u) = .ok (t.alphaEquals u) := by
  have h (v : Term) : (ofTerm v).print .unlimited .structural .top
      = .ok (v.print .structural .top) := by
    rw [← structural_ofPrintStyle]
    exact print_ofTerm _ _ v
  have hu := h u
  have ht := h t
  cases t <;> cases u <;> simp only [ofTerm] at hu ht <;>
    simp [ofTerm, alphaEquals, hu, ht, Term.alphaEquals] <;> rfl

end LambdaStepper.Draft
