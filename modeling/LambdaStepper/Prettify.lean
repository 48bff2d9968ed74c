import LambdaStepper.Syntax.Parser
import LambdaStepper.Term.Print

/-! # Readable forms

A reduced term is made readable again by showing the numerals and named terms inside it: a numeral as
`_N`, a term of the registry as `_NAME`.  Named terms are found either by their canonical printing in
the printing of the whole term (`byText`), or as whole subterms (`bySubterms`).

Only named terms worth it are looked for (`isWorthwhile`), the longest first.  Entries that are no
terms are left out with a warning. -/

namespace LambdaStepper

open Text

/-- A named term with its canonical printing. -/
structure NamedForm where
  name : String
  definition : String
  printed : String
  deriving DecidableEq, Repr

namespace NamedForm

/-- Named terms whose printing is no longer than this need a binder or parentheses in it. -/
def minPrintedLength : Nat :=
  5

/-- Whether two characters are the same letter, the second being a capital.  The long s is an s. -/
def isLetterFold (c capital : Char) : Bool :=
  c.toUpper = capital || (c.toNat = 0x17F && capital = 'S')

/-- Whether a text is the given word in any case, a line feed at its end aside. -/
def isWordInAnyCase (word : String) (cs : List Char) : Bool :=
  let capitals := word.toList
  (cs.take capitals.length).length = capitals.length
    && (List.zipWith isLetterFold cs capitals).all id
    && Numeral.atEnd (cs.drop capitals.length)

/-- Whether entries of this name are looked for however short they print: those named by a number and
the truth values. -/
def isAlwaysWorthwhile (name : String) : Bool :=
  let cs := name.toList
  let isAsciiDigit (c : Char) : Bool := '0' ≤ c && c ≤ '9'
  (cs.head?.any isAsciiDigit && Numeral.atEnd (cs.dropWhile isAsciiDigit))
    || isWordInAnyCase "TRUE" cs || isWordInAnyCase "FALSE" cs

/-- Whether a named term is worth looking for: it is no variable and not short and flat, or its name
asks for it. -/
def isWorthwhile (form : NamedForm) (term : Term) : Bool :=
  let cs := form.printed.toList
  let complex := cs.contains 'λ' || cs.contains '(' || minPrintedLength < cs.length
  !cs.isEmpty && ((complex && term.kind != .variable) || isAlwaysWorthwhile form.name)

/-- The warning on an entry that is no term, for the reason that is reported. -/
def skipWarning (entry : NamedTerm) (reason : Report) : Report :=
  (Report.about .generic ["could not prettify with named term '", "': ", ""]
    [entry.name, reason.plain]).unmarked

/-- The form of an entry: none if it is not worthwhile, and a warning if it is no term. -/
def ofEntry (limits : Limits) (r : Registry) (entry : NamedTerm) :
    Except Report (Except Failure (Option NamedForm)) :=
  match r.parse limits entry.definition with
  | .error fault =>
    match fault.failure with
    | .report reason => .error (skipWarning entry reason)
    | failure => .ok (.error failure)
  | .ok term =>
    .ok <| (term.printWithin limits .canonicalNames .top).map fun printed =>
      let form : NamedForm := ⟨entry.name, entry.definition, printed⟩
      if form.isWorthwhile term then some form else none

/-- The forms of entries in their order, with the warnings given on the way. -/
def collect (limits : Limits) (r : Registry) :
    List NamedTerm → List Report × Except Failure (List NamedForm)
  | [] => ([], .ok [])
  | entry :: entries =>
    match ofEntry limits r entry with
    | .error warning =>
      let (warnings, forms) := collect limits r entries
      (warning :: warnings, forms)
    | .ok (.error failure) => ([], .error failure)
    | .ok (.ok form?) =>
      let (warnings, forms) := collect limits r entries
      (warnings, forms.map (form?.toList ++ ·))

/-- The forms of all entries worth looking for, the longest printing first and otherwise in the order
of the registry, with the warnings given on the way. -/
def ofRegistry (limits : Limits) (r : Registry) :
    List Report × Except Failure (List NamedForm) :=
  let (warnings, forms) := collect limits r r.entries
  (warnings, forms.map fun forms =>
    forms.mergeSort fun a b => b.printed.length ≤ a.printed.length)

/-- How a form is shown. -/
def reference (form : NamedForm) : String :=
  "_" ++ form.name

end NamedForm

namespace Term

/-- The canonical printing in which every occurrence of a form's printing is replaced by a reference,
form by form. -/
def byText (forms : List NamedForm) (printed : String) : String :=
  let cs := forms.foldl (fun cs form => replaceAll form.printed.toList form.reference.toList cs)
    printed.toList
  String.ofList cs

/-- The reference to show for a subterm: a numeral, or a form with the same canonical printing. -/
def referenceFor? (forms : List NamedForm) (t : Term) : Option String :=
  if t.kind = .variable then none
  else
    match Numeral.recognise? t with
    | some n => some (Numeral.name n)
    | none =>
      let printed := t.canonicalText
      (forms.find? fun form => form.printed = printed).map NamedForm.reference

/-- The style that shows whole subterms by references. -/
def bySubterms (forms : List NamedForm) : PrintStyle :=
  { canonical := true, atom? := referenceFor? forms }

/-- The readable form of a term, with the warnings given on the way. -/
def prettify (limits : Limits) (r : Registry) (structural : Bool) (t : Term) :
    List Report × Except Failure String :=
  match Numeral.recognise? t with
  | some n => ([], .ok (Numeral.name n))
  | none =>
    match if Numeral.isTag t.tag then t.tag else none with
    | some tag => ([], .ok tag)
    | none =>
      let (warnings, forms) := NamedForm.ofRegistry limits r
      (warnings, forms.bind fun forms =>
        if structural then t.printWithin limits (bySubterms forms) .top
        else (t.printWithin limits .canonicalNames .top).map (byText forms))

end Term
end LambdaStepper
