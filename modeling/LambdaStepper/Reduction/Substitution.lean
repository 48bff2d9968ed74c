import LambdaStepper.Reduction.Freshener

/-! # Renaming and substitution

`rename` changes the free occurrences of a name that has no place in the term yet.  `substitute` puts
a term in the place of a name and renames the binders that would capture one of its free names.

Rebuilt nodes lose their tags, since they no longer are the named terms they came from; a tagged node
in which the name does not occur free is left alone. -/

namespace LambdaStepper.Term

/-- The term with its free occurrences of `old` renamed to `new`, a name that occurs nowhere in it. -/
def rename (old new : String) : Term → Term
  | .var m x => .var m (if x = old then new else x)
  | .lam m x body => if x = old then .lam m x body else .lam m x (body.rename old new)
  | .app m func arg => .app m (func.rename old new) (arg.rename old new)

/-- The abstraction with another parameter, a name that does not occur in its body; other terms stay
as they are. -/
def alphaConvert (new : String) : Term → Term
  | .lam m x body => .lam m new (body.rename x new)
  | t => t

@[simp] theorem size_rename (old new : String) (t : Term) : (t.rename old new).size = t.size := by
  induction t with
  | var => rfl
  | lam _ _ _ ih =>
    simp only [rename]
    split
    · rfl
    · simp only [size, ih]
  | app _ _ _ ihf iha => simp only [rename, size, ihf, iha]

/-- Whether substitution for a name leaves a term alone: it is tagged and the name is not free in
it. -/
def isUntouched (name : String) (t : Term) : Bool :=
  t.tag.isSome && !(t.freeNames []).contains name

/-- Puts `replacement` in the place of the free occurrences of `name`.  Binders of the names in
`captured`, those free in the replacement, are renamed first. -/
def substituteFrom (name : String) (replacement : Term) (captured : List String) :
    Term → Freshener → Term × Freshener
  | .var m x, fresh => (if x = name then replacement else .var m x, fresh)
  | .lam m x body, fresh =>
    if isUntouched name (.lam m x body) || x = name then (.lam m x body, fresh)
    else if x ∈ captured then
      let (x', fresh) := fresh.fresh x (body.allNames ++ captured ++ [name])
      let (body', fresh) := substituteFrom name replacement captured (body.rename x x') fresh
      (.lam m.untagged x' body', fresh)
    else
      let (body', fresh) := substituteFrom name replacement captured body fresh
      (.lam m.untagged x body', fresh)
  | .app m func arg, fresh =>
    if isUntouched name (.app m func arg) then (.app m func arg, fresh)
    else
      let (func', fresh) := substituteFrom name replacement captured func fresh
      let (arg', fresh) := substituteFrom name replacement captured arg fresh
      (.app m.untagged func' arg', fresh)
termination_by t _ => t.size
decreasing_by all_goals simp only [size_rename, size]; omega

/-- The term with `replacement` in the place of every free occurrence of `name`, and the freshener
after the renamings. -/
def substitute (t : Term) (name : String) (replacement : Term) (fresh : Freshener) :
    Term × Freshener :=
  substituteFrom name replacement (replacement.freeNames []) t fresh

end LambdaStepper.Term
