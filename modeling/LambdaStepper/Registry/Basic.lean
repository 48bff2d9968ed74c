/-! # The registry of named terms

A registry holds named terms: the built-in ones, then those the user defined.  A definition is kept
as text and read anew wherever the name is used.  The first entry with a name counts. -/

namespace LambdaStepper

/-- An entry of a registry. -/
structure NamedTerm where
  name : String
  /-- The definition, as it is written. -/
  definition : String
  description : Option String := none
  deriving DecidableEq, Repr

/-- The tag of nodes that come from an entry: the way it is referred to. -/
def NamedTerm.tag (entry : NamedTerm) : String :=
  "_" ++ entry.name

/-- Named terms, the built-in ones first. -/
structure Registry where
  builtins : List NamedTerm
  custom : List NamedTerm := []
  deriving DecidableEq, Repr

namespace Registry

/-- The terms every program knows. -/
def builtinTerms : List NamedTerm :=
  [⟨"ID", "λx.x", some "Identity function (I)"⟩,
   ⟨"TRUE", "λx.λy.x", some "Church Boolean True (Kestrel)"⟩,
   ⟨"FALSE", "λx.λy.y", some "Church Boolean False (Kite)"⟩,
   ⟨"NOT", "λp.p (λx.λy.y) (λx.λy.x)", some "Boolean NOT (λp.p FALSE TRUE)"⟩,
   ⟨"AND", "λp.λq.p q (λx.λy.y)", some "Boolean AND (λp.λq.p q FALSE)"⟩,
   ⟨"OR", "λp.λq.p (λx.λy.x) q", some "Boolean OR (λp.λq.p TRUE q)"⟩,
   ⟨"ZERO", "λf.λx.x", some "Church Numeral 0"⟩,
   ⟨"ONE", "λf.λx.f x", some "Church Numeral 1"⟩,
   ⟨"TWO", "λf.λx.f (f x)", some "Church Numeral 2"⟩,
   ⟨"THREE", "λf.λx.f (f (f x))", some "Church Numeral 3"⟩,
   ⟨"SUCC", "λn.λf.λx.f (n f x)", some "Successor: λn.λf.λx.f (n f x)"⟩,
   ⟨"PLUS", "λm.λn.λf.λx.m f (n f x)", some "Addition: λm.λn.λf.λx.m f (n f x)"⟩,
   ⟨"MULT", "λm.λn.λf.m (n f)", some "Multiplication: λm.λn.λf.m (n f)"⟩,
   ⟨"POW", "λb.λe.e b", some "Exponentiation (b^e): λb.λe.e b (base, exponent)"⟩,
   ⟨"Y", "λf.(λx.f (x x)) (λx.f (x x))", some "Y Combinator (fixed-point combinator)"⟩]

/-- The registry a session starts with. -/
def initial : Registry :=
  ⟨builtinTerms, []⟩

/-- All entries, the built-in ones first. -/
def entries (r : Registry) : List NamedTerm :=
  r.builtins ++ r.custom

/-- The names of the entries. -/
def names (r : Registry) : List String :=
  r.entries.map NamedTerm.name

/-- The entry of the given name. -/
def lookup (r : Registry) (name : String) : Option NamedTerm :=
  r.entries.find? fun entry => entry.name = name

/-- Whether some entry has the name. -/
def contains (r : Registry) (name : String) : Bool :=
  (r.lookup name).isSome

/-- The registry with one more entry behind the others. -/
def append (r : Registry) (entry : NamedTerm) : Registry :=
  { r with custom := r.custom ++ [entry] }

theorem contains_iff (r : Registry) (name : String) : r.contains name = true ↔ name ∈ r.names := by
  simp [contains, lookup, names, List.find?_isSome]

@[simp] theorem entries_append (r : Registry) (entry : NamedTerm) :
    (r.append entry).entries = r.entries ++ [entry] := by
  simp [entries, append]

end Registry
end LambdaStepper
