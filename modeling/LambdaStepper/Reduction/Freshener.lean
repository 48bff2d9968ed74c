import LambdaStepper.Term.Names

/-! # Fresh names

A freshener hands out names made of a base and a counter.  The counter never goes back, and a name is
given out at most once, even if different bases with different counts spell the same name.

Among `taken.length + 1` candidates with one base at least one is not taken, which bounds the search;
`candidate_injective` is the reason: different counts give different names. -/

namespace LambdaStepper

/-- The state of a supply of fresh names. -/
structure Freshener where
  /-- The count the next candidate is made with. -/
  counter : Nat := 0
  /-- The names given out so far. -/
  given : List String := []
  deriving DecidableEq, Repr

namespace Freshener

/-- The name made of a base and a count. -/
def candidate (base : String) (count : Nat) : String :=
  base ++ toString count

/-- The least count from `start` on whose candidate is not taken. -/
def search (base : String) (taken : List String) (start : Nat) : Nat :=
  let free := (List.range (taken.length + 1)).find? fun k => candidate base (start + k) ∉ taken
  start + free.getD 0

/-- A name with the given base that is not to be avoided and was not given out before. -/
def fresh (f : Freshener) (base : String) (avoid : List String) : String × Freshener :=
  let count := search base (avoid ++ f.given) f.counter
  let name := candidate base count
  (name, ⟨count + 1, name :: f.given⟩)

theorem toString_injective {m n : Nat} (h : toString m = toString n) : m = n := by
  have hd : Nat.toDigits 10 m = Nat.toDigits 10 n := by
    have := congrArg String.toList h
    simpa [toString, Nat.repr] using this
  have := congrArg (fun l => Nat.ofDigitChars 10 l 0) hd
  simpa using this

theorem candidate_injective {base : String} {m n : Nat}
    (h : candidate base m = candidate base n) : m = n := by
  apply toString_injective
  have := congrArg String.toList h
  simp only [candidate, String.toList_append, List.append_cancel_left_eq] at this
  exact String.ext this

end Freshener
end LambdaStepper
