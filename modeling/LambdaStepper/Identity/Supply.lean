/-! # Node identities

Programs that draw terms refer to nodes by identities, numbers given out one after the other.  Past
`IdSupply.greatest` the numbers start again from zero, so identities are unique within the nodes that
live at one time, not forever. -/

namespace LambdaStepper

/-- The number of the next identity. -/
structure IdSupply where
  next : Int := 0
  deriving DecidableEq, Repr

namespace IdSupply

/-- The greatest number given out before the numbers start again. -/
def greatest : Int :=
  10000000

/-- The next number, and the supply behind it. -/
def issue (s : IdSupply) : Int × IdSupply :=
  let n := if s.next > greatest then 0 else s.next
  (n, ⟨n + 1⟩)

/-- The next `count` numbers, and the supply behind them. -/
def issueMany : (count : Nat) → IdSupply → List Int × IdSupply
  | 0, s => ([], s)
  | count + 1, s =>
    let (n, s) := s.issue
    let (ns, s) := issueMany count s
    (n :: ns, s)

end IdSupply

/-- Computations that give out identities. -/
abbrev Issuing := StateM IdSupply

/-- A new identity. -/
def Issuing.new : Issuing Int :=
  fun s => s.issue

end LambdaStepper
