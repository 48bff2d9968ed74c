import LambdaStepper.Registry.Expansion
import Mathlib.Data.List.Count
import Mathlib.Tactic.Ring

/-! # Nested parentheses

`balance` is the number of parentheses that a text opens without closing them, and `depthAfter` the number of
those that are open behind it, which there is only if the text closes none that is not open.  If there is one,
it is that of the balance (`balance_of_depthAfter`), and it grows with the number of those that were open before
(`depthAfter_add`).

A text is `Nested` if it closes all the parentheses that it opens and no others.  It may stand anywhere without
a change to the parentheses that are open (`Nested.depthAfter`). -/

namespace LambdaStepper.Syntax

/-- The number of parentheses that a text opens without closing them. -/
def balance (cs : List Char) : Int :=
  cs.count '(' - cs.count ')'

@[simp] theorem balance_nil : balance [] = 0 :=
  rfl

@[simp] theorem balance_append (cs ds : List Char) : balance (cs ++ ds) = balance cs + balance ds := by
  simp only [balance, List.count_append]
  omega

theorem balance_cons (c : Char) (cs : List Char) : balance (c :: cs) = balance [c] + balance cs :=
  balance_append [c] cs

theorem balance_eq_zero {cs : List Char} (h : ∀ c ∈ cs, c ∉ ['(', ')']) : balance cs = 0 := by
  have hopen : cs.count '(' = 0 := List.count_eq_zero.mpr fun hmem => h _ hmem (by decide)
  have hclose : cs.count ')' = 0 := List.count_eq_zero.mpr fun hmem => h _ hmem (by decide)
  rw [balance, hopen, hclose]
  rfl

theorem balance_opening {tag : List Char} (htag : ∀ c ∈ tag, c ∉ [markClose, '(', ')']) :
    balance ('(' :: writeMark tag) = 1 := by
  have hzero : balance tag = 0 := by
    refine balance_eq_zero fun c hc hmem => htag c hc ?_
    exact List.mem_cons_of_mem _ hmem
  have hopen : balance [markOpen] = 0 := by decide
  have hclose : balance [markClose] = 0 := by decide
  have hparen : balance ['('] = 1 := by decide
  rw [writeMark, balance_cons, balance_append, balance_cons markOpen, hzero, hopen, hclose, hparen]
  rfl

/-! ### Open parentheses -/

/-- The number of open parentheses behind a character, unless it closes one that is not open. -/
def depthBehind (depth : Nat) (c : Char) : Option Nat :=
  if c = '(' then some (depth + 1)
  else if c = ')' then if depth = 0 then none else some (depth - 1)
  else some depth

/-- The number of open parentheses behind a text, unless it closes one that is not open. -/
def depthAfter (depth : Nat) (cs : List Char) : Option Nat :=
  cs.foldlM depthBehind depth

variable {depth depth' : Nat} {c : Char} {cs : List Char}

@[simp] theorem depthAfter_nil (depth : Nat) : depthAfter depth [] = some depth :=
  rfl

@[simp] theorem depthAfter_cons (depth : Nat) (c : Char) (cs : List Char) :
    depthAfter depth (c :: cs) = (depthBehind depth c).bind (depthAfter · cs) :=
  rfl

@[simp] theorem depthAfter_append (depth : Nat) (cs ds : List Char) :
    depthAfter depth (cs ++ ds) = (depthAfter depth cs).bind (depthAfter · ds) :=
  List.foldlM_append

theorem depthBehind_eq_some_iff : depthBehind depth c = some depth' ↔ (depth' : Int) = depth + balance [c] := by
  have hbalance : balance [c] = if c = '(' then 1 else if c = ')' then -1 else 0 := by
    split
    · next heq => rw [heq]; rfl
    split
    · next heq => rw [heq]; rfl
    · exact balance_eq_zero (List.forall_mem_singleton.mpr (by simp [*]))
  rw [hbalance]
  unfold depthBehind
  split_ifs <;> simp only [Option.some.injEq, false_iff] <;> omega

theorem balance_of_depthAfter (h : depthAfter depth cs = some depth') : (depth' : Int) = depth + balance cs := by
  induction cs generalizing depth with
  | nil =>
      obtain rfl := Option.some.inj h
      simp
  | cons c cs ih =>
      obtain ⟨behind, hbehind, hafter⟩ := Option.bind_eq_some_iff.mp h
      rw [depthBehind_eq_some_iff] at hbehind
      rw [ih hafter, hbehind, balance_cons c cs]
      omega

theorem depthAfter_add (h : depthAfter depth cs = some depth') (more : Nat) :
    depthAfter (depth + more) cs = some (depth' + more) := by
  induction cs generalizing depth with
  | nil => rw [depthAfter_nil, Option.some.inj h]
  | cons c cs ih =>
      obtain ⟨behind, hbehind, hafter⟩ := Option.bind_eq_some_iff.mp h
      have hmore : depthBehind (depth + more) c = some (behind + more) := by
        rw [depthBehind_eq_some_iff] at hbehind ⊢
        omega
      rw [depthAfter_cons, hmore, Option.bind_some, ih hafter]

theorem depthBehind_of_notMem (h : c ∉ ['(', ')']) (depth : Nat) : depthBehind depth c = some depth := by
  rw [depthBehind_eq_some_iff, balance_eq_zero (List.forall_mem_singleton.mpr h), Int.add_zero]

theorem depthAfter_of_notMem (h : ∀ c ∈ cs, c ∉ ['(', ')']) (depth : Nat) :
    depthAfter depth cs = some depth := by
  induction cs generalizing depth with
  | nil => rfl
  | cons c cs ih =>
      obtain ⟨hc, hcs⟩ := List.forall_mem_cons.mp h
      rw [depthAfter_cons, depthBehind_of_notMem hc, Option.bind_some, ih hcs]

theorem depthAfter_opening {tag : List Char} (htag : ∀ c ∈ tag, c ∉ [markClose, '(', ')']) (depth : Nat) :
    depthAfter depth ('(' :: writeMark tag) = some (depth + 1) := by
  have hmark : ∀ c ∈ writeMark tag, c ∉ ['(', ')'] := by
    intro c hc hmem
    rw [writeMark, List.cons_append, List.mem_cons, List.mem_append, List.mem_singleton] at hc
    rcases hc with rfl | hc | rfl
    · exact absurd hmem (by decide)
    · exact htag c hc (List.mem_cons_of_mem _ hmem)
    · exact absurd hmem (by decide)
  have hparen : depthBehind depth '(' = some (depth + 1) := rfl
  rw [depthAfter_cons, hparen, Option.bind_some, depthAfter_of_notMem hmark]

/-! ### Nested texts -/

/-- Whether a text closes all the parentheses that it opens, and no others. -/
def Nested (cs : List Char) : Prop :=
  depthAfter 0 cs = some 0

instance (cs : List Char) : Decidable (Nested cs) :=
  inferInstanceAs (Decidable (_ = _))

theorem Nested.depthAfter (h : Nested cs) (depth : Nat) : depthAfter depth cs = some depth := by
  simpa using depthAfter_add h depth

theorem Nested.balance_eq_zero (h : Nested cs) : balance cs = 0 := by
  simpa using (balance_of_depthAfter h).symm

/-! ### Texts in parentheses -/

theorem Nested.depthAfter_parens (h : Nested cs) (depth : Nat) (ds : List Char) :
    Syntax.depthAfter depth ('(' :: (cs ++ ')' :: ds)) = Syntax.depthAfter depth ds := by
  have hopening : depthBehind depth '(' = some (depth + 1) := rfl
  have hclosing : depthBehind (depth + 1) ')' = some depth := rfl
  rw [depthAfter_cons, hopening, Option.bind_some, depthAfter_append, h.depthAfter, Option.bind_some,
    depthAfter_cons, hclosing, Option.bind_some]

section Wrap

variable {tag : List Char} (htag : ∀ c ∈ tag, c ∉ [markClose, '(', ')'])

include htag

theorem balance_wrap (cs : List Char) : balance (Registry.wrap true tag cs) = balance cs := by
  have hshape : Registry.wrap true tag cs = '(' :: writeMark tag ++ (cs ++ [')']) := by
    simp [Registry.wrap]
  rw [hshape, balance_append, balance_append, balance_opening htag, show balance [')'] = -1 by decide]
  ring

theorem Nested.wrap (h : Nested cs) : Nested (Registry.wrap true tag cs) := by
  have hshape : Registry.wrap true tag cs = '(' :: writeMark tag ++ (cs ++ [')']) := by
    simp [Registry.wrap]
  rw [Nested, hshape, depthAfter_append, depthAfter_opening htag, Option.bind_some, depthAfter_append,
    h.depthAfter, Option.bind_some]
  rfl

end Wrap

end LambdaStepper.Syntax
