import Mathlib.Data.List.Nodup
import Mathlib.Data.List.Range
import LambdaStepper.Identity.Supply

/-! # Giving out identities

Identities are numbered by the time at which they are given out: `IdSupply.identity n` is the one after `n`
others, and `IdSupply.after n` the supply that is left behind them.  The numbers repeat after
`IdSupply.capacity` identities and not before (`identity_injective`).

What a computation does with the supply is said by `Issuing.Spec`: how many identities it takes, whatever the
supply, and how its value is related to them.  There is one rule for each way to build a computation. -/

namespace LambdaStepper

namespace IdSupply

/-- How many identities there are before their numbers start again. -/
def capacity : Nat :=
  greatest.toNat + 1

theorem capacity_eq : capacity = 10000001 :=
  rfl

/-- The identity that is given out after `time` others. -/
def identity (time : Nat) : Int :=
  (time % capacity : Nat)

/-- The supply that is left when `time` identities were given out. -/
def after (time : Nat) : IdSupply :=
  (issueMany time {}).2

theorem issue_of_le {s : IdSupply} (h : s.next ≤ greatest) : s.issue = (s.next, ⟨s.next + 1⟩) := by
  simp only [issue]
  rw [if_neg (by omega)]

theorem issue_of_lt {s : IdSupply} (h : greatest < s.next) : s.issue = (0, ⟨1⟩) := by
  simp only [issue]
  rw [if_pos h]
  rfl

theorem issueMany_add (k l : Nat) (s : IdSupply) :
    s.issueMany (k + l) = ((s.issueMany k).1 ++ ((s.issueMany k).2.issueMany l).1,
      ((s.issueMany k).2.issueMany l).2) := by
  induction k generalizing s with
  | zero => simp [issueMany]
  | succ k ih => simp only [Nat.succ_add, issueMany, ih, List.cons_append]

theorem after_add (n k : Nat) : after (n + k) = ((after n).issueMany k).2 := by
  simp only [after, issueMany_add]

theorem issue_after (n : Nat) : (after n).issue = (identity n, after (n + 1)) := by
  have hnext : (after n).issue.1 = identity n := by
    induction n with
    | zero => rfl
    | succ n ih =>
      have hsupply : after (n + 1) = ⟨identity n + 1⟩ := by
        rw [after_add, ← ih]
        rfl
      rw [hsupply]
      by_cases hlast : n % capacity = 10000000
      · rw [issue_of_lt] <;> simp only [identity, capacity_eq, greatest] at hlast ⊢ <;> omega
      · rw [issue_of_le] <;> simp only [identity, capacity_eq, greatest] at hlast ⊢ <;> omega
  have hrest : (after n).issue.2 = after (n + 1) := (after_add n 1).symm
  rw [← hnext, ← hrest]

theorem issueMany_after (n k : Nat) :
    (after n).issueMany k = ((List.range' n k).map identity, after (n + k)) := by
  induction k generalizing n with
  | zero => rfl
  | succ k ih =>
    simp only [issueMany, issue_after, ih, List.range'_succ, List.map_cons]
    rw [Nat.add_right_comm]
    rfl

/-- Identities that are given out within `capacity` of each other are different. -/
theorem identity_injective {i j : Nat} (h : identity i = identity j) (hij : i < j + capacity)
    (hji : j < i + capacity) : i = j := by
  have hmod : i % capacity = j % capacity := Int.ofNat_inj.mp h
  rw [capacity_eq] at hmod hij hji
  omega

theorem nodup_issueMany_after {n k : Nat} (hk : k ≤ capacity) : ((after n).issueMany k).1.Nodup := by
  rw [issueMany_after]
  refine List.Nodup.map_on ?_ List.nodup_range'
  intro i hi j hj h
  rw [List.mem_range'_1] at hi hj
  exact identity_injective h (by omega) (by omega)

end IdSupply

namespace Issuing

variable {α β : Type}

/-- A computation takes exactly `count` identities, whatever the supply. -/
def Issues (c : Issuing α) (count : Nat) : Prop :=
  ∀ s, (c s).2 = (s.issueMany count).2

/-- A computation takes exactly `count` identities, whatever the supply, and its value is related to them. -/
def Spec (c : Issuing α) (count : Nat) (post : List Int → α → Prop) : Prop :=
  ∀ s, (c s).2 = (s.issueMany count).2 ∧ post (s.issueMany count).1 (c s).1

/-- The number of identities is determined: from a supply far enough from its end, each of them moves the
next number by one. -/
theorem Issues.unique {c : Issuing α} {k l : Nat} (hk : c.Issues k) (hl : c.Issues l) : k = l := by
  have hnext : ∀ (count : Nat) (n : Int), n + count ≤ IdSupply.greatest →
      ((⟨n⟩ : IdSupply).issueMany count).2 = ⟨n + count⟩ := by
    intro count
    induction count with
    | zero =>
      intro n _
      simp [IdSupply.issueMany]
    | succ count ih =>
      intro n h
      push_cast at h ⊢
      have hissue : (⟨n⟩ : IdSupply).issue = (n, ⟨n + 1⟩) := IdSupply.issue_of_le (by simp only; omega)
      simp only [IdSupply.issueMany, hissue]
      rw [ih (n + 1) (by omega)]
      congr 1
      omega
  have hsame := (hk ⟨-(k + l)⟩).symm.trans (hl ⟨-(k + l)⟩)
  rw [hnext k _ (by simp only [IdSupply.greatest]; omega),
    hnext l _ (by simp only [IdSupply.greatest]; omega)] at hsame
  have := congrArg IdSupply.next hsame
  simp only at this
  omega

theorem Spec.issues {c : Issuing α} {count : Nat} {post : List Int → α → Prop} (h : c.Spec count post) :
    c.Issues count :=
  fun s => (h s).1

theorem Spec.imp {c : Issuing α} {count : Nat} {post post' : List Int → α → Prop} (h : c.Spec count post)
    (himp : ∀ issued a, post issued a → post' issued a) : c.Spec count post' :=
  fun s => ⟨(h s).1, himp _ _ (h s).2⟩

theorem Spec.and_of_forall {c : Issuing α} {count : Nat} {post : List Int → α → Prop} (h : c.Spec count post)
    {holds : α → Prop} (hholds : ∀ s, holds (c s).1) :
    c.Spec count fun issued a => post issued a ∧ holds a :=
  fun s => ⟨(h s).1, (h s).2, hholds s⟩

theorem Spec.pure {post : List Int → α → Prop} {a : α} (h : post [] a) :
    (Pure.pure a : Issuing α).Spec 0 post :=
  fun _ => ⟨rfl, h⟩

theorem spec_new : new.Spec 1 fun issued i => issued = [i] :=
  fun _ => ⟨rfl, rfl⟩

theorem Spec.bind {c : Issuing α} {k : Nat} {post : List Int → α → Prop} (h : c.Spec k post)
    {f : α → Issuing β} {l : Nat} {post' : List Int → β → Prop}
    (hf : ∀ issued a, post issued a → (f a).Spec l fun issued' b => post' (issued ++ issued') b) :
    (c >>= f).Spec (k + l) post' := by
  intro s
  obtain ⟨hrest, hpost⟩ := h s
  obtain ⟨hrest', hpost'⟩ := hf _ _ hpost (c s).2
  rw [IdSupply.issueMany_add, ← hrest]
  exact ⟨hrest', hpost'⟩

theorem Spec.map {c : Issuing α} {count : Nat} {post : List Int → α → Prop} (h : c.Spec count post)
    {f : α → β} {post' : List Int → β → Prop} (hf : ∀ issued a, post issued a → post' issued (f a)) :
    (do return f (← c) : Issuing β).Spec count post' :=
  fun s => ⟨(h s).1, hf _ _ (h s).2⟩

theorem Spec.root {f : Int → α} {post : List Int → α → Prop} (h : ∀ i, post [i] (f i)) :
    (do return f (← new) : Issuing α).Spec 1 post :=
  spec_new.bind fun _ i hi => .pure (by rw [hi]; exact h i)

end Issuing

end LambdaStepper
