import Mathlib.Logic.Function.Iterate
import LambdaStepper.Proofs.Identity.NumeralTags
import LambdaStepper.Proofs.Identity.Parsing
import LambdaStepper.Proofs.Reduction.Highlights

/-! # Identities come again

A term whose nodes took as many identities as there are has every one of them (`mem_ids_of_capacity_le`), so
whatever node is built next shares its identity with one in the term.  A step on a small term can lead there.
`Term.doubling n` puts two copies of its argument in the place of it, and does so `n` times over, which makes the
argument as large as one likes in a few steps (`term_steps_doubling`).  In the end the redex that is left has the
identity of a node in its argument (`id_mem_ids_of_doubling`), and when it is highlighted by its identity, so is
that node (`exists_litAt_of_doubling`). -/

namespace LambdaStepper

open IdSupply

theorem IdSupply.mem_issueMany_after {now count : Nat} (h : capacity ≤ count) (time : Nat) :
    identity time ∈ ((after now).issueMany count).1 := by
  rw [issueMany_after, List.mem_map]
  refine ⟨now + (time + (capacity - now % capacity)) % capacity, ?_, ?_⟩
  · rw [List.mem_range'_1]
    rw [capacity_eq] at h ⊢
    omega
  · unfold identity
    congr 1
    rw [capacity_eq]
    omega

namespace Term

/-- An abstraction that puts two copies of its argument in the place of it, so many times. -/
def doubling : Nat → Term
  | 0 => .lam {} "x" (.var {} "x")
  | n + 1 => .lam {} "x" (.app {} (doubling n) (.app {} (.var {} "x") (.var {} "x")))

/-- The text of a doubling. -/
def doublingText : Nat → String
  | 0 => "λx.x"
  | n + 1 => "λx.(" ++ doublingText n ++ ") (x x)"

/-- A term applied to itself. -/
def twice (t : Term) : Term :=
  .app {} t t

theorem size_iterate_twice (t : Term) (n : Nat) : (twice^[n] t).size + 1 = 2 ^ n * (t.size + 1) := by
  induction n with
  | zero => simp
  | succ n ih =>
      rw [Function.iterate_succ_apply', twice, size, Nat.pow_succ, Nat.mul_right_comm, ← ih]
      omega

theorem reduceStep_doubling (n : Nat) (t : Term) :
    (app {} (doubling (n + 1)) t).reduceStep.result = app {} (doubling n) t.twice := by
  have hshadowed : substituteFrom "x" t (t.freeNames []) (doubling n) {} = (doubling n, {}) := by
    cases n <;> simp [doubling, substituteFrom]
  simp [doubling, reduceStep, contract, substitute, substituteFrom, isUntouched, tag, mark, hshadowed, twice,
    Mark.untagged]

end Term

namespace Node

theorem steps_succ (n : Node) (count : Nat) (s : IdSupply) :
    n.steps (count + 1) s = (((n.steps count s).1.reduceStep (n.steps count s).2).1.1,
      ((n.steps count s).1.reduceStep (n.steps count s).2).2) :=
  rfl

/-- Steps leave a supply behind from which only identities have been taken. -/
theorem exists_after_steps (n : Node) (count now : Nat) : ∃ later, (n.steps count (after now)).2 = after later := by
  induction count with
  | zero => exact ⟨now, rfl⟩
  | succ count ih =>
      obtain ⟨later, hlater⟩ := ih
      obtain ⟨taken, hspec⟩ := exists_spec_reduceStep (n.steps count (after now)).1
      refine ⟨later + taken, ?_⟩
      rw [steps_succ, hlater, hspec.issues, after_add]

theorem term_steps_doubling (rest count : Nat) {n : Node} {t : Term}
    (h : n.term = .app {} (Term.doubling (rest + count)) t) (s : IdSupply) :
    (n.steps count s).1.term = .app {} (Term.doubling rest) (Term.twice^[count] t) := by
  induction count generalizing rest with
  | zero => exact h
  | succ count ih =>
      have hmore : n.term = .app {} (Term.doubling (rest + 1 + count)) t := by
        rw [h, Nat.add_right_comm, Nat.add_assoc]
      rw [steps_succ, term_reduceStep, ih (rest + 1) hmore, Term.reduceStep_doubling, Function.iterate_succ_apply']

/-! ### A shared identity -/

/-- A term with as many nodes as there are identities has all of them, if each node has another one of those that
were taken for it. -/
theorem mem_ids_of_capacity_le {n : Node} {now : Nat} (h : n.NewIn ((after now).issueMany n.size).1)
    (hsize : capacity ≤ n.size) (time : Nat) : identity time ∈ n.ids := by
  have hlength : ((after now).issueMany n.size).1.length ≤ n.ids.length := by
    rw [issueMany_after, List.length_map, List.length_range', length_ids]
    exact le_rfl
  rw [(h.perm_of_length_le hlength).mem_iff]
  exact mem_issueMany_after hsize time

/-- Two copies of a term, the one applied to the other. -/
def clonedTwice (n : Node) : Issuing Node := do
  let func ← n.clone
  let arg ← n.clone
  return .app (← Issuing.new) {} func arg

theorem spec_clonedTwice (n : Node) :
    n.clonedTwice.Spec (n.size + (n.size + 1)) fun issued n' => n'.NewIn issued :=
  n.spec_clone.bind fun _ _ hfunc => n.spec_clone.bind fun _ _ harg => .root fun i => hfunc.app harg i {}

theorem term_clonedTwice (n : Node) (s : IdSupply) : (n.clonedTwice s).1.term = n.term.twice :=
  congrArg₂ (Term.app {}) (n.term_clone s) (n.term_clone (n.clone s).2)

theorem exists_of_term_eq_var {n : Node} {m : Mark} {x : String} (h : n.term = .var m x) :
    ∃ i, n = .var i m x := by
  cases n with
  | lam | app => cases h
  | var i =>
      cases h
      exact ⟨i, rfl⟩

theorem exists_of_term_eq_lam {n : Node} {m : Mark} {x : String} {body : Term} (h : n.term = .lam m x body) :
    ∃ i body', n = .lam i m x body' ∧ body'.term = body := by
  cases n with
  | var | app => cases h
  | lam i _ _ body' =>
      cases h
      exact ⟨i, body', rfl, rfl⟩

theorem exists_of_term_eq_app {n : Node} {m : Mark} {func arg : Term} (h : n.term = .app m func arg) :
    ∃ i func' arg', n = .app i m func' arg' ∧ func'.term = func ∧ arg'.term = arg := by
  cases n with
  | var | lam => cases h
  | app i _ func' arg' =>
      cases h
      exact ⟨i, func', arg', rfl, rfl, rfl⟩

theorem reduceStep_doubling {n : Node} {rest : Nat} {t : Term}
    (h : n.term = .app {} (Term.doubling (rest + 1)) t) : ∃ func arg : Node, arg.term = t ∧
      ∀ s, (n.reduceStep s).1.1 = .app (arg.clonedTwice (func.clone s).2).2.issue.1 {} (func.clone s).1
        (arg.clonedTwice (func.clone s).2).1 := by
  obtain ⟨i, head, arg, rfl, hhead, harg⟩ := exists_of_term_eq_app h
  obtain ⟨j, body, rfl, hbody⟩ := exists_of_term_eq_lam hhead
  obtain ⟨k, func, pair, rfl, hfunc, hpair⟩ := exists_of_term_eq_app hbody
  refine ⟨func, arg, harg, fun s => ?_⟩
  have hkept : substituting "x" arg (arg.term.freeNames []) func {} = (do return (← func.clone, {})) := by
    cases rest <;> obtain ⟨l, inner, rfl, -⟩ := exists_of_term_eq_lam hfunc
      <;> exact substituting_lam_untouched _ _ _ (by simp) {}
  have hcloned : substituting "x" arg (arg.term.freeNames []) pair {} = (do return (← arg.clonedTwice, {})) := by
    obtain ⟨l, left, right, rfl, hleft, hright⟩ := exists_of_term_eq_app hpair
    obtain ⟨l₁, rfl⟩ := exists_of_term_eq_var hleft
    obtain ⟨l₂, rfl⟩ := exists_of_term_eq_var hright
    refine (substituting_app _ _ _ (by simp [Term.isUntouched, Term.tag, Term.mark]) {}).trans ?_
    simp only [substituting_var, if_true]
    rfl
  have hsubstitute : (Node.app k {} func pair).substitute "x" arg {} = (do
      let func' ← func.clone
      let arg' ← arg.clonedTwice
      return (.app (← Issuing.new) {} func' arg', {})) := by
    refine (substituting_app _ _ _ (by simp [Term.isUntouched, Term.tag, Term.mark]) {}).trans ?_
    simp only [hkept, hcloned, bind_assoc, pure_bind]
    rfl
  change ((Node.app k {} func pair).substitute "x" arg {} s).1.1 = _
  rw [hsubstitute]
  rfl

/-- When a doubling has been used up and its argument has come to as many nodes as there are identities, the identity
of the redex that is left is that of a node in its argument. -/
theorem id_mem_ids_of_doubling {n : Node} {count : Nat} {t : Term}
    (h : n.term = .app {} (Term.doubling (count + 1)) t) (hsize : capacity ≤ (Term.twice^[count + 1] t).size)
    (now : Nat) : ∃ i func arg later, n.steps (count + 1) (after now) = (.app i {} func arg, after later) ∧
      func.term = Term.doubling 0 ∧ i ∈ arg.ids := by
  obtain ⟨later, hlater⟩ := n.exists_after_steps count now
  obtain ⟨last, hlast⟩ := n.exists_after_steps (count + 1) now
  have hbefore := term_steps_doubling 1 count (by rw [h, Nat.add_comm]) (after now)
  have hafter := term_steps_doubling 0 (count + 1) (by rw [h, Nat.zero_add]) (after now)
  obtain ⟨func, arg, -, hstep⟩ := reduceStep_doubling hbefore
  have hroot := hstep (after later)
  have hfunc : (func.clone (after later)).2 = after (later + func.size) := by
    rw [func.spec_clone.issues, after_add]
  rw [hfunc] at hroot
  obtain ⟨hrest, hnew⟩ := arg.spec_clonedTwice (after (later + func.size))
  rw [hrest, ← after_add, issue_after] at hroot
  rw [← hlater] at hroot
  rw [steps_succ, hroot] at hafter
  obtain ⟨-, hdoubling, htwice⟩ := Term.app.inj hafter
  refine ⟨_, _, _, last, Prod.ext hroot hlast, hdoubling, ?_⟩
  have hcount : (arg.clonedTwice (after (later + func.size))).1.size = arg.size + (arg.size + 1) := by
    rw [size, term_clonedTwice]
    rfl
  rw [← hcount] at hnew
  apply mem_ids_of_capacity_le hnew
  rwa [size, htwice]

/-! ### What an identity highlights -/

theorem exists_litAt_highlight {n : Node} {i : Int} (h : i ∈ n.ids) (isHead : Bool) (s : IdSupply) :
    ∃ k, (n.highlight (some i) isHead s).1.term.LitAt k := by
  induction n generalizing isHead s with
  | var j m x =>
      obtain rfl := List.mem_singleton.mp h
      exact ⟨0, _, rfl, by simp [Term.mark]⟩
  | lam j m x body ih =>
      rcases List.mem_cons.mp h with rfl | hbody
      · exact ⟨0, Term.litAt_lam.mpr (.inl ⟨rfl, by simp⟩)⟩
      · obtain ⟨k, hk⟩ := ih hbody false s
        exact ⟨k + 1, Term.litAt_lam.mpr (.inr ⟨k, rfl, hk⟩)⟩
  | app j m func arg ihf iha =>
      rcases List.mem_cons.mp h with rfl | hbelow
      · exact ⟨0, Term.litAt_app.mpr (.inl ⟨rfl, by simp⟩)⟩
      · rcases List.mem_append.mp hbelow with hfunc | harg
        · obtain ⟨k, hk⟩ := ihf hfunc _ s
          exact ⟨k + 1, Term.litAt_app.mpr (.inr (.inl ⟨k, rfl, hk⟩))⟩
        · obtain ⟨k, hk⟩ := iha harg false (func.highlight (some i) (some i = some j) s).2
          exact ⟨_, Term.litAt_app.mpr (.inr (.inr ⟨k, rfl, hk⟩))⟩

/-- A redex at the root is highlighted by its identity, and so is whatever has the same one. -/
theorem term_markRedex_root (i j : Int) (m m' : Mark) (x : String) (body arg : Node) (s : IdSupply) :
    ∃ s' s'', ((app i m (lam j m' x body) arg).markRedex s).1.1.term
      = .app ⟨m.tag, true⟩ (.lam ⟨m'.tag, true⟩ x
          (body.highlight (some i) false s').1.term) (arg.highlight (some i) false s'').1.term := by
  have hnext : (app i m (lam j m' x body) arg).term.nextRedex? = some 0 := by
    rw [Term.nextRedex?_eq_redex?]
    rfl
  refine ⟨s, ((lam j m' x body).highlight (some i) true s).2, ?_⟩
  have hroot : decide (some i = some i) = true := by simp
  rw [markRedex, hnext]
  change Term.app ⟨m.tag, false || decide (some i = some i)⟩
    (.lam ⟨m'.tag, decide (some i = some i) || decide (some i = some j)⟩ x _)
    (arg.highlight (some i) false ((lam j m' x body).highlight (some i) (some i = some i) s).2).1.term = _
  rw [hroot]
  rfl

/-- When a doubling has been used up and its argument has come to as many nodes as there are identities, more is
highlighted than the redex that is left and its abstraction, and the step behind that does not take it away. -/
theorem exists_litAt_of_doubling {n : Node} {count : Nat} {t : Term} (h : n.term = .app {} (Term.doubling count) t)
    (hcount : 0 < count) (hsize : capacity ≤ (Term.twice^[count] t).size) (now : Nat) :
    let run := n.steps count (after now)
    let marked := run.1.markRedex run.2
    run.1.term.reduceStep.redex? = some 0 ∧ (∃ k, 1 < k ∧ marked.1.1.term.LitAt k) ∧
      ¬ (marked.1.1.reduceStep marked.2).1.1.term.IsUnlit := by
  obtain ⟨count, rfl⟩ := Nat.exists_eq_add_one.mpr hcount
  obtain ⟨i, func, arg, last, hrun, hfunc, hid⟩ := id_mem_ids_of_doubling h hsize now
  obtain ⟨j, body, rfl, hbody⟩ := exists_of_term_eq_lam hfunc
  obtain ⟨l, rfl⟩ := exists_of_term_eq_var hbody
  obtain ⟨s', s'', hmarked⟩ := term_markRedex_root i j {} {} "x" (.var l {} "x") arg (after last)
  obtain ⟨k, hk⟩ := exists_litAt_highlight hid false s''
  rw [hrun]
  intro run marked
  have hlit : marked.1.1.term = _ := hmarked
  refine ⟨rfl, ⟨k + 3, by omega, ?_⟩, ?_⟩
  · rw [hlit]
    exact Term.litAt_app.mpr (.inr (.inr ⟨k, rfl, hk⟩))
  · have hvar : ((var l {} "x").highlight (some i) false s').1.term
        = .var ⟨none, false || decide (some i = some l)⟩ "x" := rfl
    have hstep : (marked.1.1.reduceStep marked.2).1.1.term = (arg.highlight (some i) false s'').1.term := by
      rw [term_reduceStep, hlit, hvar]
      simp [Term.reduceStep, Term.contract, Term.substitute, Term.substituteFrom]
    rw [hstep]
    intro hunlit
    exact hunlit.not_litAt k hk

end Node
end LambdaStepper
