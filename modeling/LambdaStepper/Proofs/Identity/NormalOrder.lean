import LambdaStepper.Identity.Reduction
import LambdaStepper.Proofs.Reduction.NormalOrder

/-! # Normal order with identities

A step on a term with identities is the step on the term without them, and the identity that comes
with the result is the one at the position of the redex (`reduceStep_cases`).  So the identity is that
of the first reducible application, which is also what a search through the nodes finds without
reducing (`reduceStep_contracts_first`). -/

namespace LambdaStepper

theorem Issuing.bind_apply {α β : Type} {c : Issuing α} {a : α} {s s' : IdSupply}
    (h : c s = (a, s')) (f : α → Issuing β) : (c >>= f) s = f a s' := by
  change StateT.bind c f s = _
  rw [StateT.bind, h]
  rfl

namespace Node

theorem length_ids (n : Node) : n.ids.length = n.term.size := by
  induction n with
  | var => rfl
  | lam _ _ _ _ ih => simp [ids, term, Term.size, ih]
  | app _ _ _ _ ihf iha => simp [ids, term, Term.size, ihf, iha]

theorem map_idAt_range (n : Node) : (List.range n.term.size).map n.idAt = n.ids := by
  rw [← length_ids]
  refine List.ext_getElem (by simp) fun i _ hi => ?_
  simp [idAt, idAt?, List.getElem?_eq_getElem hi]

theorem idAt?_app_func (i : Int) (m : Mark) {func : Node} (arg : Node) {position : Nat} {id : Int}
    (h : func.idAt? position = some id) : (app i m func arg).idAt? (position + 1) = some id := by
  unfold idAt? at h ⊢
  obtain ⟨hlt, -⟩ := List.getElem?_eq_some_iff.mp h
  rw [ids, List.getElem?_cons_succ, List.getElem?_append_left hlt]
  exact h

theorem idAt?_app_arg (i : Int) (m : Mark) (func arg : Node) (position : Nat) :
    (app i m func arg).idAt? (position + func.term.size + 1) = arg.idAt? position := by
  unfold idAt?
  rw [ids, List.getElem?_cons_succ, List.getElem?_append_right]
  · rw [length_ids, Nat.add_sub_cancel]
  · rw [length_ids]
    omega

theorem isAbstraction_term_eq_false {n : Node} (h : ∀ i m x body, n = lam i m x body → False) :
    ∀ m x body, n.term = .lam m x body → False := by
  intro m x body
  cases n with
  | lam i m x body => exact (h i m x body rfl).elim
  | var | app => exact fun heq => Term.noConfusion heq

/-- A step does what the step on the term without identities does.  If that contracts a redex, the
identity at the position of the redex comes with the result, and no identity if it does not. -/
theorem reduceStep_cases (n : Node) (s : IdSupply) : ∃ r s',
    (∃ i id, n.term.reduceStep = ⟨r.term, some i⟩ ∧ n.idAt? i = some id ∧
      n.reduceStep s = ((r, some id), s')) ∨
    (n.term.reduceStep = ⟨r.term, none⟩ ∧ n.reduceStep s = ((r, none), s')) := by
  fun_induction reduceStep n generalizing s with
  | case1 i m x => exact ⟨_, _, .inr ⟨rfl, rfl⟩⟩
  | case2 i m x body ih =>
      obtain ⟨r, s', ⟨j, id, ht, hid, hr⟩ | ⟨ht, hr⟩⟩ := ih s
      · refine ⟨.lam s'.issue.1 {} x r, s'.issue.2, .inl ⟨j + 1, id, ?_, hid, ?_⟩⟩
        · simp only [term, Term.reduceStep, ht]
        · exact Issuing.bind_apply hr _
      · refine ⟨.lam s'.issue.1 m.unlit x r, s'.issue.2, .inr ⟨?_, ?_⟩⟩
        · simp only [term, Term.reduceStep, ht]
        · exact Issuing.bind_apply hr _
  | case3 i m arg j m' x body =>
      have hsub := term_substituteFrom x arg (arg.term.freeNames []) body {} s
      cases hr : body.substitute x arg {} s with
      | mk r s' =>
          rw [← substitute, hr] at hsub
          refine ⟨r.1, s', .inl ⟨0, i, ?_, rfl, ?_⟩⟩
          · simp only [term, Term.reduceStep, Term.contract, Term.substitute, ← hsub]
          · exact Issuing.bind_apply hr _
  | case4 i m arg func hfunc ihf iha =>
      have hterm := isAbstraction_term_eq_false hfunc
      obtain ⟨f, s', ⟨j, id, hft, hid, hf⟩ | ⟨hft, hf⟩⟩ := ihf s
      · refine ⟨.app (arg.clone s').2.issue.1 {} f (arg.clone s').1, (arg.clone s').2.issue.2,
          .inl ⟨j + 1, id, ?_, idAt?_app_func i m arg hid, ?_⟩⟩
        · rw [term, Term.reduceStep, hft]
          · simp only [term, term_clone]
          · exact hterm
        · exact Issuing.bind_apply hf _
      · obtain ⟨a, s'', ⟨j, id, hat, hid, ha⟩ | ⟨hat, ha⟩⟩ := iha s'
        · refine ⟨.app s''.issue.1 {} f a, s''.issue.2,
            .inl ⟨j + func.term.size + 1, id, ?_, ?_, ?_⟩⟩
          · rw [term, Term.reduceStep, hft, hat]
            · rfl
            · exact hterm
          · rw [idAt?_app_arg, hid]
          · exact (Issuing.bind_apply hf _).trans (Issuing.bind_apply ha _)
        · refine ⟨.app s''.issue.1 m.unlit f a, s''.issue.2, .inr ⟨?_, ?_⟩⟩
          · rw [term, Term.reduceStep, hft, hat]
            · rfl
            · exact hterm
          · exact (Issuing.bind_apply hf _).trans (Issuing.bind_apply ha _)

theorem term_reduceStep (n : Node) (s : IdSupply) :
    (n.reduceStep s).1.1.term = n.term.reduceStep.result := by
  obtain ⟨r, s', ⟨i, id, ht, -, hr⟩ | ⟨ht, hr⟩⟩ := n.reduceStep_cases s
  · rw [hr, ht]
  · rw [hr, ht]

theorem redexId_reduceStep (n : Node) (s : IdSupply) :
    (n.reduceStep s).1.2 = n.term.reduceStep.redex?.bind n.idAt? := by
  obtain ⟨r, s', ⟨i, id, ht, hid, hr⟩ | ⟨ht, hr⟩⟩ := n.reduceStep_cases s
  · rw [hr, ht, Option.bind_some, hid]
  · rw [hr, ht, Option.bind_none]

/-- **A step contracts the leftmost outermost redex.**  It is the step of the term without identities,
and leaves a term unchanged exactly if no application in it has an abstraction as its function; then
only highlights go.  Otherwise the redex that comes first in pre-order is contracted, as on nameless
terms, and its identity comes with the result.  A search through the nodes finds the same identity. -/
theorem reduceStep_contracts_first (n : Node) (supply : IdSupply) :
    let step := (n.reduceStep supply).1
    (step.1.term = n.term.reduceStep.result ∧ step.2.isSome = n.term.reduceStep.changed)
      ∧ (step.2 = none ↔ n.term.IsNormal)
      ∧ (n.term.IsNormal → step.1.term = n.term.unlit)
      ∧ (¬ n.term.IsNormal → ∃ i, n.term.nodes.findIdx? Term.isRedex = some i
          ∧ n.term.nameless.contractAt? i = some step.1.term.nameless ∧ step.2 = n.idAt? i)
      ∧ step.2 = n.term.nextRedex?.bind n.idAt? := by
  intro step
  have hfirst := n.term.redex?_reduceStep
  rw [Term.nextRedex?_eq_findIdx?, Term.isNormal_iff_findIdx?, ← hfirst]
  obtain ⟨r, s', ⟨i, id, ht, hid, hr⟩ | ⟨ht, hr⟩⟩ := n.reduceStep_cases supply
  · have hstep : step = (r, some id) := congrArg Prod.fst hr
    rw [hstep]
    refine ⟨⟨by rw [ht], by simp [Step.changed, ht]⟩, by simp [ht], by simp [ht], ?_, ?_⟩
    · intro _
      have hcontract := Term.contractAt?_reduceStep (t := n.term) (by rw [ht]) []
      rw [ht] at hcontract
      exact ⟨i, by rw [ht], hcontract, hid.symm⟩
    · rw [ht]
      exact hid.symm
  · have hstep : step = (r, none) := congrArg Prod.fst hr
    rw [hstep]
    refine ⟨⟨by rw [ht], by simp [Step.changed, ht]⟩, by simp [ht], ?_, by simp [ht], by simp [ht]⟩
    intro _
    exact Term.eq_unlit_of_reduceStep ht

end Node
end LambdaStepper
