import LambdaStepper.Proofs.Identity.Parsing

/-! # Identities stay unique

As long as no more identities are given out than there are, from the oldest one in the input up to the end, the
result of an operation on terms shares no identity with its input and has none twice (`identities_stay_unique`).
The input itself may have identities more than once. -/

namespace LambdaStepper

open IdSupply

/-- The identities of a term were given out at times from `first` on and before `now`. -/
def Node.IssuedBetween (first now : Nat) (n : Node) : Prop :=
  ∀ id ∈ n.ids, ∃ time, first ≤ time ∧ time < now ∧ id = identity time

namespace Issuing

variable {α : Type}

/-- Behind `now` identities, a computation builds a term of pairwise distinct identities none of which is in
an input, provided that from `first` up to its end no more than `capacity` identities are given out. -/
def BuildsUnique (c : Issuing α) (node : α → Node) (first now : Nat) (inputs : List Node) : Prop :=
  (∃ count, c.Issues count) ∧ ∀ count, c.Issues count → now + count ≤ first + capacity →
    (node (c (after now)).1).ids.Nodup ∧
      ∀ input ∈ inputs, (node (c (after now)).1).ids.Disjoint input.ids

theorem nodup_of_newIn {now count : Nat} {n : Node}
    (h : n.NewIn ((after now).issueMany count).1) (hcount : count ≤ capacity) : n.ids.Nodup := by
  obtain ⟨ids, hperm, hsub⟩ := h
  exact hperm.nodup_iff.mp (hsub.nodup (nodup_issueMany_after hcount))

/-- New identities are none of those that were given out less than `capacity` identities ago. -/
theorem disjoint_of_newIn {first now count : Nat} {n input : Node}
    (h : n.NewIn ((after now).issueMany count).1) (hinput : input.IssuedBetween first now)
    (hcount : now + count ≤ first + capacity) : n.ids.Disjoint input.ids := by
  intro id hid hold
  obtain ⟨old, hfirst, hnow, hidentity⟩ := hinput id hold
  have hissued := h.subset hid
  rw [issueMany_after, List.mem_map] at hissued
  obtain ⟨time, htime, hsame⟩ := hissued
  rw [List.mem_range'_1] at htime
  have := identity_injective (hsame.trans hidentity) (by omega) (by omega)
  omega

theorem Spec.buildsUnique {c : Issuing α} {node : α → Node} {first now : Nat} {inputs : List Node}
    (h : ∃ count, c.Spec count fun issued a => (node a).NewIn issued) (hfirst : first ≤ now)
    (hinputs : ∀ input ∈ inputs, input.IssuedBetween first now) : c.BuildsUnique node first now inputs := by
  obtain ⟨count, h⟩ := h
  refine ⟨⟨count, h.issues⟩, fun count' hcount' hbound => ?_⟩
  obtain rfl := h.issues.unique hcount'
  have hnew := (h (after now)).2
  exact ⟨nodup_of_newIn hnew (by omega),
    fun input hinput => disjoint_of_newIn hnew (hinputs input hinput) hbound⟩

end Issuing

namespace Node

theorem IssuedBetween.first_le {first now : Nat} {n : Node} (h : n.IssuedBetween first now) : first ≤ now := by
  have hroot : n.id ∈ n.ids := by cases n <;> simp [id, ids]
  obtain ⟨time, hfirst, hnow, -⟩ := h n.id hroot
  omega

/-- **Identities stay unique.**  Let the identities of a term be given out from a time on, whatever nodes it
shares.  Cloning, substitution for any name, a step and highlighting build terms of pairwise distinct
identities, none of which is in the term or in the replacement, provided that from that time up to the end of
the operation no more identities are given out than there are.  A text is parsed to a term of pairwise distinct
identities if no more are given out meanwhile; without them it is the term that the text spells.  How many
identities an operation takes depends on its input only. -/
theorem identities_stay_unique (now : Nat) :
    (∀ first (n : Node), n.IssuedBetween first now →
      n.clone.BuildsUnique (fun n' => n') first now [n]
      ∧ (∀ name (replacement : Node) fresh, replacement.IssuedBetween first now →
          (n.substitute name replacement fresh).BuildsUnique (fun r => r.1) first now [n, replacement])
      ∧ n.reduceStep.BuildsUnique (fun r => r.1) first now [n]
      ∧ n.markRedex.BuildsUnique (fun r => r.1) first now [n])
    ∧ ∀ limits (r : Registry) text,
        ((r.parseNode limits text (after now)).1.map term = r.parse limits text)
        ∧ (∃ count, (r.parseNode limits text).Issues count)
        ∧ ∀ count, (r.parseNode limits text).Issues count → count ≤ capacity →
            ∀ n, (r.parseNode limits text (after now)).1 = .ok n → n.ids.Nodup := by
  constructor
  · intro first n hn
    have hfirst := hn.first_le
    have hinput : ∀ input ∈ [n], input.IssuedBetween first now := by simpa using hn
    refine ⟨Issuing.Spec.buildsUnique ⟨_, n.spec_clone⟩ hfirst hinput, ?_,
      Issuing.Spec.buildsUnique n.exists_spec_reduceStep hfirst hinput,
      Issuing.Spec.buildsUnique ⟨_, n.spec_markRedex⟩ hfirst hinput⟩
    intro name replacement fresh hreplacement
    refine Issuing.Spec.buildsUnique (n.exists_spec_substitute name replacement fresh) hfirst ?_
    intro input hmem
    rcases List.mem_pair.mp hmem with rfl | rfl
    · exact hn
    · exact hreplacement
  · intro limits r text
    obtain ⟨count, h⟩ := r.exists_spec_parseNode limits text
    obtain ⟨-, hterm, hnew⟩ := h (after now)
    refine ⟨hterm, ⟨count, h.issues⟩, fun count' hcount' hbound n hn => ?_⟩
    obtain rfl := h.issues.unique hcount'
    exact Issuing.nodup_of_newIn (hnew n hn) hbound

/-- The term `(λx.x x) y` with one node for both occurrences of `x`: a step clones the argument for each of
them. -/
theorem identities_stay_unique_shared :
    ∃ n : Node, ¬ n.ids.Nodup ∧ n.IssuedBetween 0 5 ∧
      (n.clone (after 5)).1.ids.Nodup ∧ (n.reduceStep (after 5)).1.1.ids.Nodup ∧
      (n.reduceStep (after 5)).1.1.ids.Disjoint n.ids := by
  let body : Node := .app 1 {} (.var 0 {} "x") (.var 0 {} "x")
  let n : Node := .app 4 {} (.lam 2 {} "x" body) (.var 3 {} "y")
  have hn : n.IssuedBetween 0 5 := by
    have hrange : ∀ id ∈ n.ids, 0 ≤ id ∧ id < 5 := by decide
    intro id hid
    obtain ⟨hlow, hhigh⟩ := hrange id hid
    refine ⟨id.toNat, by omega, by omega, ?_⟩
    rw [identity, capacity_eq]
    omega
  have hclone : n.clone.Issues 6 := fun s => rfl
  have hsubstitute : body.substitute "x" (.var 3 {} "y") {} = (do
      let func ← (Node.var 3 {} "y").clone
      let arg ← (Node.var 3 {} "y").clone
      return (.app (← Issuing.new) {} func arg, {})) := by
    refine (substituting_app _ _ _ (by decide) {}).trans ?_
    simp only [substituting_var, if_true]
    rfl
  have hstep : n.reduceStep.Issues 3 := by
    intro s
    simp only [n, reduceStep, hsubstitute]
    rfl
  obtain ⟨⟨-, h₁⟩, -, ⟨-, h₂⟩, -⟩ := (identities_stay_unique 5).1 0 n hn
  obtain ⟨hnodup, hdisjoint⟩ := h₂ 3 hstep (by decide)
  exact ⟨n, by decide, hn, (h₁ 6 hclone (by decide)).1, hnodup, hdisjoint n (by simp)⟩

end Node
end LambdaStepper
