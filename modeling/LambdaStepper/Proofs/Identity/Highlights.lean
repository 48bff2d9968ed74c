import LambdaStepper.Proofs.Identity.Repetition

/-! # Highlights by identity

The next redex is highlighted by its identity: first its identity is looked up, then every node with that identity
is highlighted.  If the identities of a term are pairwise distinct, this is the redex alone (`term_markRedex`).
They are as long as no single operation gives out more identities than there are (`Node.Visits`), since steps and
highlights build every node anew.

So highlights are exact along all sequences of steps and highlights from a parsed term (`highlights_exact`).
Identities come again after that many, and a step that takes more of them can make a term in which nodes share
the identity of the redex and are highlighted with it (`not_highlights_exact`). -/

namespace LambdaStepper

open IdSupply

/-- A computation takes no more identities than there are. -/
def Issuing.Fits {α : Type} (c : Issuing α) : Prop :=
  ∀ count, c.Issues count → count ≤ capacity

theorem Issuing.Issues.fits {α : Type} {c : Issuing α} {count : Nat} (h : c.Issues count)
    (hcount : count ≤ capacity) : c.Fits := by
  intro count' h'
  obtain rfl := h.unique h'
  exact hcount

namespace Node

theorem nodup_ids_of_spec {α : Type} {c : Issuing α} {node : α → Node}
    (h : ∃ count, c.Spec count fun issued a => (node a).NewIn issued) (hfits : c.Fits) (now : Nat) :
    (node (c (after now)).1).ids.Nodup := by
  obtain ⟨count, h⟩ := h
  obtain ⟨ids, hperm, hsub⟩ := (h (after now)).2
  exact hperm.nodup_iff.mp (hsub.nodup (nodup_issueMany_after (hfits count h.issues)))

/-! ### The redex is found by its identity -/

/-- Whether something holds of the identity and the position of every node of a term, whose root stands at the given
position. -/
def Places (n : Node) (position : Nat) (P : Int → Nat → Prop) : Prop :=
  ∀ i id, n.idAt? i = some id → P id (position + i)

section Places

variable {position : Nat} {P : Int → Nat → Prop} {i : Int} {m : Mark}

theorem Places.root {n : Node} (h : n.Places position P) : P n.id position := by
  have hroot : n.idAt? 0 = some n.id := by cases n <;> rfl
  exact h 0 n.id hroot

theorem Places.body {x : String} {body : Node} (h : (lam i m x body).Places position P) :
    body.Places (position + 1) P := by
  intro k id hk
  rw [Nat.add_assoc, Nat.add_comm 1 k]
  exact h (k + 1) id hk

theorem Places.func {func arg : Node} (h : (app i m func arg).Places position P) :
    func.Places (position + 1) P := by
  intro k id hk
  rw [Nat.add_assoc, Nat.add_comm 1 k]
  exact h (k + 1) id (idAt?_app_func i m arg hk)

theorem Places.arg {func arg : Node} (h : (app i m func arg).Places position P) :
    arg.Places (position + 1 + func.term.size) P := by
  intro k id hk
  rw [← idAt?_app_arg i m func arg] at hk
  have := h _ id hk
  rwa [show position + (k + func.term.size + 1) = position + 1 + func.term.size + k by omega] at this

end Places

/-- A target among the identities and a target among the positions of a term, whose root stands at the given
position, are the same node. -/
def SameTarget (n : Node) (position : Nat) (target : Option Int) (place : Option Nat) : Prop :=
  n.Places position fun id k => target = some id ↔ place = some k

theorem term_highlight {n : Node} {position : Nat} {target : Option Int} {place : Option Nat}
    (h : n.SameTarget position target place) (isHead : Bool) (s : IdSupply) :
    (n.highlight target isHead s).1.term = n.term.highlight place position isHead := by
  have hroot := h.root
  induction n generalizing position isHead s with
  | var i m x =>
      simp only [id] at hroot
      simp only [term, Term.highlight, ← hroot]
      rfl
  | lam i m x body ih =>
      simp only [id] at hroot
      simp only [term, Term.highlight, ← hroot, ← ih h.body false s h.body.root]
      rfl
  | app i m func arg ihf iha =>
      simp only [id] at hroot
      simp only [term, Term.highlight, ← hroot, ← ihf h.func _ s h.func.root,
        ← iha h.arg false (func.highlight target (target = some i) s).2 h.arg.root]
      rfl

theorem sameTarget_of_nodup {n : Node} (h : n.ids.Nodup) (place : Option Nat)
    (hplace : ∀ i, place = some i → i < n.term.size) : n.SameTarget 0 (place.bind n.idAt?) place := by
  intro k id hk
  rw [Nat.zero_add]
  cases place with
  | none => simp
  | some i =>
      have hi : i < n.ids.length := by
        rw [length_ids]
        exact hplace i rfl
      have hk' := hk
      unfold idAt? at hk
      rw [Option.bind_some, ← hk', Option.some.injEq]
      exact List.getElem?_inj hi h

/-- Highlighting the next redex by its identity is highlighting it by its position. -/
theorem term_markRedex {n : Node} (h : n.ids.Nodup) (s : IdSupply) :
    (n.markRedex s).1.1.term = n.term.markRedex := by
  have hplace : ∀ i, n.term.nextRedex? = some i → i < n.term.size := by
    intro i hi
    rw [Term.nextRedex?_eq_redex?] at hi
    exact Term.lt_size_of_redex? hi
  exact term_highlight (sameTarget_of_nodup h _ hplace) false s

/-! ### Steps and highlights in any order -/

/-- The terms that come from one by steps and highlights in any order, none of which takes more identities than
there are. -/
inductive Visits (start : Node) : Node → Prop
  | refl : Visits start start
  | reduceStep {n : Node} (h : Visits start n) (hfits : n.reduceStep.Fits) (now : Nat) :
      Visits start (n.reduceStep (after now)).1.1
  | markRedex {n : Node} (h : Visits start n) (hfits : n.markRedex.Fits) (now : Nat) :
      Visits start (n.markRedex (after now)).1.1

theorem Visits.nodup {start n : Node} (h : start.Visits n) (hstart : start.ids.Nodup) : n.ids.Nodup := by
  cases h with
  | refl => exact hstart
  | reduceStep _ hfits now => exact nodup_ids_of_spec (exists_spec_reduceStep _) hfits now
  | markRedex _ hfits now => exact nodup_ids_of_spec ⟨_, spec_markRedex _⟩ hfits now

theorem Visits.term {start n : Node} (h : start.Visits n) (hstart : start.ids.Nodup) :
    start.term.Visits n.term := by
  induction h with
  | refl => exact .refl
  | reduceStep _ _ now ih =>
      rw [term_reduceStep]
      exact ih.reduceStep
  | markRedex h _ now ih =>
      rw [term_markRedex (h.nodup hstart)]
      exact ih.markRedex

/-- **Highlights are exact.**  Let a term be visited by steps and highlights in any order from a parsed one on,
none of which takes more identities than there are.  The nodes that are highlighted in it next are the
application that its step contracts and the abstraction in it, none if it is in normal form; the identity that
comes with them is that of the application in the highlighted term, and none in normal form; nothing but
highlights is changed by it; and no node is highlighted behind a step. -/
theorem highlights_exact {limits : Limits} {r : Registry} {text : String} {now : Nat} {start n : Node}
    (hparse : (r.parseNode limits text (after now)).1 = .ok start) (hfits : (r.parseNode limits text).Fits)
    (h : start.Visits n) (s : IdSupply) :
    let step := (n.reduceStep s).1
    let marked := (n.markRedex s).1
    ∃ redex? : Option Nat, step.2 = redex?.bind n.idAt? ∧ marked.2 = redex?.bind marked.1.idAt?
      ∧ (redex? = none ↔ n.term.IsNormal)
      ∧ (∀ i, redex? = some i → ∃ m m' x body arg, n.term.node? i = some (.app m (.lam m' x body) arg)
          ∧ n.term.node? (i + 1) = some (.lam m' x body)
          ∧ n.term.nameless.contractAt? i = some step.1.term.nameless)
      ∧ (∀ k, marked.1.term.LitAt k ↔ ∃ i, redex? = some i ∧ (k = i ∨ k = i + 1))
      ∧ marked.1.term.unlit = n.term.unlit
      ∧ step.1.term.IsUnlit := by
  obtain ⟨count, hspec⟩ := r.exists_spec_parseNode limits text
  obtain ⟨-, hterm, hnew⟩ := hspec (after now)
  have hstart : start.ids.Nodup := by
    obtain ⟨ids, hperm, hsub⟩ := hnew start hparse
    exact hperm.nodup_iff.mp (hsub.nodup (nodup_issueMany_after (hfits count hspec.issues)))
  rw [hparse] at hterm
  have hunlit : start.term.IsUnlit := Term.isUnlit_of_parse hterm.symm
  have hnext := (h.term hstart).highlightsNext hunlit
  have hmarked := term_markRedex (h.nodup hstart) s
  intro step marked
  have hstep : step.1.term = n.term.reduceStep.result := n.term_reduceStep s
  refine ⟨n.term.reduceStep.redex?, n.redexId_reduceStep s, ?_, hnext.normal, ?_, ?_, ?_, ?_⟩
  · have hfound : marked.2 = marked.1.term.nextRedex?.bind marked.1.idAt? := rfl
    rw [hfound, hmarked, hnext.next]
  · intro i hi
    obtain ⟨m, m', x, body, arg, happ, hlam⟩ := hnext.redex i hi
    refine ⟨m, m', x, body, arg, happ, hlam, ?_⟩
    rw [hstep]
    exact Term.contractAt?_reduceStep hi []
  · rw [hmarked]
    exact hnext.litAt_iff
  · rw [hmarked]
    exact hnext.same
  · rw [hstep]
    exact hnext.isUnlit_step

/-- The term `(λx.x x) y` is highlighted, and then a step is taken: no highlight is left in `y y`, and none is
made. -/
theorem highlights_exact_duplicated :
    ∃ start n : Node, (Registry.initial.parseNode .unlimited "(λx.x x) y" (after 0)).1 = .ok start ∧
      start.Visits n ∧ n.term = .app {} (.var {} "y") (.var {} "y") ∧ n.term.IsUnlit ∧
      ∀ k, ¬ (n.markRedex (after 20)).1.1.term.LitAt k := by
  let start : Node := .app 5 {} (.lam 3 {} "x" (.app 2 {} (.var 0 {} "x") (.var 1 {} "x"))) (.var 4 {} "y")
  let body : Node := .app 8 {} (.var 6 {} "x") (.var 7 {} "x")
  let marked : Node := .app 11 ⟨none, true⟩ (.lam 9 ⟨none, true⟩ "x" body) (.var 10 {} "y")
  have hparse : (Registry.initial.parseNode .unlimited "(λx.x x) y" (after 0)).1 = .ok start := by rfl
  have hparses : (Registry.initial.parseNode .unlimited "(λx.x x) y").Issues 6 := fun _ => rfl
  have hmarked : (start.markRedex (after 6)).1.1 = marked := by
    have hnext : start.term.nextRedex? = some 0 := by
      rw [Term.nextRedex?_eq_findIdx?]
      rfl
    rw [markRedex, hnext]
    rfl
  have hmarks : start.markRedex.Issues 6 := start.spec_markRedex.issues
  have hvisited := Visits.refl.markRedex (hmarks.fits (by decide)) 6
  rw [hmarked] at hvisited
  have hsubstitute : body.substitute "x" (.var 10 {} "y") {} = (do
      let func ← (Node.var 10 {} "y").clone
      let arg ← (Node.var 10 {} "y").clone
      return (.app (← Issuing.new) {} func arg, {})) := by
    refine (substituting_app _ _ _ (by decide) {}).trans ?_
    simp only [substituting_var, if_true]
    rfl
  have hsteps : marked.reduceStep.Issues 3 := by
    intro s
    simp only [marked, reduceStep, hsubstitute]
    rfl
  have hvisits := hvisited.reduceStep (hsteps.fits (by decide)) 12
  have hterm : (marked.reduceStep (after 12)).1.1.term = .app {} (.var {} "y") (.var {} "y") := by
    rw [term_reduceStep]
    cbv
  obtain ⟨redex?, -, -, hnormal, -, hlit, -, -⟩ :=
    highlights_exact hparse (hparses.fits (by decide)) hvisits (after 20)
  obtain ⟨-, -, -, -, -, -, -, hunlit⟩ :=
    highlights_exact hparse (hparses.fits (by decide)) hvisited (after 12)
  refine ⟨start, _, hparse, hvisits, hterm, hunlit, fun k hk => ?_⟩
  obtain ⟨i, hi, -⟩ := (hlit k).mp hk
  have hnone : redex? = none := by
    rw [hnormal, hterm]
    decide
  rw [hnone] at hi
  cases hi

/-- The term `(λx.(λx.… (x x)) (x x)) y` with 23 abstractions around `λx.x`, which is `(λx.x) u` after 23 steps, where
`u` has `2 ^ 24 - 1` nodes.  The last step takes more identities than there are: a node of `u` is highlighted with the
redex and its abstraction, and still so after the next step. -/
theorem not_highlights_exact :
    ∃ start supply, Registry.initial.parseNode .standard ("(" ++ Term.doublingText 23 ++ ") y") {} = (.ok start, supply) ∧
      let run := start.steps 23 supply
      let marked := run.1.markRedex run.2
      run.1.term.reduceStep.redex? = some 0 ∧ (∃ k, 1 < k ∧ marked.1.1.term.LitAt k) ∧
        ¬ (marked.1.1.reduceStep marked.2).1.1.term.IsUnlit := by
  have hparse : Registry.initial.parse .standard ("(" ++ Term.doublingText 23 ++ ") y")
      = .ok (.app {} (Term.doubling 23) (.var {} "y")) := by decide +kernel
  obtain ⟨taken, hspec⟩ :=
    Registry.initial.exists_spec_parseNode .standard ("(" ++ Term.doublingText 23 ++ ") y")
  obtain ⟨hsupply, hterm, -⟩ := hspec (after 0)
  rw [← after_add, Nat.zero_add] at hsupply
  rw [hparse] at hterm
  generalize hparsed : Registry.initial.parseNode .standard ("(" ++ Term.doublingText 23 ++ ") y") (after 0) = parsed
    at hsupply hterm
  obtain ⟨fault | start, supply⟩ := parsed
  · cases hterm
  · obtain rfl : supply = after taken := hsupply
    have hsize : capacity ≤ (Term.twice^[23] (.var {} "y")).size := by
      have := Term.size_iterate_twice (.var {} "y") 23
      rw [Term.size] at this
      rw [capacity_eq]
      omega
    have hlit := exists_litAt_of_doubling (Except.ok.inj hterm) (by decide) hsize taken
    exact ⟨start, _, hparsed, hlit⟩

end Node
end LambdaStepper
