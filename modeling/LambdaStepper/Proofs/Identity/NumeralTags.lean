import LambdaStepper.Proofs.Identity.NormalOrder
import LambdaStepper.Proofs.Reduction.NumeralTags
import LambdaStepper.Proofs.Syntax.ShownTerms

/-! # Numeral tags of terms with identities

A term that is parsed can be reduced, highlighted and cloned in any order (`Node.Reaches`).  None of these
makes a numeral tag lie: reduction keeps tags true, and the other two do not change what a tag depends on.
So wherever a node is shown as the numeral that its tag names, what is shown stands for its structure
(`numeralTags_hold`). -/

namespace LambdaStepper

namespace Node

theorem unlit_highlight (target : Option Int) (isHead : Bool) (n : Node) (s : IdSupply) :
    (n.highlight target isHead s).1.term.unlit = n.term.unlit := by
  induction n generalizing isHead s with
  | var => rfl
  | lam i m x body ih => exact congrArg (Term.lam m.unlit x) (ih false s)
  | app i m func arg ihf iha =>
      exact congrArg₂ (Term.app m.unlit) (ihf _ s) (iha false (func.highlight target (target = some i) s).2)

theorem unlit_markRedex (n : Node) (s : IdSupply) : (n.markRedex s).1.1.term.unlit = n.term.unlit :=
  unlit_highlight (n.term.nextRedex?.bind n.idAt?) false n s

/-! ### Any sequence of operations -/

/-- The terms that come from one by reductions, highlights and clones, whatever identities they take. -/
inductive Reaches (start : Node) : Node → Prop
  | refl : Reaches start start
  | reduceStep {n : Node} (h : Reaches start n) (s : IdSupply) : Reaches start (n.reduceStep s).1.1
  | markRedex {n : Node} (h : Reaches start n) (s : IdSupply) : Reaches start (n.markRedex s).1.1
  | clone {n : Node} (h : Reaches start n) (s : IdSupply) : Reaches start (n.clone s).1

theorem Reaches.tagsHold {P : Option String → Term → Prop} (hP : Term.Lasting P) {start n : Node}
    (h : start.Reaches n) (hstart : start.term.TagsHold P) : n.term.TagsHold P := by
  induction h with
  | refl => exact hstart
  | reduceStep _ s ih =>
      rw [term_reduceStep]
      exact Term.tagsHold_reduceStep hP ih
  | markRedex _ s ih =>
      rw [← Term.tagsHold_unlit, unlit_markRedex, Term.tagsHold_unlit]
      exact ih
  | clone _ s ih =>
      rw [term_clone]
      exact ih

end Node

/-! ### What is shown -/

theorem Registry.Shows.parse {r : Registry} {cs : List Char} {t : Term} (h : r.Shows .sequence cs t) :
    ∃ u, r.parse .unlimited (String.ofList cs) = .ok u ∧ u.bare = t.bare := by
  obtain ⟨es, ls, u, hes, hu, hbare⟩ := h
  have hechoed := hes [] [] [] rfl .nil
  rw [List.append_nil, List.append_nil, List.append_nil] at hechoed
  exact ⟨u, hechoed.parse hu, hbare⟩

theorem Term.shown_of_isTag {t body : Term} {x : String} {cs : List Char} (hbare : t.bare = .lam {} x body)
    (htag : Numeral.isTag t.tag = true) (hname : t.tag = some (String.ofList cs)) :
    t.shown = String.ofList cs := by
  cases t with
  | var | app => cases hbare
  | lam m y inner =>
      have hatom : atomText? .written (lam m y inner) = some (String.ofList cs) := by
        rw [← hname]
        simp [atomText?, PrintStyle.written, htag]
      simp only [shown, print, printFrom, hatom, String.toList_ofList]
      rfl

/-- **Numeral tags never lie.**  Let a term be parsed from a text, neither the text nor the registry holding
private characters, and let any reductions, highlights and clones follow, whatever identities the nodes
have.  A node whose tag names a numeral
is `λf.λx.f (f … x)` with as many applications as the tag says.  It is shown as the tag, and whatever
registry the tag is read in, it stands for the structure of the node. -/
theorem Node.numeralTags_hold {limits : Limits} {r : Registry} {text : String} {t : Term}
    (hr : r.MarkFree) (htext : ∀ c ∈ text.toList, Syntax.IsPublic c) (hparse : r.parse limits text = .ok t)
    {start n : Node} (hstart : start.term = t) (hn : start.Reaches n) {s : Term} (hs : s ∈ n.term.nodes)
    (htag : Numeral.isTag s.tag = true) :
    ∃ label, Numeral.IsLabel label ∧ s.tag = some (String.ofList ('_' :: label)) ∧
      s.bare = .lam {} "f" (.lam {} "x" (Numeral.chain "f" "x" (Text.digitsValue label))) ∧
      s.shown = String.ofList ('_' :: label) ∧ ∀ registry : Registry, registry.ReadsBack s := by
  have htags : start.term.NumeralsHold := hstart ▸ (Registry.sound_of_parse hr htext hparse).tags
  have hnumerals := hn.tagsHold Term.lasting_namesNumeral (Term.numeralsHold_iff.mp htags)
  obtain ⟨label, hlabel, hname, hbare⟩ := hnumerals s hs htag
  have hnumeral : s.bare = .lam {} "f" (.lam {} "x" (Numeral.chain "f" "x" (Text.digitsValue label))) := by
    rw [hbare, Numeral.term, Term.bare, Term.bare, Term.bare_chain]
  have hshown := Term.shown_of_isTag hnumeral htag hname
  refine ⟨label, hlabel, hname, hnumeral, hshown, fun registry => ?_⟩
  have hshows : registry.Shows .atom ('_' :: label) s := .numeral hlabel hbare
  obtain ⟨u, hu, hsame⟩ := hshows.sequence.parse
  refine ⟨u, ?_, hsame, Term.alphaEquiv_of_bare_eq hsame⟩
  rw [hshown]
  exact hu

/-- A numeral with a digit of another script, which a first step duplicates and a second one takes apart in
one of its two places. -/
theorem Node.numeralTags_hold_duplicated :
    ∃ t n s, Registry.initial.MarkFree ∧ Registry.initial.parse .unlimited "(λx.λy.x y x) _٢" = .ok t ∧
      (ofTerm t {}).1.Reaches n ∧ s ∈ n.term.nodes ∧ s.shown = "_٢" ∧
      ∀ registry : Registry, registry.ReadsBack s := by
  let two : Term := .lam ⟨some "_٢", false⟩ "f"
    (.lam {} "x" (.app {} (.var {} "f") (.app {} (.var {} "f") (.var {} "x"))))
  let t : Term := .app {} (.lam {} "x" (.lam {} "y" (.app {} (.app {} (.var {} "x") (.var {} "y"))
    (.var {} "x")))) two
  let lit : Term := .app ⟨none, true⟩ (.lam ⟨none, true⟩ "x" (.lam {} "y"
    (.app {} (.app {} (.var {} "x") (.var {} "y")) (.var {} "x")))) two
  let result : Term := .lam {} "y"
    (.app {} (.lam {} "x" (.app {} (.var {} "y") (.app {} (.var {} "y") (.var {} "x")))) two)
  have hr : Registry.initial.MarkFree := by decide +kernel
  have htext : ∀ c ∈ "(λx.λy.x y x) _٢".toList, Syntax.IsPublic c := by decide
  have hparse : Registry.initial.parse .unlimited "(λx.λy.x y x) _٢" = .ok t := by rfl
  obtain ⟨start, hstart⟩ : ∃ start, start = (ofTerm t {}).1 := ⟨_, rfl⟩
  have hterm₀ : start.term = t := by rw [hstart, term_ofTerm]
  have hmarked : (start.markRedex ⟨20⟩).1.1.term = lit := by
    have hnext : t.nextRedex? = some 0 := by
      rw [Term.nextRedex?_eq_findIdx?]
      rfl
    change (start.highlight (start.term.nextRedex?.bind start.idAt?) false ⟨20⟩).1.term = lit
    rw [hterm₀, hnext, hstart]
    rfl
  -- a highlight, a step, a clone and another step
  have hrefl : start.Reaches start := .refl
  have hmark := hrefl.markRedex ⟨20⟩
  generalize (start.markRedex ⟨20⟩).1.1 = marked at hmarked hmark
  have hstep := (hmark.reduceStep ⟨40⟩).clone ⟨60⟩
  have hterm : ((marked.reduceStep ⟨40⟩).1.1.clone ⟨60⟩).1.term = lit.reduceStep.result := by
    rw [term_clone, term_reduceStep, hmarked]
  generalize ((marked.reduceStep ⟨40⟩).1.1.clone ⟨60⟩).1 = once at hterm hstep
  have hreaches := hstep.reduceStep ⟨80⟩
  have hresult : (once.reduceStep ⟨80⟩).1.1.term = result := by
    rw [term_reduceStep, hterm]
    cbv
  have hs : two ∈ (once.reduceStep ⟨80⟩).1.1.term.nodes := by
    rw [hresult]
    decide
  obtain ⟨label, -, hname, -, hshown, hreads⟩ := numeralTags_hold hr htext hparse hterm₀ hreaches hs (by decide)
  have htwo : "_٢" = String.ofList ('_' :: label) := Option.some.inj hname
  exact ⟨t, _, two, hr, hparse, hstart ▸ hreaches, hs, hshown.trans htwo.symm, hreads⟩

end LambdaStepper
