import LambdaStepper.Proofs.Prettify.Meaning
import LambdaStepper.Proofs.Term.Correspondence

/-! # Readable forms of alpha-equivalent terms

How a term came about is shown in its readable form by two things only, for which alpha-equivalent terms may have
different ones (`Registry.not_prettify_eq`).  Tags of numerals are printed where a number is not recognised, in the
canonical text by which definitions are found, too.  And this is the text of a subterm on its own, where a variable
that is bound outside shows its name.

Where neither matters (`Term.ShownAlike`), the same is printed in the place of corresponding subterms, and
alpha-equivalent terms have the same readable form (`Registry.prettify_eq_of_alphaEquiv`). -/

namespace LambdaStepper

open Syntax

namespace Term

variable {t u : Term} {style : PrintStyle} {scope scope' : List String}

/-- The tag of the root, if it names a numeral. -/
def numeralTag? (t : Term) : Option String :=
  if Numeral.isTag t.tag then t.tag else none

theorem atomText?_eq_or (hstyle : style.numerals = true) (t : Term) :
    atomText? style t = (style.atom? t).or t.numeralTag? := by
  unfold atomText? numeralTag?
  rw [hstyle, Bool.true_and]
  cases style.atom? t <;> rfl

/-- Whether the same nodes of two terms have the same tags of numerals. -/
def NumeralsAgree (t u : Term) : Prop :=
  ∀ p ∈ t.nodePairs u, p.1.numeralTag? = p.2.numeralTag?

instance (t u : Term) : Decidable (t.NumeralsAgree u) :=
  inferInstanceAs (Decidable (∀ p ∈ t.nodePairs u, _ = _))

theorem NumeralsAgree.canonicalText_eq (htags : t.NumeralsAgree u) (h : t.AlphaEquiv u) :
    t.canonicalText = u.canonicalText := by
  refine print_congr rfl h ?_ .top
  intro p hp
  rw [atomText?_eq_or rfl, atomText?_eq_or rfl, htags p hp]
  rfl

/-- Whether alpha-equivalent terms differ in nothing that a style shows: subterms at the same position have the same tag
of a numeral, unless they are recognised as a number, and where one of them is shown by the name of an entry, they are
alpha-equivalent on their own and have the same tags of numerals inside. -/
structure ShownAlike (t : Term) (style : PrintStyle) (u : Term) : Prop where
  tags : ∀ p ∈ t.nodePairs u, Numeral.recognise? p.1 = none → p.1.numeralTag? = p.2.numeralTag?
  references : ∀ p ∈ t.nodePairs u, Numeral.recognise? p.1 = none →
    (style.atom? p.1).isSome ∨ (style.atom? p.2).isSome → p.1.AlphaEquiv p.2 ∧ p.1.NumeralsAgree p.2

instance (style : PrintStyle) (t u : Term) : Decidable (t.ShownAlike style u) :=
  decidable_of_iff
    ((∀ p ∈ t.nodePairs u, Numeral.recognise? p.1 = none → p.1.numeralTag? = p.2.numeralTag?) ∧
      ∀ p ∈ t.nodePairs u, Numeral.recognise? p.1 = none →
        (style.atom? p.1).isSome ∨ (style.atom? p.2).isSome → p.1.AlphaEquiv p.2 ∧ p.1.NumeralsAgree p.2)
    ⟨fun h => ⟨h.1, h.2⟩, fun h => ⟨h.tags, h.references⟩⟩

variable {forms : List NamedForm}

theorem referenceFor?_of_recognise? {n : Nat} (h : Numeral.recognise? t = some n) :
    referenceFor? forms t = some (Numeral.name n) := by
  cases t with
  | var | app => cases h
  | lam m x body => simp only [referenceFor?, kind, reduceCtorEq, if_false, h]

/-- The same reference is shown for subterms with the same nameless form, if they print alike where one is shown. -/
theorem referenceFor?_eq (h : t.namelessIn scope = u.namelessIn scope')
    (hshown : Numeral.recognise? t = none → (referenceFor? forms t).isSome ∨ (referenceFor? forms u).isSome →
      t.canonicalText = u.canonicalText) : referenceFor? forms t = referenceFor? forms u := by
  have hkind := kind_eq_of_namelessIn_eq h
  have hnumber := recognise?_eq_of_namelessIn_eq h
  cases hn : Numeral.recognise? t with
  | some n => rw [referenceFor?_of_recognise? hn, referenceFor?_of_recognise? (hnumber.symm.trans hn)]
  | none =>
      by_cases hreference : (referenceFor? forms t).isSome ∨ (referenceFor? forms u).isSome
      · simp only [referenceFor?, hkind, ← hnumber, hn, hshown hn hreference]
      · rw [not_or, Option.not_isSome_iff_eq_none, Option.not_isSome_iff_eq_none] at hreference
        rw [hreference.1, hreference.2]

/-- The same is printed for corresponding subterms of terms that are shown alike. -/
theorem ShownAlike.atomText?_eq (halike : t.ShownAlike (bySubterms forms) u) (h : t.AlphaEquiv u) :
    ∀ p ∈ t.nodePairs u, atomText? (bySubterms forms) p.1 = atomText? (bySubterms forms) p.2 := by
  intro p hp
  obtain ⟨inner, inner', hinner⟩ := exists_namelessIn_eq_of_mem_nodePairs h p hp
  have hreference : referenceFor? forms p.1 = referenceFor? forms p.2 := by
    refine referenceFor?_eq hinner fun hn hshown => ?_
    obtain ⟨hequiv, htags⟩ := halike.references p hp hn hshown
    exact htags.canonicalText_eq hequiv
  rw [atomText?_eq_or rfl, atomText?_eq_or rfl]
  show (referenceFor? forms p.1).or _ = (referenceFor? forms p.2).or _
  cases hn : Numeral.recognise? p.1 with
  | some n => rw [← hreference, referenceFor?_of_recognise? hn, Option.some_or, Option.some_or]
  | none => rw [hreference, halike.tags p hp hn]

/-! ### Closed definitions -/

/-- Whether no name in a term is spelled like a numeral. -/
def IsPlain (t : Term) : Prop :=
  ∀ x ∈ t.allNames, Numeral.isNumeralName x.toList = false

instance (t : Term) : Decidable t.IsPlain :=
  inferInstanceAs (Decidable (∀ x ∈ t.allNames, _ = _))

theorem IsPlain.of_mem_nodes {s : Term} (h : t.IsPlain) (hs : s ∈ t.nodes) : s.IsPlain :=
  fun x hx => h x ((subset_of_mem_nodes hs).2 hx)

theorem NumeralsAgree.of_mem_nodePairs (htags : t.NumeralsAgree u) (h : t.AlphaEquiv u) {p : Term × Term}
    (hp : p ∈ t.nodePairs u) : p.1.NumeralsAgree p.2 :=
  fun q hq => htags q (nodePairs_subset_of_mem h p hp hq)

theorem IsPlain.freeNames_of_shown (ht : t.IsPlain) (hsound : t.Sound) {r : Registry} (hreached : r.Reached)
    (hr : r.MarkFree) (hclosed : r.Closed) (hforms : (NamedForm.ofRegistry .unlimited r).2 = .ok forms)
    (hshown : ((bySubterms forms).atom? t).isSome) : t.freeNames [] = [] := by
  obtain ⟨word, hword⟩ := Option.isSome_iff_exists.mp hshown
  have hatom : atomText? (bySubterms forms) t = some word := by
    rw [atomText?_eq_or rfl, hword]
    rfl
  exact hclosed.freeNames_of_atomText? hreached hr hforms hsound
    (fun x hx => ht x (allNames_of_mem_freeNames hx)) hatom

/-- Where definitions are closed, alpha-equivalent terms with the same tags of numerals are shown alike. -/
theorem IsPlain.shownAlike (ht : t.IsPlain) (hu : u.IsPlain) (htags : t.NumeralsAgree u) (hsound : t.Sound)
    (hsound' : u.Sound) (h : t.AlphaEquiv u) {r : Registry} (hreached : r.Reached) (hr : r.MarkFree)
    (hclosed : r.Closed) (hforms : (NamedForm.ofRegistry .unlimited r).2 = .ok forms) :
    t.ShownAlike (bySubterms forms) u := by
  refine ⟨fun p hp _ => htags p hp, ?_⟩
  intro p hp _ hreference
  obtain ⟨hmem, hmem'⟩ := mem_nodes_of_mem_nodePairs hp
  obtain ⟨inner, inner', hinner⟩ := exists_namelessIn_eq_of_mem_nodePairs h p hp
  refine ⟨?_, htags.of_mem_nodePairs h hp⟩
  rcases hreference with hshown | hshown
  · have hclosed := (ht.of_mem_nodes hmem).freeNames_of_shown (hsound.of_mem_nodes hmem) hreached hr hclosed
      hforms hshown
    exact alphaEquiv_of_namelessIn_eq hinner (by simp [hclosed])
  · have hclosed := (hu.of_mem_nodes hmem').freeNames_of_shown (hsound'.of_mem_nodes hmem') hreached hr hclosed
      hforms hshown
    exact (alphaEquiv_of_namelessIn_eq hinner.symm (by simp [hclosed])).symm

/-- Whether reduction makes a term of a parsed one. -/
def IsComputed (t : Term) : Prop :=
  ∃ (r : Registry) (limits : Limits) (text : String) (parsed : Term) (steps : Nat),
    r.MarkFree ∧ (∀ c ∈ text.toList, IsPublic c) ∧ r.parse limits text = .ok parsed ∧ t = parsed.afterSteps steps

theorem IsComputed.sound (h : t.IsComputed) : t.Sound := by
  obtain ⟨r, limits, text, parsed, steps, hr, htext, hparse, rfl⟩ := h
  exact (Registry.sound_of_parse hr htext hparse).afterSteps steps

end Term

namespace Registry

variable {r : Registry} {t u : Term}

theorem prettify_eq_of_shownAlike {forms : List NamedForm}
    (hforms : (NamedForm.ofRegistry .unlimited r).2 = .ok forms) (h : t.AlphaEquiv u)
    (halike : t.ShownAlike (Term.bySubterms forms) u) :
    t.prettify .unlimited r true = u.prettify .unlimited r true := by
  have hnumber : Numeral.recognise? t = Numeral.recognise? u := Term.recognise?_eq_of_namelessIn_eq h
  unfold Term.prettify
  rw [← hnumber]
  cases hn : Numeral.recognise? t with
  | some n => rfl
  | none =>
      have htag : t.numeralTag? = u.numeralTag? := halike.tags _ (Term.self_mem_nodePairs t u) hn
      have hprinted := Term.print_congr rfl h (halike.atomText?_eq h) .top
      unfold Term.numeralTag? at htag
      cases hcollected : NamedForm.ofRegistry .unlimited r with
      | mk warnings result =>
          rw [hcollected] at hforms
          obtain rfl : result = .ok forms := hforms
          simp only [htag, if_true, Except.bind, Term.printWithin, Limits.guarded, hprinted,
            Limits.allows_unlimited]

/-- **Readable forms see terms up to alpha-equivalence**, tags of numerals and names that are bound around a subterm
aside: alpha-equivalent terms have the same readable form if they differ in nothing else that is shown.  Where the
definitions are closed, so it is for all terms that reduction makes of parsed ones, if they have the same tags of
numerals and no name like one. -/
theorem prettify_eq_of_alphaEquiv {r : Registry} {t u : Term} (h : t.AlphaEquiv u) :
    (∀ forms, (NamedForm.ofRegistry .unlimited r).2 = .ok forms → t.ShownAlike (Term.bySubterms forms) u →
      t.prettify .unlimited r true = u.prettify .unlimited r true) ∧
    (r.Reached → r.MarkFree → r.Closed → t.IsComputed → u.IsComputed → t.IsPlain → u.IsPlain → t.NumeralsAgree u →
      t.prettify .unlimited r true = u.prettify .unlimited r true) := by
  refine ⟨fun forms hforms halike => prettify_eq_of_shownAlike hforms h halike, ?_⟩
  intro hreached hr hclosed ht hu htplain huplain htags
  obtain ⟨warnings, forms, hforms⟩ := NamedForm.exists_ofRegistry r
  have hforms' : (NamedForm.ofRegistry .unlimited r).2 = .ok forms := congrArg Prod.snd hforms
  exact prettify_eq_of_shownAlike hforms' h
    (htplain.shownAlike huplain htags ht.sound hu.sound h hreached hr hclosed hforms')

/-- A built-in term beside a numeral: named or written out, and the numeral written out, too. -/
theorem prettify_eq_of_alphaEquiv_written :
    let pair (number truth : Term) : Term := .app {} (.app {} (.var {} "g") number) truth
    let truth : Term := .lam {} "a" (.lam {} "b" (.var {} "a"))
    let number : Term := .lam {} "a" (.lam {} "b" (.app {} (.var {} "a") (.app {} (.var {} "a") (.var {} "b"))))
    let named := pair (Numeral.term 2) (.lam ⟨some "_TRUE", false⟩ "x" (.lam {} "y" (.var {} "x")))
    let written := pair (Numeral.term 2) truth
    (named.IsComputed ∧ written.IsComputed ∧ named.IsPlain ∧ written.IsPlain ∧ named.NumeralsAgree written ∧
      named.AlphaEquiv written ∧
      named.prettify .unlimited initial true = written.prettify .unlimited initial true) ∧
    (∃ forms, (NamedForm.ofRegistry .unlimited initial).2 = .ok forms ∧
        named.ShownAlike (Term.bySubterms forms) (pair number truth)) ∧ named.AlphaEquiv (pair number truth) ∧
      named.prettify .unlimited initial true = (pair number truth).prettify .unlimited initial true := by
  intro pair truth number named written
  have hr : initial.MarkFree := by decide +kernel
  have hclosed : initial.Closed := by decide +kernel
  have hnamed : named.IsComputed := ⟨initial, .unlimited, "g _2 _TRUE", named, 0, hr, by decide +kernel, by rfl, rfl⟩
  have hwritten : written.IsComputed :=
    ⟨initial, .unlimited, "g _2 (λa.λb.a)", written, 0, hr, by decide +kernel, by rfl, rfl⟩
  have hplain : named.IsPlain := by decide +kernel
  have hplain' : written.IsPlain := by decide +kernel
  have htags : named.NumeralsAgree written := by decide +kernel
  have hequiv : named.AlphaEquiv written := by decide +kernel
  have hequiv' : named.AlphaEquiv (pair number truth) := by decide +kernel
  have hshown := (prettify_eq_of_alphaEquiv hequiv).2 .initial hr hclosed hnamed hwritten hplain hplain' htags
  obtain ⟨collected, hcollect⟩ : ∃ collected,
      NamedForm.collect .unlimited initial initial.entries = collected := ⟨_, rfl⟩
  have halike : (collected.2.toOption.map fun forms =>
      decide (named.ShownAlike (Term.bySubterms forms) (pair number truth))) = some true := by
    subst hcollect
    decide +kernel
  obtain ⟨forms, hforms, halike⟩ := Option.map_eq_some_iff.mp halike
  have hsorted := NamedForm.ofRegistry_of_collect (hcollect ▸ toOption_eq_some_iff.mp hforms)
  have halike' := of_decide_eq_true halike
  rw [← Term.bySubterms_mergeSort] at halike'
  exact ⟨⟨hnamed, hwritten, hplain, hplain', htags, hequiv, hshown⟩, ⟨_, hsorted, halike'⟩, hequiv',
    (prettify_eq_of_alphaEquiv hequiv').1 _ hsorted halike'⟩

theorem prettify_of_tag {tag : String} (hnumeral : Numeral.recognise? t = none) (htag : t.numeralTag? = some tag) :
    t.prettify .unlimited r true = ([], .ok tag) := by
  unfold Term.prettify
  unfold Term.numeralTag? at htag
  simp only [hnumeral, htag]

/-- Alpha-equivalent terms with different readable forms: a digit is tagged as a numeral while that of the definition is
not, a free name of a definition is bound outside, and one number beyond the limit is tagged in two ways. -/
theorem not_prettify_eq :
    (misleading 0).Reached ∧ (misleading 0).MarkFree ∧
      ∀ p ∈ [(("_NOT", "_NOT"), ("λp.p _0 _TRUE", "λ@a.(@a (_0)) (_TRUE)")),
          (("λz.z b c", "λ@a.(@a b) c"), ("λa.a b c", "λ@a._ABC")), (("_201", "_201"), ("_0201", "_0201"))],
        (∀ c ∈ p.1.1.toList ++ p.2.1.toList, IsPublic c) ∧ ∃ t u,
          (misleading 0).parse .unlimited p.1.1 = .ok t ∧ (misleading 0).parse .unlimited p.2.1 = .ok u ∧
          t.AlphaEquiv u ∧ t.prettify .unlimited (misleading 0) true = ([], .ok p.1.2) ∧
          u.prettify .unlimited (misleading 0) true = ([], .ok p.2.2) := by
  let constant (tag : Option String) : Term := .lam ⟨tag, false⟩ "x" (.lam {} "y" (.var {} "x"))
  let negation : Term := .lam ⟨some "_NOT", false⟩ "p"
    (.app {} (.app {} (.var {} "p") (.lam {} "x" (.lam {} "y" (.var {} "y")))) (constant none))
  let negation' : Term := .lam {} "p"
    (.app {} (.app {} (.var {} "p") (Numeral.term 0)) (constant (some "_TRUE")))
  let abc (x : String) : Term := .lam {} x (.app {} (.app {} (.var {} x) (.var {} "b")) (.var {} "c"))
  obtain ⟨collected, hcollect⟩ : ∃ collected,
      NamedForm.collect .unlimited (misleading 0) (misleading 0).entries = collected := ⟨_, rfl⟩
  have hcollected : collected.1 = [] ∧ (collected.2.toOption.map fun forms =>
      [negation, negation', abc "z", abc "a"].map fun t => t.print (Term.bySubterms forms) .top)
        = some ["_NOT", "λ@a.(@a (_0)) (_TRUE)", "λ@a.(@a b) c", "λ@a._ABC"] := by
    subst hcollect
    decide +kernel
  obtain ⟨hwarnings, hshown⟩ := hcollected
  obtain ⟨forms, hforms, hshown⟩ := Option.map_eq_some_iff.mp hshown
  have hcollect : NamedForm.collect .unlimited (misleading 0) (misleading 0).entries = ([], .ok forms) :=
    hcollect.trans (Prod.ext hwarnings (toOption_eq_some_iff.mp hforms))
  simp only [List.map_cons, List.map_nil, List.cons.injEq, and_true] at hshown
  obtain ⟨hnegation, hnegation', hz, ha⟩ := hshown
  refine ⟨reached_misleading (Nat.zero_le _), by decide +kernel, ?_⟩
  intro p hp
  simp only [List.mem_cons, List.not_mem_nil, or_false] at hp
  rcases hp with rfl | rfl | rfl
  · exact ⟨by decide +kernel, negation, negation', by rfl, by rfl, by decide +kernel,
      Term.prettify_of_print hcollect (by rfl) (by rfl) hnegation,
      Term.prettify_of_print hcollect (by rfl) (by rfl) hnegation'⟩
  · exact ⟨by decide +kernel, abc "z", abc "a", by rfl, by rfl, by decide +kernel,
      Term.prettify_of_print hcollect (by rfl) (by rfl) hz, Term.prettify_of_print hcollect (by rfl) (by rfl) ha⟩
  · refine ⟨by decide +kernel, Numeral.term 201, (Numeral.term 201).setTag (some "_0201"), ?_, ?_,
      by decide +kernel, prettify_of_tag (by decide +kernel) (by decide +kernel),
      prettify_of_tag (by decide +kernel) (by decide +kernel)⟩
    · exact toOption_eq_some_iff.mp (by decide +kernel)
    · exact toOption_eq_some_iff.mp (by decide +kernel)

end Registry
end LambdaStepper
