import Mathlib
import LambdaStepper.Proofs.Prettify.Displayed
import LambdaStepper.Proofs.Prettify.Forms
import LambdaStepper.Proofs.Registry.Meaning
import LambdaStepper.Proofs.Syntax.Placeholders
import LambdaStepper.Proofs.Term.NumeralShape

/-! # Readable forms keep the meaning

A readable form that shows whole subterms is read back with the numeral for each `_N` and the term of the
definition for each `_NAME` (`Registry.readBack?`).  That gives the term that was shown up to alpha-equivalence
(`Registry.readBack_prettify`), for every registry and every term that reduction makes of a parsed one.

What is shown by a name prints in isolation like the definition.  So three kinds of free names may mislead
(`Registry.not_readBack_prettify`): one that is bound around the subterm, where the definition has the same name
free; one that is spelled like a reference and is printed as such; and one of a definition that is spelled like
a numeral.  Where definitions are closed, as the built-in ones are, only names spelled like numerals can be
bound around what is shown by a name (`Registry.Closed.shownApart`). -/

namespace LambdaStepper

open Syntax

/-! ### Numerals -/

theorem Text.digitValue?_of_isDigit {c : Char} (h : c.isDigit = true) :
    digitValue? c = some (c.toNat - '0'.toNat) := by
  simp only [Char.isDigit, Bool.and_eq_true, decide_eq_true_eq, UInt32.le_iff_toNat_le] at h
  obtain ⟨hleast, hmost⟩ := h
  have hrange : (decide (0x30 ≤ c.toNat) && decide (c.toNat < 0x30 + 10)) = true := by
    change 48 ≤ c.val.toNat at hleast
    change c.val.toNat ≤ 57 at hmost
    unfold Char.toNat
    rw [Bool.and_eq_true, decide_eq_true_eq, decide_eq_true_eq]
    omega
  simp only [digitValue?, digitZeros, List.find?_cons, hrange, Option.map_some]
  rfl

theorem Text.digitsValue_toString (n : Nat) : digitsValue (toString n).toList = n := by
  calc digitsValue (toString n).toList
      = Nat.ofDigitChars 10 (toString n).toList 0 := by
        refine List.foldl_ext _ _ 0 fun m c hc => ?_
        rw [digitValue?_of_isDigit (isDigit_of_mem_toString hc), Option.getD_some]
    _ = Nat.ofDigitChars 10 (Nat.toDigits 10 n) 0 := by simp [toString, Nat.repr]
    _ = n := Nat.ofDigitChars_ten_toDigits

theorem Numeral.isLabel_toString (n : Nat) : IsLabel (toString n).toList := by
  constructor
  · simp [toString, Nat.repr]
  · intro c hc
    rw [Text.isDecimalDigit, Text.digitValue?_of_isDigit (isDigit_of_mem_toString hc)]
    rfl

theorem Numeral.standsFor_name {n : Nat} {t : Term} (h : (Numeral.term n).AlphaEquiv t) :
    Term.StandsFor ofName? (name n) t := by
  obtain ⟨hword, hvalue⟩ := (isLabel_toString n).ofName?
  have hname : String.ofList ('_' :: (toString n).toList) = name n := by
    rw [name, ← String.toList_inj, String.toList_append, String.toList_ofList]
    rfl
  rw [hname, Text.digitsValue_toString] at hvalue
  rw [← String.toList_ofList (l := '_' :: _), hname] at hword
  exact ⟨hword, _, hvalue, h⟩

theorem Numeral.alphaEquiv_of_recognise? {t : Term} {n : Nat} (h : recognise? t = some n) :
    (term n).AlphaEquiv t :=
  (nameless_term n).trans ((recognise?_eq_some_iff_church []).mp h).2.symm

/-! ### Reading back -/

namespace Registry

/-- What a word of a readable form stands for: a numeral, or the term of an entry. -/
def standsFor? (r : Registry) (word : String) : Option Term :=
  (Numeral.ofName? word).or <| (r.entries.find? fun entry => entry.tag = word).bind fun entry =>
    (r.parse .unlimited entry.definition).toOption

/-- The term as which a readable form is read: its words are names of variables, those aside that stand for a
term of their own. -/
def readBack? (r : Registry) (shown : String) : Option Term :=
  (readWords? shown.toList).map (Term.standIn r.standsFor?)

variable {r : Registry}

theorem standsFor?_of_ofName? {word : String} {d : Term} (h : Numeral.ofName? word = some d) :
    r.standsFor? word = some d := by
  rw [standsFor?, h]
  rfl

theorem standsFor?_eq_none {x : String} (h : ¬ r.IsReference x) : r.standsFor? x = none := by
  rw [IsReference, not_or, Bool.not_eq_true] at h
  obtain ⟨hnumeral, hnames⟩ := h
  have hentry : (r.entries.find? fun entry => entry.tag = x) = none := by
    refine List.find?_eq_none.mpr ?_
    intro entry hentry htag
    exact hnames ⟨entry.name, List.mem_map_of_mem hentry, (of_decide_eq_true htag).symm⟩
  rw [standsFor?, Numeral.ofName?_eq_none hnumeral, hentry]
  rfl

theorem not_isReference_canonicalName (i : Nat) : ¬ r.IsReference (Term.canonicalName i) := by
  intro h
  have hhead := h.head?
  rw [Term.canonicalName_toList] at hhead
  cases hhead

/-- A reference to an entry is an underscore, a letter and what goes on with words, but for a line feed that
may stand at the end of a name. -/
theorem exists_tag_eq {entry : NamedTerm} (h : isEntryName entry.name.toList = true) :
    ∃ c cs, entry.tag.toList = '_' :: c :: cs ∧ isLetter c = true ∧
      ∀ d ∈ cs, isWordChar d = true ∨ d = '\n' := by
  have htag : entry.tag.toList = '_' :: entry.name.toList := by
    rw [NamedTerm.tag, String.toList_append]
    rfl
  cases hname : entry.name.toList with
  | nil =>
      rw [hname] at h
      cases h
  | cons c cs =>
      rw [hname, LambdaStepper.isEntryName, Bool.and_eq_true] at h
      obtain ⟨hc, hend⟩ := h
      refine ⟨c, cs, by rw [htag, hname], hc, ?_⟩
      rw [← List.takeWhile_append_dropWhile (p := isWordChar) (l := cs), List.forall_mem_append]
      refine ⟨fun d hd => .inl (List.mem_takeWhile_imp hd), ?_⟩
      unfold Numeral.atEnd at hend
      split at hend
      · next hrest => simp [hrest]
      · next hrest => simp [hrest]
      · cases hend

theorem isWord_tag {entry : NamedTerm} (h : isEntryName entry.name.toList = true) :
    IsWord entry.tag.toList := by
  obtain ⟨c, cs, htag, hc, hcs⟩ := exists_tag_eq h
  rw [htag]
  refine ⟨List.cons_ne_nil _ _, List.forall_mem_cons.mpr ⟨rfl, List.forall_mem_cons.mpr ⟨?_, ?_⟩⟩⟩
  · exact betweenWords?_of_isWordChar (isWordChar_of_isLetter hc)
  · intro d hd
    rcases hcs d hd with hword | rfl
    · exact betweenWords?_of_isWordChar hword
    · rfl

theorem Reached.standsFor?_tag (h : r.Reached) {entry : NamedTerm} (hentry : entry ∈ r.entries) :
    r.standsFor? entry.tag = (r.parse .unlimited entry.definition).toOption := by
  have hnumeral : Numeral.isNumeralName entry.tag.toList = false := by
    obtain ⟨c, cs, htag, hc, -⟩ := exists_tag_eq (h.isEntryName entry hentry)
    rw [htag, Numeral.isNumeralName, isDecimalDigit_eq_false_of_isLetter hc, Bool.false_and]
  have htag : (fun e : NamedTerm => decide (e.tag = entry.tag)) = fun e => decide (e.name = entry.name) := by
    funext e
    simp [NamedTerm.tag]
  have hfound : r.entries.find? (fun e => decide (e.tag = entry.tag)) = some entry := by
    rw [htag]
    exact h.lookup hentry
  rw [standsFor?, Numeral.ofName?_eq_none hnumeral, hfound]
  rfl

theorem exists_readBack? {shown : String} {t : Term}
    (h : Displays r.standsFor? .sequence [] shown.toList t.nameless) :
    ∃ u, r.readBack? shown = some u ∧ u.AlphaEquiv t := by
  obtain ⟨ls, u, hls, hread, hu⟩ := h
  refine ⟨u.standIn r.standsFor?, ?_, hu⟩
  rw [readBack?, readWords?_of_reads hls hread]
  rfl

theorem parse_unlimited {limits : Limits} {text : String} {t : Term} (h : r.parse limits text = .ok t) :
    r.parse .unlimited text = .ok t := by
  obtain ⟨htrim, tokens, htokens, hread⟩ := exists_of_parse h
  exact parse_of_readsMarked htrim htokens hread

/-- The terms of the definitions. -/
def definedTerms (r : Registry) : List Term :=
  r.entries.filterMap fun entry => (r.parse .unlimited entry.definition).toOption

theorem mem_definedTerms {limits : Limits} {entry : NamedTerm} (hentry : entry ∈ r.entries) {d : Term}
    (h : r.parse limits entry.definition = .ok d) : d ∈ r.definedTerms :=
  List.mem_filterMap.mpr ⟨entry, hentry, by rw [parse_unlimited h]; rfl⟩

/-- No free name of a definition is spelled like a numeral. -/
def NumeralFree (r : Registry) : Prop :=
  ∀ d ∈ r.definedTerms, ∀ x ∈ d.freeNames [], Numeral.isNumeralName x.toList = false

instance (r : Registry) : Decidable r.NumeralFree :=
  inferInstanceAs (Decidable (∀ d ∈ r.definedTerms, ∀ x ∈ d.freeNames [], _ = false))

theorem standsFor_of_referenceFor? (hreached : r.Reached) (hr : r.MarkFree) (hdefinitions : r.NumeralFree)
    {limits : Limits} {forms : List NamedForm} (hforms : (NamedForm.ofRegistry limits r).2 = .ok forms)
    {t : Term} (ht : t.Sound) (hfree : ∀ x ∈ t.freeNames [], Numeral.isNumeralName x.toList = false)
    {word : String} (h : Term.referenceFor? forms t = some word) : Term.StandsFor r.standsFor? word t := by
  unfold Term.referenceFor? at h
  split at h
  · cases h
  · split at h
    · next n hn =>
      obtain rfl := Option.some.inj h
      exact (Numeral.standsFor_name (Numeral.alphaEquiv_of_recognise? hn)).mono standsFor?_of_ofName?
    · obtain ⟨form, hform, rfl⟩ := Option.map_eq_some_iff.mp h
      have hprinted : form.printed = t.canonicalText := by simpa using List.find?_some hform
      obtain ⟨entry, hentry, hname, d, hd, hdprinted⟩ :=
        NamedForm.exists_entry_of_ofRegistry (Prod.ext rfl hforms) form (List.mem_of_find?_eq_some hform)
      have hword : form.reference = entry.tag := by
        rw [NamedForm.reference, hname]
        rfl
      rw [hword]
      have hequiv : d.AlphaEquiv t :=
        Term.alphaEquiv_of_canonicalText_eq (sound_of_parse hr (hr entry hentry) hd) ht
          (hdefinitions d (mem_definedTerms hentry hd)) hfree (hdprinted.symm.trans hprinted)
      refine ⟨isWord_tag (hreached.isEntryName entry hentry), d, ?_, hequiv⟩
      rw [hreached.standsFor?_tag hentry, parse_unlimited hd]
      rfl

end Registry

/-! ### Readable forms -/

namespace Term

variable {r : Registry} {limits : Limits} {forms : List NamedForm} {t : Term}

/-- Whether none of the subterms that are shown by references has a free name that is bound around it. -/
def ShownApart (forms : List NamedForm) (t : Term) : Prop :=
  ∀ p ∈ t.atoms (bySubterms forms) [], ∀ x ∈ p.2.freeNames [], x ∉ p.1

instance (forms : List NamedForm) (t : Term) : Decidable (t.ShownApart forms) :=
  inferInstanceAs (Decidable (∀ p ∈ t.atoms (bySubterms forms) [], ∀ x ∈ p.2.freeNames [], x ∉ p.1))

theorem standsFor_of_atomText? (hreached : r.Reached) (hr : r.MarkFree) (hdefinitions : r.NumeralFree)
    (hforms : (NamedForm.ofRegistry limits r).2 = .ok forms) (ht : t.Sound)
    (hfree : ∀ x ∈ t.freeNames [], Numeral.isNumeralName x.toList = false) {word : String}
    (h : atomText? (bySubterms forms) t = some word) : StandsFor r.standsFor? word t := by
  unfold atomText? at h
  split at h
  · next word' hreference =>
    obtain rfl := Option.some.inj h
    exact Registry.standsFor_of_referenceFor? hreached hr hdefinitions hforms ht hfree hreference
  · split at h
    · next htag =>
      rw [Bool.and_eq_true] at htag
      exact (ht.tags.tagHolds.standsFor htag.2 h).mono Registry.standsFor?_of_ofName?
    · cases h

theorem Sound.displays_bySubterms (ht : t.Sound) (hreached : r.Reached) (hr : r.MarkFree)
    (hdefinitions : r.NumeralFree) (hfree : ∀ x ∈ t.freeNames [], ¬ r.IsReference x)
    (hforms : (NamedForm.ofRegistry limits r).2 = .ok forms) (hapart : t.ShownApart forms) :
    Displays r.standsFor? .sequence [] (t.print (bySubterms forms) .top).toList t.nameless := by
  refine displays_print rfl ?_ ?_ ?_
  · exact fun i => Registry.standsFor?_eq_none (Registry.not_isReference_canonicalName i)
  · intro x hx
    exact ⟨(ht.names x (allNames_of_mem_freeNames hx)).identifier, Registry.standsFor?_eq_none (hfree x hx)⟩
  · intro p hp
    obtain ⟨hnode, -, hnames⟩ := of_mem_atoms hp
    refine ⟨?_, hapart p hp⟩
    intro word hword
    refine standsFor_of_atomText? hreached hr hdefinitions hforms (ht.of_mem_nodes hnode) ?_ hword
    intro x hx
    have hx' := hfree x (hnames x hx (hapart p hp x hx))
    rw [Registry.IsReference, not_or, Bool.not_eq_true] at hx'
    exact hx'.1

/-- **A readable form displays the term**, whether all of it is a numeral, it has the tag of one or references
are shown inside it. -/
theorem Sound.displays_prettify (ht : t.Sound) (hreached : r.Reached) (hr : r.MarkFree)
    (hdefinitions : r.NumeralFree) (hfree : ∀ x ∈ t.freeNames [], ¬ r.IsReference x)
    (hapart : ∀ forms, (NamedForm.ofRegistry limits r).2 = .ok forms → t.ShownApart forms)
    {warnings : List Report} {shown : String} (h : t.prettify limits r true = (warnings, .ok shown)) :
    Displays r.standsFor? .sequence [] shown.toList t.nameless := by
  have hwhole : ∀ {word : String}, StandsFor Numeral.ofName? word t →
      Displays r.standsFor? .sequence [] word.toList t.nameless := by
    intro word hword
    exact ((hword.mono Registry.standsFor?_of_ofName?).displays fun x _ => List.not_mem_nil).sequence
  unfold prettify at h
  split at h
  · next n hn =>
    obtain rfl := Except.ok.inj (Prod.mk.inj h).2
    exact hwhole (Numeral.standsFor_name (Numeral.alphaEquiv_of_recognise? hn))
  split at h
  · next word hword =>
    obtain rfl := Except.ok.inj (Prod.mk.inj h).2
    split at hword
    · next htag => exact hwhole (ht.tags.tagHolds.standsFor htag hword)
    · cases hword
  cases hforms : NamedForm.ofRegistry limits r with
  | mk ws result =>
      rw [hforms] at h hapart
      obtain ⟨-, hshown⟩ := Prod.mk.inj h
      cases result with
      | error failure => cases hshown
      | ok forms =>
          have hprinted : t.printWithin limits (bySubterms forms) .top = .ok shown := hshown
          unfold printWithin Limits.guarded at hprinted
          split at hprinted
          · obtain rfl := Except.ok.inj hprinted
            exact ht.displays_bySubterms hreached hr hdefinitions hfree (congrArg Prod.snd hforms)
              (hapart forms rfl)
          · cases hprinted

end Term

namespace Registry

/-- Whether the definitions have no free names at all. -/
def Closed (r : Registry) : Prop :=
  ∀ d ∈ r.definedTerms, d.freeNames [] = []

instance (r : Registry) : Decidable r.Closed :=
  inferInstanceAs (Decidable (∀ d ∈ r.definedTerms, d.freeNames [] = []))

theorem Closed.numeralFree {r : Registry} (h : r.Closed) : r.NumeralFree := by
  intro d hd x hx
  rw [h d hd] at hx
  cases hx

theorem Closed.freeNames_of_standsFor? {r : Registry} (h : r.Closed) {word : String} {d : Term}
    (hd : r.standsFor? word = some d) : d.freeNames [] = [] := by
  rcases Option.or_eq_some_iff.mp hd with hnumeral | ⟨-, hentry⟩
  · unfold Numeral.ofName? at hnumeral
    split at hnumeral
    · obtain rfl := Option.some.inj hnumeral
      exact Term.freeNames_numeral _
    · cases hnumeral
  · obtain ⟨entry, hfound, hparse⟩ := Option.bind_eq_some_iff.mp hentry
    exact h d (List.mem_filterMap.mpr ⟨entry, List.mem_of_find?_eq_some hfound, hparse⟩)

/-- Where definitions are closed, what is shown by a reference is closed, unless free names of it are spelled like
numerals. -/
theorem Closed.freeNames_of_atomText? {r : Registry} (h : r.Closed) (hreached : r.Reached) (hr : r.MarkFree)
    {limits : Limits} {forms : List NamedForm} (hforms : (NamedForm.ofRegistry limits r).2 = .ok forms)
    {t : Term} (ht : t.Sound) (hfree : ∀ x ∈ t.freeNames [], Numeral.isNumeralName x.toList = false)
    {word : String} (hword : Term.atomText? (Term.bySubterms forms) t = some word) : t.freeNames [] = [] := by
  obtain ⟨d, hd, hequiv⟩ :=
    (Term.standsFor_of_atomText? hreached hr h.numeralFree hforms ht hfree hword).meaning
  rw [← hequiv.freeNames_eq, h.freeNames_of_standsFor? hd]

/-- Where definitions are closed, nothing that is shown by a reference has a free name, unless there are names
that are spelled like numerals. -/
theorem Closed.shownApart {r : Registry} (h : r.Closed) (hreached : r.Reached) (hr : r.MarkFree)
    {limits : Limits} {forms : List NamedForm} (hforms : (NamedForm.ofRegistry limits r).2 = .ok forms)
    {t : Term} (ht : t.Sound) (hnames : ∀ x ∈ t.allNames, Numeral.isNumeralName x.toList = false) :
    t.ShownApart forms := by
  intro p hp x hx
  obtain ⟨hnode, ⟨word, hword⟩, -⟩ := Term.of_mem_atoms hp
  have hfree : ∀ y ∈ p.2.freeNames [], Numeral.isNumeralName y.toList = false := fun y hy =>
    hnames y ((Term.subset_of_mem_nodes hnode).2 (Term.allNames_of_mem_freeNames hy))
  rw [h.freeNames_of_atomText? hreached hr hforms (ht.of_mem_nodes hnode) hfree hword] at hx
  cases hx

/-- **Readable forms keep the meaning.**  What reduction makes of a parsed term has a readable form in every
registry that definitions make.  Read back it is alpha-equivalent to the term, unless one of three things
misleads: a free name of the term is spelled like a reference, a free name of a definition like a numeral, or
a subterm that is shown by a reference has a free name that is bound around it. -/
theorem readBack_prettify {r : Registry} (hreached : r.Reached) (hr : r.MarkFree)
    (hdefinitions : r.NumeralFree) {r₀ : Registry} {limits₀ : Limits} {text : String} {t₀ : Term}
    (hr₀ : r₀.MarkFree) (htext : ∀ c ∈ text.toList, IsPublic c) (hparse : r₀.parse limits₀ text = .ok t₀)
    (steps : Nat) (hfree : ∀ x ∈ (t₀.afterSteps steps).freeNames [], ¬ r.IsReference x) :
    (∃ warnings shown, (t₀.afterSteps steps).prettify .unlimited r true = (warnings, .ok shown)) ∧
      ∀ limits : Limits,
        (∀ forms, (NamedForm.ofRegistry limits r).2 = .ok forms → (t₀.afterSteps steps).ShownApart forms) →
        ∀ warnings shown, (t₀.afterSteps steps).prettify limits r true = (warnings, .ok shown) →
          ∃ u, r.readBack? shown = some u ∧ u.AlphaEquiv (t₀.afterSteps steps) := by
  have hsound := (sound_of_parse hr₀ htext hparse).afterSteps steps
  refine ⟨Term.exists_prettify r true _, ?_⟩
  intro limits hapart warnings shown hshown
  exact exists_readBack? (hsound.displays_prettify hreached hr hdefinitions hfree hapart hshown)

/-- A built-in term and numerals in a term after one step. -/
theorem readBack_prettify_successor :
    let plugged : Term := .app {} (.lam {} "x" (.app {} (.app {} (.var {} "g")
      (.app {} (.var {} "x") (Numeral.term 2))) (.lam {} "a" (.lam {} "b" (.var {} "a")))))
      (.lam ⟨some "_SUCC", false⟩ "n" (.lam {} "f" (.lam {} "x" (.app {} (.var {} "f")
        (.app {} (.app {} (.var {} "n") (.var {} "f")) (.var {} "x"))))))
    initial.parse .unlimited "(λx.g (x _2) (λa.λb.a)) _SUCC" = .ok plugged ∧
      (plugged.afterSteps 1).prettify .unlimited initial true = ([], .ok "(g ((_SUCC) (_2))) (_TRUE)") ∧
      ∃ u, initial.readBack? "(g ((_SUCC) (_2))) (_TRUE)" = some u ∧ u.AlphaEquiv (plugged.afterSteps 1) := by
  intro plugged
  have hr : initial.MarkFree := by decide +kernel
  have hclosed : initial.Closed := by decide +kernel
  have htext : ∀ c ∈ "(λx.g (x _2) (λa.λb.a)) _SUCC".toList, IsPublic c := by decide +kernel
  have hparse : initial.parse .unlimited "(λx.g (x _2) (λa.λb.a)) _SUCC" = .ok plugged := by rfl
  have hfree : ∀ x ∈ (plugged.afterSteps 1).freeNames [], ¬ initial.IsReference x := by decide +kernel
  have hsound := (sound_of_parse hr htext hparse).afterSteps 1
  have hnames : ∀ x ∈ (plugged.afterSteps 1).allNames, Numeral.isNumeralName x.toList = false := by
    decide +kernel
  obtain ⟨-, hmeaning⟩ := readBack_prettify .initial hr hclosed.numeralFree hr htext hparse 1 hfree
  have hshown : (plugged.afterSteps 1).prettify .unlimited initial true
      = ([], .ok "(g ((_SUCC) (_2))) (_TRUE)") := by
    obtain ⟨collected, hcollect⟩ : ∃ collected,
        NamedForm.collect .unlimited initial initial.entries = collected := ⟨_, rfl⟩
    have hcollected : collected.1 = [] ∧ (collected.2.toOption.map fun forms =>
        (plugged.afterSteps 1).print (Term.bySubterms forms) .top) = some "(g ((_SUCC) (_2))) (_TRUE)" := by
      subst hcollect
      decide +kernel
    obtain ⟨hwarnings, hshown⟩ := hcollected
    obtain ⟨forms, hforms, hshown⟩ := Option.map_eq_some_iff.mp hshown
    have hcollect : NamedForm.collect .unlimited initial initial.entries = ([], .ok forms) :=
      hcollect.trans (Prod.ext hwarnings (toOption_eq_some_iff.mp hforms))
    exact Term.prettify_of_print hcollect (by decide +kernel) (by decide +kernel) hshown
  exact ⟨hparse, hshown, hmeaning .unlimited
    (fun forms hforms => hclosed.shownApart .initial hr hforms hsound hnames) _ _ hshown⟩

/-- The entries of a chain that begins with a numeral. -/
def numeralLink : Nat → NamedTerm
  | 0 => ⟨"B0", "_2", none⟩
  | n + 1 => link (n + 1)

/-- Two definitions with free names, one of which is what the passes leave of a chain. -/
def misleading (n : Nat) : Registry :=
  ⟨builtinTerms, ⟨"ABC", "a b c", none⟩ :: ⟨"CONST", "λy._B9", none⟩ :: (List.range n).map numeralLink⟩

theorem define_misleading (n : Nat) (h : n < maxPasses) :
    (misleading n).define .unlimited (numeralLink n) = .ok (misleading (n + 1)) := by
  unfold maxPasses at h
  interval_cases n <;> exact define_eq_ok (by rfl) (by decide) (by cbv) (by rfl)

theorem reached_misleading {n : Nat} (h : n ≤ maxPasses) : (misleading n).Reached := by
  induction n with
  | zero =>
      have hfirst : initial.define .unlimited ⟨"ABC", "a b c", none⟩
          = .ok ⟨builtinTerms, (misleading 0).custom.take 1⟩ :=
        define_eq_ok (by rfl) (by decide) (by cbv) (by rfl)
      have hsecond : define .unlimited ⟨builtinTerms, (misleading 0).custom.take 1⟩
          ⟨"CONST", "λy._B9", none⟩ = .ok (misleading 0) :=
        define_eq_ok (by rfl) (by decide) (by cbv) (by rfl)
      exact .define (.define .initial hfirst) hsecond
  | succ n ih => exact (ih (Nat.le_of_succ_le h)).define (define_misleading n h)

/-- A text that is read back as another term than the one it is shown for. -/
theorem exists_misread {r : Registry} {forms : List NamedForm}
    (hforms : NamedForm.collect .unlimited r r.entries = ([], .ok forms)) {text shown : String} {t : Term}
    (hparse : r.parse .unlimited text = .ok t) (hnumeral : Numeral.recognise? t = none)
    (htag : Numeral.isTag t.tag = false) (hshown : t.print (Term.bySubterms forms) .top = shown)
    (hread : (r.readBack? shown).any (fun u => decide (u.AlphaEquiv t)) = false) :
    ∃ t, r.parse .unlimited text = .ok t ∧ t.prettify .unlimited r true = ([], .ok shown) ∧
      ¬∃ u, r.readBack? shown = some u ∧ u.AlphaEquiv t := by
  refine ⟨t, hparse, Term.prettify_of_print hforms hnumeral htag hshown, ?_⟩
  rintro ⟨u, hu, hequiv⟩
  rw [hu, Option.any_some, decide_eq_false_iff_not] at hread
  exact hread hequiv

/-- Readable forms that are not read back as the terms they are shown for: a free name of a definition is bound
where the definition is shown, the name of a variable is spelled like a reference, and a free name of a
definition is spelled like the numeral in what is shown. -/
theorem not_readBack_prettify :
    (misleading maxPasses).Reached ∧ (misleading maxPasses).MarkFree ∧
      ∀ p ∈ [("λa.a b c", "λ@a._ABC"), ("_IDLx.x", "_ID (_ID)"), ("λx._2", "_CONST")],
        (∀ c ∈ p.1.toList, IsPublic c) ∧ ∃ t, (misleading maxPasses).parse .unlimited p.1 = .ok t ∧
          t.prettify .unlimited (misleading maxPasses) true = ([], .ok p.2) ∧
          ¬∃ u, (misleading maxPasses).readBack? p.2 = some u ∧ u.AlphaEquiv t := by
  let bound : Term := .lam {} "a" (.app {} (.app {} (.var {} "a") (.var {} "b")) (.var {} "c"))
  let spelled : Term := .app {} (.var {} "_ID") (.lam {} "x" (.var {} "x"))
  let tagged : Term := .lam {} "x" (Numeral.term 2)
  obtain ⟨collected, hcollect⟩ : ∃ collected,
      NamedForm.collect .unlimited (misleading maxPasses) (misleading maxPasses).entries = collected := ⟨_, rfl⟩
  have hcollected : collected.1 = [] ∧ (collected.2.toOption.map fun forms =>
      [bound, spelled, tagged].map fun t => t.print (Term.bySubterms forms) .top)
        = some ["λ@a._ABC", "_ID (_ID)", "_CONST"] := by
    subst hcollect
    decide +kernel
  obtain ⟨hwarnings, hshown⟩ := hcollected
  obtain ⟨forms, hforms, hshown⟩ := Option.map_eq_some_iff.mp hshown
  have hcollect : NamedForm.collect .unlimited (misleading maxPasses) (misleading maxPasses).entries
      = ([], .ok forms) := hcollect.trans (Prod.ext hwarnings (toOption_eq_some_iff.mp hforms))
  simp only [List.map_cons, List.map_nil, List.cons.injEq, and_true] at hshown
  obtain ⟨hbound, hspelled, htagged⟩ := hshown
  refine ⟨reached_misleading le_rfl, by decide +kernel, ?_⟩
  intro p hp
  simp only [List.mem_cons, List.not_mem_nil, or_false] at hp
  rcases hp with rfl | rfl | rfl
  · exact ⟨by decide +kernel, exists_misread hcollect (by rfl) (by rfl) (by rfl) hbound (by decide +kernel)⟩
  · exact ⟨by decide +kernel, exists_misread hcollect (by rfl) (by rfl) (by rfl) hspelled (by decide +kernel)⟩
  · exact ⟨by decide +kernel, exists_misread hcollect (by rfl) (by rfl) (by rfl) htagged (by decide +kernel)⟩

end Registry

end LambdaStepper
