import LambdaStepper.Proofs.Prettify.Words
import LambdaStepper.Proofs.Syntax.Provenance
import LambdaStepper.Proofs.Term.CanonicalText

/-! # What a readable form displays

In a text of words some words stand for terms.  The text displays the nameless form of the term as which it is
read, with those terms in the place of their words (`Displays`).  A term that is printed with canonical names
and with words in the place of some subterms displays its own nameless form, if these words stand for the
subterms and none of the subterms has a free name that is bound around it (`displays_printFrom`).

So terms that are printed alike are alpha-equivalent, also where tags are printed in the place of numerals
(`alphaEquiv_of_canonicalText_eq`), unless a free name looks like such a tag. -/

namespace LambdaStepper

open Syntax

/-! ### Words that stand for terms -/

/-- The term with other terms in the place of variables. -/
def Term.standIn (f : String → Option Term) : Term → Term
  | .var m x => (f x).getD (.var m x)
  | .lam m x body => .lam m x (body.standIn f)
  | .app m func arg => .app m (func.standIn f) (arg.standIn f)

/-- A text of words is read as a term that has a nameless form inside binders of the given names, once other
terms are put in the place of the words that stand for them. -/
def Displays (f : String → Option Term) (part : Part) (names : List String) (cs : List Char)
    (n : Nameless) : Prop :=
  ∃ ls u, SpellsWords cs ls ∧ Reads part ls u ∧ (u.standIn f).namelessIn names = n

namespace Displays

variable {f : String → Option Term} {names : List String} {cs ds : List Char} {n n' : Nameless} {x : String}

theorem word (hx : IsWord x.toList) :
    Displays f .atom names x.toList (((f x).getD (.var {} x)).namelessIn names) := by
  refine ⟨_, _, hx.spellsWords, .name _, ?_⟩
  rw [String.ofList_toList, Term.standIn]

theorem name (hx : IsWord x.toList) (hf : f x = none) :
    Displays f .atom names x.toList ((Term.var {} x).namelessIn names) := by
  have h : Displays f .atom names x.toList (((f x).getD (.var {} x)).namelessIn names) := .word hx
  rwa [hf] at h

theorem sequence (h : Displays f .atom names cs n) : Displays f .sequence names cs n := by
  obtain ⟨ls, u, hls, hu, hn⟩ := h
  exact ⟨ls, u, hls, .atoms (.single hu), hn⟩

theorem inPart (h : Displays f .atom names cs n) (context : PrintContext) :
    Displays f context.part names cs n := by
  cases context with
  | func | arg => exact h
  | body | top => exact h.sequence

theorem group (h : Displays f .sequence names cs n) :
    Displays f .atom names ('(' :: cs ++ [')']) n := by
  obtain ⟨ls, u, hls, hu, hn⟩ := h
  exact ⟨_, u, hls.group, .group hu, hn⟩

theorem lam (hx : IsWord x.toList) (h : Displays f .sequence (x :: names) cs n) :
    Displays f .sequence names ('λ' :: x.toList ++ '.' :: cs) (.lam n) := by
  obtain ⟨ls, u, hls, hu, hn⟩ := h
  refine ⟨_, _, ?_, .abstraction x hu, congrArg Nameless.lam hn⟩
  intro rest hrest
  have hbody := hls rest hrest
  have hpoint : words ('.' :: (cs ++ rest)) = [.point] ++ words (cs ++ rest) := words_cons rfl _
  have hparameter := hx.spellsWords ('.' :: (cs ++ rest)) rfl
  have hbinder : words ('λ' :: (x.toList ++ '.' :: (cs ++ rest)))
      = [.binder] ++ words (x.toList ++ '.' :: (cs ++ rest)) := words_cons rfl _
  rw [hparameter, hpoint, hbody, String.ofList_toList] at hbinder
  simpa using hbinder

theorem app (hf : Displays f .atom names cs n) (ha : Displays f .atom names ds n') :
    Displays f .sequence names (cs ++ ' ' :: ds) (.app n n') := by
  obtain ⟨ls, u, hls, hu, hn⟩ := hf
  obtain ⟨ls', u', hls', hu', hn'⟩ := ha
  refine ⟨_, _, ?_, .atoms (.apply (.single hu) hu'), congrArg₂ Nameless.app hn hn'⟩
  intro rest hrest
  have harg := hls' rest hrest
  have hblank : words (' ' :: (ds ++ rest)) = [] ++ words (ds ++ rest) := words_cons rfl _
  have hfunc := hls (' ' :: (ds ++ rest)) rfl
  rw [hblank, harg] at hfunc
  simpa using hfunc

theorem bracket {context : PrintContext} {t : Term} (h : Displays f .sequence names cs n)
    (ht : t.needsParentheses context = decide (context.part = .atom)) :
    Displays f context.part names (Term.bracket t context cs) n := by
  unfold Term.bracket
  rw [ht]
  cases context with
  | func | arg => exact h.group
  | body | top => exact h

theorem bracket_atom {context : PrintContext} {t : Term} (h : Displays f .atom names cs n) :
    Displays f context.part names (Term.bracket t context cs) n := by
  unfold Term.bracket
  split
  · next hparentheses =>
    cases context with
    | func | arg => exact h.sequence.group
    | body | top => cases t <;> simp [Term.needsParentheses] at hparentheses
  · exact h.inPart context

theorem unique (h : Displays f .sequence names cs n) (h' : Displays f .sequence names cs n') : n = n' := by
  obtain ⟨ls, u, hls, hu, rfl⟩ := h
  obtain ⟨ls', u', hls', hu', rfl⟩ := h'
  have hread := (readWords?_of_reads hls hu).symm.trans (readWords?_of_reads hls' hu')
  rw [Option.some.inj hread]

end Displays

/-! ### Printed terms -/

theorem Term.isWord_canonicalName (n : Nat) : IsWord (Term.canonicalName n).toList := by
  have h := IsPrintedName.canonicalName n
  refine ⟨h.ne_nil, ?_⟩
  intro c hc
  have hname := h.all c hc
  rw [isNameChar, Bool.or_eq_true, decide_eq_true_iff] at hname
  rcases hname with hword | rfl
  · exact betweenWords?_of_isWordChar hword
  · rfl

namespace Nameless.PrintedScope

variable {names : List String} {counter : Nat}

theorem notMem (hs : PrintedScope names counter) {x : String} (hx : isIdentifier x.toList = true) :
    x ∉ names := by
  intro hmem
  obtain ⟨j, -, rfl⟩ := hs.canonical x hmem
  rw [Term.canonicalName_toList] at hx
  simp [isIdentifier, startsName, isLetter] at hx

theorem idxOf?_getElem (hs : PrintedScope names counter) {i : Nat} (hi : i < names.length) :
    names.idxOf? names[i] = some i := by
  refine List.idxOf?_eq_some_iff.mpr ⟨hi, rfl, ?_⟩
  intro j hji heq
  have hij := (List.Nodup.getElem_inj_iff hs.nodup).mp heq
  omega

end Nameless.PrintedScope

namespace Term

/-- The subterms for which a style prints something else than their structure, each with the names that are
bound around it, the innermost first. -/
def atoms (style : PrintStyle) (scope : List String) : Term → List (List String × Term)
  | .var m x => if (atomText? style (.var m x)).isSome then [(scope, .var m x)] else []
  | .lam m x body =>
    if (atomText? style (.lam m x body)).isSome then [(scope, .lam m x body)]
    else body.atoms style (x :: scope)
  | .app m func arg =>
    if (atomText? style (.app m func arg)).isSome then [(scope, .app m func arg)]
    else func.atoms style scope ++ arg.atoms style scope

variable {style : PrintStyle} {t u : Term}

theorem atoms_eq_singleton {text : String} (h : atomText? style t = some text) (scope : List String) :
    t.atoms style scope = [(scope, t)] := by
  cases t <;> simp [atoms, h]

/-- What is printed in the place of its structure is a subterm, and its free names that are not bound around
it are free in the term. -/
theorem of_mem_atoms {scope : List String} {p : List String × Term} (hp : p ∈ t.atoms style scope) :
    p.2 ∈ t.nodes ∧ (∃ text, atomText? style p.2 = some text) ∧
      ∀ x ∈ p.2.freeNames [], x ∉ p.1 → x ∈ t.freeNames scope := by
  -- where the term itself is printed so, nothing is left to show
  have hself : ∀ {scope : List String} {u : Term}, (atomText? style u).isSome = true → p = (scope, u) →
      p.2 ∈ u.nodes ∧ (∃ text, atomText? style p.2 = some text) ∧
        ∀ x ∈ p.2.freeNames [], x ∉ p.1 → x ∈ u.freeNames scope := by
    rintro scope u htext rfl
    refine ⟨by cases u <;> simp [nodes], Option.isSome_iff_exists.mp htext, ?_⟩
    intro x hx hscope
    exact (mem_freeNames_iff u x scope).mpr ⟨hx, hscope⟩
  induction t generalizing scope with
  | var m x =>
      unfold atoms at hp
      split at hp
      · next htext => exact hself htext (List.mem_singleton.mp hp)
      · exact absurd hp List.not_mem_nil
  | lam m x body ih =>
      unfold atoms at hp
      split at hp
      · next htext => exact hself htext (List.mem_singleton.mp hp)
      · obtain ⟨hnode, htext, hfree⟩ := ih hp
        exact ⟨List.mem_cons_of_mem _ hnode, htext, hfree⟩
  | app m func arg ihf iha =>
      unfold atoms at hp
      split at hp
      · next htext => exact hself htext (List.mem_singleton.mp hp)
      · rcases List.mem_append.mp hp with hp | hp
        · obtain ⟨hnode, htext, hfree⟩ := ihf hp
          refine ⟨List.mem_cons_of_mem _ (List.mem_append_left _ hnode), htext, ?_⟩
          intro x hx hscope
          exact List.mem_append_left _ (hfree x hx hscope)
        · obtain ⟨hnode, htext, hfree⟩ := iha hp
          refine ⟨List.mem_cons_of_mem _ (List.mem_append_right _ hnode), htext, ?_⟩
          intro x hx hscope
          exact List.mem_append_right _ (hfree x hx hscope)

theorem AlphaEquiv.freeNames_eq (h : t.AlphaEquiv u) : t.freeNames [] = u.freeNames [] := by
  have hnameless : t.nameless = u.nameless := h
  rw [← freeNames_nameless, hnameless, freeNames_nameless]

theorem le_printFrom (style : PrintStyle) (scope : List (String × String)) (counter : Nat)
    (context : PrintContext) (t : Term) : counter ≤ (printFrom style scope counter context t).2 := by
  induction t generalizing scope counter context with
  | var m x => exact Nat.le_refl counter
  | lam m x body ih =>
      unfold printFrom
      split
      · exact Nat.le_refl counter
      · refine Nat.le_trans ?_ (ih _ _ .body)
        split <;> omega
  | app m func arg ihf iha =>
      unfold printFrom
      split
      · exact Nat.le_refl counter
      · exact Nat.le_trans (ihf scope counter .func) (iha scope _ .arg)

/-- A word stands for a term. -/
structure StandsFor (f : String → Option Term) (word : String) (t : Term) : Prop where
  isWord : IsWord word.toList
  meaning : ∃ d, f word = some d ∧ d.AlphaEquiv t

theorem StandsFor.mono {f g : String → Option Term} {word : String} (h : StandsFor f word t)
    (hfg : ∀ {d : Term}, f word = some d → g word = some d) : StandsFor g word t := by
  obtain ⟨d, hd, hequiv⟩ := h.meaning
  exact ⟨h.isWord, d, hfg hd, hequiv⟩

/-- What is printed in the place of a subterm stands for it, and no free name of it is bound around it. -/
structure Replaceable (f : String → Option Term) (style : PrintStyle) (p : List String × Term) : Prop where
  stands : ∀ text, atomText? style p.2 = some text → StandsFor f text p.2
  apart : ∀ x ∈ p.2.freeNames [], x ∉ p.1

section Displayed

variable {f : String → Option Term} {scope : List (String × String)} {counter : Nat}

theorem StandsFor.displays {word : String} (h : StandsFor f word t) {names : List String}
    (hnames : ∀ x ∈ t.freeNames [], x ∉ names) : Displays f .atom names word.toList t.nameless := by
  obtain ⟨d, hd, hequiv⟩ := h.meaning
  have hdisplays : Displays f .atom names word.toList (((f word).getD (.var {} word)).namelessIn names) :=
    .word h.isWord
  have hdnames : ∀ x ∈ d.freeNames [], x ∉ names := by
    rwa [hequiv.freeNames_eq]
  rwa [hd, Option.getD_some, namelessIn_of_disjoint hdnames, show d.nameless = t.nameless from hequiv]
    at hdisplays

theorem displays_var (hf : ∀ i, f (canonicalName i) = none)
    (hscope : Nameless.PrintedScope (scope.map Prod.snd) counter) {m : Mark} {x : String}
    (hfree : x ∉ scope.map Prod.fst → isIdentifier x.toList = true ∧ f x = none) :
    Displays f .atom (scope.map Prod.snd) ((scope.lookup x).getD x).toList
      ((var m x).namelessIn (scope.map Prod.fst)) := by
  rw [lookup_eq_bind_idxOf?]
  cases hx : (scope.map Prod.fst).idxOf? x with
  | none =>
      obtain ⟨hid, hnone⟩ := hfree (List.idxOf?_eq_none_iff.mp hx)
      have hother : (scope.map Prod.snd).idxOf? x = none :=
        List.idxOf?_eq_none_iff.mpr (hscope.notMem hid)
      have h : Displays f .atom (scope.map Prod.snd) x.toList ((var {} x).namelessIn (scope.map Prod.snd)) :=
        .name (isWord_of_isIdentifier hid) hnone
      simp only [namelessIn, hother] at h
      simpa only [namelessIn, hx, Option.bind_none, Option.getD_none] using h
  | some i =>
      obtain ⟨hi, -⟩ := List.idxOf?_eq_some_iff.mp hx
      have hi' : i < (scope.map Prod.snd).length := by simpa using hi
      obtain ⟨j, -, hj⟩ := hscope.canonical _ (List.getElem_mem hi')
      have h : Displays f .atom (scope.map Prod.snd) (scope.map Prod.snd)[i].toList
          ((var {} (scope.map Prod.snd)[i]).namelessIn (scope.map Prod.snd)) :=
        .name (hj ▸ isWord_canonicalName j) (hj ▸ hf j)
      simp only [namelessIn, hscope.idxOf?_getElem hi'] at h
      simpa only [namelessIn, hx, Option.bind_some, List.getElem?_eq_getElem hi', Option.getD_some] using h

theorem displays_of_atomText? {text : String} (htext : atomText? style t = some text)
    (hscope : Nameless.PrintedScope (scope.map Prod.snd) counter)
    (hfree : ∀ x ∈ t.freeNames (scope.map Prod.fst), isIdentifier x.toList = true ∧ f x = none)
    (hatoms : ∀ p ∈ t.atoms style (scope.map Prod.fst), Replaceable f style p) (context : PrintContext) :
    Displays f context.part (scope.map Prod.snd) (printFrom style scope counter context t).1
      (t.namelessIn (scope.map Prod.fst)) := by
  rw [atoms_eq_singleton htext] at hatoms
  obtain ⟨hstands, hapart⟩ := hatoms _ (List.mem_singleton_self _)
  have hnames : ∀ x ∈ t.freeNames [], x ∉ scope.map Prod.snd := by
    intro x hx
    exact hscope.notMem (hfree x ((mem_freeNames_iff t x _).mpr ⟨hx, hapart x hx⟩)).1
  have h : Displays f .atom (scope.map Prod.snd) text.toList (t.namelessIn (scope.map Prod.fst)) := by
    rw [namelessIn_of_disjoint hapart]
    exact (hstands text htext).displays hnames
  cases t <;> simp only [printFrom, htext] <;> exact h.bracket_atom

/-- **A printed term displays its nameless form**, in a canonical style. -/
theorem displays_printFrom (hstyle : style.canonical = true) (hf : ∀ i, f (canonicalName i) = none)
    (hscope : Nameless.PrintedScope (scope.map Prod.snd) counter)
    (hfree : ∀ x ∈ t.freeNames (scope.map Prod.fst), isIdentifier x.toList = true ∧ f x = none)
    (hatoms : ∀ p ∈ t.atoms style (scope.map Prod.fst), Replaceable f style p) (context : PrintContext) :
    Displays f context.part (scope.map Prod.snd) (printFrom style scope counter context t).1
      (t.namelessIn (scope.map Prod.fst)) := by
  induction t generalizing scope counter context with
  | var m x =>
      cases htext : atomText? style (var m x) with
      | some text => exact displays_of_atomText? htext hscope hfree hatoms context
      | none =>
          simp only [printFrom, htext]
          refine (displays_var hf hscope ?_).bracket_atom
          intro hx
          exact hfree x (by simp [freeNames, hx])
  | lam m x body ih =>
      cases htext : atomText? style (lam m x body) with
      | some text => exact displays_of_atomText? htext hscope hfree hatoms context
      | none =>
          rw [atoms, htext] at hatoms
          have hinner : Nameless.PrintedScope (((x, canonicalName counter) :: scope).map Prod.snd)
              (counter + 1) := hscope.cons
          have hbody := ih hinner hfree hatoms .body
          simp only [printFrom, htext, hstyle, if_true]
          refine Displays.bracket (.lam (isWord_canonicalName counter) hbody) ?_
          cases context <;> rfl
  | app m func arg ihf iha =>
      cases htext : atomText? style (app m func arg) with
      | some text => exact displays_of_atomText? htext hscope hfree hatoms context
      | none =>
          rw [atoms, htext] at hatoms
          obtain ⟨hfuncFree, hargFree⟩ := List.forall_mem_append.mp hfree
          obtain ⟨hfuncAtoms, hargAtoms⟩ := List.forall_mem_append.mp hatoms
          have hfunc := ihf hscope hfuncFree hfuncAtoms .func
          have hlater := hscope.mono (le_printFrom style scope counter .func func)
          have harg := iha hlater hargFree hargAtoms .arg
          simp only [printFrom, htext]
          refine Displays.bracket (.app hfunc harg) ?_
          cases context <;> rfl

theorem displays_print (hstyle : style.canonical = true) (hf : ∀ i, f (canonicalName i) = none)
    (hfree : ∀ x ∈ t.freeNames [], isIdentifier x.toList = true ∧ f x = none)
    (hatoms : ∀ p ∈ t.atoms style [], Replaceable f style p) :
    Displays f .sequence [] (t.print style .top).toList t.nameless := by
  have hscope : Nameless.PrintedScope (List.map Prod.snd ([] : List (String × String))) 0 := .nil 0
  rw [print, String.toList_ofList]
  exact displays_printFrom hstyle hf hscope hfree hatoms .top

end Displayed

end Term

/-! ### Terms that print alike -/

/-- The numeral of a name. -/
def Numeral.ofName? (name : String) : Option Term :=
  if isNumeralName name.toList then
    some (term (Text.digitsValue (name.toList.tail.takeWhile Text.isDecimalDigit)))
  else none

theorem Numeral.ofName?_eq_none {x : String} (h : isNumeralName x.toList = false) : ofName? x = none := by
  rw [ofName?, h]
  rfl

theorem Numeral.ofName?_canonicalName (i : Nat) : ofName? (Term.canonicalName i) = none := by
  refine ofName?_eq_none ?_
  rw [Term.canonicalName_toList]
  rfl

theorem Numeral.IsLabel.ofName? {label : List Char} (h : IsLabel label) :
    IsWord ('_' :: label) ∧
      Numeral.ofName? (String.ofList ('_' :: label)) = some (term (Text.digitsValue label)) := by
  obtain ⟨hne, hdigits⟩ := h
  obtain ⟨c, cs, rfl⟩ := List.exists_cons_of_ne_nil hne
  obtain ⟨hc, hcs⟩ := List.forall_mem_cons.mp hdigits
  constructor
  · refine ⟨List.cons_ne_nil _ _, List.forall_mem_cons.mpr ⟨rfl, ?_⟩⟩
    exact fun d hd => betweenWords?_of_isDecimalDigit (hdigits d hd)
  · have htake : cs.takeWhile Text.isDecimalDigit = cs := List.takeWhile_eq_self_iff.mpr hcs
    have hdrop : cs.dropWhile Text.isDecimalDigit = [] := List.dropWhile_eq_nil_iff.mpr hcs
    have hname : isNumeralName ('_' :: c :: cs) = true := by
      rw [isNumeralName, hc, hdrop]
      rfl
    rw [Numeral.ofName?, String.toList_ofList, if_pos hname, List.tail_cons, List.takeWhile_cons, if_pos hc,
      htake]

namespace Term

variable {t u : Term}

theorem TagHolds.standsFor (h : t.TagHolds) {text : String} (htag : Numeral.isTag t.tag = true)
    (htext : t.tag = some text) : StandsFor Numeral.ofName? text t := by
  obtain ⟨label, hlabel, hname, hbare⟩ := h htag
  obtain rfl := Option.some.inj (htext.symm.trans hname)
  obtain ⟨hword, hvalue⟩ := hlabel.ofName?
  exact ⟨by rwa [String.toList_ofList], _, hvalue, (alphaEquiv_of_bare_eq hbare).symm⟩

/-- What is printed in the place of a term without forms is its numeral tag. -/
theorem tag_of_atomText? {style : PrintStyle} (hstyle : style.atom? t = none) {text : String}
    (h : atomText? style t = some text) : Numeral.isTag t.tag = true ∧ t.tag = some text := by
  simp only [atomText?, hstyle] at h
  split at h
  · next htag =>
    rw [Bool.and_eq_true] at htag
    exact ⟨htag.2, h⟩
  · cases h

theorem StandsFor.freeNames_eq_nil {word : String} (h : StandsFor Numeral.ofName? word t) :
    t.freeNames [] = [] := by
  obtain ⟨d, hd, hequiv⟩ := h.meaning
  unfold Numeral.ofName? at hd
  split at hd
  · obtain rfl := Option.some.inj hd
    rw [← hequiv.freeNames_eq, freeNames_numeral]
  · cases hd

theorem subset_of_mem_nodes (hu : u ∈ t.nodes) : u.nodes ⊆ t.nodes ∧ u.allNames ⊆ t.allNames := by
  induction t with
  | var m x =>
      obtain rfl := List.mem_singleton.mp hu
      exact ⟨List.Subset.refl _, List.Subset.refl _⟩
  | lam m x body ih =>
      rcases List.mem_cons.mp hu with rfl | hbody
      · exact ⟨List.Subset.refl _, List.Subset.refl _⟩
      · obtain ⟨hnodes, hnames⟩ := ih hbody
        exact ⟨List.subset_cons_of_subset _ hnodes, List.subset_cons_of_subset _ hnames⟩
  | app m func arg ihf iha =>
      rcases List.mem_cons.mp hu with rfl | hu
      · exact ⟨List.Subset.refl _, List.Subset.refl _⟩
      · rcases List.mem_append.mp hu with hfunc | harg
        · obtain ⟨hnodes, hnames⟩ := ihf hfunc
          exact ⟨List.subset_cons_of_subset _ (List.subset_append_of_subset_left _ hnodes),
            List.subset_append_of_subset_left _ hnames⟩
        · obtain ⟨hnodes, hnames⟩ := iha harg
          exact ⟨List.subset_cons_of_subset _ (List.subset_append_of_subset_right _ hnodes),
            List.subset_append_of_subset_right _ hnames⟩

theorem Sound.of_mem_nodes (h : t.Sound) (hu : u ∈ t.nodes) : u.Sound := by
  obtain ⟨hnodes, hnames⟩ := subset_of_mem_nodes hu
  exact ⟨fun s hs => h.tags s (hnodes hs), fun x hx => h.names x (hnames hx)⟩

theorem Sound.displays_canonicalText (h : t.Sound)
    (hfree : ∀ x ∈ t.freeNames [], Numeral.isNumeralName x.toList = false) :
    Displays Numeral.ofName? .sequence [] t.canonicalText.toList t.nameless := by
  refine displays_print rfl Numeral.ofName?_canonicalName ?_ ?_
  · intro x hx
    exact ⟨(h.names x (allNames_of_mem_freeNames hx)).identifier, Numeral.ofName?_eq_none (hfree x hx)⟩
  · intro p hp
    obtain ⟨hnode, ⟨text, htext⟩, -⟩ := of_mem_atoms hp
    obtain ⟨htag, htext⟩ := tag_of_atomText? rfl htext
    have hholds := (h.of_mem_nodes hnode).tags.tagHolds
    have hstands : StandsFor Numeral.ofName? text p.2 := hholds.standsFor htag htext
    refine ⟨?_, by simp [hstands.freeNames_eq_nil]⟩
    intro text htext
    obtain ⟨htag, htext⟩ := tag_of_atomText? rfl htext
    exact hholds.standsFor htag htext

/-- **Terms that print alike are alpha-equivalent**, also where tags are printed in the place of numerals,
if no free name looks like such a tag. -/
theorem alphaEquiv_of_canonicalText_eq (ht : t.Sound) (hu : u.Sound)
    (htfree : ∀ x ∈ t.freeNames [], Numeral.isNumeralName x.toList = false)
    (hufree : ∀ x ∈ u.freeNames [], Numeral.isNumeralName x.toList = false)
    (h : t.canonicalText = u.canonicalText) : t.AlphaEquiv u := by
  have htext := ht.displays_canonicalText htfree
  rw [h] at htext
  exact htext.unique (hu.displays_canonicalText hufree)

end Term
end LambdaStepper
