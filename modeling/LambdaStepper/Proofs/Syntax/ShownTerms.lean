import Mathlib
import LambdaStepper.Proofs.Syntax.Provenance
import LambdaStepper.Registry.Definition

/-! # What is shown can be read again

A term is shown with its own names and with the numeral references its tags hold.  Reading the text again
expands the references, so three texts belong together: the one shown, its expansion and the lexemes of
that (`Echoed`).  One pass turns the first into the second, a further pass changes nothing, and the lexer
finds the third (`Echoed.parse`).  That a printed term is such a text, and that it stands for the structure
of the term, is one induction (`shows_printFrom`).

It needs that names are none of the references that are expanded, and this may fail: a chain of entries
longer than the passes leaves a reference as the name of a variable (`not_readsBack_chain`). -/

namespace LambdaStepper

open Syntax Registry

/-- Whether a name is a reference that is expanded: one to a numeral or to an entry. -/
def Registry.IsReference (r : Registry) (x : String) : Prop :=
  Numeral.isNumeralName x.toList = true ∨ ∃ name ∈ r.names, x = "_" ++ name

instance (r : Registry) (x : String) : Decidable (r.IsReference x) :=
  inferInstanceAs (Decidable (_ ∨ _))

theorem Registry.writable_of_isReadable {r : Registry} {x : String} (h : IsReadable x)
    (hx : ¬ r.IsReference x) : r.Writable x := by
  unfold IsReference at hx
  rw [not_or, Bool.not_eq_true] at hx
  exact ⟨h.identifier, h.no_binder, hx.1, fun name hname heq => hx.2 ⟨name, hname, heq⟩⟩

/-- What is shown for a term parses to a term of the same structure and names. -/
def Registry.ReadsBack (r : Registry) (t : Term) : Prop :=
  ∃ u, r.parse .unlimited t.shown = .ok u ∧ u.bare = t.bare ∧ u.AlphaEquiv t

/-! ### Texts with references to numerals -/

/-- A text with writable names and references to numerals, the text with these references expanded, and the
lexemes of that. -/
inductive Registry.Echoed (r : Registry) : List Char → List Char → List Lexeme → Prop where
  | nil : Echoed r [] [] []
  | blank {cs es : List Char} {ls : List Lexeme} (c : Char) (hc : Text.isBlank c = true)
      (h : Echoed r cs es ls) : Echoed r (c :: cs) (c :: es) ls
  | sign {cs es : List Char} {ls : List Lexeme} (c : Char) (l : Lexeme) (hl : signOf? l = some c)
      (h : Echoed r cs es ls) : Echoed r (c :: cs) (c :: es) (l :: ls)
  | name {cs es : List Char} {ls : List Lexeme} (x : String) (hx : r.Writable x)
      (hcs : endsName cs = true) (h : Echoed r cs es ls) :
      Echoed r (x.toList ++ cs) (x.toList ++ es) (.name x :: ls)
  | numeral {cs es : List Char} {ls : List Lexeme} (label : List Char) (hlabel : Numeral.IsLabel label)
      (hcs : endsName cs = true) (h : Echoed r cs es ls) :
      Echoed r ('_' :: label ++ cs) (Numeral.block label ++ es) (numeralLexemes label ++ ls)

theorem Syntax.endsName_eq_false_of_isIdentifier {x rest : List Char} (hx : isIdentifier x = true) :
    endsName (x ++ rest) = false := by
  obtain ⟨c, w, rfl, hc, -⟩ := exists_of_isIdentifier hx
  simp [endsName, isWordChar_of_startsName hc]

/-- A name ends before a text if no reference may be mistaken for a part of it there. -/
theorem Syntax.mayFollow_of_endsName_eq_false {before : Option Char} {cs : List Char}
    (hbefore : mayFollow before = true ∨ endsName cs = true) (hcs : endsName cs = false) :
    mayFollow before = true := by
  rcases hbefore with h | h
  · exact h
  · rw [hcs] at h
    cases h

theorem Syntax.mayFollow_of_isBlank {c : Char} (hc : Text.isBlank c = true) :
    mayFollow (some c) = true := by
  have hopen : c ≠ markOpen := ne_of_class hc (by decide)
  simp [mayFollow, isWordChar_eq_false_of_isBlank hc, hopen]

theorem Syntax.mayFollow_of_signOf? {l : Lexeme} {c : Char} (hl : signOf? l = some c) :
    mayFollow (some c) = true := by
  rcases eq_of_signOf? hl with rfl | rfl | rfl | rfl <;> decide

theorem Syntax.numeralLabel?_append {label rest : List Char} (h : Numeral.IsLabel label)
    (hrest : endsName rest = true) : numeralLabel? (label ++ rest) = some label.length := by
  obtain ⟨hne, hdigits⟩ := h
  have hnone : numeralLabel? rest = none := numeralLabel?_eq_none (w := []) rfl (.inl rfl) hrest
  have hend : continuesWord rest = false := by
    cases rest with
    | nil => rfl
    | cons c rest =>
        rw [endsName, Bool.and_eq_true, Bool.not_eq_true'] at hrest
        exact hrest.1
  induction label with
  | nil => exact absurd rfl hne
  | cons c label ih =>
      obtain ⟨hc, hdigits⟩ := List.forall_mem_cons.mp hdigits
      rw [List.cons_append, numeralLabel?, if_pos hc]
      cases label with
      | nil => simp [hnone, hend]
      | cons d label =>
          rw [ih (List.cons_ne_nil d label) hdigits]
          rfl

namespace Registry.Echoed

variable {r : Registry} {cs es : List Char} {ls : List Lexeme}

theorem endsName (h : r.Echoed cs es ls) (hcs : endsName cs = true) : Syntax.endsName es = true := by
  cases h with
  | nil => rfl
  | blank | sign => exact hcs
  | name x hx =>
      rw [endsName_eq_false_of_isIdentifier hx.identifier] at hcs
      cases hcs
  | numeral => cases hcs

/-! ### Expansion -/

/-- The first pass puts numerals in the place of their references and changes nothing else. -/
theorem flatMap_expandNumeral (h : r.Echoed cs es ls) (before : Option Char)
    (hbefore : mayFollow before = true ∨ Syntax.endsName cs = true) :
    (segmentsFrom numeralLabel? 0 before cs).flatMap (expandNumeral true) = es := by
  induction h generalizing before with
  | nil => rfl
  | blank c hc _ ih =>
      rw [flatMap_segmentsFrom_cons (keepsPlain_expandNumeral true) _ (ne_underscore_of_isBlank hc),
        ih (some c) (.inl (mayFollow_of_isBlank hc))]
  | sign c l hl _ ih =>
      rw [flatMap_segmentsFrom_cons (keepsPlain_expandNumeral true) _ (ne_underscore_of_signOf? hl),
        ih (some c) (.inl (mayFollow_of_signOf? hl))]
  | name x hx hcs _ ih =>
      obtain ⟨b, hb⟩ := flatMap_segmentsFrom_of_isIdentifier (keepsPlain_expandNumeral true)
        numeralLabel? hx.identifier (fun w hw =>
          .inl (numeralLabel?_eq_none (hx.all_isWordChar hw) (hx.digits hw) hcs)) before
      rw [hb, ih b (.inr hcs)]
  | @numeral cs es ls label hlabel hcs _ ih =>
      have hstart : mayFollow before = true := mayFollow_of_endsName_eq_false hbefore rfl
      obtain ⟨b, hb⟩ := segmentsFrom_append numeralLabel? label cs (some '_')
      rw [List.cons_append, segmentsFrom, hstart, numeralLabel?_append hlabel hcs]
      simp only [decide_true, Bool.and_self, if_true, hb, List.take_left, List.flatMap_cons,
        ih b (.inr hcs)]
      rfl

theorem flatMap_eq_self {label? : List Char → Option Nat} {f : Segment → List Char}
    (hf : KeepsPlain f) (hname : ∀ x w rest, r.Writable x → x.toList = '_' :: w →
      Syntax.endsName rest = true → label? (w ++ rest) = none ∨
        label? (w ++ rest) = some w.length ∧ f (.reference w) = '_' :: w)
    (h : r.Echoed cs es ls) (before : Option Char) :
    (segmentsFrom label? 0 before es).flatMap f = es := by
  induction h generalizing before with
  | nil => rfl
  | blank c hc _ ih => rw [flatMap_segmentsFrom_cons hf _ (ne_underscore_of_isBlank hc), ih]
  | sign c l hl _ ih => rw [flatMap_segmentsFrom_cons hf _ (ne_underscore_of_signOf? hl), ih]
  | name x hx hcs h ih =>
      obtain ⟨b, hb⟩ := flatMap_segmentsFrom_of_isIdentifier hf label? hx.identifier
        (fun w hw => hname x w _ hx hw (h.endsName hcs)) before
      rw [hb, ih]
  | numeral label hlabel _ _ ih =>
      rw [flatMap_segmentsFrom_of_inert hf label? (Numeral.inert_block hlabel before), ih]

theorem flatMap_expandName (h : r.Echoed cs es ls) :
    (segments nameLabel? es).flatMap (r.expandName true) = es := by
  refine h.flatMap_eq_self (r.keepsPlain_expandName true) ?_ none
  intro x w rest hx hw hrest
  refine (nameLabel?_eq (hx.all_isWordChar hw) hrest).imp_right fun hl => ⟨hl, ?_⟩
  simp only [expandName, hx.lookup_eq_none hw]

theorem expandOnce (h : r.Echoed cs es ls) : r.expandOnce true cs = es := by
  have hnumerals := h.flatMap_expandNumeral none (.inl rfl)
  unfold Registry.expandOnce segments
  rw [hnumerals]
  exact h.flatMap_expandName

theorem expandOnce_expanded (h : r.Echoed cs es ls) : r.expandOnce true es = es := by
  have hnumerals : (segments numeralLabel? es).flatMap (expandNumeral true) = es := by
    refine h.flatMap_eq_self (keepsPlain_expandNumeral true) ?_ none
    intro x w rest hx hw hrest
    exact .inl (numeralLabel?_eq_none (hx.all_isWordChar hw) (hx.digits hw) hrest)
  unfold Registry.expandOnce
  rw [hnumerals]
  exact h.flatMap_expandName

theorem expandWithin (h : r.Echoed cs es ls) : r.expandWithin .unlimited true cs = .ok es := by
  rw [expandWithin_unlimited, expand, maxPasses, expandPasses, h.expandOnce]
  split
  · next heq => rw [← heq]
  · rw [expandPasses, h.expandOnce_expanded, if_pos rfl]

/-! ### Tokens -/

theorem unifyBinders (h : r.Echoed cs es ls) : unifyBinders es = es := by
  unfold Syntax.unifyBinders
  induction h with
  | nil => rfl
  | @blank cs es ls c hc _ ih =>
      have hc' : ∀ d ∈ [c], IsUnified d := List.forall_mem_singleton.mpr (isUnified_of_isBlank hc)
      rw [← List.singleton_append, unifyFrom_append hc', ih]
  | @sign cs es ls c l hl _ ih =>
      have hc' : ∀ d ∈ [c], IsUnified d := List.forall_mem_singleton.mpr (isUnified_of_signOf? hl)
      rw [← List.singleton_append, unifyFrom_append hc', ih]
  | name x hx _ _ ih =>
      rw [unifyFrom_append (isUnified_of_mem_identifier hx.identifier hx.no_binder), ih]
  | numeral label hlabel _ _ ih => rw [unifyFrom_block hlabel, ih]

theorem tokensFrom (h : r.Echoed cs es ls) (position : Nat) :
    ∃ tokens, tokensFrom 0 position es = .ok tokens ∧ tokens.map Token.lexeme = ls := by
  induction h generalizing position with
  | nil => exact ⟨[], rfl, rfl⟩
  | blank c hc _ ih =>
      rw [tokensFrom_blank hc]
      exact ih (position + 1)
  | sign c l hl _ ih =>
      obtain ⟨tokens, htokens, hls⟩ := ih (position + 1)
      rw [tokensFrom_sign hl, htokens]
      exact ⟨_, rfl, by rw [List.map_cons, hls]⟩
  | name x hx hcs h ih =>
      obtain ⟨tokens, htokens, hls⟩ := ih (position + x.toList.length)
      rw [tokensFrom_name hx.identifier (h.endsName hcs), htokens]
      exact ⟨_, rfl, by rw [List.map_cons, hls]⟩
  | numeral label hlabel _ _ ih =>
      obtain ⟨tokens, htokens, hls⟩ := ih (position + (Numeral.block label).length)
      obtain ⟨block, hblock, heq⟩ := tokensFrom_block hlabel _ position
      rw [heq, htokens]
      exact ⟨_, rfl, by rw [List.map_append, hblock, hls]⟩

theorem tokenize (h : r.Echoed cs es ls) :
    ∃ tokens, tokenize es = .ok tokens ∧ tokens.map Token.lexeme = ls := by
  obtain ⟨tokens, htokens, hls⟩ := h.tokensFrom 0
  refine ⟨tokens, ?_, hls⟩
  unfold Syntax.tokenize
  simp only [h.unifyBinders, htokens]

theorem trim_ne_nil (h : r.Echoed cs es ls) (hne : ls ≠ []) : Text.trim cs ≠ [] := by
  intro htrim
  have hall := isBlank_of_trim_eq_nil htrim
  clear htrim
  induction h with
  | nil => exact hne rfl
  | blank c _ _ ih => exact ih hne fun d hd => hall d (List.mem_cons_of_mem c hd)
  | sign c l hl _ _ =>
      have hc := hall c List.mem_cons_self
      rcases eq_of_signOf? hl with rfl | rfl | rfl | rfl <;> cases hc
  | name x hx _ _ _ =>
      obtain ⟨c, w, hxs, hc, -⟩ := exists_of_isIdentifier hx.identifier
      have hblank := hall c (by simp [hxs])
      rw [startsName_eq_false_of_isBlank hblank] at hc
      cases hc
  | numeral => exact absurd (hall '_' List.mem_cons_self) (by decide)

/-- A text with references to numerals parses to the term as which its expansion is read. -/
theorem parse (h : r.Echoed cs es ls) {u : Term} (hu : ReadsMarked .sequence ls u) :
    r.parse .unlimited (String.ofList cs) = .ok u := by
  obtain ⟨l, ms, hls, -⟩ := hu.exists_cons
  have htrim := h.trim_ne_nil (by simp [hls])
  obtain ⟨tokens, htokens, rfl⟩ := h.tokenize
  unfold Registry.parse
  rw [String.toList_ofList, if_neg (by simpa using htrim)]
  simp only [h.expandWithin, htokens, parseTokens_of_readsMarked hu]

end Registry.Echoed

/-! ### Shown terms -/

theorem Syntax.bare_tagged (tag : Option String) (t : Term) : (tagged tag t).bare = t.bare := by
  unfold tagged
  split
  · rfl
  · split
    · rfl
    · exact Term.bare_setTag _ t

/-- What a text that shows a term stands for in front of any text that does not go on with a name. -/
def Registry.Shows (r : Registry) (part : Part) (cs : List Char) (t : Term) : Prop :=
  ∃ es ls u, (∀ rest es' ms, endsName rest = true → r.Echoed rest es' ms →
      r.Echoed (cs ++ rest) (es ++ es') (ls ++ ms)) ∧
    ReadsMarked part ls u ∧ u.bare = t.bare

namespace Registry.Shows

variable {r : Registry} {cs ds : List Char} {m : Mark} {x : String} {t func arg body : Term}

theorem name (hx : r.Writable x) : r.Shows .atom x.toList (.var m x) :=
  ⟨x.toList, [.name x], .var {} x, fun _ _ _ hrest h => .name x hx hrest h, .name x, rfl⟩

theorem numeral {label : List Char} (hlabel : Numeral.IsLabel label)
    (hbare : t.bare = (Numeral.term (Text.digitsValue label)).bare) :
    r.Shows .atom ('_' :: label) t := by
  have hread := (Term.reads_lexemes (Numeral.term (Text.digitsValue label)) .top).marked
  refine ⟨Numeral.block label, numeralLexemes label, _,
    fun _ _ _ hrest h => .numeral label hlabel hrest h, .group (some _) hread, ?_⟩
  rw [bare_tagged, Term.bare_bare, hbare]

theorem sequence (h : r.Shows .atom cs t) : r.Shows .sequence cs t := by
  obtain ⟨es, ls, u, hes, hu, hbare⟩ := h
  exact ⟨es, ls, u, hes, .atoms (.single hu), hbare⟩

theorem inPart (h : r.Shows .atom cs t) (context : PrintContext) : r.Shows context.part cs t := by
  cases context with
  | func | arg => exact h
  | body | top => exact h.sequence

theorem group (h : r.Shows .sequence cs t) : r.Shows .atom ('(' :: cs ++ [')']) t := by
  obtain ⟨es, ls, u, hes, hu, hbare⟩ := h
  refine ⟨'(' :: es ++ [')'], _, u, ?_, .group none hu, hbare⟩
  intro rest es' ms hrest h
  have hinner := hes _ _ _ rfl (.sign ')' .closing rfl h)
  simpa [markLexemes] using Echoed.sign '(' .opening rfl hinner

theorem lam (hx : r.Writable x) (h : r.Shows .sequence cs body) :
    r.Shows .sequence ('λ' :: x.toList ++ '.' :: cs) (.lam m x body) := by
  obtain ⟨es, ls, u, hes, hu, hbare⟩ := h
  refine ⟨'λ' :: x.toList ++ '.' :: es, _, _, ?_, .abstraction x hu, congrArg (Term.lam {} x) hbare⟩
  intro rest es' ms hrest h
  have hbody := hes rest es' ms hrest h
  have hparameter := Echoed.name x hx rfl (Echoed.sign '.' .point rfl hbody)
  simpa using Echoed.sign 'λ' .binder rfl hparameter

theorem app (hf : r.Shows .atom cs func) (ha : r.Shows .atom ds arg) :
    r.Shows .sequence (cs ++ ' ' :: ds) (.app m func arg) := by
  obtain ⟨es, ls, u, hes, hu, hbare⟩ := hf
  obtain ⟨es', ls', u', hes', hu', hbare'⟩ := ha
  refine ⟨es ++ ' ' :: es', _, _, ?_, .atoms (.apply (.single hu) hu'),
    congrArg₂ (Term.app {}) hbare hbare'⟩
  intro rest es'' ms hrest h
  have harg := hes' rest es'' ms hrest h
  have hfunc := hes _ _ _ rfl (Echoed.blank ' ' rfl harg)
  simpa using hfunc

theorem bracket {context : PrintContext} (h : r.Shows .sequence cs t)
    (ht : t.needsParentheses context = decide (context.part = .atom)) :
    r.Shows context.part (Term.bracket t context cs) t := by
  unfold Term.bracket
  rw [ht]
  cases context with
  | func | arg => exact h.group
  | body | top => exact h

end Registry.Shows

namespace Term

variable {r : Registry} {t : Term}

/-- What is shown for a node in the place of its structure: the numeral that its tag names, or nothing. -/
theorem shows_atomText? (r : Registry) (h : t.TagHolds) :
    (∃ s, atomText? .written t = some s ∧ r.Shows .atom s.toList t) ∨ atomText? .written t = none := by
  have hatom : atomText? .written t = if Numeral.isTag t.tag then t.tag else none := by
    simp [atomText?, PrintStyle.written]
  rw [hatom]
  by_cases htag : Numeral.isTag t.tag = true
  · obtain ⟨label, hlabel, hname, hbare⟩ := h htag
    refine .inl ⟨String.ofList ('_' :: label), by rw [if_pos htag, hname], ?_⟩
    rw [String.toList_ofList]
    exact .numeral hlabel hbare
  · exact .inr (if_neg htag)

/-- A printed term shows the term. -/
theorem shows_printFrom (h : t.NumeralsHold) (hnames : ∀ x ∈ t.allNames, r.Writable x) (counter : Nat)
    (context : PrintContext) :
    r.Shows context.part (printFrom .written [] counter context t).1 t := by
  induction t generalizing counter context with
  | var m x =>
      have hx := hnames x List.mem_cons_self
      rcases shows_atomText? r h.tagHolds with ⟨s, hs, hshows⟩ | hnone
      · simp only [printFrom, hs]
        exact hshows.inPart context
      · simp only [printFrom, hnone]
        exact (Registry.Shows.name hx).inPart context
  | lam m x body ih =>
      have hparentheses : (lam m x body).needsParentheses context = decide (context.part = .atom) := by
        cases context <;> rfl
      rcases shows_atomText? r h.tagHolds with ⟨s, hs, hshows⟩ | hnone
      · simp only [printFrom, hs]
        exact hshows.sequence.bracket hparentheses
      · obtain ⟨hx, hbody⟩ := List.forall_mem_cons.mp hnames
        have hinner := ih (numeralsHold_lam.mp h).2 hbody counter .body
        simp only [printFrom, hnone]
        exact (Registry.Shows.lam hx hinner).bracket hparentheses
  | app m func arg ihf iha =>
      have hparentheses : (app m func arg).needsParentheses context = decide (context.part = .atom) := by
        cases context <;> rfl
      rcases shows_atomText? r h.tagHolds with ⟨s, hs, hshows⟩ | hnone
      · simp only [printFrom, hs]
        exact hshows.sequence.bracket hparentheses
      · obtain ⟨-, hf, ha⟩ := numeralsHold_app.mp h
        obtain ⟨hfnames, hanames⟩ := List.forall_mem_append.mp hnames
        have hfunc := ihf hf hfnames counter .func
        have harg := iha ha hanames (printFrom .written [] counter .func func).2 .arg
        simp only [printFrom, hnone]
        exact (hfunc.app harg).bracket hparentheses

/-- A sound term that holds no name that is expanded is shown as a text that parses to it. -/
theorem Sound.readsBack (h : t.Sound) (hnames : ∀ x ∈ t.allNames, ¬ r.IsReference x) :
    r.ReadsBack t := by
  have hwritable : ∀ x ∈ t.allNames, r.Writable x := fun x hx =>
    writable_of_isReadable (h.names x hx) (hnames x hx)
  obtain ⟨es, ls, u, hes, hu, hbare⟩ := shows_printFrom h.tags hwritable 0 .top
  have hechoed := hes [] [] [] rfl .nil
  rw [List.append_nil, List.append_nil, List.append_nil] at hechoed
  exact ⟨u, hechoed.parse hu, hbare, alphaEquiv_of_bare_eq hbare⟩

end Term

/-! ### Names without an underscore -/

theorem Registry.IsReference.head? {r : Registry} {x : String} (h : r.IsReference x) :
    x.toList.head? = some '_' := by
  rcases h with h | ⟨name, -, rfl⟩
  · unfold Numeral.isNumeralName at h
    split at h
    · next heq => rw [heq, List.head?_cons]
    · cases h
  · rw [String.toList_append]
    rfl

theorem Freshener.head?_candidate {x : String} (n : Nat) (h : x.toList.head? ≠ some '_') :
    (candidate x n).toList.head? ≠ some '_' := by
  rw [candidate, String.toList_append]
  cases hx : x.toList with
  | cons c w =>
      rw [hx] at h
      exact h
  | nil =>
      intro hdigits
      exact absurd (isDigit_of_mem_toString (List.mem_of_head? hdigits)) (by decide)

/-- **What a reduction shows can be typed back in**, as long as it shows no name that is a reference itself.
Let `t` be parsed from a text, neither the text nor the registry holding private characters.  If no name in
the term after some steps refers to a numeral or an entry, then the term as it is shown parses to a term of
the same structure and names.  If no name in `t` begins with an underscore, it does so after any number of
steps. -/
theorem Registry.readsBack_afterSteps {limits : Limits} {r : Registry} {text : String} {t : Term}
    (hr : r.MarkFree) (htext : ∀ c ∈ text.toList, IsPublic c) (h : r.parse limits text = .ok t) :
    (∀ steps, (∀ x ∈ (t.afterSteps steps).allNames, ¬ r.IsReference x) →
      r.ReadsBack (t.afterSteps steps)) ∧
    ((∀ x ∈ t.allNames, x.toList.head? ≠ some '_') → ∀ steps, r.ReadsBack (t.afterSteps steps)) := by
  have hsound := sound_of_parse hr htext h
  refine ⟨fun steps hnames => (hsound.afterSteps steps).readsBack hnames, ?_⟩
  intro hnames steps
  let plain (t : Term) : Prop := ∀ x ∈ t.allNames, x.toList.head? ≠ some '_'
  have hstep : ∀ t, plain t → plain t.reduceStep.result := fun _ =>
    Term.forall_allNames_reduceStep fun _ n => Freshener.head?_candidate n
  have hall : plain (t.afterSteps steps) := Term.afterSteps_induction hstep steps hnames
  exact (hsound.afterSteps steps).readsBack fun x hx href => hall x hx href.head?

theorem Registry.readsBack_afterSteps_renamed :
    ∃ t, initial.MarkFree ∧ initial.parse .unlimited "(λx.λy.x _2) y" = .ok t ∧
      (t.afterSteps 1).shown = "λy0.y (_2)" ∧ initial.ReadsBack (t.afterSteps 1) := by
  let two : Term := .lam ⟨some "_2", false⟩ "f"
    (.lam {} "x" (.app {} (.var {} "f") (.app {} (.var {} "f") (.var {} "x"))))
  let t : Term := .app {} (.lam {} "x" (.lam {} "y" (.app {} (.var {} "x") two))) (.var {} "y")
  have hr : initial.MarkFree := by decide +kernel
  have htext : ∀ c ∈ "(λx.λy.x _2) y".toList, IsPublic c := by decide
  have hparse : initial.parse .unlimited "(λx.λy.x _2) y" = .ok t := by rfl
  have hshown : (t.afterSteps 1).shown = "λy0.y (_2)" := by cbv
  have hnames : ∀ x ∈ (t.afterSteps 1).allNames, ¬ initial.IsReference x := by
    rw [show (t.afterSteps 1).allNames = ["y0", "y", "f", "x", "f", "f", "x"] by cbv]
    decide +kernel
  exact ⟨t, hr, hparse, hshown, (readsBack_afterSteps hr htext hparse).1 1 hnames⟩

/-! ### A name that is a reference -/

/-- Entries each of which refers to the one before it. -/
def Registry.link : Nat → NamedTerm
  | 0 => ⟨"B0", "_ID", none⟩
  | n + 1 => ⟨"B" ++ toString (n + 1), "_B" ++ toString n, none⟩

/-- The registry with a chain of entries. -/
def Registry.chained (n : Nat) : Registry :=
  ⟨builtinTerms, (List.range n).map link⟩

theorem Registry.define_link (n : Nat) (h : n < maxPasses) :
    (chained n).define .unlimited (link n) = .ok (chained (n + 1)) := by
  unfold maxPasses at h
  interval_cases n <;> exact define_eq_ok (by rfl) (by decide) (by cbv) (by rfl)

theorem Registry.foldlM_define_link (n : Nat) (h : n ≤ maxPasses) :
    ((List.range n).map link).foldlM (define .unlimited) initial = .ok (chained n) := by
  induction n with
  | zero => rfl
  | succ n ih =>
      rw [List.range_succ, List.map_append, List.foldlM_append, ih (Nat.le_of_succ_le h)]
      exact (bind_pure _).trans (define_link n h)

/-- As many entries as there are passes can be defined in a chain.  The last pass over a reference to the last
of them leaves `_ID`, which becomes a variable.  It is shown as it is named, and that text is expanded. -/
theorem Registry.not_readsBack_chain :
    ((List.range maxPasses).map link).foldlM (define .unlimited) initial = .ok (chained maxPasses) ∧
      (chained maxPasses).MarkFree ∧ (∀ c ∈ "_B9".toList, IsPublic c) ∧
      (chained maxPasses).parse .unlimited "_B9" = .ok (.var ⟨some "_B9", false⟩ "_ID") ∧
      ¬ ∃ u, (chained maxPasses).parse .unlimited
          (Term.afterSteps 0 (.var ⟨some "_B9", false⟩ "_ID")).shown = .ok u ∧
        u.AlphaEquiv (Term.afterSteps 0 (.var ⟨some "_B9", false⟩ "_ID")) := by
  have hshown : (Term.afterSteps 0 (.var ⟨some "_B9", false⟩ "_ID")).shown = "_ID" := by rfl
  have hagain : (chained maxPasses).parse .unlimited "_ID"
      = .ok (.lam ⟨some "_ID", false⟩ "x" (.var {} "x")) := by rfl
  refine ⟨foldlM_define_link maxPasses le_rfl, by decide +kernel, by decide, by rfl, ?_⟩
  rintro ⟨u, hu, hequiv⟩
  rw [hshown, hagain] at hu
  cases hu
  exact absurd hequiv (by decide)

end LambdaStepper
