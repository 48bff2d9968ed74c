import LambdaStepper.Proofs.Registry.Scan
import LambdaStepper.Registry.Definition

/-! # Numerals with too many digits

A numeral reference with too many digits cannot be read.  A text without one expands to texts without one if
the definitions in the registry have none (`overlongNumeral?_expandOnce`): what stands in the place of a reference
is a written numeral or a definition, in parentheses, so references that are new in a text are in these, or they
are numerals of one digit.  Such a digit is one of another script than ASCII, behind which an underscore was
replaced by a parenthesis (`numeralLabel?_flatMap`).

So the passes over such a text all succeed, and its parsing is refused for no reference (`ne_badReference_of_parse`).
The parsing of any other text is refused for one (`exists_badReference_of_overlong`). -/

namespace LambdaStepper

open Syntax

namespace Syntax

variable {limits : Limits}

/-! ### Labels in a text whose references are replaced -/

theorem numeralLabel?_cons_eq_none {c : Char} {cs : List Char} (hc : Text.isDecimalDigit c = true) :
    numeralLabel? (c :: cs) = none ↔ numeralLabel? cs = none ∧ continuesWord cs = true := by
  rw [numeralLabel?, if_pos hc]
  cases numeralLabel? cs <;> simp

theorem numeralLabel?_cons_of_not {c : Char} (hc : Text.isDecimalDigit c = false) (cs : List Char) :
    numeralLabel? (c :: cs) = none := by
  rw [numeralLabel?, hc, if_neg Bool.false_ne_true]

/-- A text that starts with no numeral does not start with one either when it is changed behind a character
that belongs to no word. -/
theorem numeralLabel?_eq_none_of_append {u v v' : List Char} {c : Char} (hu : u ≠ [])
    (hc : isWordChar c = false) (h : numeralLabel? (u ++ c :: v) = none) : numeralLabel? (u ++ c :: v') = none := by
  induction u with
  | nil => exact absurd rfl hu
  | cons d u ih =>
      rw [List.cons_append] at h ⊢
      by_cases hd : Text.isDecimalDigit d = true
      · rw [numeralLabel?_cons_eq_none hd] at h ⊢
        cases u with
        | nil => exact absurd (hc.symm.trans h.2) Bool.false_ne_true
        | cons e u => exact ⟨ih (List.cons_ne_nil _ _) h.1, h.2⟩
      · exact numeralLabel?_cons_of_not (Bool.eq_false_iff.mpr hd) _

/-- Where a text starts with no numeral and its references are replaced by texts in parentheses, it starts with
no numeral or with one of one digit. -/
theorem numeralLabel?_flatMap {label? : List Char → Option Nat} {f : Segment → List Char} (hf : KeepsPlain f)
    (hopening : ∀ label, ∃ rest, f (.reference label) = '(' :: rest) {before : Option Char} {cs : List Char}
    {ss : List Segment} (h : Scan label? before cs ss)
    (hbefore : ∀ rest, cs = '_' :: rest → mayFollow before = false) (hnone : numeralLabel? cs = none) :
    numeralLabel? (ss.flatMap f) = none ∨ numeralLabel? (ss.flatMap f) = some 1 := by
  cases h with
  | nil => exact .inl rfl
  | reference hmay => exact absurd hmay (Bool.eq_false_iff.mp (hbefore _ rfl))
  | @plain _ c cs ss _ hscan =>
      rw [List.flatMap_cons, hf, List.singleton_append]
      by_cases hc : Text.isDecimalDigit c = true
      · obtain ⟨hnone, hword⟩ := (numeralLabel?_cons_eq_none hc).mp hnone
        cases hscan with
        | nil => cases hword
        | @reference _ label rest ss =>
            obtain ⟨text, htext⟩ := hopening label
            right
            rw [List.flatMap_cons, htext, numeralLabel?, if_pos hc, List.cons_append,
              numeralLabel?_cons_of_not (by decide)]
            rfl
        | @plain _ d cs ss hd hscan =>
            left
            rw [numeralLabel?_cons_eq_none hc, List.flatMap_cons, hf, List.singleton_append]
            refine ⟨?_, hword⟩
            by_cases hunderscore : d = '_'
            · rw [hunderscore]
              exact numeralLabel?_cons_of_not (by decide) _
            · -- the character behind the digit belongs to a word, so what changes is behind that
              have hbefore' : ∀ rest, d :: cs = '_' :: rest → mayFollow (some c) = false := by
                intro rest heq
                exact absurd (List.cons.inj heq).1 hunderscore
              obtain heq | ⟨u, e, v, v', he, hcs, heq⟩ :=
                exists_boundary hf (.plain hd hscan) hbefore' (bounded_not_isWordChar _)
              · rw [List.flatMap_cons, hf, List.singleton_append] at heq
                rw [heq]
                exact hnone
              · rw [List.flatMap_cons, hf, List.singleton_append] at heq
                rw [Bool.not_eq_true'] at he
                rw [hcs] at hnone
                rw [heq]
                refine numeralLabel?_eq_none_of_append ?_ he hnone
                rintro rfl
                rw [List.nil_append] at hcs
                obtain ⟨rfl, -⟩ := List.cons.inj hcs
                exact absurd (he.symm.trans hword) Bool.false_ne_true
      · exact .inl (numeralLabel?_cons_of_not (Bool.eq_false_iff.mpr hc) _)

/-! ### Legible texts -/

/-- Whether all references found by a scan have labels that can be read as numbers. -/
def Legible (limits : Limits) (ss : List Segment) : Prop :=
  ∀ label, .reference label ∈ ss → limits.digitsFault? label.length = none

theorem legible_map_plain (limits : Limits) (cs : List Char) : Legible limits (cs.map .plain) := by
  intro label hmem
  obtain ⟨c, -, hc⟩ := List.mem_map.mp hmem
  cases hc

theorem Legible.append {ss ss' : List Segment} (h : Legible limits ss) (h' : Legible limits ss') :
    Legible limits (ss ++ ss') := by
  intro label hmem
  rcases List.mem_append.mp hmem with hmem | hmem
  · exact h label hmem
  · exact h' label hmem

theorem Legible.cons_plain {ss : List Segment} (h : Legible limits ss) (c : Char) :
    Legible limits (.plain c :: ss) :=
  (legible_map_plain limits [c]).append h

theorem legible_fill {names : List String} {content : List Char → List Char}
    (hdigit : limits.digitsFault? 1 = none) {before : Option Char} {cs : List Char} {ss : List Segment}
    (h : Scan (referenceLabel? names) before cs ss)
    (hcontent : ∀ label, .reference label ∈ ss → Legible limits (segments numeralLabel? (content label)))
    {before' : Option Char} (hbefore : ∀ rest, cs = '_' :: rest → mayFollow before' = mayFollow before) :
    Legible limits (segmentsFrom numeralLabel? 0 before' (ss.flatMap (fill content))) := by
  induction h generalizing before' with
  | nil => exact legible_map_plain limits []
  | @plain before c cs ss hc hscan ih =>
      have hrest : Legible limits (segmentsFrom numeralLabel? 0 (some c) (ss.flatMap (fill content))) :=
        ih (fun label hmem => hcontent label (List.mem_cons_of_mem _ hmem)) fun _ _ => rfl
      rw [List.flatMap_cons, keepsPlain_fill, List.singleton_append]
      by_cases hplain : c = '_' → mayFollow before' = true →
        numeralLabel? (ss.flatMap (fill content)) = none
      · rw [segmentsFrom_plain hplain]
        exact hrest.cons_plain c
      · -- no numeral is referred to in the text, so there is only one of one digit
        obtain ⟨rfl, hmay, hsome⟩ := by simpa only [Classical.not_imp] using hplain
        have hnone : numeralLabel? cs = none :=
          (referenceLabel?_eq_none (hc rfl ((hbefore cs rfl).symm.trans hmay))).1
        have hone := (numeralLabel?_flatMap (keepsPlain_fill content) (fun _ => ⟨_, rfl⟩) hscan
          (fun _ _ => rfl) hnone).resolve_left hsome
        obtain ⟨label, rest, htext, hlength, hends⟩ := findsLabels_numeralLabel?.exists_label hone
        obtain ⟨d, rfl⟩ := List.length_eq_one_iff.mp hlength.symm
        rw [htext] at hrest hone ⊢
        have hlabel : Numeral.IsLabel [d] := isLabel_take hone
        have hd : inert (some '_') [d] = true := hlabel.inert
        rw [segmentsFrom_append_of_inert hd] at hrest
        rw [segmentsFrom_label hmay hone]
        intro label hmem
        rcases List.mem_cons.mp hmem with heq | hmem
        · rw [Segment.reference.inj heq]
          exact hdigit
        · exact hrest label (List.mem_append_right _ hmem)
  | @reference before label rest ss hmay hfound hrest hscan ih =>
      have hnext : ∀ rest', rest = '_' :: rest' → mayFollow (some ')') = mayFollow none := by
        rintro rest' rfl
        cases hrest
      rw [List.flatMap_cons, fill,
        segmentsFrom_wrap findsLabels_numeralLabel? (by decide) (inert_label hfound)]
      refine (legible_map_plain limits _).append ((hcontent label List.mem_cons_self).append ?_)
      exact (ih (fun label hmem => hcontent label (List.mem_cons_of_mem _ hmem)) hnext).cons_plain ')'

end Syntax

namespace Registry

variable {limits : Limits} {r : Registry} {cs : List Char}

theorem overlongNumeral?_eq_none_iff :
    overlongNumeral? limits cs = none ↔ Legible limits (segments numeralLabel? cs) := by
  rw [overlongNumeral?, List.findSome?_eq_none_iff]
  constructor
  · intro h label hmem
    exact h _ hmem
  · intro h segment hmem
    cases segment with
    | plain c => rfl
    | reference label => exact h label hmem

/-- Whether a numeral of one digit can be read, and all that the definitions of a registry refer to. -/
structure IsLegible (limits : Limits) (r : Registry) : Prop where
  digit : limits.digitsFault? 1 = none
  definitions : ∀ entry ∈ r.entries, overlongNumeral? limits entry.definition.toList = none

theorem isLegible_initial (h : limits.digitsFault? 1 = none) : initial.IsLegible limits where
  digit := h
  definitions := by
    have hplain : ∀ entry ∈ initial.entries, '_' ∉ entry.definition.toList := by decide +kernel
    intro entry hentry
    rw [overlongNumeral?_eq_none_iff, segments_of_notMem (hplain entry hentry)]
    exact legible_map_plain limits _

theorem IsLegible.append (hr : r.IsLegible limits) {entry : NamedTerm}
    (h : overlongNumeral? limits entry.definition.toList = none) : (r.append entry).IsLegible limits where
  digit := hr.digit
  definitions := by
    intro entry' hmem
    rw [entries_append, List.mem_append, List.mem_singleton] at hmem
    rcases hmem with hmem | rfl
    · exact hr.definitions entry' hmem
    · exact h

theorem IsLegible.content (hr : r.IsLegible limits) (label : List Char) :
    Legible limits (segments numeralLabel? (r.content label)) := by
  unfold Registry.content
  split
  · rw [segments_of_notMem (Numeral.underscore_notMem_syntaxText _)]
    exact legible_map_plain limits _
  · cases hentry : r.lookup (String.ofList label) with
    | none => exact legible_map_plain limits []
    | some entry => exact overlongNumeral?_eq_none_iff.mp (hr.definitions entry (eq_of_lookup hentry).1)

/-- What a pass makes of a text is legible. -/
theorem overlongNumeral?_expandOnce (hr : r.IsLegible limits) (cs : List Char) :
    overlongNumeral? limits (r.expandOnce true cs) = none := by
  rw [overlongNumeral?_eq_none_iff, expandOnce_eq]
  exact legible_fill hr.digit (scan_segmentsFrom (findsLabels_referenceLabel? r.names) none cs)
    (fun label _ => hr.content label) fun _ _ => rfl

theorem exists_expandWithin (hr : r.IsLegible limits) (h : overlongNumeral? limits cs = none) :
    ∃ expanded, r.expandWithin limits true cs = .ok expanded := by
  unfold expandWithin
  induction maxPasses generalizing cs with
  | zero => exact ⟨cs, rfl⟩
  | succ passes ih =>
      rw [expandPassesWithin, h]
      dsimp only
      split
      · exact ⟨cs, rfl⟩
      · exact ih (overlongNumeral?_expandOnce hr cs)

/-- A legible text is not refused for its references. -/
theorem ne_badReference_of_parse (hr : r.IsLegible limits) {text : String}
    (h : overlongNumeral? limits text.toList = none) {fault : SyntaxFault}
    (hparse : r.parse limits text = .error fault) (reason : Fault) : fault ≠ .badReference reason := by
  obtain ⟨expanded, hexpand⟩ := exists_expandWithin hr h
  unfold parse at hparse
  split at hparse
  · cases hparse
    exact SyntaxFault.noConfusion
  · rw [hexpand] at hparse
    dsimp only at hparse
    split at hparse
    · next fault' htokens =>
      obtain rfl := Except.error.inj hparse
      unfold tokenize at htokens
      dsimp only at htokens
      split at htokens
      · cases htokens
      · cases htokens
        exact SyntaxFault.noConfusion
    · split at hparse
      · cases hparse
      · next fault' _ =>
        obtain rfl := Except.error.inj hparse
        cases fault' with
        | badParameter found => cases found <;> exact SyntaxFault.noConfusion
        | unfinished | unexpected | tooDeep => exact SyntaxFault.noConfusion

/-- A text with a numeral that cannot be read is refused for that. -/
theorem exists_badReference_of_overlong (r : Registry) {text : String}
    (h : overlongNumeral? limits text.toList ≠ none) :
    ∃ fault, r.parse limits text = .error (.badReference fault) := by
  have hempty : Text.trim text.toList ≠ [] := by
    intro hempty
    refine h (overlongNumeral?_eq_none_iff.mpr ?_)
    have hblank := isBlank_of_trim_eq_nil hempty
    rw [segments_of_notMem fun hmem => absurd (hblank _ hmem) (by decide)]
    exact legible_map_plain limits _
  obtain ⟨fault, hfault⟩ := Option.ne_none_iff_exists'.mp h
  refine ⟨fault, ?_⟩
  unfold parse expandWithin maxPasses expandPassesWithin
  rw [if_neg (by simpa using hempty), hfault]

theorem overlongNumeral?_of_parse {text : String} {t : Term} (h : r.parse limits text = .ok t) :
    overlongNumeral? limits text.toList = none := by
  by_contra hoverlong
  obtain ⟨fault, hfault⟩ := r.exists_badReference_of_overlong hoverlong
  cases h.symm.trans hfault

theorem overlongNumeral?_of_define {entry : NamedTerm} {r' : Registry} (h : r.define limits entry = .ok r') :
    overlongNumeral? limits entry.definition.toList = none := by
  cases hparse : (r.append entry).parse limits entry.definition with
  | ok t => exact overlongNumeral?_of_parse hparse
  | error fault =>
      unfold define validate at h
      grind [Except.map]

end Registry
end LambdaStepper
