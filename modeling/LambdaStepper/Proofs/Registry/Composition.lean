import LambdaStepper.Proofs.Registry.Lasting
import LambdaStepper.Proofs.Syntax.Placeholders

/-! # Expansion is composition

To expand a text and read it is to read the text with its references as they stand, and to put in the place
of each the term of what it stands for, which is made in the same way (`parse_compositional`), if there are passes
enough for the depth of its references.

Passes over a text are passes, one less, over what stands in the place of its references
(`expandPasses_succ`).  That can be read, since all definitions can and since the passes that are left are
enough for it, so a placeholder may stand for it (`rel_read?_fill`). -/

namespace LambdaStepper

open Syntax

namespace Registry

/-! ### References and what they stand for -/

/-- The labels of the references in a text to numerals and to entries. -/
def labels (r : Registry) (cs : List Char) : List (List Char) :=
  (r.scan cs).filterMap fun segment =>
    match segment with
    | .plain _ => none
    | .reference label => some label

/-- Whether the references in a text go down to the given depth at most. -/
def DepthAtMost (r : Registry) : (depth : Nat) → List Char → Prop
  | 0, cs => r.labels cs = []
  | depth + 1, cs => ∀ label ∈ r.labels cs, r.DepthAtMost depth (r.content label)

instance (r : Registry) : (depth : Nat) → (cs : List Char) → Decidable (r.DepthAtMost depth cs)
  | 0, cs => inferInstanceAs (Decidable (r.labels cs = []))
  | depth + 1, cs =>
    have := instDecidableDepthAtMost r depth
    inferInstanceAs (Decidable (∀ label ∈ r.labels cs, r.DepthAtMost depth (r.content label)))

/-- A text with a placeholder for each of its references: a variable in parentheses that is marked with the
reference. -/
def withPlaceholders (r : Registry) (cs : List Char) : List Char :=
  (r.scan cs).flatMap (fill fun _ => ['x'])

/-- The term that a reference stands for, where `tree?` gives those of definitions. -/
def referent? (r : Registry) (tree? : List Char → Option Term) (tag : String) : Option Term :=
  let label := tag.toList.tail
  if label.all Text.isDecimalDigit then some (Numeral.term (Text.digitsValue label))
  else (r.lookup (String.ofList label)).bind fun entry => tree? entry.definition.toList

/-- The term of a text whose references go down to the given depth at most: that of the text with
placeholders, with the terms of its references in their place. -/
def tree? (r : Registry) : (depth : Nat) → List Char → Option Term
  | 0, cs => read? cs
  | depth + 1, cs => (read? (r.withPlaceholders cs)).bind (Term.plug? (r.referent? (r.tree? depth)))

variable {r : Registry}

theorem mem_labels_iff {label cs : List Char} : label ∈ r.labels cs ↔ .reference label ∈ r.scan cs := by
  unfold labels
  rw [List.mem_filterMap]
  constructor
  · rintro ⟨s, hs, heq⟩
    cases s with
    | plain c => cases heq
    | reference label' => rwa [← Option.some.inj heq]
  · exact fun h => ⟨_, h, rfl⟩

theorem isLabel_of_mem_labels {label cs : List Char} (h : label ∈ r.labels cs) : r.IsLabel label :=
  isLabel_of_mem_scan (mem_labels_iff.mp h)

theorem scan_of_labels_eq_nil {cs : List Char} (h : r.labels cs = []) : r.scan cs = cs.map .plain := by
  have hplain : ∀ ss : List Segment, (∀ label, .reference label ∉ ss) →
      ss = (ss.flatMap Segment.text).map .plain := by
    intro ss hss
    induction ss with
    | nil => rfl
    | cons s ss ih =>
        have hrest := ih fun label hmem => hss label (List.mem_cons_of_mem _ hmem)
        cases s with
        | plain c => exact congrArg (Segment.plain c :: ·) hrest
        | reference label => exact absurd List.mem_cons_self (hss label)
  have hscan := hplain (r.scan cs) fun label hmem => by
    rw [← mem_labels_iff, h] at hmem
    cases hmem
  rwa [scan, text_segments] at hscan

theorem expandOnce_of_labels_eq_nil {cs : List Char} (h : r.labels cs = []) :
    r.expandOnce true cs = cs := by
  have hscan := scan_of_labels_eq_nil h
  unfold scan at hscan
  rw [expandOnce_eq, hscan, flatMap_map_plain (keepsPlain_fill r.content)]

theorem expandPasses_eq_of_labels_eq_nil {left passes : Nat} (hle : left ≤ passes) {cs : List Char}
    (h : r.labels (r.expandPasses true left cs) = []) :
    r.expandPasses true passes cs = r.expandPasses true left cs := by
  obtain ⟨more, rfl⟩ := Nat.exists_eq_add_of_le' hle
  have hfixed := expandOnce_of_labels_eq_nil h
  rw [expandPasses_eq_iterate] at hfixed
  rw [expandPasses_eq_iterate, expandPasses_eq_iterate, Function.iterate_add_apply,
    Function.iterate_fixed hfixed]

theorem labels_syntaxText (n : Nat) : r.labels (Numeral.syntaxText n) = [] := by
  unfold labels scan
  rw [segments_of_notMem (Numeral.underscore_notMem_syntaxText n), List.filterMap_map]
  exact List.filterMap_eq_nil_iff.mpr fun _ _ => rfl

/-! ### Enough passes -/

section Passes

variable (hapart : ∀ entry ∈ r.entries, Apart entry.definition.toList)

include hapart

theorem apart_content {cs label : List Char} (h : label ∈ r.labels cs) : Apart (r.content label) :=
  (isLabel_of_mem_labels h).content_induction (P := Apart) apart_syntaxText hapart

/-- Where there are passes enough for the depth of references, none is left. -/
theorem labels_expandPasses {depth : Nat} {cs : List Char} (hcs : Apart cs) (h : r.DepthAtMost depth cs) :
    r.labels (r.expandPasses true depth cs) = [] := by
  induction depth generalizing cs with
  | zero => exact h
  | succ depth ih =>
      rw [List.eq_nil_iff_forall_not_mem]
      intro label hmem
      rw [r.expandPasses_succ hcs, mem_labels_iff, scan, segments_fill hcs, List.mem_flatMap] at hmem
      obtain ⟨s, hs, hmem⟩ := hmem
      cases s with
      | plain c => simp [fillSegments] at hmem
      | reference label' =>
          have hlabel' : label' ∈ r.labels cs := mem_labels_iff.mpr hs
          have hinner := ih (apart_content hapart hlabel') (h label' hlabel')
          have hmem' : label ∈ r.labels (r.expandPasses true depth (r.content label')) := by
            rw [mem_labels_iff]
            simpa [fillSegments, scan] using hmem
          rw [hinner] at hmem'
          cases hmem'

theorem expandPasses_of_le {depth passes : Nat} (hle : depth ≤ passes) {cs : List Char} (hcs : Apart cs)
    (h : r.DepthAtMost depth cs) : r.expandPasses true passes cs = r.expandPasses true depth cs :=
  expandPasses_eq_of_labels_eq_nil hle (labels_expandPasses hapart hcs h)

end Passes

/-! ### Reading what stands in the place of references -/

theorem spelled_of_blank {cs : List Char} (h : ∀ c ∈ cs, Text.isBlank c = true) : Spelled cs [] := by
  induction cs with
  | nil => exact .nil
  | cons c cs ih =>
      obtain ⟨hc, hcs⟩ := List.forall_mem_cons.mp h
      exact .blank c hc (ih hcs)

theorem toOption_parse (r : Registry) (text : String) :
    (r.parse .unlimited text).toOption = read? (r.expand true text.toList) := by
  ext t
  rw [toOption_eq_some_iff, read?_eq_some_iff]
  constructor
  · exact fun h => (exists_of_parse h).2
  · rintro ⟨tokens, htokens, hread⟩
    refine parse_of_readsMarked (fun htrim => ?_) htokens hread
    -- a blank text has no tokens
    have hspelled := spelled_of_blank (isBlank_of_trim_eq_nil htrim)
    have hexpand := r.expandWithin_of_spelled true hspelled fun _ => nofun
    rw [expandWithin_unlimited, Except.ok.injEq] at hexpand
    obtain ⟨tokens', htokens', hls⟩ := tokenize_of_spelled hspelled fun _ => nofun
    rw [hexpand, htokens'] at htokens
    rw [← Except.ok.inj htokens, hls] at hread
    obtain ⟨l, ms, heq, -⟩ := hread.exists_cons
    cases heq

theorem read?_syntaxText (n : Nat) : read? (Numeral.syntaxText n) = some (Numeral.term n).bare :=
  read?_eq_some_iff.mpr (exists_tokenize_syntaxText n)

theorem referent?_of_isLabel {label : List Char} (h : Numeral.IsLabel label)
    (tree? : List Char → Option Term) :
    r.referent? tree? (String.ofList ('_' :: label)) = some (Numeral.term (Text.digitsValue label)) := by
  rw [referent?, String.toList_ofList, List.tail_cons]
  exact if_pos (List.all_eq_true.mpr h.2)

theorem referent?_of_lookup {label : List Char} (h : IsNameLabel label) {entry : NamedTerm}
    (hentry : r.lookup (String.ofList label) = some entry) (tree? : List Char → Option Term) :
    r.referent? tree? (String.ofList ('_' :: label)) = tree? entry.definition.toList := by
  have hletters : ¬label.all Text.isDecimalDigit = true := by
    obtain ⟨c, w, rfl, hc, -⟩ := h
    simp [isDecimalDigit_eq_false_of_isLetter hc]
  rw [referent?, String.toList_ofList, List.tail_cons]
  simp only [if_neg hletters, hentry, Option.bind_some]

section Reading

variable (hr : r.MarkFree) (hapart : ∀ entry ∈ r.entries, Apart entry.definition.toList)
  (hparse : ∀ entry ∈ r.entries, ∃ t, r.parse .unlimited entry.definition = .ok t)

include hr hapart hparse

theorem stands {depth : Nat} (hle : depth ≤ maxPasses)
    (htree : ∀ {cs}, (∀ c ∈ cs, IsPublic c) → Apart cs → r.DepthAtMost depth cs →
      read? (r.expandPasses true depth cs) = r.tree? depth cs)
    {cs label : List Char} (hlabel : label ∈ r.labels cs) (hdepth : r.DepthAtMost depth (r.content label)) :
    Stands (r.referent? (r.tree? depth)) (fun label => r.expandPasses true depth (r.content label)) label := by
  have hpublic := (isLabel_of_mem_labels hlabel).isPublic_content hr
  have hcontent := apart_content hapart hlabel
  have hsealed := sealed_of_expanded (expanded_of_public hr hpublic depth)
  obtain hnumber | ⟨hname, hmem⟩ := isLabel_of_mem_labels hlabel
  · refine ⟨hnumber.markClose_notMem, hsealed, (Numeral.term (Text.digitsValue label)).bare, ?_, ?_⟩
    · have hfixed := expandPasses_of_le hapart (Nat.zero_le depth) (apart_syntaxText _)
        (labels_syntaxText (r := r) (Text.digitsValue label))
      rw [r.content_of_isLabel hnumber, hfixed, expandPasses, read?_syntaxText]
    · rw [referent?_of_isLabel hnumber, Option.map_some, Numeral.term, Term.bare, Term.bare, Term.bare_chain]
      rfl
  · obtain ⟨entry, hentry⟩ := r.exists_lookup hmem
    rw [r.content_of_lookup hname hentry] at hpublic hcontent hdepth hsealed
    obtain ⟨t, ht⟩ := hparse entry (eq_of_lookup hentry).1
    have hread : read? (r.expandPasses true depth entry.definition.toList) = some t := by
      rw [← expandPasses_of_le hapart hle hcontent hdepth, ← toOption_eq_some_iff.mpr ht, toOption_parse,
        expand]
    refine ⟨hname.markClose_notMem, ?_, t, ?_, ?_⟩
    · rwa [r.content_of_lookup hname hentry]
    · rwa [r.content_of_lookup hname hentry]
    · rw [referent?_of_lookup hname hentry, ← htree hpublic hcontent hdepth, hread, Option.map_some]

/-- Passes over a text with references make what the placeholders for them stand for. -/
theorem rel_read?_expandPasses {depth : Nat} (hle : depth ≤ maxPasses)
    (htree : ∀ {cs}, (∀ c ∈ cs, IsPublic c) → Apart cs → r.DepthAtMost depth cs →
      read? (r.expandPasses true depth cs) = r.tree? depth cs)
    {cs : List Char} (hpublic : ∀ c ∈ cs, IsPublic c) (hcs : Apart cs) (hdepth : r.DepthAtMost (depth + 1) cs) :
    Option.Rel (Plugs (r.referent? (r.tree? depth))) (read? (r.expandPasses true (depth + 1) cs))
      (read? (r.withPlaceholders cs)) := by
  rw [r.expandPasses_succ hcs]
  refine rel_read?_fill (fun c hc => hpublic c (mem_of_plain_mem_scan (scan_segments r.names cs) hc)) ?_
  intro label hmem
  have hlabel := mem_labels_iff.mpr hmem
  exact stands hr hapart hparse hle htree hlabel (hdepth label hlabel)

theorem read?_expandPasses {depth : Nat} (hle : depth ≤ maxPasses) {cs : List Char}
    (hpublic : ∀ c ∈ cs, IsPublic c) (hcs : Apart cs) (hdepth : r.DepthAtMost depth cs) :
    read? (r.expandPasses true depth cs) = r.tree? depth cs := by
  induction depth generalizing cs with
  | zero => rfl
  | succ depth ih =>
      have hle' := Nat.le_of_succ_le hle
      have hrel := rel_read?_expandPasses hr hapart hparse hle' (ih hle') hpublic hcs hdepth
      rw [tree?]
      exact eq_bind_of_rel hrel

end Reading

/-! ### Expansions -/

theorem unreferenced_of_segmentsFrom {names : List String} {before : Option Char} {cs : List Char}
    (h : ∀ label, .reference label ∉ segmentsFrom (referenceLabel? names) 0 before cs) :
    (∀ label, .reference label ∉ segmentsFrom numeralLabel? 0 before cs) ∧
      ∀ label, .reference label ∈ segmentsFrom nameLabel? 0 before cs → String.ofList label ∉ names := by
  match cs with
  | [] => exact ⟨fun _ => nofun, fun _ => nofun⟩
  | c :: cs =>
      have hnone : c = '_' → mayFollow before = true → referenceLabel? names cs = none := by
        rintro rfl hmay
        rw [Option.eq_none_iff_forall_ne_some]
        intro n hn
        obtain ⟨label, rest, rfl, rfl, -⟩ := (findsLabels_referenceLabel? names).exists_label hn
        rw [segmentsFrom_label hmay hn] at h
        exact h label List.mem_cons_self
      rw [segmentsFrom_plain hnone] at h
      have hrest : ∀ label, .reference label ∉ segmentsFrom (referenceLabel? names) 0 (some c) cs :=
        fun label hmem => h label (List.mem_cons_of_mem _ hmem)
      obtain ⟨hnumerals, hnames⟩ := unreferenced_of_segmentsFrom hrest
      constructor
      · rw [segmentsFrom_plain fun hc hmay => (referenceLabel?_eq_none (hnone hc hmay)).1]
        simpa using hnumerals
      · by_cases hplain : c = '_' → mayFollow before = true → nameLabel? cs = none
        · rw [segmentsFrom_plain hplain]
          simpa using hnames
        · obtain ⟨rfl, hmay, hn⟩ := by simpa only [Classical.not_imp] using hplain
          obtain ⟨n, hn⟩ := Option.ne_none_iff_exists'.mp hn
          have hunknown := (referenceLabel?_eq_none (hnone rfl hmay)).2 hn
          obtain ⟨label, rest, hcs, rfl, -⟩ := findsLabels_nameLabel?.exists_label hn
          have hlabel := isNameLabel_take hn
          subst hcs
          rw [List.take_left] at hunknown hlabel
          rw [segmentsFrom_append_of_inert hlabel.inert] at hrest
          have hbehind := (unreferenced_of_segmentsFrom fun label' hmem =>
            hrest label' (List.mem_append_right _ hmem)).2
          rw [segmentsFrom_label hmay hn]
          intro label' hmem
          rcases List.mem_cons.mp hmem with heq | hmem
          · rwa [Segment.reference.inj heq]
          · exact hbehind label' hmem
termination_by cs.length

/-- Whether no reference to a numeral or to an entry is left in a text. -/
def Unreferenced (r : Registry) (cs : List Char) : Prop :=
  (∀ label, .reference label ∉ segments numeralLabel? cs) ∧ ∀ name ∈ referencedNames cs, name ∉ r.names

theorem unreferenced_of_labels_eq_nil {cs : List Char} (h : r.labels cs = []) : r.Unreferenced cs := by
  have hscan : ∀ label, .reference label ∉ r.scan cs := fun label hmem => by
    rw [← mem_labels_iff, h] at hmem
    cases hmem
  obtain ⟨hnumerals, hnames⟩ := unreferenced_of_segmentsFrom hscan
  refine ⟨hnumerals, fun name hname => ?_⟩
  obtain ⟨s, hs, heq⟩ := List.mem_filterMap.mp hname
  cases s with
  | plain c => cases heq
  | reference label =>
      rw [← Option.some.inj heq]
      exact hnames label hs

theorem publicLabels_referenceLabel? (names : List String) : PublicLabels (referenceLabel? names) := by
  intro cs n h
  obtain hnumeral | ⟨-, hname, -⟩ := referenceLabel?_cases h
  · exact publicLabels_numeralLabel? hnumeral
  · exact publicLabels_nameLabel? hname

theorem labels_stripMarks_eq_nil {cs : List Char} (h : Expanded IsPublic cs) (hlabels : r.labels cs = []) :
    r.labels (stripMarks cs) = [] := by
  have hunmarks : Unmarks (r.scan cs) (r.scan (stripMarks cs)) :=
    unmarks_segments (findsLabels_referenceLabel? r.names) (by decide) (publicLabels_referenceLabel? r.names)
      (sealed_of_expanded h)
  rw [List.eq_nil_iff_forall_not_mem]
  intro label hmem
  rw [mem_labels_iff, ← hunmarks.reference_mem_iff, ← mem_labels_iff, hlabels] at hmem
  cases hmem

theorem expand_false (hr : r.MarkFree) {cs : List Char} (hcs : ∀ c ∈ cs, IsPublic c) :
    r.expand false cs = stripMarks (r.expand true cs) := by
  have hplain := expanded_of_public hr hcs 0
  have hstrip := stripMarks_expandPassesWithin .unlimited hr hplain maxPasses
  rw [expandPassesWithin_unlimited, expandPassesWithin_unlimited] at hstrip
  rw [expandPasses, stripMarks_eq_self fun hmem => (hcs _ hmem).1 rfl] at hstrip
  exact (Except.ok.inj hstrip).symm

/-- **Expansion is composition.**  Take a registry whose definitions can all be parsed, and a text whose
references go down no deeper than there are passes, none of them with an underscore right behind a digit of
another script.  The expansion of the text, with marks or without, is a fixed point in which no reference is
left.  The text is parsed as the term that is made of the text with placeholders, and can be parsed exactly if
that text can be read. -/
theorem parse_compositional (hr : r.MarkFree) (hapart : ∀ entry ∈ r.entries, Apart entry.definition.toList)
    (hparse : ∀ entry ∈ r.entries, ∃ t, r.parse .unlimited entry.definition = .ok t) {text : String}
    (hpublic : ∀ c ∈ text.toList, IsPublic c) (htext : Apart text.toList)
    (hdepth : r.DepthAtMost maxPasses text.toList) :
    (∀ marked, r.expandOnce marked (r.expand marked text.toList) = r.expand marked text.toList ∧
      r.Unreferenced (r.expand marked text.toList)) ∧
    (r.parse .unlimited text).toOption = r.tree? maxPasses text.toList ∧
    ((∃ t, r.parse .unlimited text = .ok t) ↔ ∃ u, read? (r.withPlaceholders text.toList) = some u) := by
  have hlabels := labels_expandPasses hapart htext hdepth
  have hexpanded := expanded_of_public hr hpublic maxPasses
  have hfixed := expandOnce_of_labels_eq_nil hlabels
  refine ⟨fun marked => ?_, ?_, ?_⟩
  · cases marked with
    | true => exact ⟨hfixed, unreferenced_of_labels_eq_nil hlabels⟩
    | false =>
        have hstrip := stripMarks_expandOnce hr hexpanded
        rw [hfixed] at hstrip
        rw [expand_false hr hpublic]
        exact ⟨hstrip.symm, unreferenced_of_labels_eq_nil (labels_stripMarks_eq_nil hexpanded hlabels)⟩
  · rw [toOption_parse, expand, read?_expandPasses hr hapart hparse le_rfl hpublic htext hdepth]
  · have hle : maxPasses - 1 ≤ maxPasses := Nat.sub_le _ _
    have hrel := rel_read?_expandPasses hr hapart hparse hle (read?_expandPasses hr hapart hparse hle)
      hpublic htext hdepth
    have hexists : (∃ t, r.parse .unlimited text = .ok t) ↔ ∃ t, read? (r.expand true text.toList) = some t := by
      simp only [← toOption_parse, toOption_eq_some_iff]
    rw [hexists, expand]
    rw [show maxPasses - 1 + 1 = maxPasses from rfl] at hrel
    exact exists_iff_of_rel hrel

theorem exists_parse_of_isSome {r : Registry}
    (h : ∀ entry ∈ r.entries, (r.parse .unlimited entry.definition).toOption.isSome = true) :
    ∀ entry ∈ r.entries, ∃ t, r.parse .unlimited entry.definition = .ok t := by
  intro entry hentry
  obtain ⟨t, ht⟩ := Option.isSome_iff_exists.mp (h entry hentry)
  exact ⟨t, toOption_eq_some_iff.mp ht⟩

/-- A text whose references go four definitions deep. -/
theorem parse_compositional_sums :
    let text := "λm._SIX m (_ADD m)"
    (∀ marked, sums.expandOnce marked (sums.expand marked text.toList) = sums.expand marked text.toList ∧
      sums.Unreferenced (sums.expand marked text.toList)) ∧
    (sums.parse .unlimited text).toOption = sums.tree? maxPasses text.toList ∧
    ((∃ t, sums.parse .unlimited text = .ok t) ↔ ∃ u, read? (sums.withPlaceholders text.toList) = some u) ∧
    ¬sums.DepthAtMost 3 text.toList ∧ ∃ t, sums.parse .unlimited text = .ok t := by
  have hr : sums.MarkFree := by decide +kernel
  have hapart : ∀ entry ∈ sums.entries, Apart entry.definition.toList := by decide +kernel
  have hparse := exists_parse_of_isSome (r := sums) (by decide +kernel)
  have hpublic : ∀ c ∈ "λm._SIX m (_ADD m)".toList, IsPublic c := by decide +kernel
  have htext : Apart "λm._SIX m (_ADD m)".toList := by decide +kernel
  have hdepth : sums.DepthAtMost maxPasses "λm._SIX m (_ADD m)".toList := by decide +kernel
  obtain ⟨hexpansion, htree, hreads⟩ := parse_compositional hr hapart hparse hpublic htext hdepth
  have hplaceholders : (read? (sums.withPlaceholders "λm._SIX m (_ADD m)".toList)).isSome = true := by
    decide +kernel
  exact ⟨hexpansion, htree, hreads, by decide +kernel, hreads.mpr (Option.isSome_iff_exists.mp hplaceholders)⟩

/-- An underscore right behind a digit of another script makes a difference: the digit belongs to no token, but
once a parenthesis has taken the place of the underscore, it ends a reference to a numeral. -/
theorem not_parse_compositional :
    let text := "_١_ID"
    initial.MarkFree ∧ (∀ entry ∈ initial.entries, entry.references = []) ∧
      (∀ entry ∈ initial.entries, ∃ t, initial.parse .unlimited entry.definition = .ok t) ∧
      (∀ c ∈ text.toList, IsPublic c) ∧ initial.DepthAtMost 1 text.toList ∧
      (∃ t, initial.parse .unlimited text = .ok t) ∧ initial.tree? maxPasses text.toList = none ∧
      read? (initial.withPlaceholders text.toList) = none := by
  have hparse := exists_parse_of_isSome (r := initial) (by decide +kernel)
  have hsome : (initial.parse .unlimited "_١_ID").toOption.isSome = true := by decide +kernel
  obtain ⟨t, ht⟩ := Option.isSome_iff_exists.mp hsome
  exact ⟨by decide +kernel, by decide +kernel, hparse, by decide +kernel, by decide +kernel,
    ⟨t, toOption_eq_some_iff.mp ht⟩, by decide +kernel, by decide +kernel⟩

end Registry
end LambdaStepper
