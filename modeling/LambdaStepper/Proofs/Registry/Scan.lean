import LambdaStepper.Proofs.Registry.Groups
import Mathlib.Data.List.Chain

/-! # Scans for references

One pass looks for numerals first and for names then, but that is the same as to look for both at once
(`expandOnce_eq`).  How a scan goes through a text is a relation to argue about by its cases (`Scan`).

Where references were replaced by texts in parentheses, the next scan finds nothing but what is in the
parentheses (`segmentsFrom_fill`), so passes over a text are passes over what stands in the place of its
references (`expandPasses_succ`).  This is so unless the text has an underscore right behind a decimal digit
of another script than ASCII (`Apart`): no reference ends in such a digit in front of an underscore, but one
may once a parenthesis has taken the place of the underscore. -/

namespace LambdaStepper

open Syntax

namespace Syntax

variable {boundary : Char → Bool} {label? : List Char → Option Nat}

/-- The length of the label of a numeral, or of one of the given entries, that a text starts with. -/
def referenceLabel? (names : List String) (cs : List Char) : Option Nat :=
  match numeralLabel? cs with
  | some n => some n
  | none => (nameLabel? cs).filter fun n => String.ofList (cs.take n) ∈ names

/-! ### Scans -/

/-- How a scan goes through a text, behind a given character. -/
inductive Scan (label? : List Char → Option Nat) : Option Char → List Char → List Segment → Prop where
  | nil (before : Option Char) : Scan label? before [] []
  | plain {before : Option Char} {c : Char} {cs : List Char} {ss : List Segment}
      (hc : c = '_' → mayFollow before = true → label? cs = none) (h : Scan label? (some c) cs ss) :
      Scan label? before (c :: cs) (.plain c :: ss)
  | reference {before : Option Char} {label rest : List Char} {ss : List Segment}
      (hbefore : mayFollow before = true) (hlabel : label? (label ++ rest) = some label.length)
      (hrest : continuesWord rest = false) (h : Scan label? none rest ss) :
      Scan label? before ('_' :: (label ++ rest)) (.reference label :: ss)

theorem segmentsFrom_of_continuesWord_eq_false {cs : List Char} (h : continuesWord cs = false)
    (before before' : Option Char) :
    segmentsFrom label? 0 before cs = segmentsFrom label? 0 before' cs := by
  cases cs with
  | nil => rfl
  | cons c cs =>
      have hc : c ≠ '_' := by
        rintro rfl
        cases h
      simp only [segmentsFrom, hc, decide_false, Bool.false_and, Bool.false_eq_true, if_false]

theorem segmentsFrom_plain {before : Option Char} {c : Char} {cs : List Char}
    (h : c = '_' → mayFollow before = true → label? cs = none) :
    segmentsFrom label? 0 before (c :: cs) = .plain c :: segmentsFrom label? 0 (some c) cs := by
  rw [segmentsFrom]
  split
  · next hstart =>
    rw [Bool.and_eq_true, decide_eq_true_eq] at hstart
    rw [h hstart.1 hstart.2]
  · rfl

theorem segmentsFrom_label {before : Option Char} (hbefore : mayFollow before = true)
    {label rest : List Char} (hlabel : label? (label ++ rest) = some label.length) :
    segmentsFrom label? 0 before ('_' :: (label ++ rest))
      = .reference label :: segmentsFrom label? 0 (lastChar (some '_') label) rest := by
  simp only [segmentsFrom, hbefore, hlabel, decide_true, Bool.and_self, if_true, List.take_left,
    segmentsFrom_length_append]

theorem segmentsFrom_reference {before : Option Char} (hbefore : mayFollow before = true)
    {label rest : List Char} (hlabel : label? (label ++ rest) = some label.length)
    (hrest : continuesWord rest = false) :
    segmentsFrom label? 0 before ('_' :: (label ++ rest))
      = .reference label :: segmentsFrom label? 0 none rest := by
  rw [segmentsFrom_label hbefore hlabel, segmentsFrom_of_continuesWord_eq_false hrest _ none]

theorem scan_segmentsFrom (hlabel : FindsLabels boundary label?) (before : Option Char) (cs : List Char) :
    Scan label? before cs (segmentsFrom label? 0 before cs) := by
  match cs with
  | [] => exact .nil before
  | c :: cs =>
      by_cases hplain : c = '_' → mayFollow before = true → label? cs = none
      · rw [segmentsFrom_plain hplain]
        exact .plain hplain (scan_segmentsFrom hlabel _ cs)
      · obtain ⟨rfl, hbefore, hn⟩ := by simpa only [Classical.not_imp] using hplain
        obtain ⟨n, hn⟩ := Option.ne_none_iff_exists'.mp hn
        obtain ⟨label, rest, hcs, rfl, hrest⟩ := hlabel.exists_label hn
        have hlt : rest.length < cs.length + 1 := by
          rw [hcs, List.length_append]
          omega
        have hscan := scan_segmentsFrom hlabel none rest
        subst hcs
        rw [segmentsFrom_reference hbefore hn hrest]
        exact .reference hbefore hn hrest hscan
termination_by cs.length

/-! ### Looking ahead -/

/-- Whether there is a boundary in front of every underscore with which a reference may begin. -/
def Bounded (boundary : Char → Bool) (cs : List Char) : Prop :=
  cs.IsChain fun c d => d = '_' → mayFollow (some c) = true → boundary c = true

theorem bounded_not_isWordChar (cs : List Char) : Bounded (fun c => !isWordChar c) cs :=
  (List.pairwise_of_forall fun _ _ _ hmay => (Bool.and_eq_true_iff.mp hmay).1).isChain

/-- Replacements of references change a text from a boundary on, if it does not start with a reference. -/
theorem exists_boundary {f : Segment → List Char} (hf : KeepsPlain f) {before : Option Char}
    {cs : List Char} {ss : List Segment} (h : Scan label? before cs ss)
    (hbefore : ∀ rest, cs = '_' :: rest → mayFollow before = false) (hcs : Bounded boundary cs) :
    ss.flatMap f = cs ∨ ∃ u c v v', boundary c = true ∧ cs = u ++ c :: v ∧ ss.flatMap f = u ++ c :: v' := by
  induction h with
  | nil => exact .inl rfl
  | reference hmay => exact absurd hmay (Bool.eq_false_iff.mp (hbefore _ rfl))
  | @plain before c cs ss _ _ ih =>
      rw [List.flatMap_cons, hf, List.singleton_append]
      by_cases hc : boundary c = true
      · exact .inr ⟨[], c, cs, _, hc, rfl, rfl⟩
      · have hbefore' : ∀ rest, cs = '_' :: rest → mayFollow (some c) = false := by
          rintro rest rfl
          rw [Bool.eq_false_iff]
          exact fun hmay => hc ((List.isChain_cons_cons.mp hcs).1 rfl hmay)
        obtain heq | ⟨u, d, v, v', hd, rfl, heq⟩ := ih hbefore' hcs.tail
        · exact .inl (by rw [heq])
        · exact .inr ⟨c :: u, d, v, v', hd, rfl, by rw [heq, List.cons_append]⟩

/-- A text has the label it had before, if only references behind its beginning were replaced. -/
theorem label?_flatMap {labelAhead? : List Char → Option Nat} (hahead : FindsLabels boundary labelAhead?)
    {f : Segment → List Char} (hf : KeepsPlain f) {before : Option Char} {cs : List Char}
    {ss : List Segment} (h : Scan label? before cs ss)
    (hbefore : ∀ rest, cs = '_' :: rest → mayFollow before = false) (hcs : Bounded boundary cs) :
    labelAhead? (ss.flatMap f) = labelAhead? cs := by
  obtain heq | ⟨u, c, v, v', hc, rfl, heq⟩ := exists_boundary hf h hbefore hcs
  · rw [heq]
  · rw [heq, hahead.append hc, hahead.append hc]

/-! ### Replacing references -/

/-- Puts a text in the place of a reference, in parentheses and with an origin mark. -/
def fill (content : List Char → List Char) : Segment → List Char
  | .plain c => [c]
  | .reference label => Registry.wrap true ('_' :: label) (content label)

/-- The segments of what is put in the place of a reference. -/
def fillSegments (label? : List Char → Option Nat) (content : List Char → List Char) :
    Segment → List Segment
  | .plain c => [.plain c]
  | .reference label =>
    ('(' :: writeMark ('_' :: label)).map .plain ++ (segments label? (content label) ++ [.plain ')'])

theorem keepsPlain_fill (content : List Char → List Char) : KeepsPlain (fill content) :=
  fun _ => rfl

/-- A scan of a text in which references were replaced goes through the text and through the replacements. -/
theorem segmentsFrom_fill (hlabel : FindsLabels boundary label?) (hclosing : boundary ')' = true)
    (hinert : ∀ {label rest}, label? (label ++ rest) = some label.length → inert (some '_') label = true)
    (content : List Char → List Char) {before : Option Char} {cs : List Char} {ss : List Segment}
    (h : Scan label? before cs ss) (hcs : Bounded boundary cs) {before' : Option Char}
    (hbefore : ∀ rest, cs = '_' :: rest → mayFollow before' = mayFollow before) :
    segmentsFrom label? 0 before' (ss.flatMap (fill content)) = ss.flatMap (fillSegments label? content) := by
  induction h generalizing before' with
  | nil => rfl
  | @plain before c cs ss hc hscan ih =>
      have hrest := ih hcs.tail (fun _ _ => rfl)
      rw [List.flatMap_cons, List.flatMap_cons, keepsPlain_fill, List.singleton_append, segmentsFrom, hrest]
      split
      · next hstart =>
        rw [Bool.and_eq_true, decide_eq_true_eq] at hstart
        obtain ⟨rfl, hmay⟩ := hstart
        rw [hbefore cs rfl] at hmay
        have hahead := label?_flatMap hlabel (keepsPlain_fill content) hscan (fun _ _ => rfl) hcs.tail
        rw [hahead, hc rfl hmay]
        rfl
      · rfl
  | @reference before label rest ss _ hfound hrest hscan ih =>
      have hcs' : Bounded boundary rest := hcs.tail.right_of_append
      have hhead : ∀ rest', rest = '_' :: rest' → mayFollow (some ')') = mayFollow none := by
        rintro rest' rfl
        cases hrest
      rw [List.flatMap_cons, List.flatMap_cons, fill, segmentsFrom_wrap hlabel hclosing (hinert hfound),
        ih hcs' hhead, fillSegments]
      simp

/-! ### Labels of references -/

theorem referenceLabel?_cases {names : List String} {cs : List Char} {n : Nat}
    (h : referenceLabel? names cs = some n) :
    numeralLabel? cs = some n ∨
      numeralLabel? cs = none ∧ nameLabel? cs = some n ∧ String.ofList (cs.take n) ∈ names := by
  unfold referenceLabel? at h
  split at h
  · next k hk => exact .inl (hk.trans h)
  · next hnone =>
    obtain ⟨hname, hmem⟩ := Option.filter_eq_some_iff.mp h
    exact .inr ⟨hnone, hname, of_decide_eq_true hmem⟩

theorem referenceLabel?_eq_none {names : List String} {cs : List Char}
    (h : referenceLabel? names cs = none) :
    numeralLabel? cs = none ∧
      ∀ {n}, nameLabel? cs = some n → String.ofList (cs.take n) ∉ names := by
  unfold referenceLabel? at h
  split at h
  · cases h
  · next hnone =>
    refine ⟨hnone, fun hn hmem => ?_⟩
    rw [hn, Option.filter_some, if_pos (decide_eq_true hmem)] at h
    cases h

theorem findsLabels_referenceLabel? (names : List String) :
    FindsLabels endsLabel (referenceLabel? names) where
  append {c} hc cs rest := by
    have hc' : (!isWordChar c) = true := (Bool.and_eq_true_iff.mp hc).1
    have htake : ∀ {n}, nameLabel? cs = some n → (cs ++ c :: rest).take n = cs.take n := fun h =>
      List.take_append_of_le_length (findsLabels_nameLabel?.le_length h)
    unfold referenceLabel?
    rw [findsLabels_numeralLabel?.append hc, findsLabels_nameLabel?.append hc']
    cases hn : nameLabel? cs with
    | none => rfl
    | some n => simp only [Option.filter, htake hn]
  le_length h := by
    obtain hnumeral | ⟨-, hname, -⟩ := referenceLabel?_cases h
    · exact findsLabels_numeralLabel?.le_length hnumeral
    · exact findsLabels_nameLabel?.le_length hname
  ends h := by
    obtain hnumeral | ⟨-, hname, -⟩ := referenceLabel?_cases h
    · exact findsLabels_numeralLabel?.ends hnumeral
    · exact findsLabels_nameLabel?.ends hname

theorem label_cases {names : List String} {label rest : List Char}
    (h : referenceLabel? names (label ++ rest) = some label.length) :
    Numeral.IsLabel label ∧ numeralLabel? (label ++ rest) = some label.length ∨
      Registry.IsNameLabel label ∧ numeralLabel? (label ++ rest) = none ∧
        nameLabel? (label ++ rest) = some label.length ∧ String.ofList label ∈ names := by
  obtain hnumeral | ⟨hnone, hname, hmem⟩ := referenceLabel?_cases h
  · have hlabel := isLabel_take hnumeral
    rw [List.take_left] at hlabel
    exact .inl ⟨hlabel, hnumeral⟩
  · have hlabel := isNameLabel_take hname
    rw [List.take_left] at hlabel hmem
    exact .inr ⟨hlabel, hnone, hname, hmem⟩

theorem inert_label {names : List String} {label rest : List Char}
    (h : referenceLabel? names (label ++ rest) = some label.length) : inert (some '_') label = true := by
  obtain ⟨hlabel, -⟩ | ⟨hlabel, -⟩ := label_cases h
  · exact hlabel.inert
  · exact hlabel.inert

end Syntax

/-! ### Passes -/

namespace Registry

variable (r : Registry)

/-- What stands in the place of a reference. -/
def content (label : List Char) : List Char :=
  if label.all Text.isDecimalDigit then Numeral.syntaxText (Text.digitsValue label)
  else ((r.lookup (String.ofList label)).map (·.definition.toList)).getD []

theorem content_of_isLabel {label : List Char} (h : Numeral.IsLabel label) :
    r.content label = Numeral.syntaxText (Text.digitsValue label) :=
  if_pos (List.all_eq_true.mpr h.2)

theorem content_of_lookup {label : List Char} (h : IsNameLabel label) {entry : NamedTerm}
    (hentry : r.lookup (String.ofList label) = some entry) : r.content label = entry.definition.toList := by
  have hletters : ¬label.all Text.isDecimalDigit = true := by
    obtain ⟨c, w, rfl, hc, -⟩ := h
    simp [isDecimalDigit_eq_false_of_isLetter hc]
  rw [content, if_neg hletters, hentry]
  rfl

theorem lookup_eq_none {name : String} (h : name ∉ r.names) : r.lookup name = none := by
  rw [← contains_iff, contains, Bool.not_eq_true, Option.isSome_eq_false_iff] at h
  exact Option.isNone_iff_eq_none.mp h

theorem exists_lookup {name : String} (h : name ∈ r.names) : ∃ entry, r.lookup name = some entry := by
  rw [← contains_iff, contains] at h
  exact Option.isSome_iff_exists.mp h

theorem flatMap_expandName_plain {before : Option Char} {c : Char} {cs : List Char}
    (h : c = '_' → mayFollow before = true →
      ∀ {n}, nameLabel? cs = some n → String.ofList (cs.take n) ∉ r.names) :
    (segmentsFrom nameLabel? 0 before (c :: cs)).flatMap (r.expandName true)
      = c :: (segmentsFrom nameLabel? 0 (some c) cs).flatMap (r.expandName true) := by
  by_cases hplain : c = '_' → mayFollow before = true → nameLabel? cs = none
  · rw [segmentsFrom_plain hplain]
    rfl
  · obtain ⟨rfl, hbefore, hn⟩ := by simpa only [Classical.not_imp] using hplain
    obtain ⟨n, hn⟩ := Option.ne_none_iff_exists'.mp hn
    obtain ⟨label, rest, rfl, rfl, -⟩ := findsLabels_nameLabel?.exists_label hn
    have hlabel := isNameLabel_take hn
    have hmem := h rfl hbefore hn
    rw [List.take_left] at hlabel hmem
    rw [segmentsFrom_label hbefore hn,
      flatMap_segmentsFrom_of_inert (r.keepsPlain_expandName true) nameLabel? hlabel.inert]
    simp only [List.flatMap_cons, expandName, r.lookup_eq_none hmem, List.cons_append]

theorem flatMap_expandName_reference {before : Option Char} (hbefore : mayFollow before = true)
    {label rest : List Char} (hlabel : IsNameLabel label) (hmem : String.ofList label ∈ r.names)
    (hfound : nameLabel? (label ++ rest) = some label.length) :
    (segmentsFrom nameLabel? 0 before ('_' :: (label ++ rest))).flatMap (r.expandName true)
      = fill r.content (.reference label)
        ++ (segmentsFrom nameLabel? 0 (lastChar (some '_') label) rest).flatMap (r.expandName true) := by
  obtain ⟨entry, hentry⟩ := r.exists_lookup hmem
  have htag : entry.tag.toList = '_' :: label := by
    simp [NamedTerm.tag, (eq_of_lookup hentry).2, String.toList_append]
  rw [segmentsFrom_label hbefore hfound, List.flatMap_cons, fill, r.content_of_lookup hlabel hentry]
  simp only [expandName, hentry, htag]

theorem nameLabel?_expandNumeral (cs : List Char) :
    nameLabel? ((segmentsFrom numeralLabel? 0 (some '_') cs).flatMap (expandNumeral true)) = nameLabel? cs :=
  label?_flatMap findsLabels_nameLabel? (keepsPlain_expandNumeral true)
    (scan_segmentsFrom findsLabels_numeralLabel? (some '_') cs) (fun _ _ => rfl) (bounded_not_isWordChar cs)

/-- Names are expanded in what is left once numerals are, as in the text itself. -/
theorem flatMap_expandName {before : Option Char} {cs : List Char} {ss : List Segment}
    (h : Scan (referenceLabel? r.names) before cs ss) {before' : Option Char}
    (hbefore : ∀ rest, cs = '_' :: rest → mayFollow before' = mayFollow before) :
    (segmentsFrom nameLabel? 0 before'
      ((segmentsFrom numeralLabel? 0 before cs).flatMap (expandNumeral true))).flatMap (r.expandName true)
      = ss.flatMap (fill r.content) := by
  have hnumeral := keepsPlain_expandNumeral true
  have hname := r.keepsPlain_expandName true
  induction h generalizing before' with
  | nil => rfl
  | @plain before c cs ss hc hscan ih =>
      have hrest := @ih (some c) (fun _ _ => rfl)
      rw [segmentsFrom_plain fun hc' hmay => (referenceLabel?_eq_none (hc hc' hmay)).1, List.flatMap_cons,
        hnumeral, List.singleton_append, List.flatMap_cons, keepsPlain_fill, List.singleton_append, ← hrest]
      refine r.flatMap_expandName_plain fun hc' hmay' n hn => ?_
      -- a name of no entry is one in the text already
      subst hc'
      have hmay : mayFollow before = true := (hbefore cs rfl).symm.trans hmay'
      rw [nameLabel?_expandNumeral] at hn
      obtain ⟨label, rest, rfl, rfl, -⟩ := findsLabels_nameLabel?.exists_label hn
      have hlabel := isNameLabel_take hn
      have hmem := (referenceLabel?_eq_none (hc rfl hmay)).2 hn
      rw [List.take_left] at hlabel hmem
      rwa [flatMap_segmentsFrom_of_inert hnumeral _ hlabel.inert, List.take_left]
  | @reference before label rest ss hmay hfound hrest hscan ih =>
      have hmay' : mayFollow before' = true := (hbefore _ rfl).trans hmay
      have hnext : ∀ rest', rest = '_' :: rest' → ∀ b, mayFollow b = mayFollow none := by
        rintro rest' rfl
        cases hrest
      have hskip : segmentsFrom numeralLabel? 0 (lastChar (some '_') label) rest
          = segmentsFrom numeralLabel? 0 none rest := segmentsFrom_of_continuesWord_eq_false hrest _ _
      rw [List.flatMap_cons]
      obtain ⟨hlabel, hfound⟩ | ⟨hlabel, hnone, hfound, hmem⟩ := label_cases hfound
      · rw [segmentsFrom_reference hmay hfound hrest, List.flatMap_cons,
          ← ih (fun rest' h => hnext rest' h _), fill, r.content_of_isLabel hlabel]
        exact flatMap_segmentsFrom_of_inert hname _ (Numeral.inert_block hlabel before') _
      · have hlabel? := nameLabel?_expandNumeral (label ++ rest)
        rw [hfound, flatMap_segmentsFrom_of_inert hnumeral _ hlabel.inert, hskip] at hlabel?
        rw [segmentsFrom_plain fun _ _ => hnone, List.flatMap_cons, hnumeral, List.singleton_append,
          flatMap_segmentsFrom_of_inert hnumeral _ hlabel.inert, hskip,
          r.flatMap_expandName_reference hmay' hlabel hmem hlabel?, ih (fun rest' h => hnext rest' h _)]

/-- One pass replaces all references at once. -/
theorem expandOnce_eq (cs : List Char) :
    r.expandOnce true cs = (segments (referenceLabel? r.names) cs).flatMap (fill r.content) :=
  r.flatMap_expandName (scan_segmentsFrom (findsLabels_referenceLabel? r.names) none cs) fun _ _ => rfl

/-- Whether an underscore stands right behind a decimal digit only if that is one of ASCII. -/
def Apart (cs : List Char) : Prop :=
  cs.IsChain fun c d => d = '_' → Text.isDecimalDigit c = true → isWordChar c = true

instance (cs : List Char) : Decidable (Apart cs) :=
  inferInstanceAs (Decidable (List.IsChain _ cs))

theorem Apart.bounded {cs : List Char} (h : Apart cs) : Bounded endsLabel cs := by
  refine h.imp fun c d hdigit hd hmay => ?_
  have hword : isWordChar c = false := by
    rw [mayFollow, Bool.and_eq_true, Bool.not_eq_true'] at hmay
    exact hmay.1
  rw [endsLabel, hword, Bool.not_false, Bool.true_and, Bool.not_eq_true', Bool.eq_false_iff]
  intro hdecimal
  rw [hdigit hd hdecimal] at hword
  cases hword

section Fill

variable {cs : List Char} (hcs : Apart cs) (f : List Char → List Char)

include hcs

theorem segments_fill {names : List String} :
    segments (referenceLabel? names) ((segments (referenceLabel? names) cs).flatMap (fill f))
      = (segments (referenceLabel? names) cs).flatMap (fillSegments (referenceLabel? names) f) :=
  segmentsFrom_fill (findsLabels_referenceLabel? names) (by decide) inert_label f
    (scan_segmentsFrom (findsLabels_referenceLabel? names) none cs) hcs.bounded fun _ _ => rfl

/-- A pass over a text in which references were replaced is one over the replacements. -/
theorem expandOnce_fill :
    r.expandOnce true ((segments (referenceLabel? r.names) cs).flatMap (fill f))
      = (segments (referenceLabel? r.names) cs).flatMap (fill fun label => r.expandOnce true (f label)) := by
  rw [expandOnce_eq, segments_fill hcs, List.flatMap_assoc]
  congr 1
  funext s
  cases s with
  | plain c => rfl
  | reference label =>
      simp only [fillSegments, fill, List.flatMap_append, List.flatMap_singleton,
        flatMap_map_plain (keepsPlain_fill r.content), expandOnce_eq]
      simp [wrap]

/-- Passes over a text are a pass, and then one less over what stands in the place of its references. -/
theorem expandPasses_succ (passes : Nat) :
    r.expandPasses true (passes + 1) cs
      = (segments (referenceLabel? r.names) cs).flatMap
          (fill fun label => r.expandPasses true passes (r.content label)) := by
  have hiterate : ∀ f : List Char → List Char,
      (r.expandOnce true)^[passes] ((segments (referenceLabel? r.names) cs).flatMap (fill f))
        = (segments (referenceLabel? r.names) cs).flatMap
            (fill fun label => (r.expandOnce true)^[passes] (f label)) := by
    induction passes with
    | zero => exact fun _ => rfl
    | succ passes ih =>
        intro f
        rw [Function.iterate_succ_apply, r.expandOnce_fill hcs, ih]
        rfl
  simp only [expandPasses_eq_iterate]
  rw [Function.iterate_succ_apply, expandOnce_eq, hiterate]

end Fill

end Registry
end LambdaStepper
