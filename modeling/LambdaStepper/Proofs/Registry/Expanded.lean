import LambdaStepper.Proofs.Reduction.NumeralTags
import LambdaStepper.Proofs.Registry.Unreferenced
import LambdaStepper.Proofs.Syntax.NumeralText

/-! # Expanded texts

What expansion leaves of a text without private characters: plain characters, openings of expanded entries
with their origin marks, and whole numerals (`Expanded`).  A pass over such a text finds references among
the plain characters only.  An origin mark starts with a character behind which no reference may stand, and
there is no underscore in a written numeral, so a scan goes through both without finding anything
(`inert`), and no label reaches into them, for they start with a parenthesis.  Therefore expansion keeps
texts in this form (`expanded_expandPasses`). -/

namespace LambdaStepper

open Syntax

/-! ### The form of an expanded text -/

/-- A character that is no part of an origin mark. -/
def Syntax.IsPublic (c : Char) : Prop :=
  c ≠ markOpen ∧ c ≠ markClose

instance (c : Char) : Decidable (IsPublic c) :=
  inferInstanceAs (Decidable (_ ∧ _))

theorem Syntax.isPublic_of_mem_syntaxText {n : Nat} {c : Char} (h : c ∈ Numeral.syntaxText n) : IsPublic c := by
  have hall : ∀ c ∈ Numeral.alphabet, IsPublic c := by decide
  exact hall c (Numeral.syntaxText_subset_alphabet n h)

/-- The label of a reference to an entry. -/
def Registry.IsNameLabel (label : List Char) : Prop :=
  ∃ c w, label = c :: w ∧ isLetter c = true ∧ w.all isWordChar = true

/-- What a numeral reference with the given label becomes. -/
def Numeral.block (label : List Char) : List Char :=
  Registry.wrap true ('_' :: label) (syntaxText (Text.digitsValue label))

theorem Numeral.block_append (label cs : List Char) :
    block label ++ cs
      = '(' :: writeMark ('_' :: label) ++ (syntaxText (Text.digitsValue label) ++ ')' :: cs) := by
  simp [block, Registry.wrap]

/-- A text of plain characters with the property `P`, openings of expanded entries, and numerals. -/
inductive Registry.Expanded (P : Char → Prop) : List Char → Prop where
  | nil : Expanded P []
  | plain {cs : List Char} (c : Char) (hc : P c) (h : Expanded P cs) : Expanded P (c :: cs)
  | origin {cs : List Char} (label : List Char) (hlabel : IsNameLabel label) (h : Expanded P cs) :
      Expanded P ('(' :: writeMark ('_' :: label) ++ cs)
  | numeral {cs : List Char} (label : List Char) (hlabel : Numeral.IsLabel label)
      (h : Expanded P cs) : Expanded P (Numeral.block label ++ cs)

/-! ### Labels -/

theorem Text.toNat_of_isDecimalDigit {c : Char} (h : isDecimalDigit c = true) :
    48 ≤ c.toNat ∧ c.toNat ≤ 57 ∨ 1632 ≤ c.toNat := by
  unfold isDecimalDigit digitValue? at h
  rw [Option.isSome_map, List.find?_isSome] at h
  obtain ⟨least, hmem, hrange⟩ := h
  rw [Bool.and_eq_true, decide_eq_true_eq, decide_eq_true_eq] at hrange
  have hzeros : ∀ least ∈ digitZeros, least = 48 ∨ 1632 ≤ least := by decide
  have hleast := hzeros least hmem
  omega

theorem Syntax.isDecimalDigit_eq_false_of_isLetter {c : Char} (h : isLetter c = true) :
    Text.isDecimalDigit c = false := by
  rw [Bool.eq_false_iff]
  intro hdigit
  have hrange := Text.toNat_of_isDecimalDigit hdigit
  simp only [isLetter, Bool.or_eq_true, Bool.and_eq_true, decide_eq_true_eq, Char.le_def,
    UInt32.le_iff_toNat_le] at h
  unfold Char.toNat at hrange
  rcases h with h | h
  · change 65 ≤ c.val.toNat ∧ c.val.toNat ≤ 90 at h
    omega
  · change 97 ≤ c.val.toNat ∧ c.val.toNat ≤ 122 at h
    omega

theorem Syntax.isWordChar_of_isLetter {c : Char} (h : isLetter c = true) : isWordChar c = true := by
  simp [isWordChar, h]

theorem Syntax.isLabel_take {cs : List Char} {n : Nat} (h : numeralLabel? cs = some n) :
    Numeral.IsLabel (cs.take n) := by
  induction cs generalizing n with
  | nil => cases h
  | cons c cs ih =>
      rw [numeralLabel?] at h
      split at h
      · next hc =>
        split at h
        · next k hk =>
          obtain rfl := Option.some.inj h
          exact ⟨List.cons_ne_nil _ _, List.forall_mem_cons.mpr ⟨hc, (ih hk).2⟩⟩
        · split at h
          · cases h
          · obtain rfl := Option.some.inj h
            exact ⟨List.cons_ne_nil _ _, List.forall_mem_cons.mpr ⟨hc, by simp⟩⟩
      · cases h

theorem Syntax.isNameLabel_take {cs : List Char} {n : Nat} (h : nameLabel? cs = some n) :
    Registry.IsNameLabel (cs.take n) := by
  cases cs with
  | nil => cases h
  | cons c cs =>
      rw [nameLabel?] at h
      split at h
      · next hc =>
        obtain rfl := Option.some.inj h
        refine ⟨c, cs.takeWhile isWordChar, ?_, hc, List.all_takeWhile⟩
        rw [List.take_succ_cons, ← List.prefix_iff_eq_take.mp (List.takeWhile_prefix isWordChar)]
      · cases h

theorem Numeral.IsLabel.ne_of_mem {label : List Char} (h : IsLabel label) {c d : Char} (hc : c ∈ label)
    (hd : Text.isDecimalDigit d = false) : c ≠ d :=
  ne_of_class (h.2 c hc) hd

theorem Registry.IsNameLabel.ne_of_mem {label : List Char} (h : IsNameLabel label) {c d : Char}
    (hc : c ∈ label) (hd : isWordChar d = false) : c ≠ d := by
  obtain ⟨e, w, rfl, he, hw⟩ := h
  have hall : ∀ c ∈ e :: w, isWordChar c = true :=
    List.forall_mem_cons.mpr ⟨isWordChar_of_isLetter he, List.all_eq_true.mp hw⟩
  exact ne_of_class (hall c hc) hd

theorem Numeral.IsLabel.markClose_notMem {label : List Char} (h : IsLabel label) :
    markClose ∉ '_' :: label := by
  rw [List.mem_cons, not_or]
  exact ⟨by decide, fun hmem => h.ne_of_mem hmem (by decide) rfl⟩

theorem Registry.IsNameLabel.markClose_notMem {label : List Char} (h : IsNameLabel label) :
    markClose ∉ '_' :: label := by
  rw [List.mem_cons, not_or]
  exact ⟨by decide, fun hmem => h.ne_of_mem hmem (by decide) rfl⟩

theorem Registry.IsNameLabel.isTag_eq_false {label : List Char} (h : IsNameLabel label) :
    Numeral.isTag (some (String.ofList ('_' :: label))) = false := by
  obtain ⟨c, w, rfl, hc, -⟩ := h
  simp [Numeral.isTag, Numeral.isNumeralName, isDecimalDigit_eq_false_of_isLetter hc]

/-! ### Passes -/

theorem Syntax.inert_opening {label : List Char} (h : inert (some '_') label = true)
    (before : Option Char) : inert before ('(' :: writeMark ('_' :: label)) = true := by
  simp [writeMark, inert, inert_append, h, show markOpen ≠ '_' by decide,
    show markClose ≠ '_' by decide, show mayFollow (some markOpen) = false by decide]

theorem Registry.IsNameLabel.inert_opening {label : List Char} (h : IsNameLabel label)
    (before : Option Char) : inert before ('(' :: writeMark ('_' :: label)) = true := by
  obtain ⟨c, w, rfl, hc, hw⟩ := h
  refine Syntax.inert_opening (inert_of_all_isWordChar ?_ (by decide)) before
  rw [List.all_cons, isWordChar_of_isLetter hc, hw, Bool.and_self]

theorem Numeral.underscore_notMem_syntaxText (n : Nat) : '_' ∉ syntaxText n :=
  fun hmem => absurd (syntaxText_subset_alphabet n hmem) (by decide)

theorem Numeral.inert_block {label : List Char} (h : IsLabel label) (before : Option Char) :
    inert before (block label) = true := by
  have hlabel : '_' ∉ label := fun hmem => h.ne_of_mem hmem (by decide) rfl
  have htext : '_' ∉ syntaxText (Text.digitsValue label) ++ [')'] := by
    intro hmem
    rcases List.mem_append.mp hmem with hmem | hmem
    · exact underscore_notMem_syntaxText _ hmem
    · exact absurd hmem (by decide)
  unfold block Registry.wrap
  rw [if_pos rfl, List.append_assoc, inert_append, Syntax.inert_opening (inert_of_notMem hlabel _),
    inert_of_notMem htext, Bool.and_self]

namespace Registry

variable {P : Char → Prop} {cs : List Char}

/-- What a pass makes of a reference, where it finds a label, is expanded text again. -/
structure KeepsForm (label? : List Char → Option Nat) (f : Segment → List Char) : Prop where
  plain : KeepsPlain f
  /-- No label reaches into an origin mark or a numeral. -/
  label : ∀ {rest n}, label? rest = some n → '(' ∉ rest.take n
  reference : ∀ {rest n}, label? rest = some n → ∀ {cs}, Expanded IsPublic cs →
    Expanded IsPublic (f (.reference (rest.take n)) ++ cs)

theorem expanded_append {w : List Char} (hw : ∀ c ∈ w, P c) (h : Expanded P cs) : Expanded P (w ++ cs) := by
  induction w with
  | nil => exact h
  | cons c w ih =>
      obtain ⟨hc, hw⟩ := List.forall_mem_cons.mp hw
      exact .plain c hc (ih hw)

theorem expanded_flatMap_segmentsFrom {label? : List Char → Option Nat} {f : Segment → List Char}
    (hf : KeepsForm label? f) (h : Expanded IsPublic cs) {owed : Nat} (howed : '(' ∉ cs.take owed)
    (before : Option Char) : Expanded IsPublic ((segmentsFrom label? owed before cs).flatMap f) := by
  induction h generalizing owed before with
  | nil => exact .nil
  | @plain cs c hc _ ih =>
      cases owed with
      | succ owed =>
          rw [List.take_succ_cons, List.mem_cons, not_or] at howed
          exact ih howed.2 (some c)
      | zero =>
          have hplain : Expanded IsPublic (f (.plain c) ++ (segmentsFrom label? 0 (some c) cs).flatMap f) := by
            rw [hf.plain]
            exact .plain c hc (ih List.not_mem_nil (some c))
          rw [segmentsFrom]
          split
          · split
            · next n hn => exact hf.reference hn (ih (hf.label hn) (some c))
            · exact hplain
          · exact hplain
  | @origin cs label hlabel _ ih =>
      cases owed with
      | succ owed => exact absurd List.mem_cons_self howed
      | zero =>
          rw [flatMap_segmentsFrom_of_inert hf.plain label? (hlabel.inert_opening before)]
          exact .origin label hlabel (ih List.not_mem_nil _)
  | @numeral cs label hlabel _ ih =>
      cases owed with
      | succ owed => exact absurd List.mem_cons_self howed
      | zero =>
          rw [flatMap_segmentsFrom_of_inert hf.plain label? (Numeral.inert_block hlabel before)]
          exact .numeral label hlabel (ih List.not_mem_nil _)

theorem keepsForm_expandNumeral : KeepsForm numeralLabel? (expandNumeral true) where
  plain := keepsPlain_expandNumeral true
  label h hmem := (isLabel_take h).ne_of_mem hmem (by decide) rfl
  reference h _ hcs := .numeral _ (isLabel_take h) hcs

/-- The definitions of a registry hold no private characters. -/
def MarkFree (r : Registry) : Prop :=
  ∀ entry ∈ r.entries, ∀ c ∈ entry.definition.toList, IsPublic c

instance (r : Registry) : Decidable r.MarkFree :=
  inferInstanceAs (Decidable (∀ entry ∈ r.entries, ∀ c ∈ entry.definition.toList, IsPublic c))

theorem eq_of_lookup {r : Registry} {name : String} {entry : NamedTerm} (h : r.lookup name = some entry) :
    entry ∈ r.entries ∧ entry.name = name :=
  ⟨List.mem_of_find?_eq_some h, by simpa using List.find?_some h⟩

theorem isPublic_of_isWordChar {c : Char} (h : isWordChar c = true) : IsPublic c :=
  ⟨ne_of_class h (by decide), ne_of_class h (by decide)⟩

theorem keepsForm_expandName {r : Registry} (hr : r.MarkFree) :
    KeepsForm nameLabel? (r.expandName true) where
  plain := r.keepsPlain_expandName true
  label h hmem := (isNameLabel_take h).ne_of_mem hmem (by decide) rfl
  reference := by
    intro rest n h cs hcs
    have hlabel := isNameLabel_take h
    generalize rest.take n = label at hlabel
    rw [expandName]
    split
    · next entry hentry =>
      obtain ⟨hmem, hname⟩ := eq_of_lookup hentry
      have htag : entry.tag.toList = '_' :: label := by
        simp [NamedTerm.tag, hname, String.toList_append]
      have hclosed : Expanded IsPublic ([')'] ++ cs) := .plain ')' (by decide) hcs
      have hdefinition := expanded_append (hr entry hmem) hclosed
      rw [wrap, if_pos rfl, htag]
      simpa using Expanded.origin label hlabel hdefinition
    · obtain ⟨c, w, rfl, hc, hw⟩ := hlabel
      have hpublic : ∀ d ∈ '_' :: c :: w, IsPublic d := by
        refine List.forall_mem_cons.mpr ⟨by decide, List.forall_mem_cons.mpr ⟨?_, ?_⟩⟩
        · exact isPublic_of_isWordChar (isWordChar_of_isLetter hc)
        · exact fun d hd => isPublic_of_isWordChar (List.all_eq_true.mp hw d hd)
      exact expanded_append hpublic hcs

theorem expanded_flatMap_segments {label? : List Char → Option Nat} {f : Segment → List Char}
    (hf : KeepsForm label? f) (h : Expanded IsPublic cs) :
    Expanded IsPublic ((segments label? cs).flatMap f) := by
  have hnone : '(' ∉ cs.take 0 := List.not_mem_nil
  exact expanded_flatMap_segmentsFrom hf h hnone none

theorem expanded_expandOnce {r : Registry} (hr : r.MarkFree) (h : Expanded IsPublic cs) :
    Expanded IsPublic (r.expandOnce true cs) :=
  expanded_flatMap_segments (keepsForm_expandName hr) (expanded_flatMap_segments keepsForm_expandNumeral h)

theorem expanded_expandPasses {r : Registry} (hr : r.MarkFree) (h : Expanded IsPublic cs)
    (passes : Nat) : Expanded IsPublic (r.expandPasses true passes cs) := by
  induction passes generalizing cs with
  | zero => exact h
  | succ passes ih =>
      rw [expandPasses]
      split
      · exact h
      · exact ih (expanded_expandOnce hr h)

theorem eq_expandPasses_of_within {limits : Limits} {r : Registry} {marked : Bool} {passes : Nat}
    {es : List Char} (h : r.expandPassesWithin limits marked passes cs = .ok es) :
    es = r.expandPasses marked passes cs := by
  induction passes generalizing cs with
  | zero => exact (Except.ok.inj h).symm
  | succ passes ih =>
      rw [expandPassesWithin] at h
      rw [expandPasses]
      split at h
      · cases h
      · dsimp only at h ⊢
        split at h
        · next heq => rw [if_pos heq, Except.ok.inj h]
        · next hne => rw [if_neg hne, ih h]

theorem expanded_of_expandWithin {limits : Limits} {r : Registry} (hr : r.MarkFree) {es : List Char}
    (hcs : ∀ c ∈ cs, IsPublic c) (h : r.expandWithin limits true cs = .ok es) :
    Expanded IsPublic es := by
  have hplain : Expanded IsPublic (cs ++ []) := expanded_append hcs .nil
  rw [List.append_nil] at hplain
  rw [eq_expandPasses_of_within h]
  exact expanded_expandPasses hr hplain maxPasses

end Registry
end LambdaStepper
