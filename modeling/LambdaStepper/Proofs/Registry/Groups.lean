import LambdaStepper.Proofs.Registry.Expanded
import Mathlib.Logic.Function.Iterate

/-! # Expansion goes into parentheses

What stands in the place of a reference stands in parentheses, behind an origin mark, and is expanded there
as if it stood alone (`expandOnce_wrap`).  A scan for references finds none in the mark, no label goes past
the parenthesis at the end, and behind the mark as behind that parenthesis it goes on as at the beginning of
a text (`flatMap_segmentsFrom_wrap`). -/

namespace LambdaStepper

open Syntax

namespace Syntax

/-- A way to find labels, which looks at nothing from a boundary on, and finds them in front of nothing that
goes on with a word. -/
structure FindsLabels (boundary : Char → Bool) (label? : List Char → Option Nat) : Prop where
  append : ∀ {c}, boundary c = true → ∀ cs rest, label? (cs ++ c :: rest) = label? cs
  le_length : ∀ {cs n}, label? cs = some n → n ≤ cs.length
  ends : ∀ {cs n}, label? cs = some n → continuesWord (cs.drop n) = false

variable {boundary : Char → Bool} {label? : List Char → Option Nat}

theorem FindsLabels.exists_label (hlabel : FindsLabels boundary label?) {cs : List Char} {n : Nat}
    (h : label? cs = some n) :
    ∃ label rest, cs = label ++ rest ∧ n = label.length ∧ continuesWord rest = false :=
  ⟨cs.take n, cs.drop n, (List.take_append_drop n cs).symm,
    (List.length_take_of_le (hlabel.le_length h)).symm, hlabel.ends h⟩

theorem segmentsFrom_append_closing (hlabel : FindsLabels boundary label?) (hclosing : boundary ')' = true)
    {owed : Nat} {cs : List Char} (howed : owed ≤ cs.length) (before : Option Char) (rest : List Char) :
    segmentsFrom label? owed before (cs ++ ')' :: rest)
      = segmentsFrom label? owed before cs ++ .plain ')' :: segmentsFrom label? 0 (some ')') rest := by
  induction cs generalizing owed before with
  | nil =>
      obtain rfl := Nat.le_zero.mp howed
      rfl
  | cons c cs ih =>
      cases owed with
      | succ owed => exact ih (Nat.le_of_succ_le_succ howed) (some c)
      | zero =>
          have hplain := ih (Nat.zero_le _) (some c)
          simp only [List.cons_append, segmentsFrom, hlabel.append hclosing]
          split
          · cases hn : label? cs with
            | none => simp only [hplain, List.cons_append]
            | some n => simp only [ih (hlabel.le_length hn) (some c), List.cons_append,
                List.take_append_of_le_length (hlabel.le_length hn)]
          · rw [hplain, List.cons_append]

theorem segmentsFrom_markClose (cs : List Char) :
    segmentsFrom label? 0 (some markClose) cs = segments label? cs := by
  have hmay : mayFollow (some markClose) = true := by decide
  cases cs with
  | nil => rfl
  | cons c cs => simp only [segments, segmentsFrom, hmay, show mayFollow none = true from rfl]

theorem lastChar_writeMark (before : Option Char) (tag : List Char) :
    lastChar before ('(' :: writeMark tag) = some markClose := by
  simp [writeMark, lastChar]

/-- A scan of a marked text in parentheses is one of the text. -/
theorem segmentsFrom_wrap (hlabel : FindsLabels boundary label?) (hclosing : boundary ')' = true)
    {label : List Char} (hmark : inert (some '_') label = true) (before : Option Char)
    (cs rest : List Char) :
    segmentsFrom label? 0 before (Registry.wrap true ('_' :: label) cs ++ rest)
      = ('(' :: writeMark ('_' :: label)).map .plain ++ (segments label? cs ++ .plain ')' ::
          segmentsFrom label? 0 (some ')') rest) := by
  have hshape : Registry.wrap true ('_' :: label) cs ++ rest
      = '(' :: writeMark ('_' :: label) ++ (cs ++ ')' :: rest) := by
    simp [Registry.wrap]
  rw [hshape, segmentsFrom_append_of_inert (inert_opening hmark before), lastChar_writeMark,
    segmentsFrom_markClose, segments, segmentsFrom_append_closing hlabel hclosing (Nat.zero_le _)]
  rfl

/-- A replacement of references goes into parentheses that are marked with one. -/
theorem flatMap_segmentsFrom_wrap (hlabel : FindsLabels boundary label?) (hclosing : boundary ')' = true)
    {f : Segment → List Char} (hf : KeepsPlain f) {label : List Char}
    (hmark : inert (some '_') label = true) (before : Option Char) (cs rest : List Char) :
    (segmentsFrom label? 0 before (Registry.wrap true ('_' :: label) cs ++ rest)).flatMap f
      = Registry.wrap true ('_' :: label) ((segments label? cs).flatMap f)
          ++ (segmentsFrom label? 0 (some ')') rest).flatMap f := by
  rw [segmentsFrom_wrap hlabel hclosing hmark, List.flatMap_append, List.flatMap_append, List.flatMap_cons,
    flatMap_map_plain hf, hf]
  simp [Registry.wrap]

/-! ### Labels -/

/-- Whether no label goes on with a character: it belongs to no word and is no decimal digit. -/
def endsLabel (c : Char) : Bool :=
  !isWordChar c && !Text.isDecimalDigit c

theorem findsLabels_numeralLabel? : FindsLabels endsLabel numeralLabel? where
  append {c} hc cs rest := by
    rw [endsLabel, Bool.and_eq_true, Bool.not_eq_true', Bool.not_eq_true'] at hc
    induction cs with
    | nil => simp [numeralLabel?, hc.2]
    | cons d cs ih =>
        have hcontinues : continuesWord (cs ++ c :: rest) = continuesWord cs := by
          cases cs with
          | nil => exact hc.1
          | cons => rfl
        rw [List.cons_append, numeralLabel?, numeralLabel?, ih, hcontinues]
  le_length {cs n} h := by
    induction cs generalizing n with
    | nil => cases h
    | cons c cs ih =>
        rw [numeralLabel?] at h
        split at h
        · split at h
          · next k hk =>
            obtain rfl := Option.some.inj h
            exact Nat.succ_le_succ (ih hk)
          · split at h
            · cases h
            · obtain rfl := Option.some.inj h
              exact Nat.succ_le_succ (Nat.zero_le _)
        · cases h
  ends {cs n} h := by
    induction cs generalizing n with
    | nil => cases h
    | cons c cs ih =>
        rw [numeralLabel?] at h
        split at h
        · split at h
          · next k hk =>
            obtain rfl := Option.some.inj h
            exact ih hk
          · split at h
            · cases h
            · next hcontinues =>
              obtain rfl := Option.some.inj h
              exact Bool.eq_false_iff.mpr hcontinues
        · cases h

theorem takeWhile_append_cons {c : Char} (hc : isWordChar c = false) (cs rest : List Char) :
    (cs ++ c :: rest).takeWhile isWordChar = cs.takeWhile isWordChar := by
  induction cs with
  | nil => simp [hc]
  | cons d cs ih => rw [List.cons_append, List.takeWhile_cons, List.takeWhile_cons, ih]

theorem continuesWord_drop_takeWhile (cs : List Char) :
    continuesWord (cs.drop (cs.takeWhile isWordChar).length) = false := by
  induction cs with
  | nil => rfl
  | cons c cs ih =>
      cases hc : isWordChar c with
      | true => simpa [List.takeWhile_cons, hc] using ih
      | false => simp [hc, continuesWord]

theorem findsLabels_nameLabel? : FindsLabels (fun c => !isWordChar c) nameLabel? where
  append {c} hc cs rest := by
    rw [Bool.not_eq_true'] at hc
    cases cs with
    | nil =>
        have hletter : isLetter c = false := by
          rw [Bool.eq_false_iff]
          intro hletter
          rw [isWordChar_of_isLetter hletter] at hc
          cases hc
        simp [nameLabel?, hletter]
    | cons d cs => rw [List.cons_append, nameLabel?, nameLabel?, takeWhile_append_cons hc]
  le_length {cs n} h := by
    cases cs with
    | nil => cases h
    | cons c cs =>
        rw [nameLabel?] at h
        split at h
        · obtain rfl := Option.some.inj h
          exact Nat.succ_le_succ (List.takeWhile_prefix isWordChar).length_le
        · cases h
  ends {cs n} h := by
    cases cs with
    | nil => cases h
    | cons c cs =>
        rw [nameLabel?] at h
        split at h
        · obtain rfl := Option.some.inj h
          exact continuesWord_drop_takeWhile cs
        · cases h

end Syntax

/-! No reference begins in the label of another. -/

theorem Numeral.IsLabel.inert {label : List Char} (h : Numeral.IsLabel label) :
    inert (some '_') label = true :=
  inert_of_notMem (fun hmem => h.ne_of_mem hmem (by decide) rfl) _

theorem Registry.IsNameLabel.all_isWordChar {label : List Char} (h : IsNameLabel label) :
    label.all isWordChar = true := by
  obtain ⟨c, w, rfl, hc, hw⟩ := h
  rw [List.all_cons, isWordChar_of_isLetter hc, hw, Bool.and_self]

theorem Registry.IsNameLabel.inert {label : List Char} (h : IsNameLabel label) :
    Syntax.inert (some '_') label = true :=
  inert_of_all_isWordChar h.all_isWordChar (by decide)

/-! ### Passes -/

namespace Registry

variable (r : Registry)

/-- A marked pass over a text in parentheses is one over the text. -/
theorem expandOnce_wrap {label : List Char} (hmark : inert (some '_') label = true) (cs : List Char) :
    r.expandOnce true (wrap true ('_' :: label) cs) = wrap true ('_' :: label) (r.expandOnce true cs) := by
  have hnumerals := flatMap_segmentsFrom_wrap findsLabels_numeralLabel? (by decide)
    (keepsPlain_expandNumeral true) hmark none cs []
  have hnames := flatMap_segmentsFrom_wrap findsLabels_nameLabel? (by decide) (r.keepsPlain_expandName true)
    hmark none ((segments numeralLabel? cs).flatMap (expandNumeral true)) []
  simp only [List.append_nil, segmentsFrom, List.flatMap_nil] at hnumerals hnames
  change (segmentsFrom nameLabel? 0 none ((segmentsFrom numeralLabel? 0 none
    (wrap true ('_' :: label) cs)).flatMap (expandNumeral true))).flatMap (r.expandName true) = _
  rw [hnumerals, hnames]
  rfl

/-- A number of passes is that many times one pass: nothing changes any more once nothing has changed. -/
theorem expandPasses_eq_iterate (marked : Bool) (passes : Nat) (cs : List Char) :
    r.expandPasses marked passes cs = (r.expandOnce marked)^[passes] cs := by
  induction passes generalizing cs with
  | zero => rfl
  | succ passes ih =>
      rw [expandPasses, Function.iterate_succ_apply]
      split
      · next h => rw [h, Function.iterate_fixed h]
      · exact ih _

theorem expandPasses_wrap {label : List Char} (hmark : inert (some '_') label = true) (passes : Nat)
    (cs : List Char) :
    r.expandPasses true passes (wrap true ('_' :: label) cs)
      = wrap true ('_' :: label) (r.expandPasses true passes cs) := by
  have hsemiconj : Function.Semiconj (wrap true ('_' :: label)) (r.expandOnce true) (r.expandOnce true) :=
    fun cs => (r.expandOnce_wrap hmark cs).symm
  rw [expandPasses_eq_iterate, expandPasses_eq_iterate, hsemiconj.iterate_right]

end Registry
end LambdaStepper
