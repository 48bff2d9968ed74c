import LambdaStepper.Proofs.Syntax.Spelling
import Mathlib.Data.List.Basic
import Mathlib.Data.List.TakeWhile

/-! # Texts without references

A name that a registry and the numerals leave alone is `Writable`: it is an identifier without the
letter `L`, names no numeral and is no reference to an entry.  A text that is spelled with such names
holds no reference, since one begins with an underscore behind no character of a word, which is the
beginning of a name, and goes on to the end of that name.  So expansion leaves the text alone
(`expandWithin_of_spelled`). -/

namespace LambdaStepper

/-- Whether a name can be written in a text and be read as a variable. -/
structure Registry.Writable (r : Registry) (x : String) : Prop where
  identifier : Syntax.isIdentifier x.toList = true
  no_binder : 'L' ∉ x.toList
  no_numeral : Numeral.isNumeralName x.toList = false
  no_entry : ∀ name ∈ r.names, x ≠ "_" ++ name

instance (r : Registry) (x : String) : Decidable (r.Writable x) :=
  decidable_of_iff
    (Syntax.isIdentifier x.toList = true ∧ 'L' ∉ x.toList ∧ Numeral.isNumeralName x.toList = false ∧
      ∀ name ∈ r.names, x ≠ "_" ++ name)
    ⟨fun ⟨h1, h2, h3, h4⟩ => ⟨h1, h2, h3, h4⟩, fun ⟨h1, h2, h3, h4⟩ => ⟨h1, h2, h3, h4⟩⟩

namespace Syntax

variable {label? : List Char → Option Nat}

theorem mayFollow_of_isWordChar {c : Char} (h : isWordChar c = true) : mayFollow (some c) = false := by
  simp [mayFollow, h]

theorem ne_underscore_of_isBlank {c : Char} (hc : Text.isBlank c = true) : c ≠ '_' :=
  ne_of_class hc (by decide)

theorem ne_underscore_of_signOf? {l : Lexeme} {c : Char} (hl : signOf? l = some c) : c ≠ '_' := by
  rcases eq_of_signOf? hl with rfl | rfl | rfl | rfl <;> decide

/-- The character before what follows a text. -/
def lastChar (before : Option Char) (w : List Char) : Option Char :=
  w.foldl (fun _ c => some c) before

/-- Whether no reference starts inside a text that stands behind the given character. -/
def inert (before : Option Char) : List Char → Bool
  | [] => true
  | c :: w => !(c = '_' && mayFollow before) && inert (some c) w

theorem segmentsFrom_append_of_inert {w : List Char} {before : Option Char}
    (h : inert before w = true) (rest : List Char) :
    segmentsFrom label? 0 before (w ++ rest)
      = w.map .plain ++ segmentsFrom label? 0 (lastChar before w) rest := by
  induction w generalizing before with
  | nil => rfl
  | cons c w ih =>
      rw [inert, Bool.and_eq_true, Bool.not_eq_true'] at h
      rw [List.cons_append, segmentsFrom, h.1, if_neg Bool.false_ne_true, ih h.2]
      rfl

theorem inert_append (before : Option Char) (w v : List Char) :
    inert before (w ++ v) = (inert before w && inert (lastChar before w) v) := by
  induction w generalizing before with
  | nil => rfl
  | cons c w ih => simp only [List.cons_append, inert, ih, Bool.and_assoc]; rfl

theorem inert_of_notMem {w : List Char} (h : '_' ∉ w) (before : Option Char) :
    inert before w = true := by
  induction w generalizing before with
  | nil => rfl
  | cons c w ih =>
      simp only [List.mem_cons, not_or] at h
      simp [inert, Ne.symm h.1, ih h.2]

theorem segments_of_notMem {cs : List Char} (h : '_' ∉ cs) :
    segments label? cs = cs.map .plain := by
  have hplain : segmentsFrom label? 0 none (cs ++ [])
      = cs.map .plain ++ segmentsFrom label? 0 (lastChar none cs) [] :=
    segmentsFrom_append_of_inert (inert_of_notMem h none) []
  rwa [List.append_nil, segmentsFrom, List.append_nil] at hplain

theorem inert_of_all_isWordChar {w : List Char} (h : w.all isWordChar = true) {b : Char}
    (hb : isWordChar b = true) : inert (some b) w = true := by
  induction w generalizing b with
  | nil => rfl
  | cons c w ih =>
      rw [List.all_cons, Bool.and_eq_true] at h
      simp [inert, mayFollow_of_isWordChar hb, ih h.2 h.1]

theorem segmentsFrom_length_append (label? : List Char → Option Nat) (before : Option Char)
    (w rest : List Char) :
    segmentsFrom label? w.length before (w ++ rest) = segmentsFrom label? 0 (lastChar before w) rest := by
  induction w generalizing before with
  | nil => rfl
  | cons c w ih => exact ih (some c)

theorem segmentsFrom_append (label? : List Char → Option Nat) (w rest : List Char)
    (before : Option Char) :
    ∃ b, segmentsFrom label? w.length before (w ++ rest) = segmentsFrom label? 0 b rest :=
  ⟨_, segmentsFrom_length_append label? before w rest⟩

/-- A way to replace references that leaves plain characters alone. -/
def KeepsPlain (f : Segment → List Char) : Prop :=
  ∀ c, f (.plain c) = [c]

section Pass

variable {f : Segment → List Char} (hf : KeepsPlain f) (label? : List Char → Option Nat)

include hf

theorem flatMap_map_plain (cs : List Char) : (cs.map .plain).flatMap f = cs := by
  rw [List.flatMap_map]
  simp only [hf _]
  exact List.flatMap_singleton' cs

theorem flatMap_segmentsFrom_of_inert {w : List Char} {before : Option Char}
    (h : inert before w = true) (rest : List Char) :
    (segmentsFrom label? 0 before (w ++ rest)).flatMap f
      = w ++ (segmentsFrom label? 0 (lastChar before w) rest).flatMap f := by
  rw [segmentsFrom_append_of_inert h, List.flatMap_append, flatMap_map_plain hf]

theorem flatMap_segmentsFrom_cons {c : Char} (hc : c ≠ '_') (rest : List Char)
    (before : Option Char) :
    (segmentsFrom label? 0 before (c :: rest)).flatMap f
      = c :: (segmentsFrom label? 0 (some c) rest).flatMap f := by
  have hinert : inert before [c] = true := inert_of_notMem (by simpa using hc.symm) before
  exact flatMap_segmentsFrom_of_inert hf label? hinert rest

/-- A name goes through a pass as it is, unless it is a reference that becomes something else. -/
theorem flatMap_segmentsFrom_of_isIdentifier {x rest : List Char} (hx : isIdentifier x = true)
    (hlabel : ∀ w, x = '_' :: w → label? (w ++ rest) = none ∨
      label? (w ++ rest) = some w.length ∧ f (.reference w) = '_' :: w) (before : Option Char) :
    ∃ b, (segmentsFrom label? 0 before (x ++ rest)).flatMap f
      = x ++ (segmentsFrom label? 0 b rest).flatMap f := by
  obtain ⟨c, w, rfl, hc, hw⟩ := exists_of_isIdentifier hx
  have hword : inert (some c) w = true := inert_of_all_isWordChar hw (isWordChar_of_startsName hc)
  have hplain : (Segment.plain c :: segmentsFrom label? 0 (some c) (w ++ rest)).flatMap f
      = c :: w ++ (segmentsFrom label? 0 (lastChar (some c) w) rest).flatMap f := by
    rw [List.flatMap_cons, hf, flatMap_segmentsFrom_of_inert hf label? hword]
    rfl
  rw [List.cons_append, segmentsFrom]
  split
  · next hstart =>
    rw [Bool.and_eq_true, decide_eq_true_eq] at hstart
    obtain ⟨rfl, -⟩ := hstart
    rcases hlabel w rfl with hl | ⟨hl, href⟩
    · rw [hl]
      exact ⟨_, hplain⟩
    · obtain ⟨b, hb⟩ := segmentsFrom_append label? w rest (some '_')
      refine ⟨b, ?_⟩
      rw [hl]
      simp only [hb, List.take_left, List.flatMap_cons, href]
  · exact ⟨_, hplain⟩

theorem flatMap_segmentsFrom_of_spelled {cs : List Char} {ls : List Lexeme} (h : Spelled cs ls)
    (hname : ∀ x w rest, .name x ∈ ls → x.toList = '_' :: w → endsName rest = true →
      label? (w ++ rest) = none ∨ label? (w ++ rest) = some w.length ∧ f (.reference w) = '_' :: w)
    (before : Option Char) : (segmentsFrom label? 0 before cs).flatMap f = cs := by
  induction h generalizing before with
  | nil => rfl
  | blank c hc _ ih =>
      rw [flatMap_segmentsFrom_cons hf label? (ne_underscore_of_isBlank hc), ih hname]
  | sign c l hl _ ih =>
      rw [flatMap_segmentsFrom_cons hf label? (ne_underscore_of_signOf? hl),
        ih fun x w rest hx => hname x w rest (List.mem_cons_of_mem l hx)]
  | @name cs ls x hx hcs _ ih =>
      have hlabel : ∀ w, x.toList = '_' :: w → label? (w ++ cs) = none ∨
          label? (w ++ cs) = some w.length ∧ f (.reference w) = '_' :: w :=
        fun w hw => hname x w cs List.mem_cons_self hw hcs
      obtain ⟨b, hb⟩ := flatMap_segmentsFrom_of_isIdentifier hf label? hx hlabel before
      rw [hb, ih fun y w rest hy => hname y w rest (List.mem_cons_of_mem _ hy)]

end Pass

/-! ### Labels -/

theorem numeralLabel?_eq_none {w rest : List Char} (hw : w.all isWordChar = true)
    (hdigits : w = [] ∨ ∃ c ∈ w, Text.isDecimalDigit c = false) (hrest : endsName rest = true) :
    numeralLabel? (w ++ rest) = none := by
  induction w with
  | nil =>
      cases rest with
      | nil => rfl
      | cons d rest =>
          simp only [endsName, Bool.and_eq_true, Bool.not_eq_true'] at hrest
          simp [numeralLabel?, hrest.2]
  | cons c w ih =>
      rw [List.all_cons, Bool.and_eq_true] at hw
      rw [List.cons_append, numeralLabel?]
      by_cases hc : Text.isDecimalDigit c = true
      · have hex : ∃ d ∈ w, Text.isDecimalDigit d = false := by
          rcases hdigits with h | ⟨d, hd, hnot⟩
          · cases h
          · rcases List.mem_cons.mp hd with rfl | hd
            · rw [hc] at hnot
              cases hnot
            · exact ⟨d, hd, hnot⟩
        have hcontinues : continuesWord (w ++ rest) = true := by
          obtain ⟨d, hd, -⟩ := hex
          cases w with
          | nil => cases hd
          | cons e w =>
              rw [List.all_cons, Bool.and_eq_true] at hw
              exact hw.2.1
        simp only [hc, if_true, ih hw.2 (.inr hex), hcontinues]
      · rw [if_neg hc]

theorem nameLabel?_eq {w rest : List Char} (hw : w.all isWordChar = true)
    (hrest : endsName rest = true) :
    nameLabel? (w ++ rest) = none ∨ nameLabel? (w ++ rest) = some w.length := by
  cases w with
  | nil =>
      left
      cases rest with
      | nil => rfl
      | cons d rest =>
          simp only [endsName, Bool.and_eq_true, Bool.not_eq_true'] at hrest
          have hd : isLetter d = false := by
            have h := hrest.1
            unfold isWordChar at h
            rw [Bool.or_eq_false_iff, Bool.or_eq_false_iff, Bool.or_eq_false_iff] at h
            exact h.1.1.1
          simp [nameLabel?, hd]
  | cons c w =>
      rw [List.all_cons, Bool.and_eq_true] at hw
      rw [List.cons_append, nameLabel?, takeWhile_isWordChar hw.2 hrest]
      split
      · exact .inr rfl
      · exact .inl rfl

end Syntax

namespace Registry

open Syntax

namespace Writable

variable {r : Registry} {x : String} {w : List Char}

theorem all_isWordChar (h : r.Writable x) (hx : x.toList = '_' :: w) :
    w.all isWordChar = true := by
  have hid := h.identifier
  rw [hx, isIdentifier, Bool.and_eq_true] at hid
  exact hid.2

theorem digits (h : r.Writable x) (hx : x.toList = '_' :: w) :
    w = [] ∨ ∃ c ∈ w, Text.isDecimalDigit c = false := by
  have hnum := h.no_numeral
  rw [hx] at hnum
  cases w with
  | nil => exact .inl rfl
  | cons c w =>
      right
      by_contra hno
      have hall : ∀ d ∈ c :: w, Text.isDecimalDigit d = true := by
        intro d hd
        by_contra hd'
        exact hno ⟨d, hd, Bool.eq_false_iff.mpr hd'⟩
      have hdrop : w.dropWhile Text.isDecimalDigit = [] := by
        rw [List.dropWhile_eq_nil_iff]
        exact fun d hd => hall d (List.mem_cons_of_mem c hd)
      simp [Numeral.isNumeralName, hall c List.mem_cons_self, hdrop, Numeral.atEnd] at hnum

theorem lookup_eq_none (h : r.Writable x) (hx : x.toList = '_' :: w) :
    r.lookup (String.ofList w) = none := by
  have hnot : String.ofList w ∉ r.names := by
    intro hmem
    apply h.no_entry _ hmem
    rw [← String.toList_inj, hx]
    simp [String.toList_append]
  rw [← contains_iff] at hnot
  unfold contains at hnot
  rwa [Bool.not_eq_true, Option.isSome_eq_false_iff, Option.isNone_iff_eq_none] at hnot

end Writable

theorem keepsPlain_expandNumeral (marked : Bool) : KeepsPlain (expandNumeral marked) :=
  fun _ => rfl

theorem keepsPlain_expandName (r : Registry) (marked : Bool) : KeepsPlain (r.expandName marked) :=
  fun _ => rfl

theorem expandOnce_of_spelled (r : Registry) (marked : Bool) {cs : List Char} {ls : List Lexeme}
    (h : Spelled cs ls) (hw : ∀ x, .name x ∈ ls → r.Writable x) : r.expandOnce marked cs = cs := by
  have hnumerals : (segments numeralLabel? cs).flatMap (expandNumeral marked) = cs := by
    refine flatMap_segmentsFrom_of_spelled (keepsPlain_expandNumeral marked) numeralLabel? h ?_ none
    intro x w rest hx hxs hrest
    exact .inl (numeralLabel?_eq_none ((hw x hx).all_isWordChar hxs) ((hw x hx).digits hxs) hrest)
  have hnames : (segments nameLabel? cs).flatMap (r.expandName marked) = cs := by
    refine flatMap_segmentsFrom_of_spelled (r.keepsPlain_expandName marked) nameLabel? h ?_ none
    intro x w rest hx hxs hrest
    refine (nameLabel?_eq ((hw x hx).all_isWordChar hxs) hrest).imp_right fun hl => ⟨hl, ?_⟩
    simp only [expandName, (hw x hx).lookup_eq_none hxs]
  unfold expandOnce
  rw [hnumerals, hnames]

/-- A text without references is its own expansion. -/
theorem expandWithin_of_spelled (r : Registry) (marked : Bool) {cs : List Char} {ls : List Lexeme}
    (h : Spelled cs ls) (hw : ∀ x, .name x ∈ ls → r.Writable x) :
    r.expandWithin .unlimited marked cs = .ok cs := by
  rw [expandWithin_unlimited, expand, maxPasses, expandPasses, expandOnce_of_spelled r marked h hw,
    if_pos rfl]

end Registry
end LambdaStepper
