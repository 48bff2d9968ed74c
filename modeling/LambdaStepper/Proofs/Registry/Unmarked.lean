import LambdaStepper.Proofs.Registry.Scan

/-! # Expansion without marks

An expansion without origin marks is one with marks, from which the marks are taken away
(`stripMarks_expandPassesWithin`).

A scan for references goes through a text and through the same text without its marks side by side
(`unmarks_segmentsFrom`): it finds nothing in a mark, no label reaches over the parenthesis in front of one,
and behind a mark a reference may begin as behind that parenthesis. -/

namespace LambdaStepper

open Syntax

namespace Syntax

/-! ### Texts with marks -/

/-- A text of characters outside of origin marks, and of marks of references behind opening parentheses. -/
inductive Sealed : List Char → Prop where
  | nil : Sealed []
  | plain {cs : List Char} (c : Char) (hc : IsPublic c) (h : Sealed cs) : Sealed (c :: cs)
  | opening {cs : List Char} (label : List Char) (hclose : markClose ∉ '_' :: label)
      (hinert : inert (some '_') label = true) (h : Sealed cs) :
      Sealed ('(' :: writeMark ('_' :: label) ++ cs)

theorem sealed_append {w cs : List Char} (hw : ∀ c ∈ w, IsPublic c) (h : Sealed cs) : Sealed (w ++ cs) := by
  induction w with
  | nil => exact h
  | cons c w ih =>
      obtain ⟨hc, hw⟩ := List.forall_mem_cons.mp hw
      exact .plain c hc (ih hw)

theorem sealed_of_expanded {cs : List Char} (h : Registry.Expanded IsPublic cs) : Sealed cs := by
  induction h with
  | nil => exact .nil
  | plain c hc _ ih => exact .plain c hc ih
  | origin label hlabel _ ih => exact .opening label hlabel.markClose_notMem hlabel.inert ih
  | @numeral cs label hlabel _ ih =>
      rw [Numeral.block_append]
      refine .opening label hlabel.markClose_notMem hlabel.inert (sealed_append ?_ (.plain ')' (by decide) ih))
      exact fun _ => isPublic_of_mem_syntaxText

theorem stripMarks_cons {c : Char} (hc : c ≠ markOpen) (cs : List Char) :
    stripMarks (c :: cs) = c :: stripMarks cs :=
  if_neg hc

theorem stripMarks_append {w : List Char} (hw : ∀ c ∈ w, IsPublic c) (cs : List Char) :
    stripMarks (w ++ cs) = w ++ stripMarks cs := by
  induction w with
  | nil => rfl
  | cons c w ih =>
      obtain ⟨hc, hw⟩ := List.forall_mem_cons.mp hw
      rw [List.cons_append, stripMarks_cons hc.1, ih hw, List.cons_append]

theorem stripFrom_length_append (w rest : List Char) : stripFrom w.length (w ++ rest) = stripFrom 0 rest := by
  induction w with
  | nil => rfl
  | cons c w ih => exact ih

theorem stripMarks_opening {tag : List Char} (h : markClose ∉ tag) (rest : List Char) :
    stripMarks ('(' :: writeMark tag ++ rest) = '(' :: stripMarks rest := by
  have hclose : closeMark? (tag ++ markClose :: rest) = some (tag, rest) := closeMark?_append tag rest h
  have hmark := stripFrom_length_append (tag ++ [markClose]) rest
  simp only [List.length_append, List.length_singleton, List.append_assoc, List.singleton_append] at hmark
  simp [stripMarks, writeMark, stripFrom, hclose, hmark, show '(' ≠ markOpen by decide]

/-- A text differs from the one without its marks behind an opening parenthesis only. -/
theorem Sealed.exists_opening {cs : List Char} (h : Sealed cs) :
    stripMarks cs = cs ∨ ∃ u v v', cs = u ++ '(' :: v ∧ stripMarks cs = u ++ '(' :: v' := by
  induction h with
  | nil => exact .inl rfl
  | plain c hc _ ih =>
      rw [stripMarks_cons hc.1]
      obtain heq | ⟨u, v, v', rfl, heq⟩ := ih
      · exact .inl (by rw [heq])
      · exact .inr ⟨c :: u, v, v', rfl, by rw [heq, List.cons_append]⟩
  | opening label hclose _ _ _ => exact .inr ⟨[], _, _, rfl, stripMarks_opening hclose _⟩

variable {boundary : Char → Bool} {label? : List Char → Option Nat}

theorem Sealed.label?_stripMarks {cs : List Char} (h : Sealed cs) (hlabel : FindsLabels boundary label?)
    (hopening : boundary '(' = true) :
    label? (stripMarks cs) = label? cs ∧
      ∀ {n}, label? cs = some n → (stripMarks cs).take n = cs.take n := by
  obtain heq | ⟨u, v, v', rfl, heq⟩ := h.exists_opening
  · rw [heq]
    exact ⟨rfl, fun _ => rfl⟩
  · rw [heq, hlabel.append hopening, hlabel.append hopening]
    refine ⟨rfl, fun hn => ?_⟩
    have hle := hlabel.le_length hn
    rw [List.take_append_of_le_length hle, List.take_append_of_le_length hle]

/-! ### Scans side by side -/

/-- The segments of a text, and those of the text without its marks. -/
inductive Unmarks : List Segment → List Segment → Prop where
  | nil : Unmarks [] []
  | plain {ss ts : List Segment} (c : Char) (hc : IsPublic c) (h : Unmarks ss ts) :
      Unmarks (.plain c :: ss) (.plain c :: ts)
  | reference {ss ts : List Segment} (label : List Char) (hlabel : ∀ c ∈ label, IsPublic c)
      (h : Unmarks ss ts) : Unmarks (.reference label :: ss) (.reference label :: ts)
  | opening {ss ts : List Segment} (tag : List Char) (hclose : markClose ∉ tag) (h : Unmarks ss ts) :
      Unmarks (('(' :: writeMark tag).map .plain ++ ss) (.plain '(' :: ts)

/-- Whether labels hold neither private characters nor opening parentheses. -/
def PublicLabels (label? : List Char → Option Nat) : Prop :=
  ∀ {cs n}, label? cs = some n → ∀ c ∈ cs.take n, c ∉ ['(', markOpen, markClose]

theorem unmarks_segmentsFrom (hlabel : FindsLabels boundary label?) (hopening : boundary '(' = true)
    (hpublic : PublicLabels label?) {cs : List Char} (h : Sealed cs) {owed : Nat}
    (howed : '(' ∉ cs.take owed) {before before' : Option Char} (hmay : mayFollow before = mayFollow before') :
    Unmarks (segmentsFrom label? owed before cs) (segmentsFrom label? owed before' (stripMarks cs)) := by
  induction h generalizing owed before before' with
  | nil => exact .nil
  | @plain cs c hc hcs ih =>
      rw [stripMarks_cons hc.1]
      cases owed with
      | succ owed =>
          rw [List.take_succ_cons, List.mem_cons, not_or] at howed
          exact ih howed.2 rfl
      | zero =>
          have hnothing : '(' ∉ cs.take 0 := List.not_mem_nil
          have hplain := Unmarks.plain c hc (ih hnothing (rfl : mayFollow (some c) = _))
          obtain ⟨hsame, htake⟩ := hcs.label?_stripMarks hlabel hopening
          rw [segmentsFrom, segmentsFrom, ← hmay, hsame]
          split
          · cases hn : label? cs with
            | none => exact hplain
            | some n =>
                simp only [htake hn]
                refine .reference _ (fun c hc => ?_) (ih (fun hmem => hpublic hn _ hmem List.mem_cons_self) rfl)
                have hprivate := hpublic hn c hc
                simp only [List.mem_cons, not_or] at hprivate
                exact ⟨hprivate.2.1, hprivate.2.2.1⟩
          · exact hplain
  | opening label hclose hinert _ ih =>
      cases owed with
      | succ owed => exact absurd List.mem_cons_self howed
      | zero =>
          have hbehind : mayFollow (some markClose) = mayFollow (some '(') := by decide
          rw [segmentsFrom_append_of_inert (inert_opening hinert before), lastChar_writeMark,
            stripMarks_opening hclose, segmentsFrom_plain fun h => absurd h (by decide)]
          exact .opening _ hclose (ih List.not_mem_nil hbehind)

theorem unmarks_segments (hlabel : FindsLabels boundary label?) (hopening : boundary '(' = true)
    (hpublic : PublicLabels label?) {cs : List Char} (h : Sealed cs) :
    Unmarks (segments label? cs) (segments label? (stripMarks cs)) :=
  have hnothing : '(' ∉ cs.take 0 := List.not_mem_nil
  unmarks_segmentsFrom hlabel hopening hpublic h hnothing rfl

theorem Unmarks.reference_mem_iff {ss ts : List Segment} (h : Unmarks ss ts) {label : List Char} :
    .reference label ∈ ss ↔ .reference label ∈ ts := by
  induction h with
  | nil => rfl
  | plain c _ _ ih => simpa using ih
  | reference l _ _ ih => simp [ih]
  | opening tag _ _ ih => simpa using ih

theorem Unmarks.findSome?_eq {ss ts : List Segment} (h : Unmarks ss ts) {α : Type} {f : Segment → Option α}
    (hf : ∀ c, f (.plain c) = none) : ts.findSome? f = ss.findSome? f := by
  induction h with
  | nil => rfl
  | plain c _ _ ih => rw [List.findSome?_cons, List.findSome?_cons, ih]
  | reference label _ _ ih => rw [List.findSome?_cons, List.findSome?_cons, ih]
  | opening tag _ _ ih =>
      have hmark : (('(' :: writeMark tag).map Segment.plain).findSome? f = none := by
        rw [List.findSome?_eq_none_iff, List.forall_mem_map]
        exact fun c _ => hf c
      rw [List.findSome?_append, hmark, Option.none_or, List.findSome?_cons, hf, ih]

/-- A pass over a text, with and without marks. -/
structure StripsTo (f g : Segment → List Char) : Prop where
  plain : KeepsPlain f
  plain' : KeepsPlain g
  reference : ∀ {label}, (∀ c ∈ label, IsPublic c) → ∀ cs,
    stripMarks (f (.reference label) ++ cs) = g (.reference label) ++ stripMarks cs

theorem Unmarks.stripMarks_flatMap {ss ts : List Segment} (h : Unmarks ss ts) {f g : Segment → List Char}
    (hfg : StripsTo f g) : stripMarks (ss.flatMap f) = ts.flatMap g := by
  induction h with
  | nil => rfl
  | plain c hc _ ih =>
      rw [List.flatMap_cons, List.flatMap_cons, hfg.plain, hfg.plain', List.singleton_append,
        stripMarks_cons hc.1, ih, List.singleton_append]
  | reference label hlabel _ ih => rw [List.flatMap_cons, hfg.reference hlabel, ih, List.flatMap_cons]
  | opening tag hclose _ ih =>
      rw [List.flatMap_append, flatMap_map_plain hfg.plain, stripMarks_opening hclose, ih, List.flatMap_cons,
        hfg.plain', List.singleton_append]

end Syntax

/-! ### Passes -/

namespace Registry

theorem publicLabels_numeralLabel? : PublicLabels numeralLabel? := by
  intro cs n h c hc hmem
  have hdigit : ∀ d ∈ ['(', markOpen, markClose], Text.isDecimalDigit d = false := by decide
  exact (isLabel_take h).ne_of_mem hc (hdigit c hmem) rfl

theorem publicLabels_nameLabel? : PublicLabels nameLabel? := by
  intro cs n h c hc hmem
  have hword : ∀ d ∈ ['(', markOpen, markClose], isWordChar d = false := by decide
  exact (isNameLabel_take h).ne_of_mem hc (hword c hmem) rfl

theorem stripMarks_wrap {label definition : List Char} (hclose : markClose ∉ label)
    (hdefinition : ∀ c ∈ definition, IsPublic c) (cs : List Char) :
    stripMarks (wrap true label definition ++ cs) = wrap false label definition ++ stripMarks cs := by
  have hshape : wrap true label definition ++ cs = '(' :: writeMark label ++ (definition ++ ')' :: cs) := by
    simp [wrap]
  have hclosing : ')' ≠ markOpen := by decide
  rw [hshape, stripMarks_opening hclose, stripMarks_append hdefinition, stripMarks_cons hclosing]
  simp [wrap]

theorem markClose_notMem_of_isPublic {label : List Char} (h : ∀ c ∈ label, IsPublic c) :
    markClose ∉ '_' :: label := by
  rw [List.mem_cons, not_or]
  exact ⟨by decide, fun hmem => (h _ hmem).2 rfl⟩

theorem stripsTo_expandNumeral : StripsTo (expandNumeral true) (expandNumeral false) where
  plain := keepsPlain_expandNumeral true
  plain' := keepsPlain_expandNumeral false
  reference h := stripMarks_wrap (markClose_notMem_of_isPublic h) fun _ => isPublic_of_mem_syntaxText

theorem stripsTo_expandName {r : Registry} (hr : r.MarkFree) :
    StripsTo (r.expandName true) (r.expandName false) where
  plain := r.keepsPlain_expandName true
  plain' := r.keepsPlain_expandName false
  reference := by
    intro label hlabel cs
    rw [expandName, expandName]
    split
    · next entry hentry =>
      obtain ⟨hmem, hname⟩ := eq_of_lookup hentry
      have htag : entry.tag.toList = '_' :: label := by
        simp [NamedTerm.tag, hname, String.toList_append]
      rw [htag]
      exact stripMarks_wrap (markClose_notMem_of_isPublic hlabel) (hr entry hmem) cs
    · exact stripMarks_append (List.forall_mem_cons.mpr ⟨by decide, hlabel⟩) cs

section Passes

variable {r : Registry} (hr : r.MarkFree) {cs : List Char} (h : Expanded IsPublic cs)

include h

theorem unmarks_numerals : Unmarks (segments numeralLabel? cs) (segments numeralLabel? (stripMarks cs)) :=
  unmarks_segments findsLabels_numeralLabel? (by decide) publicLabels_numeralLabel? (sealed_of_expanded h)

theorem unmarks_names : Unmarks (segments nameLabel? cs) (segments nameLabel? (stripMarks cs)) :=
  unmarks_segments findsLabels_nameLabel? (by decide) publicLabels_nameLabel? (sealed_of_expanded h)

theorem overlongNumeral?_stripMarks (limits : Limits) :
    overlongNumeral? limits (stripMarks cs) = overlongNumeral? limits cs :=
  (unmarks_numerals h).findSome?_eq fun _ => rfl

include hr

theorem stripMarks_expandOnce : stripMarks (r.expandOnce true cs) = r.expandOnce false (stripMarks cs) := by
  have hnumerals := (unmarks_numerals h).stripMarks_flatMap stripsTo_expandNumeral
  have hnames := unmarks_names (expanded_flatMap_segments keepsForm_expandNumeral h)
  rw [hnumerals] at hnames
  exact hnames.stripMarks_flatMap (stripsTo_expandName hr)

end Passes

theorem expandPassesWithin_succ (limits : Limits) (r : Registry) (marked : Bool) (passes : Nat)
    (cs : List Char) :
    r.expandPassesWithin limits marked (passes + 1) cs
      = match overlongNumeral? limits cs with
        | some fault => .error fault
        | none => r.expandPassesWithin limits marked passes (r.expandOnce marked cs) := by
  have hfixed : ∀ passes cs, overlongNumeral? limits cs = none → r.expandOnce marked cs = cs →
      r.expandPassesWithin limits marked passes cs = .ok cs := by
    intro passes cs hnone heq
    cases passes with
    | zero => rfl
    | succ passes => simp only [expandPassesWithin, hnone, heq, if_true]
  rw [expandPassesWithin]
  cases hoverlong : overlongNumeral? limits cs with
  | some fault => rfl
  | none =>
      dsimp only
      split
      · next heq => rw [heq, hfixed passes cs hoverlong heq]
      · rfl

/-- **Passes without marks are passes with marks, with the marks taken away.** -/
theorem stripMarks_expandPassesWithin (limits : Limits) {r : Registry} (hr : r.MarkFree) {cs : List Char}
    (h : Expanded IsPublic cs) (passes : Nat) :
    (r.expandPassesWithin limits true passes cs).map stripMarks
      = r.expandPassesWithin limits false passes (stripMarks cs) := by
  induction passes generalizing cs with
  | zero => rfl
  | succ passes ih =>
      rw [expandPassesWithin_succ, expandPassesWithin_succ, overlongNumeral?_stripMarks h]
      cases overlongNumeral? limits cs with
      | some fault => rfl
      | none =>
          dsimp only
          rw [ih (expanded_expandOnce hr h), stripMarks_expandOnce hr h]

end Registry
end LambdaStepper
