import LambdaStepper.Proofs.Registry.Lasting

/-! # Accepted definitions are nested

A definition is parsed when it is accepted, so its expansion closes the parentheses that it opens, and so does
the definition (`Reached.nested`).  That it is `balance`d is known, also of all others that stand in its
expansion, and a text in which balanced texts took the place of references opens and closes parentheses as
before (`depthAfter_of_fill`).  The definition stays nested whatever is defined later, and so do its expansions
(`nested_expandPasses`). -/

namespace LambdaStepper

open Syntax

namespace Syntax

variable {ss : List Segment} {content : List Char → List Char} {depth depth' : Nat}

/-- A text in which balanced texts took the place of references leaves as many parentheses open as before. -/
theorem depthAfter_of_fill
    (hss : ∀ label, .reference label ∈ ss →
      (∀ c ∈ '_' :: label, c ∉ [markClose, '(', ')']) ∧ balance (content label) = 0)
    (h : depthAfter depth (ss.flatMap (fill content)) = some depth') :
    depthAfter depth (ss.flatMap Segment.text) = some depth' := by
  induction ss generalizing depth with
  | nil => exact h
  | cons s ss ih =>
      rw [List.flatMap_cons, depthAfter_append] at h ⊢
      obtain ⟨behind, hbehind, hafter⟩ := Option.bind_eq_some_iff.mp h
      have hrest := ih (fun label hmem => hss label (List.mem_cons_of_mem _ hmem)) hafter
      cases s with
      | plain c =>
          rw [fill] at hbehind
          rw [Segment.text, hbehind, Option.bind_some, hrest]
      | reference label =>
          obtain ⟨htag, hzero⟩ := hss label List.mem_cons_self
          have hbalance := balance_of_depthAfter hbehind
          rw [fill, balance_wrap htag, hzero, Int.add_zero, Nat.cast_inj] at hbalance
          have hlabel : ∀ c ∈ '_' :: label, c ∉ ['(', ')'] := fun c hc hmem =>
            htag c hc (List.mem_cons_of_mem _ hmem)
          rw [Segment.text, depthAfter_of_notMem hlabel, Option.bind_some, ← hbalance, hrest]

theorem depthAfter_fill
    (hss : ∀ label, .reference label ∈ ss →
      (∀ c ∈ '_' :: label, c ∉ [markClose, '(', ')']) ∧ Nested (content label)) :
    depthAfter depth (ss.flatMap (fill content)) = depthAfter depth (ss.flatMap Segment.text) := by
  induction ss generalizing depth with
  | nil => rfl
  | cons s ss ih =>
      have hrest := fun depth => @ih depth fun label hmem => hss label (List.mem_cons_of_mem _ hmem)
      rw [List.flatMap_cons, List.flatMap_cons, depthAfter_append, depthAfter_append]
      cases s with
      | plain c =>
          rw [fill, Segment.text]
          exact Option.bind_congr fun behind _ => hrest behind
      | reference label =>
          obtain ⟨htag, hnested⟩ := hss label List.mem_cons_self
          have hlabel : ∀ c ∈ '_' :: label, c ∉ ['(', ')'] := fun c hc hmem =>
            htag c hc (List.mem_cons_of_mem _ hmem)
          rw [fill, Segment.text, (hnested.wrap htag).depthAfter, depthAfter_of_notMem hlabel]
          exact hrest depth

end Syntax

theorem Numeral.nested_syntaxText (n : Nat) : Nested (syntaxText n) :=
  (readable_syntaxText n).nested (marked_syntaxText n)

namespace Registry

variable {r : Registry}

/-! ### Passes -/

theorem depthAfter_of_expandPasses (hbalance : ∀ entry ∈ r.entries, balance entry.definition.toList = 0)
    {depth depth' passes : Nat} {cs : List Char}
    (h : depthAfter depth (r.expandPasses true passes cs) = some depth') : depthAfter depth cs = some depth' := by
  rw [expandPasses_eq_iterate] at h
  induction passes generalizing cs with
  | zero => exact h
  | succ passes ih =>
      have hpass := ih h
      rw [expandOnce_eq] at hpass
      have hfill := depthAfter_of_fill (fun label hmem =>
        ⟨(isLabel_of_mem_scan hmem).tag, (isLabel_of_mem_scan hmem).content_induction
          (P := fun cs => balance cs = 0) Numeral.balance_syntaxText hbalance⟩) hpass
      rwa [scan, text_segments] at hfill

section Nested

variable (hr : ∀ entry ∈ r.entries, Nested entry.definition.toList)

include hr

theorem nested_content {label : List Char} (h : r.IsLabel label) : Nested (r.content label) :=
  h.content_induction (P := Nested) Numeral.nested_syntaxText hr

theorem depthAfter_expandPasses (depth passes : Nat) (cs : List Char) :
    depthAfter depth (r.expandPasses true passes cs) = depthAfter depth cs := by
  rw [expandPasses_eq_iterate]
  induction passes generalizing cs with
  | zero => rfl
  | succ passes ih =>
      have hfill : depthAfter depth (r.expandOnce true cs) = depthAfter depth cs := by
        rw [expandOnce_eq, ← scan, depthAfter_fill fun label hmem =>
          ⟨(isLabel_of_mem_scan hmem).tag, nested_content hr (isLabel_of_mem_scan hmem)⟩,
          scan, text_segments]
      rw [Function.iterate_succ_apply, ih, hfill]

theorem nested_expandPasses {cs : List Char} (h : Nested cs) (passes : Nat) :
    Nested (r.expandPasses true passes cs) :=
  (depthAfter_expandPasses hr 0 passes cs).trans h

end Nested

/-! ### Histories of definitions -/

/-- Accepted definitions close the parentheses that they open. -/
theorem Reached.nested (h : r.Reached) (hr : r.MarkFree) :
    ∀ entry ∈ r.entries, Nested entry.definition.toList := by
  induction h with
  | initial => decide +kernel
  | @define r r' limits entry h hdefine ih =>
      obtain ⟨rfl, -, -, -, t, hparse⟩ := define_cases hdefine
      have hnested := ih fun e he => hr e (by simp [he])
      obtain ⟨hexpansion, hbalance⟩ := balance_eq_zero_of_parse hr
        (fun e he => (hnested e he).balance_eq_zero) hparse
      have hmarked := marked_of_expanded (expanded_of_public hr (hr entry (by simp)) maxPasses)
      rw [entries_append]
      refine List.forall_mem_append.mpr ⟨hnested, List.forall_mem_singleton.mpr ?_⟩
      exact depthAfter_of_expandPasses hbalance (hexpansion.nested hmarked)

end Registry
end LambdaStepper
