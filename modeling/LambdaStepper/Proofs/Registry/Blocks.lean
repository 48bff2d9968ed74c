import LambdaStepper.Proofs.Registry.Composition

/-! # Blocks in expansions

In an expansion stands, for every reference that was expanded, a text in parentheses with an origin mark.  Such
a block may hold others, so an expansion is a tree of `Blocks`.  Every block was made by some pass, and by each
pass from then on its content was expanded as if it stood alone, so the content is that of the reference after
the passes that were left (`blocks_expandPasses`).

Where a text settles, nothing is left to expand in any block, and so a block is the same as if the reference had
been expanded from the beginning (`blocks_of_settles`). -/

namespace LambdaStepper

open Syntax

namespace Registry

/-- A text of characters outside of origin marks, and of texts in parentheses that are marked with a reference.
`P` holds of every reference and what is in its parentheses. -/
inductive Blocks (r : Registry) (P : List Char → List Char → Prop) : List Char → Prop where
  | nil : Blocks r P []
  | plain {cs : List Char} (c : Char) (hc : IsPublic c) (h : Blocks r P cs) : Blocks r P (c :: cs)
  | block {cs : List Char} (label content : List Char) (hlabel : r.IsLabel label) (hP : P label content)
      (hcontent : Blocks r P content) (h : Blocks r P cs) :
      Blocks r P (wrap true ('_' :: label) content ++ cs)

variable {r : Registry} {P Q : List Char → List Char → Prop} {cs label content : List Char}

theorem blocks_of_isPublic (h : ∀ c ∈ cs, IsPublic c) : Blocks r P cs := by
  induction cs with
  | nil => exact .nil
  | cons c cs ih =>
      obtain ⟨hc, hcs⟩ := List.forall_mem_cons.mp h
      exact .plain c hc (ih hcs)

/-! ### Passes -/

/-- A pass over a text is one over what is in its blocks, and makes blocks of the references outside of them. -/
theorem Blocks.expandOnce (h : Blocks r P cs) (hr : r.MarkFree)
    (hold : ∀ {label content}, P label content → Q label (r.expandOnce true content))
    (hnew : ∀ {label}, r.IsLabel label → Q label (r.content label)) :
    Blocks r Q (r.expandOnce true cs) := by
  have hfinds := findsLabels_referenceLabel? r.names
  have hnothing (ds : List Char) : '(' ∉ ds.take 0 := List.not_mem_nil
  have hscan : ∀ {owed : Nat} (before : Option Char), '(' ∉ cs.take owed →
      Blocks r Q ((segmentsFrom (referenceLabel? r.names) owed before cs).flatMap (fill r.content)) := by
    induction h with
    | nil => exact fun _ _ => .nil
    | @plain cs c hc _ ih =>
        intro owed before howed
        cases owed with
        | succ owed =>
            rw [List.take_succ_cons, List.mem_cons, not_or] at howed
            exact ih (some c) howed.2
        | zero =>
            rw [segmentsFrom]
            split
            · split
              · next n hn =>
                have hlabel := isLabel_of_referenceLabel? hn
                have hbehind : '(' ∉ cs.take n := fun hmem =>
                  hlabel.tag _ (List.mem_cons_of_mem _ hmem) (by decide)
                exact .block _ _ hlabel (hnew hlabel) (blocks_of_isPublic (hlabel.isPublic_content hr))
                  (ih (some c) hbehind)
              · exact .plain c hc (ih (some c) List.not_mem_nil)
            · exact .plain c hc (ih (some c) List.not_mem_nil)
    | @block cs label content hlabel hP _ _ ihcontent ih =>
        intro owed before howed
        cases owed with
        | succ owed => exact absurd List.mem_cons_self howed
        | zero =>
            have hcontent := ihcontent none (hnothing content)
            have hcs := ih (some ')') (hnothing cs)
            rw [flatMap_segmentsFrom_wrap hfinds (by decide) (keepsPlain_fill r.content) hlabel.inert]
            rw [← segments, ← expandOnce_eq] at hcontent
            rw [← expandOnce_eq]
            exact .block label _ hlabel (hold hP) hcontent hcs
  rw [expandOnce_eq]
  exact hscan none (hnothing cs)

/-- Every block of an expansion was made by some pass, and was expanded by the others after it. -/
theorem blocks_expandPasses (hr : r.MarkFree) (hpublic : ∀ c ∈ cs, IsPublic c) (passes : Nat) :
    Blocks r (fun label content => ∃ left < passes, content = r.expandPasses true left (r.content label))
      (r.expandPasses true passes cs) := by
  induction passes with
  | zero => exact blocks_of_isPublic hpublic
  | succ passes ih =>
      rw [expandPasses_eq_iterate] at ih ⊢
      rw [Function.iterate_succ_apply']
      refine ih.expandOnce hr ?_ fun _ => ⟨0, Nat.zero_lt_succ _, rfl⟩
      rintro label content ⟨left, hleft, rfl⟩
      refine ⟨left + 1, Nat.succ_lt_succ hleft, ?_⟩
      rw [expandPasses_eq_iterate, expandPasses_eq_iterate, Function.iterate_succ_apply']

/-! ### Where nothing is left to expand -/

theorem length_text_lt_fill (f : List Char → List Char) (label : List Char) :
    (Segment.text (.reference label)).length < (fill f (.reference label)).length := by
  simp only [Segment.text, fill, wrap, writeMark, if_true, List.length_cons, List.length_append]
  omega

theorem labels_eq_nil_of_expandOnce (h : r.expandOnce true cs = cs) : r.labels cs = [] := by
  rw [List.eq_nil_iff_forall_not_mem]
  intro label hmem
  have hle : ∀ s ∈ r.scan cs, s.text.length ≤ (fill r.content s).length := by
    intro s _
    cases s with
    | plain c => rfl
    | reference label => exact (length_text_lt_fill r.content label).le
  have hlt : ((r.scan cs).map fun s => s.text.length).sum
      < ((r.scan cs).map fun s => (fill r.content s).length).sum :=
    List.sum_lt_sum _ _ hle ⟨_, mem_labels_iff.mp hmem, length_text_lt_fill r.content label⟩
  rw [← List.length_flatMap, ← List.length_flatMap, scan, ← expandOnce_eq, h, text_segments] at hlt
  exact lt_irrefl _ hlt

theorem Blocks.of_labels_eq_nil (h : Blocks r P cs) (hnone : r.labels cs = [])
    (hPQ : ∀ {label content}, P label content → r.labels content = [] → Q label content) : Blocks r Q cs := by
  have hfinds := findsLabels_referenceLabel? r.names
  have hscan : ∀ before : Option Char,
      (∀ label, .reference label ∉ segmentsFrom (referenceLabel? r.names) 0 before cs) → Blocks r Q cs := by
    clear hnone
    induction h with
    | nil => exact fun _ _ => .nil
    | @plain cs c hc _ ih =>
        intro before hnone
        have hrest : ∀ label, .reference label ∉ segmentsFrom (referenceLabel? r.names) 0 (some c) cs := by
          rw [segmentsFrom] at hnone
          split at hnone
          · split at hnone
            · exact absurd List.mem_cons_self (hnone _)
            · exact fun label hmem => hnone label (List.mem_cons_of_mem _ hmem)
          · exact fun label hmem => hnone label (List.mem_cons_of_mem _ hmem)
        exact .plain c hc (ih (some c) hrest)
    | @block cs label content hlabel hP _ _ ihcontent ih =>
        intro before hnone
        rw [segmentsFrom_wrap hfinds (by decide) hlabel.inert] at hnone
        have hinside : ∀ label, .reference label ∉ r.scan content := fun label hmem =>
          hnone label (List.mem_append_right _ (List.mem_append_left _ hmem))
        have hbehind : ∀ label, .reference label ∉ segmentsFrom (referenceLabel? r.names) 0 (some ')') cs :=
          fun label hmem =>
            hnone label (List.mem_append_right _ (List.mem_append_right _ (List.mem_cons_of_mem _ hmem)))
        have hlabels : r.labels content = [] := by
          rw [List.eq_nil_iff_forall_not_mem]
          exact fun label hmem => hinside label (mem_labels_iff.mp hmem)
        exact .block label content hlabel (hPQ hP hlabels) (ihcontent none hinside) (ih _ hbehind)
  refine hscan none fun label hmem => ?_
  rw [← segments, ← scan, ← mem_labels_iff, hnone] at hmem
  cases hmem

/-- Where a text settles, every block of its expansion is as if all passes but the first one had expanded it. -/
theorem blocks_of_settles (hr : r.MarkFree) (hpublic : ∀ c ∈ cs, IsPublic c) {passes : Nat}
    (hsettles : r.Settles (passes + 1) cs) :
    Blocks r (fun label content => content = r.expandPasses true passes (r.content label))
      (r.expandPasses true (passes + 1) cs) := by
  refine (blocks_expandPasses hr hpublic (passes + 1)).of_labels_eq_nil
    (labels_eq_nil_of_expandOnce hsettles) ?_
  rintro label content ⟨left, hleft, rfl⟩ hnone
  exact (expandPasses_eq_of_labels_eq_nil (Nat.le_of_lt_succ hleft) hnone).symm

end Registry
end LambdaStepper
