import LambdaStepper.Prettify

/-! # Named forms and their entries

Every form that is looked for is the canonical printing of the term of some entry (`exists_entry_of_ofRegistry`).
Entries whose text is no term are left out with a warning; nothing else goes wrong where there are no limits,
so that the forms of a registry can always be made (`exists_ofRegistry`), and every term has a readable form
(`Term.exists_prettify`).

Forms are sorted by length, which matters to the search in texts only: which form a subterm is shown by does not
depend on it (`Term.bySubterms_mergeSort`). -/

namespace LambdaStepper

open Syntax

namespace Registry

theorem exists_report_of_parse {r : Registry} {text : String} {fault : SyntaxFault}
    (h : r.parse .unlimited text = .error fault) : ∃ report, fault.failure = .report report := by
  unfold parse at h
  split at h
  · obtain rfl := Except.error.inj h
    exact ⟨_, rfl⟩
  · rw [expandWithin_unlimited] at h
    simp only [] at h
    split at h
    · next fault' htokens =>
      obtain rfl := Except.error.inj h
      unfold tokenize at htokens
      simp only [] at htokens
      split at htokens
      · cases htokens
      · obtain rfl := Except.error.inj htokens
        exact ⟨_, rfl⟩
    · split at h
      · cases h
      · next fault' _ =>
        obtain rfl := Except.error.inj h
        cases fault' with
        | badParameter found => cases found <;> exact ⟨_, rfl⟩
        | unfinished | unexpected | tooDeep => exact ⟨_, rfl⟩

end Registry

namespace NamedForm

variable {limits : Limits} {r : Registry}

/-- What makes a form that of an entry: its name, and the canonical printing of its term. -/
def IsOf (limits : Limits) (r : Registry) (form : NamedForm) (entry : NamedTerm) : Prop :=
  form.name = entry.name ∧
    ∃ t, r.parse limits entry.definition = .ok t ∧ form.printed = t.canonicalText

theorem isOf_of_ofEntry {entry : NamedTerm} {form : NamedForm}
    (h : ofEntry limits r entry = .ok (.ok (some form))) : form.IsOf limits r entry := by
  unfold ofEntry at h
  split at h
  · split at h
    · cases h
    · cases h
  · next t ht =>
    unfold Term.printWithin Limits.guarded at h
    split at h
    · simp only [Except.map, Except.ok.injEq] at h
      split at h
      · obtain rfl := Option.some.inj h
        exact ⟨rfl, t, ht, rfl⟩
      · cases h
    · cases h

theorem exists_entry_of_collect {es : List NamedTerm} {warnings : List Report} {forms : List NamedForm}
    (h : collect limits r es = (warnings, .ok forms)) :
    ∀ form ∈ forms, ∃ entry ∈ es, form.IsOf limits r entry := by
  induction es generalizing warnings forms with
  | nil =>
      obtain rfl : [] = forms := Except.ok.inj (Prod.mk.inj h).2
      simp
  | cons entry es ih =>
      have hlater : ∀ {ws : List Report} {fs : List NamedForm}, collect limits r es = (ws, .ok fs) →
          ∀ form ∈ fs, ∃ e ∈ entry :: es, form.IsOf limits r e := by
        intro ws fs hfs form hform
        obtain ⟨e, he, hof⟩ := ih hfs form hform
        exact ⟨e, List.mem_cons_of_mem entry he, hof⟩
      unfold collect at h
      split at h
      · obtain ⟨-, hforms⟩ := Prod.mk.inj h
        exact hlater (Prod.ext rfl hforms)
      · cases h
      · next form? hentry =>
        obtain ⟨-, hforms⟩ := Prod.mk.inj h
        cases hcollect : collect limits r es with
        | mk ws fs =>
            rw [hcollect] at hforms
            cases fs with
            | error failure => cases hforms
            | ok fs =>
                obtain rfl := Except.ok.inj hforms
                intro form hform
                rcases List.mem_append.mp hform with hform | hform
                · obtain rfl := Option.mem_toList.mp hform
                  exact ⟨entry, List.mem_cons_self, isOf_of_ofEntry hentry⟩
                · exact hlater hcollect form hform

/-- Every form of a registry is that of an entry. -/
theorem exists_entry_of_ofRegistry {warnings : List Report} {forms : List NamedForm}
    (h : ofRegistry limits r = (warnings, .ok forms)) :
    ∀ form ∈ forms, ∃ entry ∈ r.entries, form.IsOf limits r entry := by
  unfold ofRegistry at h
  cases hcollect : collect limits r r.entries with
  | mk ws fs =>
      rw [hcollect] at h
      obtain ⟨-, hforms⟩ := Prod.mk.inj h
      cases fs with
      | error failure => cases hforms
      | ok fs =>
          obtain rfl := Except.ok.inj hforms
          intro form hform
          exact exists_entry_of_collect hcollect form (List.mem_mergeSort.mp hform)

theorem ofEntry_unlimited (r : Registry) (entry : NamedTerm) :
    (∃ warning, ofEntry .unlimited r entry = .error warning) ∨
      ∃ form?, ofEntry .unlimited r entry = .ok (.ok form?) := by
  unfold ofEntry
  cases hparse : r.parse .unlimited entry.definition with
  | error fault =>
      obtain ⟨report, hreport⟩ := Registry.exists_report_of_parse hparse
      simp only [hreport]
      exact .inl ⟨_, rfl⟩
  | ok t => exact .inr ⟨_, rfl⟩

theorem exists_collect (r : Registry) (es : List NamedTerm) :
    ∃ warnings forms, collect .unlimited r es = (warnings, .ok forms) := by
  induction es with
  | nil => exact ⟨[], [], rfl⟩
  | cons entry es ih =>
      obtain ⟨warnings, forms, hforms⟩ := ih
      unfold collect
      rcases ofEntry_unlimited r entry with ⟨warning, hentry⟩ | ⟨form?, hentry⟩
      · simp only [hentry, hforms]
        exact ⟨_, _, rfl⟩
      · simp only [hentry, hforms]
        exact ⟨_, _, rfl⟩

/-- Without limits, the forms of a registry can be made. -/
theorem exists_ofRegistry (r : Registry) :
    ∃ warnings forms, ofRegistry .unlimited r = (warnings, .ok forms) := by
  obtain ⟨warnings, forms, hforms⟩ := exists_collect r r.entries
  unfold ofRegistry
  rw [hforms]
  exact ⟨_, _, rfl⟩

theorem ofRegistry_of_collect {forms : List NamedForm} (h : (collect limits r r.entries).2 = .ok forms) :
    (ofRegistry limits r).2 = .ok (forms.mergeSort fun a b => b.printed.length ≤ a.printed.length) := by
  unfold ofRegistry
  rcases hcollect : collect limits r r.entries with ⟨warnings, result⟩
  rw [hcollect] at h
  obtain rfl : result = .ok forms := h
  rfl

theorem find?_mergeSort (forms : List NamedForm) (text : String) :
    (forms.mergeSort fun a b => b.printed.length ≤ a.printed.length).find? (fun form => form.printed = text)
      = forms.find? fun form => form.printed = text := by
  let le (a b : NamedForm) : Bool := b.printed.length ≤ a.printed.length
  let p (form : NamedForm) : Bool := form.printed = text
  have halike : (forms.filter p).Pairwise fun a b => le a b = true := by
    refine List.pairwise_of_forall_mem_list ?_
    intro a ha b hb
    have hap : a.printed = text := of_decide_eq_true (List.mem_filter.mp ha).2
    have hbp : b.printed = text := of_decide_eq_true (List.mem_filter.mp hb).2
    exact decide_eq_true (Nat.le_of_eq (by rw [hap, hbp]))
  have hsublist : (forms.filter p).Sublist (forms.mergeSort le) := by
    refine List.sublist_mergeSort ?_ ?_ halike List.filter_sublist
    · intro a b c hab hbc
      simp only [le, decide_eq_true_eq] at hab hbc ⊢
      omega
    · intro a b
      simp only [le, Bool.or_eq_true, decide_eq_true_eq]
      omega
  have hsame : forms.filter p = (forms.mergeSort le).filter p := by
    refine List.Sublist.eq_of_length ?_ ?_
    · have hfiltered := hsublist.filter p
      rwa [List.filter_filter, List.filter_congr fun _ _ => Bool.and_self _] at hfiltered
    · exact ((List.mergeSort_perm forms le).filter p).length_eq.symm
  rw [← List.head?_filter, ← List.head?_filter]
  exact congrArg List.head? hsame.symm
end NamedForm

namespace Term

/-- Which reference is shown for a subterm does not depend on the order of the forms by length. -/
theorem bySubterms_mergeSort (forms : List NamedForm) :
    bySubterms (forms.mergeSort fun a b => b.printed.length ≤ a.printed.length) = bySubterms forms := by
  have hreference : referenceFor? (forms.mergeSort fun a b => b.printed.length ≤ a.printed.length)
      = referenceFor? forms := by
    funext t
    simp only [referenceFor?, NamedForm.find?_mergeSort]
  rw [bySubterms, bySubterms, hreference]

theorem prettify_structural {limits : Limits} {r : Registry} {t : Term} {warnings : List Report}
    {forms : List NamedForm} (hnumeral : Numeral.recognise? t = none) (htag : Numeral.isTag t.tag = false)
    (hforms : NamedForm.collect limits r r.entries = (warnings, .ok forms)) :
    t.prettify limits r true = (warnings, t.printWithin limits (bySubterms forms) .top) := by
  unfold prettify NamedForm.ofRegistry
  simp only [hnumeral, htag, Bool.false_eq_true, if_false, if_true, hforms]
  exact Prod.ext rfl (congrArg (t.printWithin limits · .top) (bySubterms_mergeSort forms))

theorem prettify_of_print {r : Registry} {t : Term} {forms : List NamedForm}
    (hforms : NamedForm.collect .unlimited r r.entries = ([], .ok forms)) (hnumeral : Numeral.recognise? t = none)
    (htag : Numeral.isTag t.tag = false) {shown : String} (hshown : t.print (bySubterms forms) .top = shown) :
    t.prettify .unlimited r true = ([], .ok shown) := by
  rw [prettify_structural hnumeral htag hforms, ← hshown]
  rfl

end Term

/-- Without limits, every term has a readable form. -/
theorem Term.exists_prettify (r : Registry) (structural : Bool) (t : Term) :
    ∃ warnings text, t.prettify .unlimited r structural = (warnings, .ok text) := by
  unfold prettify
  split
  · exact ⟨_, _, rfl⟩
  · split
    · exact ⟨_, _, rfl⟩
    · obtain ⟨warnings, forms, hforms⟩ := NamedForm.exists_ofRegistry r
      rw [hforms]
      cases structural with
      | true => exact ⟨_, _, rfl⟩
      | false => exact ⟨_, _, rfl⟩

end LambdaStepper
