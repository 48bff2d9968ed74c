import LambdaStepper.Prettify
import LambdaStepper.Proofs.Registry.Overlong
import LambdaStepper.Reduction.Normalize
import LambdaStepper.Report.Console

/-! # Failures with a report

A console that is not fatal swallows the failures for which it has a report (`Failure.report?`), and forgets the
lines being worked on at every failure that it prints (`Console.activeLines_settle`).  Texts whose numerals can be
read fail with a report, wherever they are parsed, defined or made readable. -/

namespace LambdaStepper

/-- The report that the console prints on a failure, if it swallows that. -/
def Failure.report? : Failure → Option Report
  | .report r => some r
  | .tooDeep => some Console.depthReport
  | .interrupted => some Console.interruptReport
  | .leave _ | .fault _ => none

/-- Whether the console swallows a failure. -/
def Failure.IsReported (failure : Failure) : Prop :=
  ∃ r, failure.report? = some r

/-- Whether the console prints something on a failure: on all but a request to leave the program. -/
def Failure.IsPrinted : Failure → Prop
  | .leave _ => False
  | .report _ | .tooDeep | .interrupted | .fault _ => True

theorem Failure.IsReported.isPrinted {failure : Failure} (h : failure.IsReported) : failure.IsPrinted := by
  obtain ⟨r, hr⟩ := h
  cases failure with
  | leave status => cases hr
  | report | tooDeep | interrupted | fault => trivial

namespace Console

variable {c : Console} (hfatal : c.fatal = false)

include hfatal

/-- A console that is not fatal prints the report, forgets the lines being worked on and goes on. -/
theorem settle_of_report? {failure : Failure} {r : Report} (h : failure.report? = some r) :
    c.settle failure = ((c.printError r).forgetLines, none) := by
  cases failure with
  | leave status => cases h
  | fault f => cases h
  | report | tooDeep | interrupted =>
      obtain rfl := Option.some.inj h
      simp [settle, throw, hfatal]

theorem fatal_settle (failure : Failure) : (c.settle failure).1.fatal = false := by
  have hprinted : ∀ r : Report, (c.printError r).forgetLines.fatal = false := by
    intro r
    unfold printError printDiagnosis
    dsimp only
    split <;> exact hfatal
  cases failure <;> simp [settle, throw, hfatal, hprinted]

/-- Behind a failure that is printed no line is being worked on. -/
theorem activeLines_settle {failure : Failure} (h : failure.IsPrinted) :
    (c.settle failure).1.activeLines = [] := by
  cases failure with
  | leave status => cases h
  | report | tooDeep | interrupted | fault => simp [settle, throw, hfatal, activeLines_forgetLines]

end Console

section Reported

variable {limits : Limits} {r : Registry} {failure : Failure}

theorem ReductionFault.isReported (fault : ReductionFault) : fault.failure.IsReported := by
  cases fault <;> exact ⟨_, rfl⟩

theorem SyntaxFault.isPrinted (fault : SyntaxFault) : fault.failure.IsPrinted := by
  cases fault <;> trivial

theorem DefinitionFault.isPrinted (fault : DefinitionFault) : fault.failure.IsPrinted := by
  cases fault with
  | invalidName | alreadyDefined | recursive => trivial
  | unparsable fault => exact fault.isPrinted

theorem Registry.isReported_of_parse (hr : r.IsLegible limits) {text : String}
    (h : overlongNumeral? limits text.toList = none) {fault : SyntaxFault}
    (hparse : r.parse limits text = .error fault) : fault.failure.IsReported := by
  cases fault with
  | badReference reason => exact absurd rfl (ne_badReference_of_parse hr h hparse reason)
  | empty | badCharacter | unfinished | badToken | badParameter | tooDeep => exact ⟨_, rfl⟩

theorem Registry.isReported_of_define (hr : r.IsLegible limits) {entry : NamedTerm}
    (h : overlongNumeral? limits entry.definition.toList = none) {fault : DefinitionFault}
    (hdefine : r.define limits entry = .error fault) : fault.failure.IsReported := by
  cases fault with
  | invalidName | alreadyDefined | recursive => exact ⟨_, rfl⟩
  | unparsable fault =>
      have hparse : (r.append entry).parse limits entry.definition = .error fault := by
        unfold define validate at hdefine
        cases hparse : (r.append entry).parse limits entry.definition <;> grind [Except.map]
      exact isReported_of_parse (hr.append h) h hparse

/-! ### Printing -/

theorem Term.isReported_of_printWithin {style : PrintStyle} {context : PrintContext} {t : Term}
    (h : t.printWithin limits style context = .error failure) : failure.IsReported := by
  unfold printWithin Limits.guarded at h
  split at h
  · cases h
  · obtain rfl := Except.error.inj h
    exact ⟨_, rfl⟩

section Prettify

/-! What is refused when a term is made readable is a failure of printing, or one of parsing a definition of the
registry. -/

variable {P : Failure → Prop} (hprinting : ∀ failure : Failure, failure.IsReported → P failure)
  (hparsing : ∀ entry ∈ r.entries, ∀ fault, r.parse limits entry.definition = .error fault → P fault.failure)

include hprinting hparsing

theorem NamedForm.failure_of_ofEntry {entry : NamedTerm} (hentry : entry ∈ r.entries)
    (h : ofEntry limits r entry = .ok (.error failure)) : P failure := by
  unfold ofEntry at h
  cases hparse : r.parse limits entry.definition with
  | error fault =>
      have hfailure := hparsing entry hentry fault hparse
      rw [hparse] at h
      dsimp only at h
      split at h
      · cases h
      · cases h
        exact hfailure
  | ok t =>
      rw [hparse] at h
      dsimp only at h
      cases hprint : t.printWithin limits .canonicalNames .top with
      | ok printed => simp [hprint, Except.map] at h
      | error failure' =>
          rw [hprint] at h
          cases h
          exact hprinting _ (Term.isReported_of_printWithin hprint)

theorem NamedForm.failure_of_collect {entries : List NamedTerm} (hentries : entries ⊆ r.entries)
    (h : (collect limits r entries).2 = .error failure) : P failure := by
  induction entries with
  | nil => cases h
  | cons entry entries ih =>
      have ih := ih (List.subset_of_cons_subset hentries)
      unfold collect at h
      cases hform : ofEntry limits r entry with
      | error warning =>
          rw [hform] at h
          exact ih h
      | ok form? =>
          rw [hform] at h
          cases form? with
          | error failure' =>
              cases h
              exact failure_of_ofEntry hprinting hparsing (hentries List.mem_cons_self) hform
          | ok form? =>
              dsimp only at h
              cases hrest : (collect limits r entries).2 with
              | ok forms => simp [hrest, Except.map] at h
              | error failure' =>
                  rw [hrest] at h
                  cases h
                  exact ih hrest

theorem Term.failure_of_prettify {structural : Bool} {t : Term}
    (h : (t.prettify limits r structural).2 = .error failure) : P failure := by
  unfold prettify NamedForm.ofRegistry at h
  split at h
  · cases h
  · split at h
    · cases h
    · dsimp only at h
      cases hforms : (NamedForm.collect limits r r.entries).2 with
      | error failure' =>
          rw [hforms] at h
          cases h
          exact NamedForm.failure_of_collect hprinting hparsing (List.Subset.refl _) hforms
      | ok forms =>
          simp only [hforms, Except.map, Except.bind] at h
          split at h
          · exact hprinting _ (isReported_of_printWithin h)
          · split at h
            · next hprint =>
              cases h
              exact hprinting _ (isReported_of_printWithin hprint)
            · cases h

end Prettify

theorem Term.isPrinted_of_prettify {structural : Bool} {t : Term}
    (h : (t.prettify limits r structural).2 = .error failure) : failure.IsPrinted :=
  failure_of_prettify (fun _ => Failure.IsReported.isPrinted) (fun _ _ fault _ => fault.isPrinted) h

theorem Term.isReported_of_prettify (hr : r.IsLegible limits) {structural : Bool} {t : Term}
    (h : (t.prettify limits r structural).2 = .error failure) : failure.IsReported :=
  failure_of_prettify (fun _ => id)
    (fun entry hentry _ => Registry.isReported_of_parse hr (hr.definitions entry hentry)) h

end Reported
end LambdaStepper
