import LambdaStepper.Proofs.Session.Contracts
import LambdaStepper.Shell

/-! # What a line does

A line of the shell runs one action on its session (`Shell.work`), and the console settles its failure
(`respond_eq`).  The action of a command changes nothing but what was printed and the term being stepped through
(`ensures_perform`).  It fails with a report, unless its argument asks for what the shell cannot read or write
(`Session.Overtaxed`): a count that has only digits but is no number within the bounds, a text with such a
numeral, or a drawing too large for its size to be written. -/

namespace LambdaStepper

open Session (Action Ensures)

namespace Shell

/-! ### Counts -/

/-- Whether an argument has only digits, but cannot be read: some of them are no decimal digits, or they are too
many. -/
def IsUnreadableCount (limits : Limits) (argument : String) : Prop :=
  let cs := Text.trim argument.toList
  cs ≠ [] ∧ cs.all Text.isAnyDigit ∧ (cs.all Text.isDecimalDigit = false ∨
    limits.digitsFault? (cs.takeWhile Text.isDecimalDigit).length ≠ none)

/-- A count that cannot be read is the only one that is refused without a report. -/
theorem readCount_error {limits : Limits} {default : Nat} {argument : String} {failure : Failure}
    (h : readCount limits default argument = .error failure) :
    failure.IsPrinted ∧ (failure.IsReported ↔ ¬ IsUnreadableCount limits argument) := by
  unfold readCount at h
  unfold IsUnreadableCount
  dsimp only at h ⊢
  have hfault : ∀ fault : Fault, ¬ (Failure.fault fault).IsReported := by
    rintro fault ⟨r, hr⟩
    cases hr
  split at h
  · cases h
  · next hempty =>
    rw [List.isEmpty_iff] at hempty
    split at h
    · next hdigits =>
      cases h
      simp only [Bool.not_eq_true'] at hdigits
      simp [hdigits, badCount, Failure.IsPrinted, Failure.IsReported, Failure.report?]
    · next hdigits =>
      rw [Bool.not_eq_true', Bool.not_eq_false] at hdigits
      split at h
      · next fault hcount =>
        cases h
        simp [hfault, hempty, hdigits, hcount, Failure.IsPrinted]
      · next hcount =>
        split at h
        · next hdecimal =>
          cases h
          rw [Bool.not_eq_true'] at hdecimal
          simp [hfault, hempty, hdigits, hdecimal, Failure.IsPrinted]
        · next hdecimal =>
          rw [Bool.not_eq_true', Bool.not_eq_false] at hdecimal
          split at h
          · cases h
            simp [hdecimal, hcount, badCount, Failure.IsPrinted, Failure.IsReported, Failure.report?]
          · cases h

end Shell

/-! ### Commands -/

/-- Whether a command asks for what cannot be read or written: a text with a numeral of too many digits, a count
that is no number within the bounds, or a drawing whose size has too many digits. -/
def Session.Overtaxed (s : Session) (command : Command) (argument : String) : Prop :=
  match command with
  | .load => ¬ s.Reads argument
  | .step => Shell.IsUnreadableCount s.settings.limits argument
  | .tromp =>
    Shell.IsUnreadableCount s.settings.limits argument ∨
      ∃ scale, Shell.readCount s.settings.limits Layout.defaultScale argument = .ok scale ∧
        Layout.pixelsFault? s.settings.limits (Layout.circuitPixels (.whole scale) s.circuit) ≠ none
  | _ => False

namespace Shell

variable (s : Session) {legible : Prop}

theorem ensures_stepTimes (count : Nat) :
    Ensures s.Aside (stepTimes count) (fun _ => s.Aside) (s.FailsAside legible) := by
  induction count with
  | zero => exact .pure fun _ h => h
  | succ count ih =>
      refine s.ensures_step.bind fun step => ?_
      split
      · refine (s.ensures_shown none).bind fun text => .get_bind fun s' h => ?_
        exact ((s.ensures_print _).of_eq h).bind fun _ => ih
      · exact s.ensures_print _

theorem ensures_showNext : Ensures s.Aside showNext (fun _ => s.Aside) (s.FailsAside legible) := by
  refine .get_bind fun s' h => ?_
  split
  · split
    · exact ((s.ensures_shown _).of_eq h).bind fun text => s.ensures_print text
    · exact (s.ensures_print normalForm).of_eq h
  · exact (s.ensures_print normalForm).of_eq h

theorem ensures_showNames : Ensures s.Aside showNames (fun _ => s.Aside) (s.FailsAside legible) :=
  .get_bind fun _ h => (Ensures.forM fun _ _ => s.ensures_print _).of_eq h

theorem ensures_readCount (default : Nat) (argument : String)
    (hcount : IsUnreadableCount s.settings.limits argument → ¬ legible) :
    Ensures (· = s) (Session.lift (readCount s.settings.limits default argument))
      (fun count s' => s' = s ∧ readCount s.settings.limits default argument = .ok count) (s.FailsAside legible) := by
  refine .lift (fun count s' hok hs => ⟨hs, hok⟩) fun failure s' herror hs => ?_
  obtain ⟨hprinted, hreported⟩ := readCount_error herror
  exact ⟨hs ▸ .refl s, hprinted, fun _ hlegible => hreported.mpr fun h => hcount h hlegible⟩

/-- A command changes nothing but what was printed and the term being stepped through, and fails with a report,
unless it is overtaxed. -/
theorem ensures_perform (command : Command) (argument : String) :
    Ensures (· = s) (perform command argument) (fun _ => s.Aside)
      (s.FailsAside (¬ s.Overtaxed command argument)) := by
  cases command with
  | load =>
      have hreads : s.Reads argument ↔ ¬ s.Overtaxed .load argument := not_not.symm
      rw [← hreads]
      exact ((s.ensures_load argument).of_eq (.refl s)).bind fun _ =>
        (s.ensures_shown none).bind fun text => s.ensures_print text
  | step =>
      refine .get_bind fun s' hs => ?_
      subst hs
      refine (ensures_readCount s' 1 argument fun h => not_not_intro h).bind fun count => ?_
      exact (ensures_stepTimes s' count).imp (fun _ h => h.1 ▸ .refl s') (fun _ _ h => h) fun _ _ h => h
  | next => exact (ensures_showNext s).of_eq (.refl s)
  | pretty => exact ((s.ensures_prettify none).of_eq (.refl s)).bind fun text => s.ensures_print text
  | names => exact (ensures_showNames s).of_eq (.refl s)
  | tree => exact .get_bind fun s' hs => (s.ensures_print _).of_eq (hs ▸ .refl s)
  | tromp =>
      refine .get_bind fun s' hs => ?_
      subst hs
      refine (ensures_readCount s' Layout.defaultScale argument fun h => not_not_intro (.inl h)).bind fun scale => ?_
      refine .get_bind fun s hs => ?_
      obtain ⟨rfl, hscale⟩ := hs
      refine Ensures.bind ?_ fun text => (s.ensures_print text)
      refine .lift (fun _ _ _ hs => hs ▸ .refl s) fun failure _ hfail hs => ?_
      unfold Session.dumpCircuit at hfail
      split at hfail
      · next hpixels =>
        cases hfail
        have hovertaxed : s.Overtaxed .tromp argument := .inr ⟨scale, hscale, by simp [hpixels]⟩
        exact ⟨hs ▸ .refl s, trivial, fun _ hlegible => absurd hovertaxed hlegible⟩
      · cases hfail
  | help =>
      dsimp only [perform]
      split
      · exact (s.ensures_print _).of_eq (.refl s)
      · split <;> exact (s.ensures_print _).of_eq (.refl s)
  | endOfInput => exact (s.ensures_print "").of_eq (.refl s)
  | quit => exact .pure fun _ h => h ▸ .refl s

/-! ### Statements -/

theorem ensures_showResults (failed : Failure → Session → Prop) :
    Ensures (· = s) showResults (fun _ => { s with results := [] }.Aside) failed := by
  refine .get_bind fun s' hs => ?_
  obtain rfl := hs
  -- one result is taken for each that is there
  suffices h : ∀ results : List Result, Ensures { s' with results }.Aside
      (results.forM fun _ => do Session.print (← Session.pop).pretty) (fun _ => { s' with results := [] }.Aside)
      failed from (h s'.results).of_eq (.refl s')
  intro results
  induction results with
  | nil => exact .pure fun _ h => h
  | cons result results ih =>
      refine Ensures.bind ?_ fun _ => ih
      refine Ensures.bind ?_ fun result => Session.ensures_print { s' with results } result.pretty
      intro s₁ h
      have hpop : Session.pop.run.run s₁ = (.ok result, { s₁ with results }) := by
        unfold Session.pop
        rw [Session.run_bind, Session.run_get]
        simp only [h.results]
        rfl
      rw [hpop]
      exact ⟨h.settings, h.registry, h.pending, rfl, h.fatal, h.files⟩

/-! ### Lines -/

/-- The statement that a line hands to the session, if it completes one. -/
def handed? (shell : Shell) (line : String) : Option String :=
  match read line with
  | .statement line => shell.completed? line
  | _ => none

/-- What a line does to the session. -/
def work (shell : Shell) (line : String) : Action Unit :=
  match read line with
  | .command command argument => perform command argument
  | _ =>
    match shell.handed? line with
    | none => pure ()
    | some statement => carryOut statement (shell.lineNumber + 1)

/-- How a line is answered, where nothing fails that the console does not swallow. -/
def answer (line : String) : Response :=
  match read line with
  | .empty => .idle
  | .command command _ => if ends command then .quit else .proceed
  | .statement _ => .proceed

theorem report_eq (shell : Shell) (action : Action Unit) :
    shell.report action = match action.run.run shell.session with
      | (.ok _, s) => ({ shell with session := s }, none)
      | (.error failure, s) =>
        ({ shell with session := { s with console := (s.console.settle failure).1 } },
          (s.console.settle failure).2) := by
  unfold report
  rcases action.run.run shell.session with ⟨failure | _, s⟩ <;> rfl

/-- A line does its work on the session, and the console settles its failure. -/
theorem respond_eq (shell : Shell) (line : String) :
    match (shell.work line).run.run shell.session with
    | (.ok _, s) => (shell.respond line).1.session = s ∧ (shell.respond line).2 = .ok (answer line)
    | (.error failure, s) =>
      (shell.respond line).1.session = { s with console := (s.console.settle failure).1 } ∧
        (shell.respond line).2 = match (s.console.settle failure).2 with
          | none => .ok (answer line)
          | some left => .error left := by
  unfold respond work handed? answer
  cases read line with
  | empty => exact ⟨rfl, rfl⟩
  | command command argument =>
      simp only [report_eq]
      rcases (perform command argument).run.run shell.session with ⟨failure | _, s⟩
      · dsimp only
        cases (s.console.settle failure).2 <;> exact ⟨rfl, rfl⟩
      · exact ⟨rfl, rfl⟩
  | statement line =>
      dsimp only [takeStatement]
      cases shell.completed? line with
      | none => exact ⟨rfl, rfl⟩
      | some statement =>
          simp only [report_eq]
          rcases (carryOut statement (shell.lineNumber + 1)).run.run shell.session with ⟨failure | _, s⟩
          · dsimp only
            cases (s.console.settle failure).2 <;> exact ⟨rfl, rfl⟩
          · exact ⟨rfl, rfl⟩

theorem collected_respond (shell : Shell) (line : String) :
    ((shell.respond line).1.pending, (shell.respond line).1.collecting) = match read line with
      | .statement line =>
        (if Statement.isOpen (shell.joined line) then String.ofList (shell.joined line) else "",
          Statement.isOpen (shell.joined line))
      | _ => (shell.pending, shell.collecting) := by
  have hreport : ∀ (shell : Shell) (action : Action Unit), ((shell.report action).1.pending,
      (shell.report action).1.collecting) = (shell.pending, shell.collecting) := by
    intro shell action
    rw [report_eq]
    rcases action.run.run shell.session with ⟨failure | _, s⟩ <;> rfl
  unfold respond
  cases read line with
  | empty => rfl
  | command command argument =>
      have hkept := hreport shell (perform command argument)
      revert hkept
      dsimp only
      rcases shell.report (perform command argument) with ⟨shell', _ | failure⟩ <;> exact id
  | statement line =>
      dsimp only [takeStatement]
      cases shell.completed? line with
      | none => rfl
      | some statement =>
          generalize htaken : (⟨_, _, _, _⟩ : Shell) = taken
          have hkept := hreport taken (carryOut statement (shell.lineNumber + 1))
          revert hkept
          dsimp only
          rcases taken.report (carryOut statement (shell.lineNumber + 1)) with ⟨shell', _ | failure⟩ <;>
            exact fun hkept => hkept.trans (by rw [← htaken])

/-- A shell over a new session. -/
def fresh : Shell :=
  { session := Session.start { path := Session.typedPath } true {} }

/-- The shell behind lines, whatever comes of them. -/
def follow (shell : Shell) (lines : List String) : Shell :=
  lines.foldl (fun shell line => (shell.respond line).1) shell

end Shell
end LambdaStepper
