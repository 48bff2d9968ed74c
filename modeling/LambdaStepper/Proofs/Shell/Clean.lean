import LambdaStepper.Proofs.Shell.Commands

/-! # The shell is clean between lines

A statement leaves nothing behind: what it adds to the session is reduced and printed at once, and the line being
worked on is forgotten, when the statement is done with or by the console that prints the failure
(`ensures_carryOut`).  A shell that goes on collecting a statement has one that is not empty.  So after any lines,
whatever failed among them, no statement waits, no result is unread, and no line is being worked on
(`Shell.clean_after`). -/

namespace LambdaStepper

open Session (Ensures)

/-! ### Lines being worked on -/

namespace Console

theorem setLine_setLine (entry old : Option (String × Int)) (path : String)
    (files : List (String × Option (String × Int))) :
    setLine entry path (setLine old path files) = setLine entry path files := by
  induction files with
  | nil => simp [setLine]
  | cons file files ih =>
      obtain ⟨p, before⟩ := file
      by_cases hp : p = path
      · simp [setLine, hp]
      · simp [setLine, hp, ih]

theorem removeLine_registerLine (c : Console) (path line : String) (number : Int) :
    (c.registerLine path line number).removeLine path = c.removeLine path := by
  simp only [removeLine, registerLine, setLine_setLine]

theorem mem_setLine {entry : Option (String × Int)} {path : String} {files : List (String × Option (String × Int))}
    {file : String × Option (String × Int)} (h : file ∈ setLine entry path files) :
    file = (path, entry) ∨ file ∈ files := by
  induction files with
  | nil => exact .inl (List.mem_singleton.mp h)
  | cons first files ih =>
      unfold setLine at h
      split at h
      · next hp =>
        rcases List.mem_cons.mp h with rfl | h
        · exact .inl (by rw [hp])
        · exact .inr (List.mem_cons_of_mem _ h)
      · rcases List.mem_cons.mp h with rfl | h
        · exact .inr List.mem_cons_self
        · exact (ih h).imp_right (List.mem_cons_of_mem _)

theorem activeLines_removeLine {c : Console} (h : c.activeLines = []) (path : String) :
    (c.removeLine path).activeLines = [] := by
  unfold activeLines at h ⊢
  rw [List.filterMap_eq_nil_iff] at h ⊢
  intro file hfile
  rcases mem_setLine hfile with rfl | hfile
  · rfl
  · exact h file hfile

end Console

/-! ### Statements -/

namespace Session

/-- Just the given statements wait, no result is unread, and no line is being worked on; no error is fatal. -/
structure HasOnly (waiting : List (Int × String)) (s : Session) : Prop where
  fatal : s.console.fatal = false
  pending : s.pending = waiting
  results : s.results = []
  activeLines : s.console.activeLines = []

/-- A failure that is printed, and behind which no statement waits and no result is unread. -/
structure FailsEmpty (failure : Failure) (s : Session) : Prop where
  isPrinted : failure.IsPrinted
  fatal : s.console.fatal = false
  pending : s.pending = []
  results : s.results = []

variable {s : Session} {waiting : List (Int × String)}

theorem Aside.hasOnly {s' : Session} (h : s.Aside s') (hs : s.HasOnly waiting) : s'.HasOnly waiting :=
  ⟨h.fatal.trans hs.fatal, h.pending.trans hs.pending, h.results.trans hs.results,
    h.activeLines.trans hs.activeLines⟩

theorem HasOnly.removeLine (hs : s.HasOnly waiting) (line : String) (number : Int) (path : String) :
    ((s.console.registerLine path line number).removeLine path).activeLines = [] := by
  rw [Console.removeLine_registerLine]
  exact Console.activeLines_removeLine hs.activeLines path

theorem ensures_add (expr : String) (line : Int) :
    Ensures (HasOnly []) (add expr line) (fun _ s => s.HasOnly [] ∨ s.HasOnly [(line, expr)]) FailsEmpty := by
  intro s hs
  have hactive := hs.removeLine expr line s.settings.path
  obtain ⟨supply, hrun⟩ := s.exists_run_add expr line
  rw [hrun]
  cases Text.splitFirst? [':', '='] expr.toList with
  | some parts =>
      dsimp only
      cases s.registry.define s.settings.limits _ with
      | ok registry => exact .inl ⟨hs.fatal, hs.pending, hs.results, hactive⟩
      | error fault => exact ⟨fault.isPrinted, hs.fatal, hs.pending, hs.results⟩
  | none =>
      cases s.registry.parse s.settings.limits expr with
      | ok t => exact .inr ⟨hs.fatal, congrArg (setPending line expr) hs.pending, hs.results, hactive⟩
      | error fault => exact ⟨fault.isPrinted, hs.fatal, hs.pending, hs.results⟩

theorem ensures_runOne (line : Int) (expr : String) :
    Ensures (HasOnly [(line, expr)]) (runOne line expr) (fun _ s => { s with results := [] }.HasOnly [])
      FailsEmpty := by
  intro s hs
  have hactive := hs.removeLine expr line s.settings.path
  have hexecute := (s.working expr line).ensures_execute expr
  rw [run_runOne]
  rcases hrun : (execute expr).run.run (s.working expr line) with ⟨failure | result, s'⟩
  · obtain ⟨haside, hprinted, -⟩ := hexecute.of_run_error (.refl _) hrun
    refine ⟨hprinted, haside.fatal.trans hs.fatal, ?_, haside.results.trans hs.results⟩
    simp [haside.pending, hs.pending]
  · have haside := hexecute.of_run_ok (.refl _) hrun
    refine ⟨haside.fatal.trans hs.fatal, ?_, rfl, ?_⟩
    · simp [resting, haside.pending, hs.pending]
    · rw [← hactive, haside.settings]
      exact congrArg (fun files => Console.activeLines { files }) (congrArg (Console.setLine none _) haside.files)

theorem ensures_run (line : Int) (expr : String) :
    Ensures (fun s => s.HasOnly [] ∨ s.HasOnly [(line, expr)]) run (fun _ s => { s with results := [] }.HasOnly [])
      FailsEmpty := by
  refine .get_bind fun s hs => ?_
  rcases hs with hs | hs
  · rw [hs.pending]
    exact .pure fun _ heq => heq ▸ ⟨hs.fatal, hs.pending, rfl, hs.activeLines⟩
  · rw [hs.pending]
    exact ((ensures_runOne line expr).of_eq hs).bind fun _ => .pure fun _ h => h

/-- A statement that is carried out leaves nothing behind. -/
theorem ensures_carryOut (statement : String) (line : Int) :
    Ensures (HasOnly []) (Shell.carryOut statement line) (fun _ => HasOnly []) FailsEmpty := by
  refine (ensures_add statement line).bind fun _ => (ensures_run line statement).bind fun _ => ?_
  intro s hs
  have hshown := Shell.ensures_showResults s FailsEmpty
  rcases hrun : Shell.showResults.run.run s with ⟨failure | _, s'⟩
  · exact hshown.of_run_error rfl hrun
  · exact (hshown.of_run_ok rfl hrun).hasOnly hs

end Session

/-! ### Lines -/

namespace Shell

/-- What holds of a shell between two lines: its session is clean, and a statement is being collected if and only if
there is a part of one. -/
structure IsClean (shell : Shell) : Prop where
  session : shell.session.HasOnly []
  pending : shell.pending ≠ "" ↔ shell.collecting = true

theorem ensures_work (shell : Shell) (line : String) :
    Ensures (Session.HasOnly []) (shell.work line) (fun _ => Session.HasOnly []) Session.FailsEmpty := by
  unfold work handed?
  cases read line with
  | empty => exact .pure fun _ hs => hs
  | command command argument =>
      intro s hs
      have hperform := ensures_perform s command argument
      rcases hrun : (perform command argument).run.run s with ⟨failure | _, s'⟩
      · obtain ⟨haside, hprinted, -⟩ := hperform.of_run_error rfl hrun
        exact ⟨hprinted, haside.fatal.trans hs.fatal, haside.pending.trans hs.pending,
          haside.results.trans hs.results⟩
      · exact (hperform.of_run_ok rfl hrun).hasOnly hs
  | statement line =>
      dsimp only
      cases shell.completed? line with
      | none => exact .pure fun _ hs => hs
      | some statement => exact Session.ensures_carryOut statement _

theorem IsClean.respond {shell : Shell} (h : shell.IsClean) (line : String) : (shell.respond line).1.IsClean where
  session := by
    have hrespond := shell.respond_eq line
    rcases hrun : (shell.work line).run.run shell.session with ⟨failure | _, s⟩
    · rw [hrun] at hrespond
      obtain ⟨hprinted, hfatal, hpending, hresults⟩ := (shell.ensures_work line).of_run_error h.session hrun
      rw [hrespond.1]
      exact ⟨Console.fatal_settle hfatal failure, hpending, hresults, Console.activeLines_settle hfatal hprinted⟩
    · rw [hrun] at hrespond
      rw [hrespond.1]
      exact (shell.ensures_work line).of_run_ok h.session hrun
  pending := by
    have hcollected := shell.collected_respond line
    cases hread : read line with
    | empty | command =>
        rw [hread] at hcollected
        obtain ⟨hpending, hcollecting⟩ := Prod.mk.inj hcollected
        rw [hpending, hcollecting]
        exact h.pending
    | statement line =>
        rw [hread] at hcollected
        obtain ⟨hpending, hcollecting⟩ := Prod.mk.inj hcollected
        rw [hpending, hcollecting]
        cases hopen : Statement.isOpen (shell.joined line) with
        | false => simp
        | true =>
            have hjoined : shell.joined line ≠ [] := by
              intro hempty
              rw [hempty] at hopen
              cases hopen
            simpa using hjoined

theorem isClean_follow {shell : Shell} (h : shell.IsClean) (lines : List String) : (shell.follow lines).IsClean := by
  induction lines generalizing shell with
  | nil => exact h
  | cons line lines ih => exact ih (h.respond line)

/-- **The shell is clean between lines.**  After any lines that are given to a shell over a new session of the
command line, whatever fails among them, a statement is being collected if and only if the prompt says so; no
statement waits to be reduced, no result is unread, and no line is being worked on. -/
theorem clean_after (settings : Settings) (console : Console) (hconsole : console.activeLines = [])
    (lines : List String) :
    let shell := ({ session := Session.start settings true console } : Shell).follow lines
    (shell.pending ≠ "" ↔ shell.prompt = ". ") ∧ shell.session.pending = [] ∧ shell.session.results = [] ∧
      shell.session.console.activeLines = [] := by
  intro shell
  have hclean : shell.IsClean := by
    refine isClean_follow ⟨⟨rfl, rfl, rfl, ?_⟩, by simp⟩ lines
    exact Console.activeLines_removeLine hconsole settings.path
  refine ⟨?_, hclean.session.pending, hclean.session.results, hclean.session.activeLines⟩
  rw [hclean.pending]
  unfold prompt
  cases shell.collecting <;> decide

/-- A line that is refused, and one that leaves a parenthesis open. -/
theorem clean_after_opening :
    ({} : Console).activeLines = [] ∧
      let shell := ({ session := Session.start { path := Session.typedPath } true {} } : Shell).follow ["λ", "(x"]
      shell.prompt = ". " ∧ shell.pending ≠ "" ∧ shell.session.pending = [] ∧ shell.session.results = [] ∧
        shell.session.console.activeLines = [] := by
  obtain ⟨hprompt, hclean⟩ := clean_after { path := Session.typedPath } {} rfl ["λ", "(x"]
  have hcollecting : (({ session := Session.start { path := Session.typedPath } true {} } : Shell).follow
      ["λ", "(x"]).prompt = ". " := by rfl
  exact ⟨rfl, hcollecting, hprompt.mpr hcollecting, hclean⟩

end Shell
end LambdaStepper
