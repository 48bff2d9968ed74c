import LambdaStepper.Proofs.Shell.Commands

/-! # The shell answers every line

A session is steady (`Session.IsSteady`) as long as errors are not fatal and all numerals in its definitions and in
the statements that wait can be read.  It stays so whatever a line does to it: what is registered and what waits was
parsed before, and a text that can be parsed has such numerals only (`Registry.overlongNumeral?_of_parse`).

So a failure leaves a shell that is steady only if the line itself is at fault: if it has a numeral of too many
digits, a count that has only digits but is no number, or a scale with which the size of a drawing has too many
digits (`Shell.Overtaxes`).  On all other lines the shell goes on, unless it is told to end
(`Shell.answers_every_line`).  Such a count does end it (`Shell.not_answers_superscript`). -/

namespace LambdaStepper

open Session (Ensures)

namespace Session

/-! ### Steady sessions -/

/-- No error is fatal, and the numerals in the definitions and in the statements that wait can be read. -/
structure IsSteady (limits : Limits) (s : Session) : Prop where
  fatal : s.console.fatal = false
  limits_eq : s.settings.limits = limits
  registry : s.registry.IsLegible limits
  pending : ∀ entry ∈ s.pending, Registry.overlongNumeral? limits entry.2.toList = none

/-- A failure behind which a session is steady; the console swallows it if what is read is legible. -/
structure FailsSteady (limits : Limits) (legible : Prop) (failure : Failure) (s : Session) : Prop where
  isSteady : s.IsSteady limits
  isReported : legible → failure.IsReported

variable {limits : Limits} {s s' : Session}

theorem Aside.isSteady (h : s.Aside s') (hs : s.IsSteady limits) : s'.IsSteady limits where
  fatal := h.fatal.trans hs.fatal
  limits_eq := (congrArg Settings.limits h.settings).trans hs.limits_eq
  registry := h.registry ▸ hs.registry
  pending := h.pending ▸ hs.pending

theorem mem_setPending {line : Int} {expr : String} {pending : List (Int × String)} {entry : Int × String}
    (h : entry ∈ setPending line expr pending) : entry = (line, expr) ∨ entry ∈ pending := by
  induction pending with
  | nil => exact .inl (List.mem_singleton.mp h)
  | cons first pending ih =>
      obtain ⟨l, e⟩ := first
      unfold setPending at h
      split at h
      · next hl =>
        rcases List.mem_cons.mp h with rfl | h
        · exact .inl (by rw [hl])
        · exact .inr (List.mem_cons_of_mem _ h)
      · rcases List.mem_cons.mp h with rfl | h
        · exact .inr List.mem_cons_self
        · exact (ih h).imp_right (List.mem_cons_of_mem _)

theorem ensures_add_steady (expr : String) (line : Int) :
    Ensures (IsSteady limits) (add expr line) (fun _ => IsSteady limits)
      (FailsSteady limits (Registry.overlongNumeral? limits (termText expr).toList = none)) := by
  intro s hs
  obtain ⟨supply, hrun⟩ := s.exists_run_add expr line
  have hworking : { s.working expr line with supply }.IsSteady limits := { hs with }
  rw [hrun]
  unfold termText
  cases Text.splitFirst? [':', '='] expr.toList with
  | some parts =>
      dsimp only
      rw [hs.limits_eq]
      cases hdefine : s.registry.define limits _ with
      | ok registry =>
          refine { hworking with registry := ?_ }
          rw [Registry.define_eq_append hdefine]
          exact hs.registry.append (Registry.overlongNumeral?_of_define hdefine)
      | error fault =>
          refine ⟨hworking, fun hlegible => Registry.isReported_of_define hs.registry ?_ hdefine⟩
          exact hlegible
  | none =>
      dsimp only
      rw [hs.limits_eq]
      cases hparse : s.registry.parse limits expr with
      | ok t =>
          refine { hworking with pending := ?_ }
          intro entry hentry
          rcases mem_setPending hentry with rfl | hentry
          · exact Registry.overlongNumeral?_of_parse hparse
          · exact hs.pending entry hentry
      | error fault =>
          exact ⟨hworking, fun hlegible => Registry.isReported_of_parse hs.registry hlegible hparse⟩

theorem ensures_addFile_steady (folder : Folder) :
    Ensures (IsSteady limits) (addFile folder) (fun _ => IsSteady limits) (fun _ _ => True) := by
  unfold addFile
  refine .get_bind fun s hs => ?_
  split
  · exact .pure fun _ heq => heq ▸ hs
  · have hfile : Ensures (· = s) (lift (folder.statements s.settings.path)) (fun _ => IsSteady limits)
        (fun _ _ => True) := .lift (fun _ _ _ heq => heq ▸ hs) fun _ _ _ _ => trivial
    refine hfile.bind fun statements => .forM fun statement _ => ?_
    exact (ensures_add_steady _ _).imp (fun _ h => h) (fun _ _ h => h) fun _ _ _ => trivial

theorem ensures_runOne_steady (line : Int) {expr : String}
    (hexpr : Registry.overlongNumeral? limits expr.toList = none) :
    Ensures (IsSteady limits) (runOne line expr) (fun _ => IsSteady limits) (FailsSteady limits True) := by
  intro s hs
  have hworking : (s.working expr line).IsSteady limits := { hs with }
  have hexecute := (s.working expr line).ensures_execute expr
  rw [run_runOne]
  rcases hrun : (execute expr).run.run (s.working expr line) with ⟨failure | result, s'⟩
  · obtain ⟨haside, -, hreported⟩ := hexecute.of_run_error (.refl _) hrun
    have hsteady := haside.isSteady hworking
    rw [Reads, hworking.limits_eq] at hreported
    refine ⟨{ hsteady with pending := ?_ }, fun _ => hreported hworking.registry hexpr⟩
    exact fun entry hentry => hsteady.pending entry (List.mem_of_mem_filter hentry)
  · have hsteady := (hexecute.of_run_ok (.refl _) hrun).isSteady hworking
    exact { hsteady with pending := fun entry hentry => hsteady.pending entry (List.mem_of_mem_filter hentry) }

theorem ensures_run_steady :
    Ensures (IsSteady limits) run (fun _ => IsSteady limits) (FailsSteady limits True) :=
  .get_bind fun _ hs => .of_eq (.forM fun entry hentry => ensures_runOne_steady entry.1 (hs.pending entry hentry)) hs

theorem ensures_showResults_steady {failed : Failure → Session → Prop} :
    Ensures (IsSteady limits) Shell.showResults (fun _ => IsSteady limits) failed := by
  intro s hs
  have hshown := Shell.ensures_showResults s failed
  rcases hrun : Shell.showResults.run.run s with ⟨failure | _, s'⟩
  · exact hshown.of_run_error rfl hrun
  · exact (hshown.of_run_ok rfl hrun).isSteady { hs with }

theorem ensures_carryOut_steady (statement : String) (line : Int) :
    Ensures (IsSteady limits) (Shell.carryOut statement line) (fun _ => IsSteady limits)
      (FailsSteady limits (Registry.overlongNumeral? limits (termText statement).toList = none)) := by
  refine (ensures_add_steady statement line).bind fun _ => Ensures.bind ?_ fun _ => ensures_showResults_steady
  refine ensures_run_steady.imp (fun _ h => h) (fun _ _ h => h) ?_
  exact fun _ _ h => ⟨h.isSteady, fun _ => h.isReported trivial⟩

end Session

namespace Shell

/-! ### Reachable shells -/

/-- The shells that there are: over a session that was started with an error handler that is not fatal, from a file
or without one, and behind any lines. -/
inductive Reachable : Shell → Prop
  | start {settings : Settings} {commandLine : Bool} {console : Console} {folder : Folder} {session : Session}
      (hfatal : (Session.start settings commandLine console).console.fatal = false)
      (hdigit : settings.limits.digitsFault? 1 = none)
      (hfile : (Session.addFile folder).run.run (Session.start settings commandLine console) = (.ok (), session)) :
      Reachable { session }
  | respond {shell : Shell} (h : Reachable shell) (line : String) : Reachable (shell.respond line).1

/-- Whether a line asks for what cannot be read or written. -/
def Overtaxes (shell : Shell) (line : String) : Prop :=
  match read line with
  | .empty => False
  | .command command argument => shell.session.Overtaxed command argument
  | .statement line =>
    ∃ statement, shell.completed? line = some statement ∧ ¬ shell.session.Reads (Session.termText statement)

theorem ensures_work_steady (shell : Shell) {limits : Limits} (hsteady : shell.session.IsSteady limits)
    (line : String) :
    Ensures (· = shell.session) (shell.work line) (fun _ => Session.IsSteady limits)
      (Session.FailsSteady limits (¬ shell.Overtaxes line)) := by
  unfold work handed? Overtaxes
  cases read line with
  | empty => exact .pure fun _ hs => hs ▸ hsteady
  | command command argument =>
      refine (ensures_perform shell.session command argument).imp (fun _ h => h) ?_ ?_
      · exact fun _ _ h => h.isSteady hsteady
      · exact fun _ _ h => ⟨h.aside.isSteady hsteady, h.isReported (hsteady.limits_eq ▸ hsteady.registry)⟩
  | statement line =>
      dsimp only
      cases shell.completed? line with
      | none => exact .pure fun _ hs => hs ▸ hsteady
      | some statement =>
          refine (Session.ensures_carryOut_steady statement _).imp (fun _ hs => hs ▸ hsteady) (fun _ _ h => h) ?_
          refine fun _ _ h => ⟨h.isSteady, fun hlegible => h.isReported ?_⟩
          by_contra hoverlong
          refine hlegible ⟨statement, rfl, ?_⟩
          unfold Session.Reads
          rwa [hsteady.limits_eq]

theorem isSteady_respond {shell : Shell} {limits : Limits} (h : shell.session.IsSteady limits) (line : String) :
    (shell.respond line).1.session.IsSteady limits := by
  have hrespond := shell.respond_eq line
  have hwork := shell.ensures_work_steady h line
  rcases hrun : (shell.work line).run.run shell.session with ⟨failure | _, s⟩
  · rw [hrun] at hrespond
    have hsteady := (hwork.of_run_error rfl hrun).isSteady
    rw [hrespond.1]
    exact { hsteady with fatal := Console.fatal_settle hsteady.fatal failure }
  · rw [hrun] at hrespond
    rw [hrespond.1]
    exact hwork.of_run_ok rfl hrun

theorem Reachable.exists_isSteady {shell : Shell} (h : Reachable shell) :
    ∃ limits, shell.session.IsSteady limits := by
  induction h with
  | @start settings commandLine console folder session hfatal hdigit hfile =>
      have hstart : (Session.start settings commandLine console).IsSteady settings.limits :=
        ⟨hfatal, rfl, Registry.isLegible_initial hdigit, nofun⟩
      exact ⟨settings.limits, (Session.ensures_addFile_steady folder).of_run_ok hstart hfile⟩
  | respond _ line ih =>
      obtain ⟨limits, hsteady⟩ := ih
      exact ⟨limits, isSteady_respond hsteady line⟩

/-- **The shell answers every line.**  Whatever was given to a shell before, it answers each line that does not ask
for a number it cannot read or write.  It ends for `exit` and the end of the input, and goes on otherwise.  If the
line fails, the console prints a report on that and forgets the lines being worked on. -/
theorem answers_every_line {shell : Shell} (h : Reachable shell) {line : String} (hline : ¬ shell.Overtaxes line) :
    (∃ response, (shell.respond line).2 = .ok response ∧
      (response = .quit ↔ ∃ command argument, read line = .command command argument ∧
        (command = .quit ∨ command = .endOfInput))) ∧
    match (shell.work line).run.run shell.session with
    | (.ok _, s) => (shell.respond line).1.session = s
    | (.error failure, s) => ∃ r, failure.report? = some r ∧
        (shell.respond line).1.session = { s with console := (s.console.printError r).forgetLines } := by
  obtain ⟨limits, hsteady⟩ := h.exists_isSteady
  have hrespond := shell.respond_eq line
  have hwork := shell.ensures_work_steady hsteady line
  have hanswer : answer line = .quit ↔ ∃ command argument, read line = .command command argument ∧
      (command = .quit ∨ command = .endOfInput) := by
    unfold answer
    cases read line with
    | empty | statement => simp
    | command command argument => cases command <;> simp [ends]
  rcases hrun : (shell.work line).run.run shell.session with ⟨failure | _, s⟩
  · obtain ⟨hfails, hreported⟩ := hwork.of_run_error rfl hrun
    obtain ⟨r, hr⟩ := hreported hline
    rw [hrun] at hrespond
    dsimp only at hrespond
    rw [Console.settle_of_report? hfails.fatal hr] at hrespond
    exact ⟨⟨_, hrespond.2, hanswer⟩, r, hr, hrespond.1⟩
  · rw [hrun] at hrespond
    exact ⟨⟨_, hrespond.2, hanswer⟩, hrespond.1⟩

theorem reachable_fresh : Reachable fresh := by
  have hdigit : fresh.session.settings.limits.digitsFault? 1 = none := by decide
  have hfile : (Session.addFile []).run.run fresh.session = (.ok (), fresh.session) := rfl
  exact .start rfl hdigit hfile

/-- A step without a term to step through is refused, and the shell goes on. -/
theorem answers_every_line_unloaded :
    Reachable fresh ∧ ¬ fresh.Overtaxes "step" ∧
      ∃ response, (fresh.respond "step").2 = .ok response ∧ response ≠ .quit := by
  have hread : read "step" = .command .step "" := by rfl
  have hline : ¬ fresh.Overtaxes "step" := by
    unfold Overtaxes
    rw [hread]
    rintro ⟨hargument, -⟩
    exact hargument rfl
  obtain ⟨⟨response, hresponse, hquit⟩, -⟩ := answers_every_line reachable_fresh hline
  refine ⟨reachable_fresh, hline, response, hresponse, fun h => ?_⟩
  obtain ⟨command, argument, hcommand, hends⟩ := hquit.mp h
  rw [hread] at hcommand
  cases hcommand
  rcases hends with h | h <;> cases h

/-- A superscript is a digit, but no number: a step count with it is not reported, and ends the shell. -/
theorem not_answers_superscript :
    Reachable fresh ∧ (fresh.respond "step ²").2 = .error (.fault (.notAnInteger "²")) :=
  ⟨reachable_fresh, by rfl⟩

/-! ### What the shell cannot answer -/

theorem exists_fault_of_isUnreadableCount {limits : Limits} {argument : String} (default : Nat)
    (h : IsUnreadableCount limits argument) : ∃ fault, readCount limits default argument = .error (.fault fault) := by
  obtain ⟨hempty, hdigits, hnumber⟩ := h
  unfold readCount
  dsimp only
  rw [if_neg (by simpa using hempty), if_neg (by simp [hdigits])]
  cases hcount : limits.digitsFault? _ with
  | some fault => exact ⟨fault, rfl⟩
  | none =>
      have hdecimal := hnumber.resolve_right (not_not_intro hcount)
      exact ⟨_, if_pos (by simp [hdecimal])⟩

/-- A command that is overtaxed ends the shell. -/
theorem exists_error_of_overtaxed {shell : Shell} {line argument : String} {command : Command}
    (hread : read line = .command command argument) (h : shell.session.Overtaxed command argument) :
    ∃ failure, (shell.respond line).2 = .error failure := by
  have hfault : ∃ fault s, (perform command argument).run.run shell.session = (.error (.fault fault), s) := by
    cases command with
    | next | pretty | names | tree | help | endOfInput | quit => cases h
    | load =>
        obtain ⟨fault, hparse⟩ := Registry.exists_badReference_of_overlong shell.session.registry h
        refine ⟨fault, shell.session.issuedBy
          (shell.session.registry.parseNode shell.session.settings.limits argument), ?_⟩
        rw [perform, Session.run_bind, Session.run_load_of_error hparse]
        rfl
    | step =>
        obtain ⟨fault, hcount⟩ := exists_fault_of_isUnreadableCount 1 h
        refine ⟨fault, shell.session, ?_⟩
        simp only [perform, Session.run_bind, Session.run_get, Session.run_lift, hcount]
    | tromp =>
        rcases h with h | ⟨scale, hscale, hpixels⟩
        · obtain ⟨fault, hcount⟩ := exists_fault_of_isUnreadableCount Layout.defaultScale h
          refine ⟨fault, shell.session, ?_⟩
          simp only [perform, Session.run_bind, Session.run_get, Session.run_lift, hcount]
        · obtain ⟨fault, hpixels⟩ := Option.ne_none_iff_exists'.mp hpixels
          refine ⟨fault, shell.session, ?_⟩
          simp only [perform, Session.run_bind, Session.run_get, Session.run_lift, hscale, Session.dumpCircuit,
            hpixels]
  obtain ⟨fault, s, hrun⟩ := hfault
  have hrespond := shell.respond_eq line
  have hwork : shell.work line = perform command argument := by
    unfold work
    rw [hread]
  rw [hwork, hrun] at hrespond
  have hleft : ∃ left, (s.console.settle (.fault fault)).2 = some left := by
    unfold Console.settle Console.throw
    cases s.console.fatal <;> exact ⟨_, rfl⟩
  obtain ⟨left, hleft⟩ := hleft
  exact ⟨left, hrespond.2.trans (by rw [hleft])⟩

end Shell
end LambdaStepper
