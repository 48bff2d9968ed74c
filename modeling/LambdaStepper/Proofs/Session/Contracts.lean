import LambdaStepper.Proofs.Report.Reported
import LambdaStepper.Proofs.Session.Stepping

/-! # What actions do to a session

A contract (`Ensures`) says what an action makes of every session with some property, where it succeeds and where
it fails; there is one rule for each way to put actions together.  Most actions of a session leave alone what it
keeps from statement to statement (`Aside`): they print, warn, or change the term that is stepped through. -/

namespace LambdaStepper

namespace Session

/-! ### Contracts -/

/-- What an action makes of every session with the first property: if it succeeds, its value and the session
behind it have the second one, and if it fails, its failure and that session the third one. -/
def Ensures {α : Type} (pre : Session → Prop) (action : Action α) (post : α → Session → Prop)
    (failed : Failure → Session → Prop) : Prop :=
  ∀ s, pre s → match action.run.run s with
    | (.ok a, s') => post a s'
    | (.error failure, s') => failed failure s'

namespace Ensures

variable {α β : Type} {pre : Session → Prop} {failed : Failure → Session → Prop} {post : α → Session → Prop}

theorem of_run_ok {action : Action α} (h : Ensures pre action post failed) {s s' : Session} (hs : pre s) {a : α}
    (hrun : action.run.run s = (.ok a, s')) : post a s' := by
  have hs' := h s hs
  rwa [hrun] at hs'

theorem of_run_error {action : Action α} (h : Ensures pre action post failed) {s s' : Session} (hs : pre s)
    {failure : Failure} (hrun : action.run.run s = (.error failure, s')) : failed failure s' := by
  have hs' := h s hs
  rwa [hrun] at hs'

theorem pure {a : α} (h : ∀ s, pre s → post a s) : Ensures pre (Pure.pure a) post failed :=
  h

theorem bind {action : Action α} (h : Ensures pre action post failed) {next : α → Action β}
    {post' : β → Session → Prop} (hnext : ∀ a, Ensures (post a) (next a) post' failed) :
    Ensures pre (action >>= next) post' failed := by
  intro s hs
  rw [run_bind]
  rcases hrun : action.run.run s with ⟨failure | a, s'⟩
  · exact h.of_run_error hs hrun
  · exact hnext a s' (h.of_run_ok hs hrun)

theorem get_bind {next : Session → Action β} {post' : β → Session → Prop}
    (h : ∀ s, pre s → Ensures (· = s) (next s) post' failed) : Ensures pre (get >>= next) post' failed := by
  intro s hs
  rw [run_bind, run_get]
  exact h s hs s rfl

theorem modify {f : Session → Session} {post : Unit → Session → Prop} (h : ∀ s, pre s → post () (f s)) :
    Ensures pre (modify f) post failed :=
  h

theorem lift {result : Except Failure α} (hok : ∀ a s, result = .ok a → pre s → post a s)
    (herror : ∀ failure s, result = .error failure → pre s → failed failure s) :
    Ensures pre (lift result) post failed := by
  intro s hs
  rw [run_lift]
  cases result with
  | ok a => exact hok a s rfl hs
  | error failure => exact herror failure s rfl hs

theorem liftWith {ε : Type} {failure : ε → Failure} {result : Except ε α}
    (hok : ∀ a s, result = .ok a → pre s → post a s)
    (herror : ∀ e s, result = .error e → pre s → failed (failure e) s) :
    Ensures pre (liftWith failure result) post failed := by
  intro s hs
  rw [run_liftWith]
  cases result with
  | ok a => exact hok a s rfl hs
  | error e => exact herror e s rfl hs

theorem imp {action : Action α} (h : Ensures pre action post failed) {pre' : Session → Prop}
    {post' : α → Session → Prop} {failed' : Failure → Session → Prop} (hpre : ∀ s, pre' s → pre s)
    (hpost : ∀ a s, post a s → post' a s) (hfailed : ∀ failure s, failed failure s → failed' failure s) :
    Ensures pre' action post' failed' := by
  intro s hs
  rcases hrun : action.run.run s with ⟨failure | a, s'⟩
  · exact hfailed failure s' (h.of_run_error (hpre s hs) hrun)
  · exact hpost a s' (h.of_run_ok (hpre s hs) hrun)

theorem of_eq {action : Action α} (h : Ensures pre action post failed) {s : Session} (hs : pre s) :
    Ensures (· = s) action post failed := by
  rintro _ rfl
  exact h _ hs

theorem forM {ι : Type} {xs : List ι} {action : ι → Action Unit}
    (h : ∀ x ∈ xs, Ensures pre (action x) (fun _ => pre) failed) :
    Ensures pre (xs.forM action) (fun _ => pre) failed := by
  induction xs with
  | nil => exact .pure fun _ hs => hs
  | cons x xs ih =>
      exact (h x List.mem_cons_self).bind fun _ => ih fun y hy => h y (List.mem_cons_of_mem _ hy)

end Ensures

/-! ### What sessions keep from statement to statement -/

/-- Whether sessions differ in nothing but what was printed, the warnings, and the term being stepped through. -/
structure Aside (s s' : Session) : Prop where
  settings : s'.settings = s.settings
  registry : s'.registry = s.registry
  pending : s'.pending = s.pending
  results : s'.results = s.results
  fatal : s'.console.fatal = s.console.fatal
  files : s'.console.files = s.console.files

namespace Aside

variable {s s' : Session}

@[refl] theorem refl (s : Session) : s.Aside s :=
  ⟨rfl, rfl, rfl, rfl, rfl, rfl⟩

theorem onConsole (h : s.Aside s') {c : Console} (hfatal : c.fatal = s'.console.fatal)
    (hfiles : c.files = s'.console.files) : s.Aside { s' with console := c } :=
  { h with fatal := hfatal.trans h.fatal, files := hfiles.trans h.files }

theorem activeLines (h : s.Aside s') : s'.console.activeLines = s.console.activeLines := by
  unfold Console.activeLines
  rw [h.files]

end Aside

theorem fatal_warn (c : Console) (r : Report) : (c.warn r).fatal = c.fatal := by
  unfold Console.warn Console.printDiagnosis
  dsimp only
  split <;> rfl

theorem files_warn (c : Console) (r : Report) : (c.warn r).files = c.files := by
  unfold Console.warn Console.printDiagnosis
  dsimp only
  split <;> rfl

/-- Whether the numerals in a text can be read in a session. -/
def Reads (s : Session) (text : String) : Prop :=
  Registry.overlongNumeral? s.settings.limits text.toList = none

/-- A failure after which only such things are different.  It is printed, and swallowed if what is read is
legible. -/
structure FailsAside (s : Session) (legible : Prop) (failure : Failure) (s' : Session) : Prop where
  aside : s.Aside s'
  isPrinted : failure.IsPrinted
  isReported : s.registry.IsLegible s.settings.limits → legible → failure.IsReported

theorem FailsAside.of_isReported {s s' : Session} (h : s.Aside s') {legible : Prop} {failure : Failure}
    (hreported : failure.IsReported) : s.FailsAside legible failure s' :=
  ⟨h, hreported.isPrinted, fun _ _ => hreported⟩

section Elementary

variable (s : Session) {legible : Prop} {failed : Failure → Session → Prop}

theorem ensures_print (text : String) : Ensures s.Aside (print text) (fun _ => s.Aside) failed :=
  .modify fun _ h => h.onConsole rfl rfl

theorem ensures_warnAll (warnings : List Report) :
    Ensures s.Aside (warnAll warnings) (fun _ => s.Aside) failed := by
  refine .modify fun s' h => ?_
  have hkept : ∀ c : Console, (warnings.foldl Console.warn c).fatal = c.fatal ∧
      (warnings.foldl Console.warn c).files = c.files := by
    induction warnings with
    | nil => exact fun c => ⟨rfl, rfl⟩
    | cons r warnings ih =>
        intro c
        rw [List.foldl_cons, (ih (c.warn r)).1, (ih (c.warn r)).2]
        exact ⟨fatal_warn c r, files_warn c r⟩
  exact h.onConsole (hkept s'.console).1 (hkept s'.console).2

theorem ensures_enter (n : Node) (before : List Term) :
    Ensures s.Aside (enter n before) (fun _ => s.Aside) failed :=
  .modify fun _ h => { h with }

theorem ensures_take {α : Type} (c : Issuing α) : Ensures s.Aside (take c) (fun _ => s.Aside) failed :=
  fun _ h => { h with }

theorem ensures_shown (t? : Option Term) :
    Ensures s.Aside (shown t?) (fun _ => s.Aside) (s.FailsAside legible) := by
  refine .get_bind fun s' h => ?_
  cases t? <|> s'.loaded.map Node.term with
  | none => exact .pure fun _ hs => hs ▸ h
  | some t =>
      refine .lift (fun _ _ _ hs => hs ▸ h) fun failure _ hfail hs => .of_isReported (hs ▸ h) ?_
      exact Term.isReported_of_printWithin hfail

theorem ensures_prettify (t? : Option Term) :
    Ensures s.Aside (prettify t?) (fun _ => s.Aside) (s.FailsAside legible) := by
  refine .get_bind fun s' h => ?_
  cases t? <|> s'.loaded.map Node.term with
  | none => exact .pure fun _ hs => hs ▸ h
  | some t =>
      refine ((s.ensures_take _).of_eq h).bind fun _ => (s.ensures_warnAll _).bind fun _ => ?_
      refine .lift (fun _ _ _ hs => hs) fun failure _ hfail hs =>
        ⟨hs, Term.isPrinted_of_prettify hfail, fun hlegible _ => ?_⟩
      rw [← h.registry, ← h.settings] at hlegible
      exact Term.isReported_of_prettify hlegible hfail

theorem ensures_parse (text : String) :
    Ensures s.Aside (parse text) (fun _ => s.Aside) (s.FailsAside (s.Reads text)) := by
  intro s' h
  have hparse := s.registry.term_parseNode s.settings.limits text s'.supply
  rw [run_parse, h.registry, h.settings]
  cases hparsed : (s.registry.parseNode s.settings.limits text s'.supply).1 with
  | ok n => exact { h with }
  | error fault =>
      rw [hparsed] at hparse
      exact ⟨{ h with }, fault.isPrinted, fun hr htext => Registry.isReported_of_parse hr htext hparse.symm⟩

theorem ensures_normalize (t : Term) {s' : Session} (h : s.Aside s') :
    Ensures (· = s') (liftWith ReductionFault.failure (t.normalizeWithin s'.settings.limits s'.settings.maxSteps))
      (fun _ => s.Aside) (s.FailsAside legible) :=
  .liftWith (fun _ _ _ hs => hs ▸ h) fun fault _ _ hs => .of_isReported (hs ▸ h) fault.isReported

theorem ensures_execute (expr : String) :
    Ensures s.Aside (execute expr) (fun _ => s.Aside) (s.FailsAside (s.Reads expr)) := by
  refine (s.ensures_parse expr).bind fun n => .get_bind fun s' h =>
    (s.ensures_normalize n.term h).bind fun reduction => (s.ensures_take _).bind fun _ => ?_
  have hpretty : Ensures s.Aside (do return Result.mk expr reduction (← prettify (some reduction.result)))
      (fun _ => s.Aside) (s.FailsAside (s.Reads expr)) :=
    (s.ensures_prettify _).bind fun _ => .pure fun _ hs => hs
  dsimp only
  split
  · exact (s.ensures_warnAll _).bind fun _ => hpretty
  · exact hpretty

theorem ensures_load (expr : String) :
    Ensures s.Aside (load expr) (fun _ => s.Aside) (s.FailsAside (s.Reads expr)) :=
  (s.ensures_parse expr).bind fun n => (s.ensures_enter n []).bind fun _ => .pure fun _ hs => hs

theorem ensures_step : Ensures s.Aside step (fun _ => s.Aside) (s.FailsAside legible) := by
  intro s' h
  cases hloaded : s'.loaded with
  | none =>
      rw [run_step_of_blank hloaded]
      exact .of_isReported h ⟨_, rfl⟩
  | some n =>
      rw [run_step hloaded]
      cases n.term.reduceStepWithin s'.settings.limits with
      | error fault => exact .of_isReported h fault.isReported
      | ok made =>
          dsimp only
          split
          · exact { h with }
          · exact { h with }

end Elementary

/-! ### Statements -/

/-- The session in which a line is the one being worked on. -/
def working (s : Session) (line : String) (number : Int) : Session :=
  { s with console := s.console.registerLine s.settings.path line number }

@[simp] theorem settings_working (s : Session) (line : String) (number : Int) :
    (s.working line number).settings = s.settings :=
  rfl

@[simp] theorem registry_working (s : Session) (line : String) (number : Int) :
    (s.working line number).registry = s.registry :=
  rfl

@[simp] theorem pending_working (s : Session) (line : String) (number : Int) :
    (s.working line number).pending = s.pending :=
  rfl

/-- The session in which no line of its file is being worked on. -/
def resting (s : Session) : Session :=
  { s with console := s.console.removeLine s.settings.path }

/-- The part of a statement that is parsed: the term, or the definition of a named one. -/
def termText (statement : String) : String :=
  match Text.splitFirst? [':', '='] statement.toList with
  | some (_, definition) => String.ofList (Text.trim definition)
  | none => statement

theorem exists_run_define (s : Session) (name definition : String) (description : Option String) :
    ∃ supply, (define name definition description).run.run s =
      match s.registry.define s.settings.limits ⟨name, definition, description⟩ with
      | .ok registry => (.ok ⟨name, definition, description⟩, { s with registry, supply })
      | .error fault => (.error fault.failure, { s with supply }) := by
  unfold define
  simp only [run_bind, run_get, run_take, run_liftWith]
  cases s.registry.define s.settings.limits _ <;> exact ⟨_, rfl⟩

theorem exists_run_add (s : Session) (expr : String) (line : Int) :
    ∃ supply, (add expr line).run.run s =
      match Text.splitFirst? [':', '='] expr.toList with
      | some (name, definition) =>
        match s.registry.define s.settings.limits
          ⟨String.ofList (Text.trim name), String.ofList (Text.trim definition), none⟩ with
        | .ok registry => (.ok (), { s.working expr line with registry, supply }.resting)
        | .error fault => (.error fault.failure, { s.working expr line with supply })
      | none =>
        match s.registry.parse s.settings.limits expr with
        | .ok _ =>
          (.ok (), { s.working expr line with pending := setPending line expr s.pending, supply }.resting)
        | .error fault => (.error fault.failure, { s.working expr line with supply }) := by
  have hworking : (registerLine expr line).run.run s = (.ok (), s.working expr line) := rfl
  unfold add
  rw [run_bind, hworking]
  cases Text.splitFirst? [':', '='] expr.toList with
  | some parts =>
      obtain ⟨supply, hrun⟩ := (s.working expr line).exists_run_define
        (String.ofList (Text.trim parts.1)) (String.ofList (Text.trim parts.2)) none
      rw [settings_working, registry_working] at hrun
      simp only [run_bind, hrun]
      cases s.registry.define s.settings.limits _ <;> exact ⟨supply, rfl⟩
  | none =>
      simp only [run_bind, run_parse, settings_working, registry_working]
      rw [← s.registry.term_parseNode s.settings.limits expr (s.working expr line).supply]
      cases (s.registry.parseNode s.settings.limits expr (s.working expr line).supply).1 <;> exact ⟨_, rfl⟩

theorem run_runOne (s : Session) (line : Int) (expr : String) :
    (runOne line expr).run.run s =
      match (execute expr).run.run (s.working expr line) with
      | (.ok result, s') =>
        (.ok (), { s' with
          pending := s'.pending.filter fun entry => entry.1 != line
          results := s'.results ++ [result] }.resting)
      | (.error failure, s') =>
        (.error failure, { s' with pending := s'.pending.filter fun entry => entry.1 != line }) := by
  have hworking : (registerLine expr line).run.run s = (.ok (), s.working expr line) := rfl
  have hobserving : (runOne.observing (execute expr)).run.run (s.working expr line)
      = (.ok ((execute expr).run.run (s.working expr line)).1, ((execute expr).run.run (s.working expr line)).2) := rfl
  unfold runOne
  rw [run_bind, hworking]
  dsimp only
  rw [run_bind, hobserving]
  rcases (execute expr).run.run (s.working expr line) with ⟨failure | result, s'⟩ <;> rfl

end Session
end LambdaStepper
