import LambdaStepper.Proofs.Session.Contracts

/-! # Sessions lose nothing

Whatever is done with a session, and whatever of it fails: an operation that fails changes nothing of what the
session keeps (`Operation.keeps_of_error`), the history goes on step by step to the term that is loaded
(`IsTraced.afterAll`), and what was accepted was executed or waits, all of it in order
(`pending_append_acceptedBy`).  Only a run may fail halfway (`ranInOrder_run`).

The statements that a run executes are those that wait when it begins, and each of them leaves these before the next
one is looked at.  So what waits and what the run has still to do are one list all the way, as long as no two
statements have the same line. -/

namespace LambdaStepper

namespace Session

/-- What is done with a session. -/
inductive Operation where
  | add (expr : String) (line : Int)
  | define (name definition : String) (description : Option String)
  | run
  | load (expr : String)
  | step
  deriving DecidableEq

/-- The action of an operation, its value aside. -/
def Operation.action : Operation → Action Unit
  | add expr line => Session.add expr line
  | define name definition description => do let _ ← Session.define name definition description
  | run => Session.run
  | load expr => do let _ ← Session.load expr
  | step => do let _ ← Session.step

/-- The line of a statement that is added. -/
def Operation.line? : Operation → Option Int
  | add _ line => some line
  | _ => none

/-- The session behind an action, whatever comes of it. -/
def behind {α : Type} (s : Session) (action : Action α) : Session :=
  (action.run.run s).2

/-- The session behind some operations, one after the other. -/
def afterAll (s : Session) : List Operation → Session
  | [] => s
  | op :: ops => (s.behind op.action).afterAll ops

theorem Ensures.behind {α : Type} {pre post : Session → Prop} {action : Action α}
    (h : Ensures pre action (fun _ => post) fun _ => post) {s : Session} (hs : pre s) : post (s.behind action) := by
  unfold Session.behind
  rcases hrun : action.run.run s with ⟨failure | a, s'⟩
  · exact h.of_run_error hs hrun
  · exact h.of_run_ok hs hrun

/-! ### Failing operations -/

/-- Whether sessions agree in all that they keep, except for what is shown and how they are set up. -/
structure Keeps (s s' : Session) : Prop where
  registry : s'.registry = s.registry
  pending : s'.pending = s.pending
  results : s'.results = s.results
  loaded : s'.loaded = s.loaded
  history : s'.history = s.history

theorem Keeps.refl (s : Session) : s.Keeps s :=
  ⟨rfl, rfl, rfl, rfl, rfl⟩

theorem keeps_supplied (s : Session) (supply : IdSupply) : s.Keeps { s with supply } :=
  ⟨rfl, rfl, rfl, rfl, rfl⟩

theorem keeps_working (s : Session) (line : String) (number : Int) (supply : IdSupply) :
    s.Keeps { s.working line number with supply } :=
  ⟨rfl, rfl, rfl, rfl, rfl⟩

theorem run_void {α : Type} (s : Session) (action : Action α) :
    (do let _ ← action : Action Unit).run.run s
      = ((action.run.run s).1.map fun _ => (), s.behind action) := by
  rw [run_bind, behind]
  rcases action.run.run s with ⟨failure | a, s'⟩ <;> rfl

/-- An operation other than a run changes nothing when it fails. -/
theorem Operation.keeps_of_error {op : Operation} (hop : op ≠ .run) {s s' : Session} {failure : Failure}
    (h : op.action.run.run s = (.error failure, s')) : s.Keeps s' := by
  cases op with
  | add expr line =>
      obtain ⟨supply, hrun⟩ := s.exists_run_add expr line
      rw [action, hrun] at h
      split at h <;> split at h <;> cases h
      · exact s.keeps_working expr line supply
      · exact s.keeps_working expr line supply
  | define name definition description =>
      obtain ⟨supply, hrun⟩ := s.exists_run_define name definition description
      rw [action, run_void, behind, hrun] at h
      split at h <;> cases h
      exact s.keeps_supplied supply
  | run => exact absurd rfl hop
  | load expr =>
      rw [action, run_void, behind, run_load] at h
      split at h <;> cases h
      exact s.keeps_supplied _
  | step =>
      rw [action, run_void, behind] at h
      cases hloaded : s.loaded with
      | none =>
          rw [run_step_of_blank hloaded] at h
          cases h
          exact .refl s
      | some n =>
          rw [run_step hloaded] at h
          split at h <;> cases h
          exact .refl s

/-! ### The history -/

/-- Whether the history of a session goes on step by step to the term that is loaded. -/
structure IsTraced (s : Session) : Prop where
  history_eq_nil_iff : s.history = [] ↔ s.loaded = none
  getLast?_history : s.history.getLast? = s.loaded.map Node.term
  isChain : s.history.IsChain fun t u => t.reduceStep.changed = true ∧ t.reduceStep.result = u

theorem IsTraced.congr {s s' : Session} (h : s.IsTraced) (hloaded : s'.loaded = s.loaded)
    (hhistory : s'.history = s.history) : s'.IsTraced := by
  constructor <;> rw [hhistory]
  · rw [hloaded]
    exact h.history_eq_nil_iff
  · rw [hloaded]
    exact h.getLast?_history
  · exact h.isChain

theorem isTraced_entered_nil (s : Session) (n : Node) : (s.entered n []).IsTraced where
  history_eq_nil_iff := by simp
  getLast?_history := rfl
  isChain := .singleton n.term

theorem IsTraced.entered {s : Session} (h : s.IsTraced) {n n' : Node} (hloaded : s.loaded = some n)
    (hchanged : n.term.reduceStep.changed = true) (hresult : n'.term = n.term.reduceStep.result)
    {s' : Session} : (s'.entered n' s.history).IsTraced where
  history_eq_nil_iff := by simp
  getLast?_history := by simp
  isChain := by
    rw [history_entered, List.isChain_append]
    refine ⟨h.isChain, .singleton _, ?_⟩
    intro t ht u hu
    rw [h.getLast?_history, hloaded] at ht
    obtain rfl := Option.some.inj ht
    obtain rfl := Option.some.inj hu
    exact ⟨hchanged, hresult.symm⟩

theorem exists_run_runOne (s : Session) (line : Int) (expr : String) :
    ∃ console supply, (runOne line expr).run.run s = match s.outcome (execute expr) with
      | .ok result => (.ok (), { s with
          console, pending := s.pending.filter fun entry => entry.1 != line, results := s.results ++ [result],
          supply })
      | .error failure => (.error failure, { s with
          console, pending := s.pending.filter fun entry => entry.1 != line, supply }) := by
  obtain ⟨console, supply, hrun⟩ := exists_run_execute (s.working expr line) expr
  rw [settings_working, registry_working, ← outcome_execute] at hrun
  rw [run_runOne, hrun]
  cases s.outcome (execute expr) with
  | ok result => exact ⟨_, supply, rfl⟩
  | error failure => exact ⟨console, supply, rfl⟩

theorem ensures_run_isTraced : Ensures IsTraced Session.run (fun _ => IsTraced) fun _ => IsTraced := by
  refine .get_bind fun s hs => ?_
  refine (Ensures.forM ?_).imp (fun _ h => h ▸ hs) (fun _ _ h => h) fun _ _ h => h
  rintro ⟨line, expr⟩ - s' hs'
  obtain ⟨console, supply, hrun⟩ := exists_run_runOne s' line expr
  dsimp only
  rw [hrun]
  cases s'.outcome (execute expr) with
  | ok result => exact hs'.congr rfl rfl
  | error failure => exact hs'.congr rfl rfl

theorem IsTraced.behind {s : Session} (h : s.IsTraced) (op : Operation) : (s.behind op.action).IsTraced := by
  cases op with
  | add expr line =>
      obtain ⟨supply, hrun⟩ := s.exists_run_add expr line
      rw [Operation.action, Session.behind, hrun]
      split <;> split <;> exact h.congr rfl rfl
  | define name definition description =>
      obtain ⟨supply, hrun⟩ := s.exists_run_define name definition description
      rw [Operation.action, Session.behind, run_void, Session.behind, hrun]
      split <;> exact h.congr rfl rfl
  | run =>
      exact ensures_run_isTraced.behind h
  | load expr =>
      rw [Operation.action, Session.behind, run_void, Session.behind, run_load]
      split
      · exact isTraced_entered_nil _ _
      · exact h.congr rfl rfl
  | step =>
      rw [Operation.action, Session.behind, run_void, Session.behind]
      cases hloaded : s.loaded with
      | none =>
          rw [run_step_of_blank hloaded]
          exact h
      | some n =>
          rw [run_step hloaded]
          split
          · exact h
          · next step hstep =>
            obtain rfl := reduceStep_of_within hstep
            split
            · next hchanged => exact h.entered hloaded hchanged (n.term_reduceStep s.supply)
            · exact h.congr rfl rfl

theorem IsTraced.afterAll {s : Session} (h : s.IsTraced) (ops : List Operation) : (s.afterAll ops).IsTraced := by
  induction ops generalizing s with
  | nil => exact h
  | cons op ops ih => exact ih (h.behind op)

/-! ### Statements -/

/-- The statement for a later run that an operation adds, if it is accepted. -/
def Operation.accepted (s : Session) : Operation → List (Int × String)
  | add expr line =>
    match Text.splitFirst? [':', '='] expr.toList, s.outcome (Session.add expr line) with
    | none, .ok _ => [(line, expr)]
    | _, _ => []
  | _ => []

/-- The statements that are executed of a list, one after the other up to the first that fails. -/
def executedOf (s : Session) : List (Int × String) → List (Int × String)
  | [] => []
  | (line, expr) :: later =>
    match (runOne line expr).run.run s with
    | (.ok _, s') => (line, expr) :: s'.executedOf later
    | (.error _, _) => [(line, expr)]

/-- The statements that an operation executes. -/
def Operation.executed (s : Session) : Operation → List (Int × String)
  | run => s.executedOf s.pending
  | _ => []

/-- The statements that are accepted on the way through some operations. -/
def acceptedBy (s : Session) : List Operation → List (Int × String)
  | [] => []
  | op :: ops => op.accepted s ++ (s.behind op.action).acceptedBy ops

/-- The statements that are executed on the way through some operations. -/
def executedBy (s : Session) : List Operation → List (Int × String)
  | [] => []
  | op :: ops => op.executed s ++ (s.behind op.action).executedBy ops

/-- Whether one session comes from the other by reducing some statements, after which others wait. -/
structure Reduced (s s' : Session) (done later : List (Int × String)) : Prop where
  results : ∃ results, s'.results = s.results ++ results ∧
    List.Forall₂ (fun statement result => s.outcome (execute statement.2) = .ok result) done results
  pending : s'.pending = later
  settings : s'.settings = s.settings
  registry : s'.registry = s.registry
  loaded : s'.loaded = s.loaded
  history : s'.history = s.history

theorem Reduced.nil {s s' : Session} {later : List (Int × String)} (hpending : s'.pending = later)
    (hrest : s' = { s with console := s'.console, pending := s'.pending, supply := s'.supply }) :
    s.Reduced s' [] later where
  results := ⟨[], by rw [hrest]; simp, .nil⟩
  pending := hpending
  settings := by rw [hrest]
  registry := by rw [hrest]
  loaded := by rw [hrest]
  history := by rw [hrest]

/-- What is executed does not depend on what was executed before. -/
theorem Reduced.outcome_execute {s s' : Session} {done later : List (Int × String)} (h : s.Reduced s' done later)
    (expr : String) : s'.outcome (execute expr) = s.outcome (execute expr) := by
  rw [Session.outcome_execute, Session.outcome_execute, h.settings, h.registry]

theorem Reduced.trans {s s' s'' : Session} {done done' later later' : List (Int × String)}
    (h : s.Reduced s' done later) (h' : s'.Reduced s'' done' later') : s.Reduced s'' (done ++ done') later' where
  results := by
    obtain ⟨results, hresults, houtcomes⟩ := h.results
    obtain ⟨results', hresults', houtcomes'⟩ := h'.results
    refine ⟨results ++ results', by rw [hresults', hresults, List.append_assoc], List.rel_append houtcomes ?_⟩
    exact houtcomes'.imp fun _ _ houtcome => (h.outcome_execute _).symm.trans houtcome
  pending := h'.pending
  settings := h'.settings.trans h.settings
  registry := h'.registry.trans h.registry
  loaded := h'.loaded.trans h.loaded
  history := h'.history.trans h.history

/-- The first of the pending statements leaves them, whatever comes of it. -/
theorem runOne_cases {s : Session} {line : Int} {expr : String} {later : List (Int × String)}
    (hpending : s.pending = (line, expr) :: later) (hfresh : line ∉ later.map Prod.fst) :
    (∃ s', (runOne line expr).run.run s = (.ok (), s') ∧ s.Reduced s' [(line, expr)] later) ∨
    ∃ failure s', (runOne line expr).run.run s = (.error failure, s') ∧
      s.outcome (execute expr) = .error failure ∧ s.Reduced s' [] later := by
  have hlater : (s.pending.filter fun entry => entry.1 != line) = later := by
    rw [hpending, List.filter_cons_of_neg (by simp), List.filter_eq_self]
    intro entry hentry
    have hne : entry.1 ≠ line := fun heq => hfresh (heq ▸ List.mem_map_of_mem hentry)
    simpa using hne
  obtain ⟨console, supply, hrun⟩ := exists_run_runOne s line expr
  rw [hlater] at hrun
  cases houtcome : s.outcome (execute expr) with
  | ok result =>
      rw [houtcome] at hrun
      exact .inl ⟨_, hrun, ⟨[result], rfl, .cons houtcome .nil⟩, rfl, rfl, rfl, rfl, rfl⟩
  | error failure =>
      rw [houtcome] at hrun
      exact .inr ⟨failure, _, hrun, rfl, .nil rfl rfl⟩

/-- What comes of executing some statements in order.  Either that goes to their end, or one of them fails: the
results of those before it are kept, and those behind it wait. -/
inductive RanInOrder (s : Session) : List (Int × String) → Except Failure Unit × Session → Prop where
  | through {statements : List (Int × String)} {s' : Session}
      (hexecuted : s.executedOf statements = statements) (hreduced : s.Reduced s' statements []) :
      s.RanInOrder statements (.ok (), s')
  | stopped {done : List (Int × String)} {line : Int} {expr : String} {later : List (Int × String)}
      {failure : Failure} {s' : Session} (hexecute : s.outcome (execute expr) = .error failure)
      (hexecuted : s.executedOf (done ++ (line, expr) :: later) = done ++ [(line, expr)])
      (hreduced : s.Reduced s' done later) :
      s.RanInOrder (done ++ (line, expr) :: later) (.error failure, s')

theorem RanInOrder.executedOf_append {s : Session} {statements : List (Int × String)}
    {ran : Except Failure Unit × Session} (h : s.RanInOrder statements ran) :
    statements = s.executedOf statements ++ ran.2.pending := by
  cases h with
  | through hexecuted hreduced => rw [hexecuted, hreduced.pending, List.append_nil]
  | stopped hexecute hexecuted hreduced =>
      rw [hexecuted, hreduced.pending, List.append_assoc]
      rfl

theorem RanInOrder.cons {s s' : Session} {line : Int} {expr : String} {later : List (Int × String)}
    {ran : Except Failure Unit × Session} (hrun : (runOne line expr).run.run s = (.ok (), s'))
    (hreduced : s.Reduced s' [(line, expr)] later) (h : s'.RanInOrder later ran) :
    s.RanInOrder ((line, expr) :: later) ran := by
  have hexecuted : ∀ statements, s.executedOf ((line, expr) :: statements)
      = (line, expr) :: s'.executedOf statements := by
    intro statements
    rw [executedOf, hrun]
  cases h with
  | through hrest hreduced' =>
      refine .through ?_ (hreduced.trans hreduced')
      rw [hexecuted, hrest]
  | @stopped done line' expr' later' failure s'' hexecute hrest hreduced' =>
      have hstopped : s.RanInOrder (((line, expr) :: done) ++ (line', expr') :: later') (.error failure, s'') := by
        refine .stopped ?_ ?_ (hreduced.trans hreduced')
        · rw [← hreduced.outcome_execute, hexecute]
        · rw [List.cons_append, hexecuted, hrest]
          rfl
      exact hstopped

/-- The pending statements are executed in order. -/
theorem ranInOrder_run (s : Session) (hlines : (s.pending.map Prod.fst).Nodup) :
    s.RanInOrder s.pending (run.run.run s) := by
  -- what is pending and what is left of the statements a run takes up are the same all the way
  suffices h : ∀ statements, s.pending = statements → s.RanInOrder statements
      ((statements.forM fun statement => runOne statement.1 statement.2 : Action Unit).run.run s) by
    unfold run
    rw [run_bind, run_get]
    exact h s.pending rfl
  intro statements
  induction statements generalizing s with
  | nil =>
      intro hpending
      exact .through rfl (.nil hpending rfl)
  | cons statement later ih =>
      obtain ⟨line, expr⟩ := statement
      intro hpending
      rw [hpending, List.map_cons, List.nodup_cons] at hlines
      obtain ⟨hfresh, hlater⟩ := hlines
      show s.RanInOrder _ (StateT.run (ExceptT.run (runOne line expr >>= fun _ => later.forM _)) s)
      rw [run_bind]
      rcases runOne_cases hpending hfresh with ⟨s', hrun, hreduced⟩ | ⟨failure, s', hrun, hexecute, hreduced⟩
      · rw [hrun]
        exact .cons hrun hreduced (ih s' (hreduced.pending ▸ hlater) hreduced.pending)
      · rw [hrun]
        have hstopped : s.RanInOrder ([] ++ (line, expr) :: later) (.error failure, s') := by
          refine .stopped hexecute ?_ hreduced
          rw [List.nil_append, executedOf, hrun]
          rfl
        exact hstopped

theorem setPending_of_notMem {line : Int} {expr : String} {pending : List (Int × String)}
    (h : line ∉ pending.map Prod.fst) : setPending line expr pending = pending ++ [(line, expr)] := by
  induction pending with
  | nil => rfl
  | cons entry pending ih =>
      obtain ⟨l, e⟩ := entry
      rw [List.map_cons, List.mem_cons, not_or] at h
      rw [setPending, if_neg (Ne.symm h.1), ih h.2, List.cons_append]

theorem pending_behind_of_aside {α : Type} (s : Session) {action : Action α} {legible : Prop}
    (h : Ensures s.Aside action (fun _ => s.Aside) (s.FailsAside legible)) :
    (s.behind action).pending = s.pending :=
  have hpending : Ensures s.Aside action (fun _ s' => s'.pending = s.pending) fun _ s' => s'.pending = s.pending :=
    h.imp (fun _ hs => hs) (fun _ _ hs => hs.pending) fun _ _ hs => hs.aside.pending
  hpending.behind (.refl s)

/-- What was pending and what is accepted are executed or pending afterwards, in that order. -/
theorem Operation.pending_append_accepted (s : Session) (op : Operation)
    (hlines : (s.pending.map Prod.fst ++ op.line?.toList).Nodup) :
    s.pending ++ op.accepted s = op.executed s ++ (s.behind op.action).pending := by
  cases op with
  | add expr line =>
      have hfresh : line ∉ s.pending.map Prod.fst := by
        intro hmem
        exact List.disjoint_of_nodup_append hlines hmem (List.mem_singleton_self line)
      obtain ⟨supply, hrun⟩ := s.exists_run_add expr line
      simp only [accepted, executed, action, outcome, behind, hrun, List.nil_append]
      cases Text.splitFirst? [':', '='] expr.toList with
      | some parts =>
          simp only [List.append_nil]
          split <;> rfl
      | none =>
          cases s.registry.parse s.settings.limits expr with
          | ok t => exact (setPending_of_notMem hfresh).symm
          | error fault => exact List.append_nil _
  | run => exact (List.append_nil _).trans (s.ranInOrder_run (List.nodup_append.mp hlines).1).executedOf_append
  | define name definition description =>
      obtain ⟨supply, hrun⟩ := s.exists_run_define name definition description
      simp only [accepted, executed, action, behind, run_void, hrun, List.append_nil, List.nil_append]
      split <;> rfl
  | load expr =>
      simp only [accepted, executed, action, behind, run_void, List.append_nil, List.nil_append]
      exact (s.pending_behind_of_aside (s.ensures_load expr)).symm
  | step =>
      simp only [accepted, executed, action, behind, run_void, List.append_nil, List.nil_append]
      exact (s.pending_behind_of_aside (@ensures_step s True)).symm

theorem Operation.map_fst_accepted_sublist (s : Session) (op : Operation) :
    ((op.accepted s).map Prod.fst).Sublist op.line?.toList := by
  cases op with
  | add expr line =>
      rw [accepted]
      split
      · exact .refl _
      · exact List.nil_sublist _
  | define | run | load | step => exact .refl _

/-- The lines of the statements that are added. -/
def addedLines (ops : List Operation) : List Int :=
  ops.flatMap fun op => op.line?.toList

theorem map_fst_acceptedBy_sublist (s : Session) (ops : List Operation) :
    ((s.acceptedBy ops).map Prod.fst).Sublist (addedLines ops) := by
  induction ops generalizing s with
  | nil => exact .refl _
  | cons op ops ih =>
      rw [acceptedBy, addedLines, List.flatMap_cons, List.map_append]
      exact (op.map_fst_accepted_sublist s).append (ih _)

/-- What was pending and what is accepted on the way are executed or pending at the end, in that order. -/
theorem pending_append_acceptedBy (s : Session) (ops : List Operation)
    (hlines : (s.pending.map Prod.fst ++ addedLines ops).Nodup) :
    s.pending ++ s.acceptedBy ops = s.executedBy ops ++ (s.afterAll ops).pending := by
  induction ops generalizing s with
  | nil => exact List.append_nil _
  | cons op ops ih =>
      rw [addedLines, List.flatMap_cons, ← List.append_assoc] at hlines
      have hstep := op.pending_append_accepted s (List.nodup_append.mp hlines).1
      have hpending : ((s.behind op.action).pending.map Prod.fst).Sublist
          (s.pending.map Prod.fst ++ op.line?.toList) := by
        have hsuffix := List.sublist_append_right ((op.executed s).map Prod.fst)
          ((s.behind op.action).pending.map Prod.fst)
        rw [← List.map_append, ← hstep, List.map_append] at hsuffix
        exact hsuffix.trans (.append_left (op.map_fst_accepted_sublist s) _)
      have hrest := ih (s.behind op.action) (hlines.sublist (hpending.append_right _))
      rw [acceptedBy, executedBy, afterAll, ← List.append_assoc, hstep, List.append_assoc, List.append_assoc, hrest]

theorem exists_of_run_addFile {s s' : Session} {folder : Folder}
    (h : (addFile folder).run.run s = (.ok (), s')) :
    ∃ statements : List Statement,
      s' = s.afterAll (statements.map fun statement => .add statement.text statement.line) := by
  have hforM : ∀ (statements : List Statement) (s : Session),
      (statements.forM fun statement => add statement.text statement.line : Action Unit).run.run s = (.ok (), s') →
        s' = s.afterAll (statements.map fun statement => .add statement.text statement.line) := by
    intro statements
    induction statements with
    | nil =>
        intro s hrun
        exact (congrArg Prod.snd hrun).symm
    | cons statement statements ih =>
        intro s hrun
        change (StateT.run (ExceptT.run (add statement.text statement.line >>= fun _ => statements.forM _)) s)
          = _ at hrun
        rw [run_bind] at hrun
        rw [List.map_cons, afterAll, Operation.action, behind]
        rcases hadd : (add statement.text statement.line).run.run s with ⟨failure | a, s₁⟩
        · rw [hadd] at hrun
          cases hrun
        · rw [hadd] at hrun
          exact ih s₁ hrun
  unfold addFile at h
  rw [run_bind, run_get] at h
  dsimp only at h
  split at h
  · exact ⟨[], (congrArg Prod.snd h).symm⟩
  · rw [run_bind, run_lift] at h
    cases hread : folder.statements s.settings.path with
    | error failure =>
        rw [hread] at h
        cases h
    | ok statements =>
        rw [hread] at h
        exact ⟨statements, hforM statements s h⟩

/-- **Operations on a session are atomic and lose nothing.**  Whatever was done before, an operation other than a run
changes nothing if it fails, and the history goes on step by step to the term that is loaded.  The statements that
were accepted are those that were executed and those that wait, in order and none of them twice; a run executes what
waits, in order, up to the first that fails.  Reading a file is adding its statements. -/
theorem operations_lose_nothing (settings : Settings) (commandLine : Bool) (console : Console)
    (ops : List Operation) (hlines : (addedLines ops).Nodup) :
    let first := start settings commandLine console
    let s := first.afterAll ops
    (∀ op : Operation, op ≠ .run → ∀ failure s', op.action.run.run s = (.error failure, s') → s.Keeps s') ∧
    s.IsTraced ∧
    first.acceptedBy ops = first.executedBy ops ++ s.pending ∧ ((first.acceptedBy ops).map Prod.fst).Nodup ∧
    s.RanInOrder s.pending (run.run.run s) ∧
    ∀ folder s', (addFile folder).run.run first = (.ok (), s') → ∃ statements : List Statement,
      s' = first.afterAll (statements.map fun statement => .add statement.text statement.line) := by
  intro first s
  have hfirst : first.IsTraced := ⟨by simp [first, start], rfl, .nil⟩
  have hall : first.acceptedBy ops = first.executedBy ops ++ s.pending := first.pending_append_acceptedBy ops hlines
  have hdistinct : ((first.acceptedBy ops).map Prod.fst).Nodup :=
    hlines.sublist (first.map_fst_acceptedBy_sublist ops)
  have hpending : (s.pending.map Prod.fst).Nodup := by
    rw [hall, List.map_append] at hdistinct
    exact (List.nodup_append.mp hdistinct).2.1
  refine ⟨?_, hfirst.afterAll ops, hall, hdistinct, s.ranInOrder_run hpending, ?_⟩
  · exact fun op hop _ _ => op.keeps_of_error hop
  · exact fun _ _ => exists_of_run_addFile

/-- A session that may not go deep: a statement is not accepted, and a run fails on the first of two that are. -/
theorem operations_lose_nothing_interrupted :
    let first : Session := start { path := typedPath, limits := ⟨some 5, none⟩ } false {}
    let ops : List Operation :=
      [.add "(λx.x x x) (λx.x x x)" 1, .add "(x" 2, .load "(λx.x) a", .step, .add "x" 3, .run]
    (addedLines ops).Nodup ∧
      first.acceptedBy ops = [(1, "(λx.x x x) (λx.x x x)"), (3, "x")] ∧
      first.executedBy ops = [(1, "(λx.x x x) (λx.x x x)")] ∧ (first.afterAll ops).pending = [(3, "x")] := by
  intro first ops
  have hlines : (addedLines ops).Nodup := by decide
  obtain ⟨-, -, hall, -, -, -⟩ :=
    operations_lose_nothing { path := typedPath, limits := ⟨some 5, none⟩ } false {} ops hlines
  have haccepted : first.acceptedBy ops = [(1, "(λx.x x x) (λx.x x x)"), (3, "x")] := by decide +kernel
  have hexecuted : first.executedBy ops = [(1, "(λx.x x x) (λx.x x x)")] := by decide +kernel
  refine ⟨hlines, haccepted, hexecuted, ?_⟩
  rw [haccepted, hexecuted] at hall
  exact (List.cons.inj hall).2.symm

end Session
end LambdaStepper
