import LambdaStepper.Proofs.Syntax.ExpandedTokens

/-! # Recognition

Whether lexemes are those of a term is decided from left to right with little memory: the number of
parentheses that are open, and what may come next (`Progress`).  What the grammar reads as a term is what
leads from the beginning to the end of one (`run_eq_final_iff`).  In one direction that follows the grammar,
in the other the parser, whose stack tells how far it has read (`ofParser`). -/

namespace LambdaStepper.Syntax

/-- What may come next in a text. -/
inductive Phase where
  /-- A term with nothing to its left. -/
  | start
  /-- Such a term, or an origin mark before it. -/
  | opened
  /-- An end, or one more term. -/
  | left
  /-- A parameter. -/
  | binder
  /-- The point behind a parameter. -/
  | param
  /-- The rest of an origin mark, of which lexemes know nothing. -/
  | mark
  deriving DecidableEq, Repr

/-- Whether a term may begin. -/
def Phase.isOpen : Phase → Bool
  | .start | .opened | .left => true
  | .binder | .param | .mark => false

/-- How far a text has been read. -/
structure Progress where
  /-- The number of open parentheses. -/
  depth : Nat
  phase : Phase
  deriving DecidableEq, Repr

namespace Progress

/-- Goes on by one lexeme. -/
def step (p : Progress) : Lexeme → Option Progress
  | .name _ =>
    if p.phase.isOpen then some ⟨p.depth, .left⟩
    else if p.phase = .binder then some ⟨p.depth, .param⟩ else none
  | .binder => if p.phase.isOpen then some ⟨p.depth, .binder⟩ else none
  | .opening => if p.phase.isOpen then some ⟨p.depth + 1, .opened⟩ else none
  | .closing => if p.phase = .left ∧ 0 < p.depth then some ⟨p.depth - 1, .left⟩ else none
  | .point => if p.phase = .param then some ⟨p.depth, .start⟩ else none
  | .tag _ => if p.phase = .opened then some ⟨p.depth, .start⟩ else none

/-- Goes on by a list of lexemes. -/
def run (p : Progress) (ls : List Lexeme) : Option Progress :=
  ls.foldlM step p

@[simp] theorem step_binder_name (depth : Nat) (x : String) :
    step ⟨depth, .binder⟩ (.name x) = some ⟨depth, .param⟩ :=
  rfl

@[simp] theorem step_param_point (depth : Nat) : step ⟨depth, .param⟩ .point = some ⟨depth, .start⟩ :=
  rfl

@[simp] theorem step_opened_tag (depth : Nat) (label : String) :
    step ⟨depth, .opened⟩ (.tag label) = some ⟨depth, .start⟩ :=
  rfl

@[simp] theorem step_left_closing (depth : Nat) :
    step ⟨depth + 1, .left⟩ .closing = some ⟨depth, .left⟩ :=
  rfl

@[simp] theorem run_nil (p : Progress) : p.run [] = some p :=
  rfl

@[simp] theorem run_cons (p : Progress) (l : Lexeme) (ls : List Lexeme) :
    p.run (l :: ls) = (p.step l).bind (run · ls) :=
  rfl

/-- Nothing read yet. -/
def initial : Progress :=
  ⟨0, .start⟩

/-- A term read to its end. -/
def final : Progress :=
  ⟨0, .left⟩

theorem run_of_readsMarked {part : Part} {ls : List Lexeme} {t : Term} (h : ReadsMarked part ls t)
    {depth : Nat} {phase : Phase} (hphase : phase.isOpen = true) (rest : List Lexeme) :
    run ⟨depth, phase⟩ (ls ++ rest) = run ⟨depth, .left⟩ rest := by
  induction h generalizing depth phase rest with
  | name x => simp [step, hphase]
  | group mark _ ih =>
      cases mark with
      | none => simp [markLexemes, step, hphase, @ih (depth + 1) .opened rfl]
      | some label => simp [markLexemes, step, hphase, @ih (depth + 1) .start rfl]
  | single _ ih => exact ih hphase rest
  | apply _ _ ih ih' => rw [List.append_assoc, ih hphase, ih' rfl]
  | atoms _ ih => exact ih hphase rest
  | abstraction x _ ih =>
      have hbinder : Phase.isOpen .binder = false := rfl
      simp [step, hphase, hbinder, @ih depth .start rfl]
  | applyLast x _ _ ih ih' =>
      have hleft : Phase.isOpen .left = true := rfl
      have hbinder : Phase.isOpen .binder = false := rfl
      rw [List.append_assoc, ih hphase]
      simp [step, hleft, hbinder, @ih' depth .start rfl]

/-- A reader behind an opening parenthesis goes on as one at the beginning, unless an origin mark follows. -/
theorem run_start_of_opened {depth : Nat} {ls : List Lexeme} (hls : ∀ label ms, ls ≠ .tag label :: ms)
    (h : run ⟨depth, .opened⟩ ls = some final) : run ⟨depth, .start⟩ ls = some final := by
  cases ls with
  | nil => simp [final] at h
  | cons l ms =>
      cases l with
      | tag label => exact absurd rfl (hls label ms)
      | name | binder | opening | closing | point => exact h

/-! ### The parser -/

/-- The number of parentheses that are open in a stack. -/
def openGroups : List Frame → Nat
  | [] => 0
  | .group _ _ :: stack => openGroups stack + 1
  | .body _ _ :: stack => openGroups stack

@[simp] theorem openGroups_group (mark : Option String) (left : Option Term) (stack : List Frame) :
    openGroups (.group mark left :: stack) = openGroups stack + 1 :=
  rfl

@[simp] theorem openGroups_body (x : String) (left : Option Term) (stack : List Frame) :
    openGroups (.body x left :: stack) = openGroups stack :=
  rfl

theorem openGroups_finishBodies (stack : List Frame) (t : Term) :
    openGroups (finishBodies stack t).1 = openGroups stack := by
  induction stack generalizing t with
  | nil => rfl
  | cons frame stack ih =>
      cases frame with
      | group => rfl
      | body x left => rw [finishBodies, ih, openGroups_body]

theorem finishBodies_cases (stack : List Frame) (t : Term) :
    (∃ u, finishBodies stack t = ([], u)) ∨
      ∃ mark left stack' u, finishBodies stack t = (.group mark left :: stack', u) := by
  induction stack generalizing t with
  | nil => exact .inl ⟨t, rfl⟩
  | cons frame stack ih =>
      cases frame with
      | group mark left => exact .inr ⟨mark, left, stack, t, rfl⟩
      | body x left => exact ih _

/-- How far a parser has read. -/
def ofParser (stack : List Frame) (left : Option Term) : Progress :=
  ⟨openGroups stack, if left.isSome then .left else .start⟩

@[simp] theorem ofParser_none (stack : List Frame) : ofParser stack none = ⟨openGroups stack, .start⟩ :=
  rfl

@[simp] theorem ofParser_some (stack : List Frame) (t : Term) :
    ofParser stack (some t) = ⟨openGroups stack, .left⟩ :=
  rfl

/-! A parser stands where a term may begin. -/

@[simp] theorem step_ofParser_name (stack : List Frame) (left : Option Term) (x : String) :
    (ofParser stack left).step (.name x) = some ⟨openGroups stack, .left⟩ := by
  cases left <;> rfl

@[simp] theorem step_ofParser_binder (stack : List Frame) (left : Option Term) :
    (ofParser stack left).step .binder = some ⟨openGroups stack, .binder⟩ := by
  cases left <;> rfl

@[simp] theorem step_ofParser_opening (stack : List Frame) (left : Option Term) :
    (ofParser stack left).step .opening = some ⟨openGroups stack + 1, .opened⟩ := by
  cases left <;> rfl

@[simp] theorem step_ofParser_tag (stack : List Frame) (left : Option Term) (label : String) :
    (ofParser stack left).step (.tag label) = none := by
  cases left <;> rfl

theorem exists_of_run {stack : List Frame} {left : Option Term} {tokens : List Token}
    (h : (ofParser stack left).run (tokens.map Token.lexeme) = some final) :
    ∃ t, parseFrom .unlimited stack left tokens = .ok t := by
  generalize hlimits : Limits.unlimited = limits
  fun_induction parseFrom limits stack left tokens with
  | case1 => simp [final] at h
  | case2 stack t u => exact ⟨u, rfl⟩
  | case3 stack t hfinish =>
      obtain ⟨u, hu⟩ | ⟨mark, left, stack', u, hu⟩ := finishBodies_cases stack t
      · exact absurd hu (hfinish u)
      · have hgroups := openGroups_finishBodies stack t
        simp only [hu, openGroups_group] at hgroups
        simp [final, ← hgroups] at h
  | case4 stack left token rest x hx ih => exact ih (by simpa [hx] using h)
  | case5 stack left token hl => simp [hl, final] at h
  | case6 stack left token hl x p q rest stack' henter ih =>
      obtain rfl := eq_of_enter henter
      exact ih (by simpa [hl] using h)
  | case8 stack left token hl x p other tail hother =>
      obtain ⟨l, q⟩ := other
      simp only [List.map_cons, run_cons, hl, step_ofParser_binder, step_binder_name, Option.bind_some] at h
      cases l with
      | point => exact absurd rfl (hother q)
      | binder | opening | closing | name | tag => cases h
  | case9 stack left token hl x p => simp [hl, final] at h
  | case10 stack left token hl found tail hpoint hother hend =>
      obtain ⟨l, q⟩ := found
      simp only [List.map_cons, run_cons, hl, step_ofParser_binder, Option.bind_some] at h
      cases l with
      | name x =>
          cases tail with
          | nil => exact absurd rfl (hend x q rfl)
          | cons other tail => exact absurd rfl (hother x q other tail rfl)
      | binder | opening | closing | point | tag => cases h
  | case11 stack left token hl label p rest stack' henter ih =>
      obtain rfl := eq_of_enter henter
      exact ih (by simpa [hl] using h)
  | case13 stack left token hl rest hmark stack' henter ih =>
      obtain rfl := eq_of_enter henter
      refine ih (run_start_of_opened (fun label ms heq => ?_) (by simpa [hl] using h))
      obtain ⟨⟨_, p⟩, tail, rfl, rfl, -⟩ := List.map_eq_cons_iff.mp heq
      exact hmark label p tail rfl
  | case16 stack token rest hl t mark left stack' u hfinish ih =>
      have hgroups := openGroups_finishBodies stack t
      simp only [hfinish, openGroups_group] at hgroups
      exact ih (by simpa [hl, ← hgroups] using h)
  | case17 stack token rest hl t hfinish =>
      obtain ⟨u, hu⟩ | ⟨mark, left, stack', u, hu⟩ := finishBodies_cases stack t
      · have hgroups := openGroups_finishBodies stack t
        simp only [hu] at hgroups
        simp [hl, step, ← hgroups, openGroups] at h
      · exact absurd hu (hfinish mark left stack' u)
  | case21 stack left token rest label hl => simp [hl] at h
  | case15 stack token rest hl | case18 stack token rest hl | case19 stack token rest hl
  | case20 stack token rest hl => simp [hl, step] at h
  | case7 | case12 | case14 =>
      subst hlimits
      contradiction

/-- What the grammar reads as a term is what a reader goes through from the beginning to the end of one. -/
theorem run_eq_final_iff {tokens : List Token} :
    initial.run (tokens.map Token.lexeme) = some final ↔
      ∃ t, ReadsMarked .sequence (tokens.map Token.lexeme) t := by
  constructor
  · intro h
    obtain ⟨t, ht⟩ := @exists_of_run [] none tokens h
    exact ⟨t, parseTokens_eq_ok_iff.mp ht⟩
  · rintro ⟨t, ht⟩
    have hrun : run ⟨0, .start⟩ (tokens.map Token.lexeme ++ []) = run ⟨0, .left⟩ [] :=
      run_of_readsMarked ht rfl []
    rwa [List.append_nil] at hrun

end Progress

end LambdaStepper.Syntax
