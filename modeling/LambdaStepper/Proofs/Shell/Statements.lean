import LambdaStepper.Proofs.Shell.Commands
import LambdaStepper.Proofs.Text.Cutting

/-! # The statements of a shell

A file joins lines that are cleaned, the shell cleans lines that are joined, which comes to the same
(`Statement.cleanLine_append`).  So behind each line, what the shell collects is the last statement of the file, as
long as a parenthesis is open in it (`Shell.handed?_of_not_isCommand`, `Statement.addLine_push`), and the statements
the shell hands to its session are those of a file with the same lines, but for the lines that are commands
(`Shell.handed_eq_file`).

A line is a command wherever it stands.  One that goes on with a statement is lost to it if it starts with the word
of a command (`Shell.not_handed_names`). -/

namespace LambdaStepper

namespace Statement

/-- The statements without the last one, if that is never closed. -/
def closed (statements : List Statement) : List Statement :=
  match statements.getLast? with
  | some last => if isOpen last.text.toList then statements.dropLast else statements
  | none => statements

/-- A statement so far, with one line more. -/
def extend (text line : List Char) : List Char :=
  Text.trim (text ++ ' ' :: cleanLine line)

/-- The text of a statement that is being collected: no comment, no blanks around it, and a parenthesis left open
unless it is empty. -/
structure IsPending (text : List Char) : Prop where
  uncommented : ¬ [';', ';'] <:+: text
  trimmed : Text.trim text = text
  isOpen : text ≠ [] → isOpen text = true

theorem isPending_nil : IsPending [] :=
  ⟨by simp, rfl, fun h => absurd rfl h⟩

/-! ### Lines -/

theorem commentMark_ne_nil : [';', ';'] ≠ ([] : List Char) :=
  List.cons_ne_nil _ _

theorem commentMark_not_blank : ∀ c ∈ [';', ';'], Text.isBlank c = false := by
  decide

theorem cleanLine_trim (line : List Char) : cleanLine (Text.trim line) = cleanLine line :=
  Text.trim_beforeFirst_trim commentMark_ne_nil commentMark_not_blank line

/-- A line may be joined to the statement first and cleaned then, or the other way round. -/
theorem cleanLine_append {text : List Char} (htext : ¬ [';', ';'] <:+: text) (line : List Char) :
    cleanLine (text ++ ' ' :: Text.trim line) = extend text line := by
  have hclean : cleanLine line = (Text.beforeFirst [';', ';'] (Text.trim line)).rdropWhile Text.isBlank := by
    rw [← cleanLine_trim]
    exact Text.trim_beforeFirst_eq_rdropWhile commentMark_ne_nil commentMark_not_blank line
  have hblanks := Text.trim_append_rdropWhile (text ++ [' ']) (Text.beforeFirst [';', ';'] (Text.trim line))
  rw [extend, hclean, cleanLine, Text.beforeFirst_append (by decide) commentMark_ne_nil htext]
  simpa using hblanks.symm

theorem extend_uncommented {text : List Char} (htext : ¬ [';', ';'] <:+: text) (line : List Char) :
    ¬ [';', ';'] <:+: extend text line := by
  rw [← cleanLine_append htext]
  exact fun h => Text.not_infix_beforeFirst commentMark_ne_nil _ (h.trans (Text.trim_infix _))

/-- What is collected behind a line is a statement being collected again, unless the line closes it. -/
theorem isPending_extend {text : List Char} (htext : IsPending text) (line : List Char) :
    IsPending (if Statement.isOpen (extend text line) then extend text line else []) := by
  split
  · next hopen => exact ⟨extend_uncommented htext.uncommented line, Text.trim_trim _, fun _ => hopen⟩
  · exact isPending_nil

theorem IsPending.extend_blank {text line : List Char} (htext : IsPending text) (hline : Text.trim line = []) :
    extend text line = text := by
  have hclean : cleanLine line = [] := by
    rw [← cleanLine_trim, hline]
    rfl
  have hblank : Text.trim (text ++ [' ']) = Text.trim (text ++ []) :=
    (Text.trim_append_rdropWhile text [' ']).symm
  rw [extend, hclean, hblank, List.append_nil, htext.trimmed]

/-! ### Files -/

/-- A line of a file makes a statement longer, or starts one. -/
theorem addLine_push {text : List Char} (htext : IsPending text) (before : List Statement) (start number : Int)
    (line : List Char) :
    ∃ start', addLine (isOpen text) number (push before text start) line =
      ⟨extend text line, push before (extend text line) start'⟩ := by
  by_cases hempty : text = []
  · subst hempty
    refine ⟨number, ?_⟩
    have hextend : extend [] line = cleanLine line := by simp [extend, cleanLine]
    rw [hextend]
    rfl
  · refine ⟨start, ?_⟩
    simp [addLine, push, htext.isOpen hempty, hempty, extend]

@[simp] theorem isOpen_nil : isOpen [] = false :=
  rfl

@[simp] theorem push_nil (statements : List Statement) (line : Int) : push statements [] line = statements :=
  rfl

theorem map_text_push (statements : List Statement) (text : List Char) (line : Int) :
    (push statements text line).map Statement.text =
      statements.map Statement.text ++ (if text.isEmpty then none else some (String.ofList text)).toList := by
  unfold push
  split <;> simp

theorem forall_mem_push {statements : List Statement}
    (h : ∀ statement ∈ statements, isOpen statement.text.toList = false) {text : List Char}
    (htext : isOpen text = false) (line : Int) :
    ∀ statement ∈ push statements text line, isOpen statement.text.toList = false := by
  unfold push
  split
  · exact h
  · intro statement hmem
    rcases List.mem_append.mp hmem with hmem | hmem
    · exact h statement hmem
    · rw [List.mem_singleton.mp hmem, String.toList_ofList, htext]

/-- The statement being collected is the last one, and not closed. -/
theorem closed_push {text : List Char} (htext : IsPending text) {before : List Statement}
    (hbefore : ∀ statement ∈ before, isOpen statement.text.toList = false) (start : Int) :
    closed (push before text start) = before := by
  by_cases hempty : text = []
  · subst hempty
    unfold closed
    cases hlast : before.getLast? with
    | none => simp [push, hlast]
    | some last => simp [push, hlast, hbefore last (List.mem_of_getLast? hlast)]
  · simp [closed, push, hempty, htext.isOpen hempty]

end Statement

namespace Shell

open Statement

/-- Whether a line is a command. -/
def isCommand (line : String) : Bool :=
  match read line with
  | .command _ _ => true
  | _ => false

/-- The statements that lines hand to the session, one line after the other, whatever comes of them. -/
def handed (shell : Shell) : List String → List String
  | [] => []
  | line :: lines => (shell.handed? line).toList ++ (shell.respond line).1.handed lines

/-! ### Lines -/

theorem read_of_not_isCommand {line : String} (h : isCommand line = false) :
    (read line = .empty ∧ Text.trim line.toList = []) ∨
      read line = .statement (String.ofList (Text.trim line.toList)) := by
  by_cases hhelp : ∃ rest, Text.trim line.toList = '?' :: rest
  · -- a question mark in front stands for the word of a command
    obtain ⟨rest, hrest⟩ := hhelp
    unfold isCommand read at h
    rw [hrest] at h
    cases h
  · have hplain : ∀ rest, Text.trim line.toList ≠ '?' :: rest := fun rest hrest => hhelp ⟨rest, hrest⟩
    unfold isCommand at h
    unfold read at h ⊢
    simp only at h ⊢
    split at h
    · next hcommand => cases h
    · next hcommand =>
      generalize Command.ofWord _ = command? at hcommand ⊢
      by_cases hempty : Text.trim line.toList = []
      · exact .inl ⟨if_pos (List.isEmpty_iff.mpr hempty), hempty⟩
      · rw [← List.isEmpty_iff] at hempty
        rw [if_neg hempty] at hcommand ⊢
        cases command? with
        | some command => exact absurd rfl (hcommand _ _)
        | none => exact .inr rfl

theorem command_handed? (shell : Shell) {line : String} (h : isCommand line = true) :
    shell.handed? line = none ∧ (shell.respond line).1.pending = shell.pending := by
  have hcollected := shell.collected_respond line
  unfold isCommand at h
  unfold handed?
  cases hread : read line with
  | empty | statement => simp [hread] at h
  | command command argument =>
      rw [hread] at hcollected
      exact ⟨rfl, (Prod.mk.inj hcollected).1⟩

/-- A line that is no command makes what is collected longer; once a statement is closed, it is handed over. -/
theorem handed?_of_not_isCommand {shell : Shell} (hpending : IsPending shell.pending.toList) {line : String}
    (h : isCommand line = false) :
    let text := extend shell.pending.toList line.toList
    shell.handed? line = (if isOpen text || text.isEmpty then none else some (String.ofList text)) ∧
      (shell.respond line).1.pending.toList = if isOpen text then text else [] := by
  intro text
  have hcollected := shell.collected_respond line
  unfold handed?
  rcases read_of_not_isCommand h with ⟨hread, hempty⟩ | hread
  · have htext : text = shell.pending.toList := hpending.extend_blank hempty
    rw [hread] at hcollected ⊢
    rw [htext, (Prod.mk.inj hcollected).1]
    by_cases hpending' : shell.pending.toList = []
    · simp [hpending']
    · simp [hpending.isOpen hpending']
  · have hjoined : shell.joined (String.ofList (Text.trim line.toList)) = text := by
      unfold joined
      rw [String.toList_ofList]
      exact cleanLine_append hpending.uncommented line.toList
    rw [hread] at hcollected ⊢
    dsimp only at hcollected ⊢
    rw [hjoined] at hcollected
    refine ⟨by unfold completed?; rw [hjoined], ?_⟩
    rw [(Prod.mk.inj hcollected).1]
    split <;> simp

/-- The statements that are handed over are those of a file, from any line on. -/
theorem handed_eq_addLines {shell : Shell} (hpending : IsPending shell.pending.toList) {before : List Statement}
    (hbefore : ∀ statement ∈ before, isOpen statement.text.toList = false) (start number : Int)
    (lines : List String) :
    (closed (addLines (isOpen shell.pending.toList) number (push before shell.pending.toList start)
      ((lines.filter fun line => !isCommand line).map String.toList))).map Statement.text =
      before.map Statement.text ++ shell.handed lines := by
  induction lines generalizing shell before start number with
  | nil => simp [handed, addLines, closed_push hpending hbefore]
  | cons line lines ih =>
      cases hline : isCommand line with
      | true =>
          obtain ⟨hhanded, hkept⟩ := shell.command_handed? hline
          have hrest := ih (hkept ▸ hpending) hbefore start number
          rw [hkept] at hrest
          simpa [handed, hhanded, hline] using hrest
      | false =>
          obtain ⟨hhanded, hcollected⟩ := handed?_of_not_isCommand hpending hline
          have hpending' := isPending_extend hpending line.toList
          obtain ⟨start', htaken⟩ := addLine_push hpending before start number line.toList
          rw [← hcollected] at hpending'
          rw [List.filter_cons_of_pos (by simp [hline]), List.map_cons, addLines, htaken, handed, hhanded]
          generalize extend shell.pending.toList line.toList = text at hcollected ⊢
          dsimp only
          cases hopen : Statement.isOpen text with
          | true =>
              -- the statement goes on
              have hrest := ih hpending' hbefore start' (number + 1)
              simpa [hcollected, hopen] using hrest
          | false =>
              -- the statement is closed, and handed over unless it is empty
              rw [hopen, if_neg (by simp)] at hcollected
              have hrest := ih hpending' (forall_mem_push hbefore hopen start') start' (number + 1)
              rw [hcollected] at hrest
              simpa [hopen, push_nil, map_text_push] using hrest

/-- **The shell and a file agree on statements.**  A shell over any session hands to it the statements of a file with
the same lines, but for the lines that are commands, and but for a last statement that is never closed. -/
theorem handed_eq_file (session : Session) {lines : List String}
    (hlines : ∀ line ∈ lines, '\n' ∉ line.toList ∧ '\r' ∉ line.toList) :
    ({ session } : Shell).handed lines = (closed (readStatements (Text.unlines
      ((lines.filter fun line => !isCommand line).map String.toList)))).map Statement.text := by
  let shell : Shell := { session }
  have hpending : IsPending shell.pending.toList := isPending_nil
  have hstatements := handed_eq_addLines hpending (List.forall_mem_nil _) 1 1 lines
  have hfile : ∀ text ∈ (lines.filter fun line => !isCommand line).map String.toList,
      '\n' ∉ text ∧ '\r' ∉ text := by
    intro text htext
    obtain ⟨line, hline, rfl⟩ := List.mem_map.mp htext
    exact hlines line (List.mem_of_mem_filter hline)
  rw [readStatements, Text.lines_unlines hfile]
  exact hstatements.symm

/-- A statement on two lines. -/
theorem handed_eq_file_continued :
    (∀ line ∈ ["(λx.", "x) y"], '\n' ∉ line.toList ∧ '\r' ∉ line.toList) ∧
      fresh.handed ["(λx.", "x) y"] = ["(λx. x) y"] := by
  have hlines : ∀ line ∈ ["(λx.", "x) y"], '\n' ∉ line.toList ∧ '\r' ∉ line.toList := by decide
  exact ⟨hlines, (handed_eq_file fresh.session hlines).trans (by rfl)⟩

/-- A line that goes on with a statement, and starts with the word of a command, is not handed over with it. -/
theorem not_handed_names :
    isCommand "(x" = false ∧ fresh.handed ["(x", "names)"] = [] ∧
      (closed (readStatements (Text.unlines ["(x".toList, "names)".toList]))).map Statement.text = ["(x names)"] := by
  refine ⟨by rfl, by rfl, by rfl⟩

end Shell
end LambdaStepper
