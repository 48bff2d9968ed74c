import LambdaStepper.Proofs.Syntax.Faults
import LambdaStepper.Proofs.Text.Cutting

/-! # Reports point at the culprit

The report on a text that is no term shows the unmarked expansion of the text, and its span is the character or the
token at fault (`Registry.parse_culprit`): positions are found in the marked expansion and shown without the marks,
and the tokens that are shown are those of the unmarked expansion.

The diagnosis of a report is its subject and, on a line of its own, marks that are as far from the start of the line
as the span is from the start of the subject (`Report.diagnosisWith_id`).  So they stand under the span as long as the
subject is one line (`Report.isUnderlined`), but not if a line feed stands before the span
(`Registry.not_isUnderlined_lines`). -/

namespace LambdaStepper

open Syntax

/-! ### Diagnoses -/

namespace Report

variable {r : Report} {start stop : Nat}

/-- The last line of a diagnosis, its colours aside, has marks under the span and nowhere else, and the line above
shows the subject. -/
def IsUnderlined (r : Report) : Prop :=
  ∃ before shown under, Text.splitLines (r.diagnosisWith id).toList = before ++ [shown, under] ∧
    shown = ' ' :: ' ' :: r.subject.toList ∧
    ∀ i : Nat, (∃ c, under[i]? = some c ∧ c ≠ ' ') ↔ r.start + 2 ≤ i ∧ i < r.stop + 2

/-- The line of marks of a diagnosis. -/
def marksLine (start stop : Nat) : List Char :=
  List.replicate (start + 2) ' ' ++ '^' :: List.replicate (stop - start - 1) '~'

/-- A diagnosis without colours. -/
theorem diagnosisWith_id (hstart : r.start = start) (hstop : r.stop = stop) (hlt : start < stop) :
    (r.diagnosisWith id).toList = ' ' :: ' ' :: r.subject.toList ++ '\n' :: marksLine start stop := by
  have hmarked : r.markedStop = stop := by
    rw [markedStop, hstart, hstop]
    omega
  have hwidth : ((stop : Int) - start - 1).toNat = stop - start - 1 := by omega
  have hwhole := Text.slice_append_slice r.subject.toList hlt.le
  have hindent : "\n  ".toList = ['\n', ' ', ' '] := rfl
  simp only [diagnosisWith, id, hmarked, hstart, marks, hwidth, marksLine, String.toList_append, String.toList_ofList,
    Int.toNat_natCast, hindent, List.replicate_succ]
  rw [List.append_assoc "  ".toList, List.append_assoc "  ".toList, hwhole]
  simp

theorem getElem?_marksLine (hlt : start < stop) (i : Nat) :
    (∃ c, (marksLine start stop)[i]? = some c ∧ c ≠ ' ') ↔ start + 2 ≤ i ∧ i < stop + 2 := by
  rcases Nat.lt_or_ge i (start + 2) with hi | hi
  · have hblank : (marksLine start stop)[i]? = some ' ' := by
      rw [marksLine, List.getElem?_append_left (by simpa using hi), List.getElem?_replicate_of_lt hi]
    simp [hblank]
    omega
  · obtain ⟨k, rfl⟩ := Nat.exists_eq_add_of_le hi
    have hmark : (marksLine start stop)[start + 2 + k]? = ('^' :: List.replicate (stop - start - 1) '~')[k]? := by
      rw [marksLine, List.getElem?_append_right (by simp), List.length_replicate, Nat.add_sub_cancel_left]
    rw [hmark]
    cases k with
    | zero =>
        simp
        omega
    | succ k =>
        rw [List.getElem?_cons_succ, List.getElem?_replicate]
        split
        · simp
          omega
        · simp
          omega

/-- The marks stand under the span if the subject is one line. -/
theorem isUnderlined (hstart : r.start = start) (hstop : r.stop = stop) (hlt : start < stop)
    (hfeed : '\n' ∉ r.subject.toList) : r.IsUnderlined := by
  have hshown : '\n' ∉ ' ' :: ' ' :: r.subject.toList := by simpa using hfeed
  have hunder : '\n' ∉ marksLine start stop := by
    simp [marksLine, List.mem_replicate]
  refine ⟨[], _, marksLine start stop, ?_, rfl, fun i => ?_⟩
  · rw [diagnosisWith_id hstart hstop hlt, Text.splitLines_append hshown,
      Text.splitLines_eq_singleton (by simp [marksLine]) hunder]
    rfl
  · rw [getElem?_marksLine hlt, hstart, hstop]
    omega

end Report

/-! ### Spans -/

namespace SyntaxFault

/-- What is at fault in an expanded text: the span of the report is a character that neither starts a token nor is
blank, or a token, or the token or the end of the text that stands behind a binder in the place of a name. -/
def Culprit (unmarked span : List Char) (start : Int) : SyntaxFault → Prop
  | .badCharacter _ c _ => span = [c] ∧ startsLexeme c = false ∧ Text.isBlank c = false
  | .badToken _ value _ _ _ => span = value.toList ∧
      ∃ tokens token, tokenize unmarked = .ok tokens ∧ token ∈ tokens ∧ token.lexeme.text = value ∧
        token.position = start
  | .badParameter _ found _ => ∃ tokens before position, tokenize unmarked = .ok tokens ∧
      (tokens = before ++ [⟨.binder, position⟩] ∧ start = unmarked.length ∨
        ∃ token after, tokens = before ++ ⟨.binder, position⟩ :: token :: after ∧ (∀ x, token.lexeme ≠ .name x) ∧
          span = found.toList ∧ token.lexeme.text = found ∧ token.position = start)
  | .empty | .unfinished .. | .tooDeep _ | .badReference _ => True

/-- A report on a fault of syntax shows the expanded text, up to the spelling of binders, and its span is a part of
that, or the place right behind it, and what is at fault. -/
structure PointsOut (fault : SyntaxFault) (unmarked : List Char) (report : Report) : Prop where
  kind : report.kind = .parse
  subject : unifyBinders report.subject.toList = unifyBinders unmarked
  start_nonneg : 0 ≤ report.start
  start_lt_stop : report.start < report.stop
  stop_le : report.stop ≤ report.subject.length + 1
  culprit : fault.Culprit unmarked (unifyBinders (Text.slice report.subject.toList report.start report.stop))
    report.start

end SyntaxFault

section Span

variable {cs : List Char} (hcs : ∀ c ∈ cs, IsPublic c)

include hcs

theorem unifyBinders_slice (start stop : Nat) :
    unifyBinders (Text.slice cs start stop) = Text.slice (unifyBinders cs) start stop := by
  have hslice : ∀ c ∈ Text.slice cs start stop, IsPublic c := by
    rw [Text.slice_natCast]
    exact fun c hc => hcs c (List.mem_of_mem_drop (List.mem_of_mem_take hc))
  rw [unifyBinders_eq_map hslice, unifyBinders_eq_map hcs, Text.slice_natCast, Text.slice_natCast, List.map_take,
    List.map_drop]

theorem isPublic_unifyBinders : ∀ c ∈ unifyBinders cs, IsPublic c := by
  rw [unifyBinders_eq_map hcs]
  intro c hc
  obtain ⟨d, hd, rfl⟩ := List.mem_map.mp hc
  split
  · decide
  · exact hcs d hd

theorem unifyBinders_unifyBinders : unifyBinders (unifyBinders cs) = unifyBinders cs := by
  refine unifyFrom_eq_self fun c hc => ?_
  rw [unifyBinders_eq_map hcs] at hc
  obtain ⟨d, hd, rfl⟩ := List.mem_map.mp hc
  exact isUnified_unified (hcs d hd).1

end Span

variable {unmarked : List Char} {fault : SyntaxFault} {report : Report}

theorem SyntaxFault.PointsOut.of_slice {shown : List Char} (hshown : ∀ c ∈ shown, IsPublic c)
    (hunified : unifyBinders shown = unifyBinders unmarked) (hkind : report.kind = .parse)
    (hsubject : report.subject = String.ofList shown) {start stop : Nat} (hstart : report.start = start)
    (hstop : report.stop = stop) (hlt : start < stop) (hle : stop ≤ shown.length + 1)
    (hculprit : fault.Culprit unmarked (Text.slice (unifyBinders unmarked) start stop) start) :
    fault.PointsOut unmarked report := by
  have htext : report.subject.toList = shown := by rw [hsubject, String.toList_ofList]
  have hlength : report.subject.length = shown.length := by rw [hsubject, String.length_ofList]
  refine ⟨hkind, by rw [htext, hunified], ?_, ?_, ?_, ?_⟩
  · rw [hstart]
    exact Int.natCast_nonneg start
  · rw [hstart, hstop]
    exact Int.ofNat_lt.mpr hlt
  · rw [hstop, hlength]
    exact Int.ofNat_le.mpr hle
  · rwa [htext, hstart, hstop, unifyBinders_slice hshown, hunified]

theorem pointsOut_of_tokenize (hunmarked : ∀ c ∈ unmarked, IsPublic c) (h : tokenize unmarked = .error fault)
    (hreport : fault.failure = .report report) : fault.PointsOut unmarked report := by
  obtain ⟨position, c, rfl, hc, hresult⟩ := (tokenize_eq_error_iff hunmarked).mp h
  obtain ⟨hlt, rfl⟩ := List.getElem?_eq_some_iff.mp hc
  obtain ⟨⟨d, hd, hstarts, hblank⟩, -⟩ :=
    ((tokensFrom_eq_iff (markOpen_notMem_unifyBinders hunmarked)).2 position).mp hresult
  obtain rfl := Option.some.inj (hc.symm.trans hd)
  obtain rfl := Failure.report.inj hreport
  have hstop : (position : Int) + 1 = (position + 1 : Nat) := rfl
  refine .of_slice (isPublic_unifyBinders hunmarked) (unifyBinders_unifyBinders hunmarked) rfl rfl rfl hstop
    (Nat.lt_succ_self position) (by omega) ⟨?_, hstarts, hblank⟩
  rw [Text.slice_natCast, List.drop_eq_getElem_cons hlt, Nat.add_sub_cancel_left]
  rfl

theorem length_text_of_standsIn {cs : List Char} {token : Token} (h : StandsIn cs token)
    (hname : ∀ x, token.lexeme ≠ .name x) : token.lexeme.text.length = 1 := by
  rcases h.spelled with ⟨c, hc⟩ | ⟨x, hx, -⟩
  · rw [← String.length_toList, text_of_signOf? hc, List.length_singleton]
  · exact absurd hx (hname x)

/-- A token is shown as it stands in the text, unless it is an origin mark. -/
theorem shown_eq_text {l : Lexeme} (h : l.isMark = false) : l.shown = l.text := by
  cases l with
  | tag => cases h
  | binder | opening | closing | point | name => rfl

theorem pointsOut_of_standsAmong (hunmarked : ∀ c ∈ unmarked, IsPublic c) {tokens : List Token}
    (htokens : tokenize unmarked = .ok tokens) {fault : ParseFault} (h : fault.StandsAmong tokens) {text : String}
    (hreport : (fault.inShown text unmarked).failure = .report report) (hpointable : report.pointable = true) :
    (fault.inShown text unmarked).PointsOut unmarked report := by
  have hcovers : Covers (unifyBinders unmarked) tokens (unifyBinders unmarked).length :=
    ((tokensFrom_eq_iff (markOpen_notMem_unifyBinders hunmarked)).1 tokens).mp (tokenize_eq_ok_iff.mp htokens)
  have hlength : (unifyBinders unmarked).length = unmarked.length := length_unifyBinders unmarked
  match fault, h with
  | .unfinished expected, _ =>
      obtain rfl := Failure.report.inj hreport
      have hshown : (String.ofList unmarked).length = unmarked.length := String.length_ofList
      have hne : unmarked ≠ [] := by
        rintro rfl
        cases hpointable
      have hpos := List.length_pos_iff.mpr hne
      exact .of_slice hunmarked rfl rfl rfl rfl rfl (by omega) (by omega) trivial
  | .unexpected token expected, ⟨hmem, hmark⟩ =>
      obtain rfl := Failure.report.inj hreport
      have hstands := hcovers.stands token hmem
      have hlt := hstands.position_lt_stop
      have hle := hstands.stop_le
      have hshown := shown_eq_text hmark
      have hstop : (token.position : Int) + token.lexeme.text.length = token.stop := (Int.natCast_add _ _).symm
      refine .of_slice hunmarked rfl rfl rfl rfl hstop hlt (by omega) ⟨?_, tokens, token, htokens, hmem, ?_, rfl⟩
      · rw [hstands.slice, hshown]
      · rw [hshown]
  | .badParameter none, ⟨before, position, heq⟩ =>
      obtain rfl := Failure.report.inj hreport
      exact .of_slice hunmarked rfl rfl rfl rfl rfl (Nat.lt_succ_self unmarked.length) le_rfl
        ⟨tokens, before, position, htokens, .inl ⟨heq, rfl⟩⟩
  | .badParameter (some token), ⟨before, position, after, heq, hmark, hname⟩ =>
      obtain rfl := Failure.report.inj hreport
      have hstands := hcovers.stands token (by simp [heq])
      have hstop : token.stop = token.position + 1 := by
        rw [Token.stop, length_text_of_standsIn hstands hname]
      have hle := hstands.stop_le
      have hend : (token.position : Int) + 1 = (token.position + 1 : Nat) := rfl
      refine .of_slice hunmarked rfl rfl rfl rfl hend (Nat.lt_succ_self token.position) (by omega)
        ⟨tokens, before, position, htokens, .inr ⟨token, after, heq, hname, ?_, rfl, rfl⟩⟩
      rw [← hstop, hstands.slice]
  | .tooDeep, _ =>
      obtain rfl := Failure.report.inj hreport
      cases hpointable

namespace Registry

variable {limits : Limits} {r : Registry}

/-- A marked expansion has the unmarked one below its marks. -/
theorem expandWithin_of_marked (hr : r.MarkFree) {cs marked : List Char} (hcs : ∀ c ∈ cs, IsPublic c)
    (h : r.expandWithin limits true cs = .ok marked) :
    Sealed marked ∧ r.expandWithin limits false cs = .ok (stripMarks marked) := by
  have hplain : Expanded IsPublic (cs ++ []) := expanded_append hcs .nil
  rw [List.append_nil] at hplain
  have hstrip := stripMarks_expandPassesWithin limits hr hplain maxPasses
  rw [stripMarks_eq_self fun hmem => (hcs _ hmem).1 rfl] at hstrip
  refine ⟨sealed_of_expanded (expanded_of_expandWithin hr hcs h), ?_⟩
  unfold expandWithin at h ⊢
  rw [← hstrip, h]
  rfl

theorem exists_pointsOut (hr : r.MarkFree) {text : String} (htext : ∀ c ∈ text.toList, IsPublic c)
    {fault : SyntaxFault} (hfault : r.parse limits text = .error fault) {report : Report}
    (hreport : fault.failure = .report report) (hpointable : report.pointable = true) :
    ∃ unmarked, r.expandWithin limits false text.toList = .ok unmarked ∧ fault.PointsOut unmarked report := by
  unfold Registry.parse at hfault
  split at hfault
  · obtain rfl := Except.error.inj hfault
    obtain rfl := Failure.report.inj hreport
    cases hpointable
  split at hfault
  · obtain rfl := Except.error.inj hfault
    cases hreport
  next marked hmarked =>
  obtain ⟨hsealed, hunmarked⟩ := expandWithin_of_marked hr htext hmarked
  have hpublic := hsealed.isPublic_of_mem_stripMarks
  have hshown := hsealed.tokenize_stripMarks
  refine ⟨stripMarks marked, hunmarked, ?_⟩
  split at hfault
  · next fault' htokens =>
    obtain rfl := Except.error.inj hfault
    rw [htokens] at hshown
    exact pointsOut_of_tokenize hpublic hshown.symm hreport
  · next tokens htokens =>
    rw [htokens] at hshown
    split at hfault
    · cases hfault
    · next fault' hparse =>
      obtain rfl := Except.error.inj hfault
      -- the parser goes through the marked tokens, but the token at fault is among those that are shown
      have hguarded := marksGuarded_of_tracked
        (tracked_of_tokenize (expanded_of_expandWithin hr htext hmarked) htokens)
      have hstands := (standsAmong_of_parseFrom hparse hguarded).shown marked
      rw [inText_eq_inShown] at hreport ⊢
      exact pointsOut_of_standsAmong hpublic hshown.symm hstands hreport hpointable

/-- **Reports on terms point at the culprit.**  Where a text without private characters is no term, a report with a
span shows the unmarked expansion of the text, and the span is the character or the token at fault.  The diagnosis is
the text that is shown, and a line of marks that is indented by the start of the span: they stand under the span and
nowhere else if the text has no line feed. -/
theorem parse_culprit (hr : r.MarkFree) {text : String} (htext : ∀ c ∈ text.toList, IsPublic c)
    {fault : SyntaxFault} (hfault : r.parse limits text = .error fault) {report : Report}
    (hreport : fault.failure = .report report) (hpointable : report.pointable = true) :
    ∃ unmarked, r.expandWithin limits false text.toList = .ok unmarked ∧ fault.PointsOut unmarked report ∧
      (report.diagnosisWith id).toList =
        ' ' :: ' ' :: report.subject.toList ++ '\n' :: Report.marksLine report.start.toNat report.stop.toNat ∧
      ('\n' ∉ report.subject.toList → report.IsUnderlined) := by
  obtain ⟨unmarked, hunmarked, hpoints⟩ := exists_pointsOut hr htext hfault hreport hpointable
  have hnonneg := hpoints.start_nonneg
  have hlt := hpoints.start_lt_stop
  have hstart : report.start = report.start.toNat := (Int.toNat_of_nonneg hnonneg).symm
  have hstop : report.stop = report.stop.toNat := (Int.toNat_of_nonneg (hnonneg.trans hlt.le)).symm
  have hlt' : report.start.toNat < report.stop.toNat := by omega
  exact ⟨unmarked, hunmarked, hpoints, report.diagnosisWith_id hstart hstop hlt',
    report.isUnderlined hstart hstop hlt'⟩

/-- A parenthesis too many, behind two references. -/
theorem parse_culprit_closing :
    let text := "_ID (_1 x)) y"
    let fault := SyntaxFault.badToken "(λx.x) ((λf.λx. f x) x)) y" ")" 23 1 .ending
    initial.MarkFree ∧ (∀ c ∈ text.toList, IsPublic c) ∧ initial.parse .unlimited text = .error fault ∧
      ∃ report, fault.failure = .report report ∧ report.pointable = true ∧
        fault.PointsOut "(λx.x) ((λf.λx. f x) x)) y".toList report ∧ report.IsUnderlined := by
  intro text fault
  have hr : initial.MarkFree := by decide +kernel
  have htext : ∀ c ∈ text.toList, IsPublic c := by decide +kernel
  have hfault : initial.parse .unlimited text = .error fault := by decide +kernel
  have hexpand : initial.expandWithin .unlimited false text.toList = .ok "(λx.x) ((λf.λx. f x) x)) y".toList := by
    decide +kernel
  obtain ⟨unmarked, hunmarked, hpoints, -, hunderlined⟩ := parse_culprit hr htext hfault rfl rfl
  obtain rfl := Except.ok.inj (hexpand.symm.trans hunmarked)
  exact ⟨hr, htext, hfault, _, rfl, rfl, hpoints, hunderlined (by decide +kernel)⟩

/-- In a text of two lines, the mark is indented by all that is before the span, and the line above shows the second
line only. -/
theorem not_isUnderlined_lines :
    let text := "x\n$"
    initial.MarkFree ∧ (∀ c ∈ text.toList, IsPublic c) ∧
      ∃ fault report, initial.parse .unlimited text = .error fault ∧ fault.failure = .report report ∧
        report.pointable = true ∧
        Text.splitLines (report.diagnosisWith id).toList = ["  x".toList, "$".toList, "    ^".toList] ∧
        ¬ report.IsUnderlined := by
  intro text
  let fault := SyntaxFault.badCharacter text '$' 2
  have hfault : initial.parse .unlimited text = .error fault := by decide +kernel
  refine ⟨by decide +kernel, by decide +kernel, fault, _, hfault, rfl, rfl, by decide +kernel, ?_⟩
  rintro ⟨before, shown, under, hlines, hshown, -⟩
  have hsplit : before ++ [shown, under] = ["  x".toList] ++ ["$".toList, "    ^".toList] :=
    hlines.symm.trans (by decide +kernel)
  obtain ⟨-, hends⟩ := List.append_inj' hsplit rfl
  have hline : shown = "$".toList := (List.cons.inj hends).1
  rw [hline] at hshown
  exact absurd hshown (by decide +kernel)

end Registry
end LambdaStepper
