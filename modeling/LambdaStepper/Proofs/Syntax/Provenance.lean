import LambdaStepper.Proofs.Reduction.NameGrowth
import LambdaStepper.Proofs.Syntax.ExpandedTokens
import LambdaStepper.Proofs.Syntax.Greedy

/-! # Where names and tags come from

What is parsed is `Sound`: its numeral tags are true and its names are identifiers without an `L`
(`Registry.sound_of_parse`), and reduction keeps it so (`Term.Sound.afterSteps`).

The lexemes of an expanded text are read from the left, and what is left of them always begins between two
parts of the text.  Since what is read closes the parentheses that it opens, the term that gets the tag of a
numeral is read from the lexemes of that numeral and nothing else (`sound_of_readsMarked`). -/

namespace LambdaStepper

open Registry

namespace Syntax

/-! ### Matching parentheses -/

/-- Whether lexemes close every parenthesis that they open, and no other. -/
def Closes (ls : List Lexeme) : Prop :=
  ∀ depth rest, reach depth (ls ++ rest) = ls.length + reach depth rest

theorem closes_of_readsMarked {part : Part} {ls : List Lexeme} {t : Term} (h : ReadsMarked part ls t) :
    Closes ls := by
  intro depth rest
  induction h generalizing depth rest with
  | name x => simp only [List.singleton_append, List.length_singleton, reach]; omega
  | group mark _ ih =>
      cases mark <;>
        simp only [markLexemes, List.nil_append, List.cons_append, List.append_assoc, reach, ih,
          List.length_cons, List.length_append, List.length_nil] <;>
        omega
  | single _ ih => exact ih depth rest
  | apply _ _ ih ih' =>
      rw [List.append_assoc, ih, ih', List.length_append]
      omega
  | atoms _ ih => exact ih depth rest
  | abstraction x _ ih =>
      simp only [List.cons_append, reach, ih, List.length_cons]
      omega
  | applyLast x _ _ ih ih' =>
      rw [List.append_assoc, ih]
      simp only [List.cons_append, reach, ih', List.length_cons, List.length_append]
      omega

/-- What starts at one parenthesis ends at the same one. -/
theorem Closes.eq_of_append_closing {ls ms rest rest' : List Lexeme} (h : Closes ls) (h' : Closes ms)
    (heq : ls ++ .closing :: rest = ms ++ .closing :: rest') : ls = ms ∧ rest = rest' := by
  have hlength : ls.length = ms.length := by
    have hreach := congrArg (reach 0) heq
    rwa [h, h'] at hreach
  obtain ⟨hls, hrest⟩ := List.append_inj heq hlength
  exact ⟨hls, (List.cons.inj hrest).2⟩

/-! ### What is read -/

namespace Tracked

variable {ls : List Lexeme}

theorem tail {l : Lexeme} (h : Tracked (l :: ls)) (hl : l ≠ .opening) : Tracked ls := by
  generalize heq : l :: ls = ms at h
  cases h with
  | nil => cases heq
  | plain _ _ _ h => rwa [(List.cons.inj heq).2]
  | origin => exact absurd (List.cons.inj heq).1 hl
  | numeral => exact absurd (List.cons.inj heq).1 hl

theorem isReadable {x : String} (h : Tracked (.name x :: ls)) : IsReadable x := by
  generalize heq : Lexeme.name x :: ls = ms at h
  cases h with
  | nil => cases heq
  | plain _ _ hx _ => exact hx x (List.cons.inj heq).1.symm
  | origin => cases (List.cons.inj heq).1
  | numeral => cases (List.cons.inj heq).1

theorem not_tag {label : String} : ¬ Tracked (.tag label :: ls) := by
  intro h
  generalize heq : Lexeme.tag label :: ls = ms at h
  cases h with
  | nil => cases heq
  | plain _ hl _ _ => exact hl label (List.cons.inj heq).1.symm
  | origin => cases (List.cons.inj heq).1
  | numeral => cases (List.cons.inj heq).1

theorem opening (h : Tracked (.opening :: ls)) :
    Tracked ls ∨
      (∃ label ms, ls = .tag label :: ms ∧ Numeral.isTag (some label) = false ∧ Tracked ms) ∨
      ∃ label ms, ls = .tag (String.ofList ('_' :: label)) ::
          ((Numeral.term (Text.digitsValue label)).lexemes .top ++ .closing :: ms) ∧
        Numeral.IsLabel label ∧ Tracked ms := by
  generalize heq : Lexeme.opening :: ls = ms at h
  cases h with
  | nil => cases heq
  | plain _ _ _ h => exact .inl (by rwa [(List.cons.inj heq).2])
  | origin label hlabel h => exact .inr (.inl ⟨label, _, (List.cons.inj heq).2, hlabel, h⟩)
  | numeral label hlabel h =>
      refine .inr (.inr ⟨label, _, ?_, hlabel, h⟩)
      simpa [numeralLexemes] using heq

end Tracked

end Syntax

open Syntax

namespace Term

/-- A term whose numeral tags are true and whose names can be read. -/
structure Sound (t : Term) : Prop where
  tags : t.NumeralsHold
  names : ∀ x ∈ t.allNames, IsReadable x

theorem sound_var {x : String} (hx : IsReadable x) : (var {} x).Sound :=
  ⟨numeralsHold_var.mpr (tagHolds_of_isTag_eq_false rfl), List.forall_mem_singleton.mpr hx⟩

theorem Sound.lam {x : String} {body : Term} (hx : IsReadable x) (h : body.Sound) :
    (lam {} x body).Sound :=
  ⟨numeralsHold_lam.mpr ⟨tagHolds_of_isTag_eq_false rfl, h.tags⟩,
    List.forall_mem_cons.mpr ⟨hx, h.names⟩⟩

theorem Sound.app {func arg : Term} (hf : func.Sound) (ha : arg.Sound) : (app {} func arg).Sound :=
  ⟨numeralsHold_app.mpr ⟨tagHolds_of_isTag_eq_false rfl, hf.tags, ha.tags⟩,
    List.forall_mem_append.mpr ⟨hf.names, ha.names⟩⟩

theorem allNames_setMark (m : Mark) (t : Term) : (t.setMark m).allNames = t.allNames := by
  cases t <;> rfl

theorem Sound.setTag {t : Term} {label : String} (h : t.Sound)
    (htag : (t.setTag (some label)).TagHolds) : (t.setTag (some label)).Sound :=
  ⟨h.tags.setMark htag, by rw [Term.setTag, allNames_setMark]; exact h.names⟩

@[simp] theorem tag_setTag (tag : Option String) (t : Term) : (t.setTag tag).tag = tag := by
  cases t <;> rfl

theorem Sound.tagged {t : Term} {label : String} (h : t.Sound)
    (hlabel : Numeral.isTag (some label) = false) : (tagged (some label) t).Sound := by
  unfold Syntax.tagged
  dsimp only
  split
  · exact h
  · exact h.setTag (tagHolds_of_isTag_eq_false (by rw [tag_setTag, hlabel]))

theorem tagged_reference (label : List Char) (t : Term) :
    Syntax.tagged (some (String.ofList ('_' :: label))) t = t.setTag (some (String.ofList ('_' :: label))) := by
  simp [Syntax.tagged, String.isEmpty_iff]

theorem sound_numeral {label : List Char} (h : Numeral.IsLabel label) :
    (tagged (some (String.ofList ('_' :: label)))
      (Numeral.term (Text.digitsValue label)).bare).Sound := by
  have hnames : ∀ x ∈ ["f", "x"], IsReadable x := by
    intro x hx
    rcases List.mem_cons.mp hx with rfl | hx
    · exact ⟨by decide, by decide⟩
    · rw [List.mem_singleton.mp hx]
      exact ⟨by decide, by decide⟩
  have hbare : (Numeral.term (Text.digitsValue label)).bare.Sound := by
    refine ⟨numeralsHold_bare _, ?_⟩
    rw [allNames_bare]
    exact fun x hx => hnames x (allNames_numeral_subset _ hx)
  rw [tagged_reference]
  exact hbare.setTag fun _ => ⟨label, h, tag_setTag _ _, by rw [bare_setTag, bare_bare]⟩

end Term

namespace Syntax

theorem eq_of_mark_append {part : Part} {mark : Option String} {ls ms rest : List Lexeme} {t : Term}
    {label : String} (h : ReadsMarked part ls t)
    (heq : markLexemes mark ++ (ls ++ rest) = .tag label :: ms) :
    mark = some label ∧ ms = ls ++ rest := by
  cases mark with
  | some label' =>
      obtain ⟨hlabel, hms⟩ := List.cons.inj heq
      exact ⟨congrArg some (Lexeme.tag.inj hlabel), hms.symm⟩
  | none =>
      obtain ⟨l, ms', rfl, hl⟩ := h.exists_cons
      exact absurd (List.cons.inj heq).1 (hl label)

/-- What is read from the left of expanded lexemes is sound, and leaves expanded lexemes. -/
theorem sound_of_readsMarked {part : Part} {ls rest : List Lexeme} {t : Term}
    (h : ReadsMarked part ls t) (hl : Tracked (ls ++ rest)) : t.Sound ∧ Tracked rest := by
  induction h generalizing rest with
  | name x => exact ⟨Term.sound_var hl.isReadable, hl.tail (by simp)⟩
  | @group mark ls t h ih =>
      simp only [List.cons_append, List.append_assoc, List.nil_append] at hl
      rcases hl.opening with hplain | ⟨label, ms, heq, hlabel, hms⟩ | ⟨label, ms, heq, hlabel, hms⟩
      · -- parentheses of the text: a mark would have its own opening
        cases mark with
        | some label => exact absurd hplain Tracked.not_tag
        | none =>
            obtain ⟨ht, hrest⟩ := ih hplain
            exact ⟨ht, hrest.tail (by simp)⟩
      · -- an entry
        obtain ⟨rfl, rfl⟩ := eq_of_mark_append h heq
        obtain ⟨ht, hrest⟩ := ih hms
        exact ⟨ht.tagged hlabel, hrest.tail (by simp)⟩
      · -- a numeral, which ends at the parenthesis that belongs to its opening
        obtain ⟨rfl, hinner⟩ := eq_of_mark_append h heq
        have hnumeral := (Term.reads_lexemes (Numeral.term (Text.digitsValue label)) .top).marked
        obtain ⟨rfl, rfl⟩ :=
          (closes_of_readsMarked hnumeral).eq_of_append_closing (closes_of_readsMarked h) hinner
        rw [h.unique hnumeral]
        exact ⟨Term.sound_numeral hlabel, hms⟩
  | single _ ih => exact ih hl
  | apply _ _ ih ih' =>
      rw [List.append_assoc] at hl
      obtain ⟨hfunc, hl⟩ := ih hl
      obtain ⟨harg, hl⟩ := ih' hl
      exact ⟨hfunc.app harg, hl⟩
  | atoms _ ih => exact ih hl
  | abstraction x _ ih =>
      have hname := hl.tail (by simp)
      obtain ⟨hbody, hl⟩ := ih ((hname.tail (by simp)).tail (by simp))
      exact ⟨hbody.lam hname.isReadable, hl⟩
  | applyLast x _ _ ih ih' =>
      rw [List.append_assoc] at hl
      obtain ⟨hfunc, hl⟩ := ih hl
      have hname := hl.tail (by simp)
      obtain ⟨hbody, hl⟩ := ih' ((hname.tail (by simp)).tail (by simp))
      exact ⟨hfunc.app (hbody.lam hname.isReadable), hl⟩

end Syntax

/-- **What is parsed is sound**: every numeral tag names the numeral that it stands at, and every name is an
identifier in which no binder is spelled. -/
theorem Registry.sound_of_parse {limits : Limits} {r : Registry} {text : String} {t : Term}
    (hr : r.MarkFree) (htext : ∀ c ∈ text.toList, IsPublic c) (h : r.parse limits text = .ok t) :
    t.Sound := by
  unfold Registry.parse at h
  split at h
  · cases h
  split at h
  · cases h
  next expanded hexpanded =>
  split at h
  · cases h
  next tokens htokens =>
  split at h
  · next u hparse =>
    rw [← Except.ok.inj h]
    have hread : ReadsMarked .sequence ([] ++ [] ++ tokens.map Token.lexeme) u :=
      readsMarked_of_parseFrom hparse .nil rfl
    have htracked := tracked_of_tokenize (expanded_of_expandWithin hr htext hexpanded) htokens
    rw [List.nil_append, List.nil_append] at hread
    rw [← List.append_nil (tokens.map Token.lexeme)] at htracked
    exact (sound_of_readsMarked hread htracked).1
  · cases h

/-! ### Reduction -/

namespace Term

theorem isReadable_candidate {x : String} (n : Nat) (h : IsReadable x) :
    IsReadable (Freshener.candidate x n) := by
  obtain ⟨hid, hL⟩ := h
  obtain ⟨c, w, hx, hc, hw⟩ := exists_of_isIdentifier hid
  have hdigits : (toString n).toList.all isWordChar = true :=
    List.all_eq_true.mpr fun d hd => isWordChar_of_isDigit (isDigit_of_mem_toString hd)
  constructor
  · rw [Freshener.candidate, String.toList_append, hx, List.cons_append, isIdentifier, hc,
      List.all_append, hw, hdigits]
    rfl
  · rw [Freshener.candidate, String.toList_append, List.mem_append, not_or]
    exact ⟨hL, fun hd => absurd (isDigit_of_mem_toString hd) (by decide)⟩

theorem Sound.reduceStep {t : Term} (h : t.Sound) : t.reduceStep.result.Sound :=
  ⟨numeralsHold_reduceStep h.tags,
    forall_allNames_reduceStep (fun _ n hx => isReadable_candidate n hx) h.names⟩

/-- So does any number of steps. -/
theorem Sound.afterSteps {t : Term} (h : t.Sound) (steps : Nat) : (t.afterSteps steps).Sound :=
  afterSteps_induction (fun _ => Sound.reduceStep) steps h

end Term
end LambdaStepper
