import LambdaStepper.Proofs.Registry.Unmarked
import LambdaStepper.Proofs.Syntax.ExpandedTokens

/-! # Marks are not shown

Origin marks change neither what a text expands to nor what it is read as (`expandWithin_stripMarks`): a
marked expansion has the tokens of the unmarked one, at the positions that are shown, and tokens for its
marks besides. -/

namespace LambdaStepper

open Syntax

namespace Syntax

/-- Whether a token is an origin mark. -/
def Lexeme.isMark : Lexeme → Bool
  | .tag _ => true
  | _ => false

/-- The tokens of a text but for its marks, at the positions that are shown. -/
def shownTokens (cs : List Char) (tokens : List Token) : List Token :=
  (tokens.filter fun token => !token.lexeme.isMark).map fun token =>
    ⟨token.lexeme, shownPosition cs token.position⟩

/-! ### Texts without their marks -/

theorem Sealed.stripMarks_append {cs : List Char} (h : Sealed cs) (rest : List Char) :
    stripMarks (cs ++ rest) = stripMarks cs ++ stripMarks rest := by
  induction h with
  | nil => rfl
  | plain c hc _ ih =>
      rw [List.cons_append, stripMarks_cons hc.1, stripMarks_cons hc.1, ih, List.cons_append]
  | opening label hclose _ _ ih =>
      rw [List.append_assoc, stripMarks_opening hclose, stripMarks_opening hclose, ih, List.cons_append]

theorem Sealed.append {cs ds : List Char} (h : Sealed cs) (h' : Sealed ds) : Sealed (cs ++ ds) := by
  induction h with
  | nil => exact h'
  | plain c hc _ ih => exact .plain c hc ih
  | opening label hclose hinert _ ih =>
      rw [List.append_assoc]
      exact .opening label hclose hinert ih

theorem Sealed.isPublic_of_mem_stripMarks {cs : List Char} (h : Sealed cs) :
    ∀ c ∈ stripMarks cs, IsPublic c := by
  induction h with
  | nil => exact List.forall_mem_nil _
  | plain c hc _ ih =>
      rw [stripMarks_cons hc.1]
      exact List.forall_mem_cons.mpr ⟨hc, ih⟩
  | opening label hclose _ _ ih =>
      rw [stripMarks_opening hclose]
      exact List.forall_mem_cons.mpr ⟨by decide, ih⟩

theorem Sealed.stripMarks_stripMarks {cs : List Char} (h : Sealed cs) :
    stripMarks (stripMarks cs) = stripMarks cs :=
  stripMarks_eq_self fun hmem => (h.isPublic_of_mem_stripMarks _ hmem).1 rfl

theorem Sealed.sealed_stripMarks {cs : List Char} (h : Sealed cs) : Sealed (stripMarks cs) := by
  have hsealed := sealed_append h.isPublic_of_mem_stripMarks .nil
  rwa [List.append_nil] at hsealed

theorem unifyFrom_cons {c : Char} (hc : c ≠ markOpen) (cs : List Char) :
    unifyFrom 0 (c :: cs) = (if isBinder c then 'λ' else c) :: unifyFrom 0 cs :=
  if_neg hc

/-- It makes no difference whether binders are made one before marks are taken away or after. -/
theorem Sealed.stripMarks_unifyFrom {cs : List Char} (h : Sealed cs) :
    stripMarks (unifyFrom 0 cs) = unifyFrom 0 (stripMarks cs) := by
  induction h with
  | nil => rfl
  | plain c hc _ ih =>
      rw [unifyFrom_cons hc.1, stripMarks_cons hc.1, unifyFrom_cons hc.1,
        stripMarks_cons (isUnified_unified hc.1).1, ih]
  | opening label hclose _ _ ih =>
      have hparen : '(' ≠ markOpen := by decide
      rw [unifyFrom_opening hclose, stripMarks_opening hclose, stripMarks_opening hclose, ih,
        unifyFrom_cons hparen]
      rfl

theorem Sealed.unifyFrom_append {cs : List Char} (h : Sealed cs) (rest : List Char) :
    unifyFrom 0 (cs ++ rest) = unifyFrom 0 cs ++ unifyFrom 0 rest := by
  induction h with
  | nil => rfl
  | plain c hc _ ih => rw [List.cons_append, unifyFrom_cons hc.1, unifyFrom_cons hc.1, ih, List.cons_append]
  | opening label hclose _ _ ih =>
      rw [List.append_assoc, unifyFrom_opening hclose, unifyFrom_opening hclose, ih, List.append_assoc]

theorem Sealed.takeWhile_stripMarks {cs : List Char} (h : Sealed cs) :
    (unifyFrom 0 (stripMarks cs)).takeWhile isWordChar = (unifyFrom 0 cs).takeWhile isWordChar := by
  induction h with
  | nil => rfl
  | plain c hc _ ih =>
      rw [stripMarks_cons hc.1, unifyFrom_cons hc.1, unifyFrom_cons hc.1, List.takeWhile_cons,
        List.takeWhile_cons, ih]
  | opening label hclose _ _ _ =>
      rw [stripMarks_opening hclose, unifyFrom_opening hclose]
      rfl

theorem firstLexeme?_congr {c : Char} (hc : c ≠ markOpen) {cs ds : List Char}
    (h : cs.takeWhile isWordChar = ds.takeWhile isWordChar) :
    firstLexeme? (c :: cs) = firstLexeme? (c :: ds) := by
  simp only [firstLexeme?, if_neg hc, h]

theorem opening_notMem_of_firstLexeme? {c : Char} (hc : c ≠ markOpen) {cs : List Char} {l : Lexeme}
    {width : Nat} (h : firstLexeme? (c :: cs) = some (l, width)) :
    l.isMark = false ∧ '(' ∉ cs.take (width - 1) := by
  rcases firstLexeme?_eq_some hc h with ⟨hsign, rfl⟩ | ⟨-, rfl, rfl⟩
  · refine ⟨?_, List.not_mem_nil⟩
    cases l with
    | tag label => cases hsign
    | binder | opening | closing | point | name => rfl
  · rw [Nat.add_sub_cancel, ← List.prefix_iff_eq_take.mp (List.takeWhile_prefix _)]
    exact ⟨rfl, fun hmem => absurd (List.mem_takeWhile_imp hmem) (by decide)⟩

/-! ### Tokens -/

theorem shownPosition_append (pre rest : List Char) :
    shownPosition (pre ++ rest) pre.length = (stripMarks pre).length := by
  rw [shownPosition, List.take_left]

/-- Where the lexer stops and at which character, as it is reported. -/
def stop (cs : List Char) (position : Nat) : Nat × Char :=
  (shownPosition (unifyFrom 0 cs) position, (unifyFrom 0 cs).getD position ' ')

theorem Sealed.stop_append {pre : List Char} (hpre : Sealed pre) {c : Char} (hc : c ≠ markOpen)
    (cs : List Char) :
    stop (pre ++ c :: cs) pre.length = ((stripMarks pre).length, if isBinder c then 'λ' else c) := by
  have hlength : (unifyFrom 0 pre).length = pre.length := length_unifyFrom 0 pre
  have hshown : (stripMarks (unifyFrom 0 pre)).length = (stripMarks pre).length := by
    rw [hpre.stripMarks_unifyFrom, length_unifyFrom]
  rw [stop, hpre.unifyFrom_append, ← hlength, shownPosition_append, hshown, unifyFrom_cons hc]
  simp

/-- What the lexer finds in a text, as it is shown. -/
def shownResult (cs : List Char) (result : Except Nat (List Token)) : Except (Nat × Char) (List Token) :=
  (result.map (shownTokens cs)).mapError (stop cs)

theorem mapError_map {ε ε' α β : Type} (f : ε → ε') (g : α → β) (result : Except ε α) :
    (result.map g).mapError f = (result.mapError f).map g := by
  cases result <;> rfl

theorem shownResult_cons {cs : List Char} {l : Lexeme} (hl : l.isMark = false) (position : Nat)
    (result : Except Nat (List Token)) :
    shownResult cs (result.map (⟨l, position⟩ :: ·))
      = (shownResult cs result).map (⟨l, shownPosition cs position⟩ :: ·) := by
  cases result with
  | error => rfl
  | ok tokens => simp [shownResult, Except.map, Except.mapError, shownTokens, hl]

theorem shownResult_cons_mark (cs : List Char) (label : String) (position : Nat)
    (result : Except Nat (List Token)) :
    shownResult cs (result.map (⟨.tag label, position⟩ :: ·)) = shownResult cs result := by
  cases result <;> rfl

/-- Whether the lexer finds in a text, behind another one, what it finds in both without their marks. -/
def ShownBehind (pre cs : List Char) : Prop :=
  ∀ owed, '(' ∉ (unifyFrom 0 cs).take owed →
    shownResult (pre ++ cs) (tokensFrom owed pre.length (unifyFrom 0 cs))
      = (tokensFrom owed (stripMarks pre).length (unifyFrom 0 (stripMarks cs))).mapError
          (stop (stripMarks (pre ++ cs)))

theorem ShownBehind.plain {pre cs : List Char} {c : Char} (hpre : Sealed pre) (hc : IsPublic c)
    (hcs : Sealed cs) (h : ShownBehind (pre ++ [c]) cs) : ShownBehind pre (c :: cs) := by
  intro owed howed
  have hlength : (stripMarks (pre ++ [c])).length = (stripMarks pre).length + 1 := by
    rw [hpre.stripMarks_append, stripMarks_cons hc.1, List.length_append]
    rfl
  have hrest {owed : Nat} (howed : '(' ∉ (unifyFrom 0 cs).take owed) :
      shownResult (pre ++ c :: cs) (tokensFrom owed (pre.length + 1) (unifyFrom 0 cs))
        = (tokensFrom owed ((stripMarks pre).length + 1) (unifyFrom 0 (stripMarks cs))).mapError
            (stop (stripMarks (pre ++ c :: cs))) := by
    have h := h owed howed
    rwa [List.append_assoc, List.singleton_append, List.length_append, List.length_singleton, hlength] at h
  have hstop : stop (pre ++ c :: cs) pre.length
      = stop (stripMarks (pre ++ c :: cs)) (stripMarks pre).length := by
    rw [hpre.stripMarks_append, stripMarks_cons hc.1, hpre.stop_append hc.1,
      hpre.sealed_stripMarks.stop_append hc.1, hpre.stripMarks_stripMarks]
  rw [unifyFrom_cons hc.1] at howed
  rw [stripMarks_cons hc.1 cs, unifyFrom_cons hc.1, unifyFrom_cons hc.1]
  have hunified := (isUnified_unified hc.1).1
  generalize (if isBinder c then 'λ' else c) = c' at howed hunified ⊢
  cases owed with
  | succ owed =>
      rw [List.take_succ_cons, List.mem_cons, not_or] at howed
      exact hrest howed.2
  | zero =>
      rw [tokensFrom, tokensFrom, firstLexeme?_congr hunified hcs.takeWhile_stripMarks]
      cases hfirst : firstLexeme? (c' :: unifyFrom 0 cs) with
      | none =>
          dsimp only
          split
          · exact hrest List.not_mem_nil
          · exact congrArg Except.error hstop
      | some found =>
          obtain ⟨l, width⟩ := found
          obtain ⟨hl, hword⟩ := opening_notMem_of_firstLexeme? hunified hfirst
          dsimp only
          rw [shownResult_cons hl, shownPosition_append, hrest hword, mapError_map]

theorem ShownBehind.opening {pre cs label : List Char} (hpre : Sealed pre) (hclose : markClose ∉ '_' :: label)
    (h : ShownBehind (pre ++ '(' :: writeMark ('_' :: label)) cs) :
    ShownBehind pre ('(' :: writeMark ('_' :: label) ++ cs) := by
  intro owed howed
  cases owed with
  | succ owed =>
      rw [unifyFrom_opening hclose] at howed
      exact absurd List.mem_cons_self howed
  | zero =>
      have hlength : (pre ++ '(' :: writeMark ('_' :: label)).length
          = pre.length + ('_' :: label).length + 3 := by
        simp [writeMark, Nat.add_assoc]
      have hshown : (stripMarks (pre ++ '(' :: writeMark ('_' :: label))).length
          = (stripMarks pre).length + 1 := by
        have hmark := stripMarks_opening hclose []
        rw [List.append_nil] at hmark
        rw [hpre.stripMarks_append, hmark, List.length_append]
        rfl
      have h := h 0 List.not_mem_nil
      rw [hlength, hshown, List.append_assoc] at h
      have hopening : ∀ position rest, tokensFrom 0 position (unifyFrom 0 ('(' :: rest))
          = (tokensFrom 0 (position + 1) (unifyFrom 0 rest)).map (⟨.opening, position⟩ :: ·) :=
        fun _ _ => rfl
      have hmark : ∀ result : Except Nat (List Token),
          result.map (⟨.opening, pre.length⟩ :: ⟨.tag (String.ofList ('_' :: label)), pre.length + 1⟩ :: ·)
            = (result.map (⟨.tag (String.ofList ('_' :: label)), pre.length + 1⟩ :: ·)).map
                (⟨.opening, pre.length⟩ :: ·) := by
        intro result
        cases result <;> rfl
      rw [unifyFrom_opening hclose, tokensFrom_opening hclose, hmark, shownResult_cons rfl,
        shownResult_cons_mark, h, shownPosition_append, stripMarks_opening hclose, hopening, mapError_map]

theorem Sealed.shownBehind {cs : List Char} (h : Sealed cs) {pre : List Char} (hpre : Sealed pre) :
    ShownBehind pre cs := by
  induction h generalizing pre with
  | nil =>
      intro owed _
      cases owed <;> rfl
  | plain c hc hcs ih => exact .plain hpre hc hcs (ih (hpre.append (.plain c hc .nil)))
  | opening label hclose hinert _ ih =>
      have hmark := Sealed.opening label hclose hinert .nil
      rw [List.append_nil] at hmark
      exact .opening hpre hclose (ih (hpre.append hmark))

theorem tokenize_eq (cs : List Char) :
    tokenize cs = ((tokensFrom 0 0 (unifyFrom 0 cs)).mapError (stop cs)).mapError fun (position, c) =>
      .badCharacter (String.ofList (stripMarks (unifyFrom 0 cs))) c position := by
  simp only [tokenize, unifyBinders]
  cases tokensFrom 0 0 (unifyFrom 0 cs) <;> rfl

theorem tokenize_eq_ok_iff {cs : List Char} {tokens : List Token} :
    tokenize cs = .ok tokens ↔ tokensFrom 0 0 (unifyFrom 0 cs) = .ok tokens := by
  rw [tokenize_eq]
  cases tokensFrom 0 0 (unifyFrom 0 cs) <;> simp [Except.mapError]

theorem Sealed.tokenize_stripMarks {cs : List Char} (h : Sealed cs) :
    (tokenize cs).map (shownTokens cs) = tokenize (stripMarks cs) := by
  have hresult := h.shownBehind .nil 0 List.not_mem_nil
  have hstrip : stripMarks (unifyFrom 0 (stripMarks cs)) = stripMarks (unifyFrom 0 cs) := by
    rw [h.sealed_stripMarks.stripMarks_unifyFrom, h.stripMarks_stripMarks, h.stripMarks_unifyFrom]
  rw [List.nil_append, List.length_nil] at hresult
  rw [tokenize_eq, tokenize_eq, hstrip, ← mapError_map, ← mapError_map]
  exact congrArg (Except.mapError _) hresult

end Syntax

namespace Registry

/-- **Marks change neither an expansion nor what it is read as.**  A text without private characters expands
to the same with marks and without, but for the marks, or fails to for the same reason.  The expansions have
the same tokens at the positions that are shown, or the same fault. -/
theorem expandWithin_stripMarks (limits : Limits) {r : Registry} (hr : r.MarkFree) {cs : List Char}
    (hcs : ∀ c ∈ cs, IsPublic c) :
    (r.expandWithin limits true cs).map stripMarks = r.expandWithin limits false cs ∧
      ∀ marked unmarked, r.expandWithin limits true cs = .ok marked →
        r.expandWithin limits false cs = .ok unmarked →
          (tokenize marked).map (shownTokens marked) = tokenize unmarked := by
  have hplain : Expanded IsPublic (cs ++ []) := expanded_append hcs .nil
  rw [List.append_nil] at hplain
  have hpasses := stripMarks_expandPassesWithin limits hr hplain maxPasses
  rw [stripMarks_eq_self fun hmem => (hcs _ hmem).1 rfl] at hpasses
  refine ⟨hpasses, fun marked unmarked hmarked hunmarked => ?_⟩
  have hsealed := sealed_of_expanded (expanded_of_expandWithin hr hcs hmarked)
  unfold expandWithin at hmarked hunmarked
  rw [hmarked, hunmarked] at hpasses
  rw [← Except.ok.inj hpasses, hsealed.tokenize_stripMarks]

/-- Three marks, one of them with a binder in its tag, in front of a character that belongs to no token. -/
theorem expandWithin_stripMarks_nested :
    let r : Registry := ⟨[⟨"SELF", "Lx.x _ID", none⟩, ⟨"ID", "λy.y", none⟩], []⟩
    let cs := "_SELF # _1".toList
    r.MarkFree ∧ (∀ c ∈ cs, IsPublic c) ∧
      (r.expandWithin .unlimited true cs).map stripMarks = r.expandWithin .unlimited false cs ∧
      ∃ marked, r.expandWithin .unlimited true cs = .ok marked ∧ marked.length = 44 ∧
        r.expandWithin .unlimited false cs = .ok "(Lx.x (λy.y)) # (λf.λx. f x)".toList ∧
        (tokenize marked).map (shownTokens marked) = tokenize "(Lx.x (λy.y)) # (λf.λx. f x)".toList ∧
        tokenize marked = .error (.badCharacter "(λx.x (λy.y)) # (λf.λx. f x)" '#' 14) := by
  intro r cs
  have hr : r.MarkFree := by decide +kernel
  have hcs : ∀ c ∈ cs, IsPublic c := by decide +kernel
  obtain ⟨hstrip, htokens⟩ := expandWithin_stripMarks .unlimited hr hcs
  have hunmarked : r.expandWithin .unlimited false cs = .ok "(Lx.x (λy.y)) # (λf.λx. f x)".toList := by
    decide +kernel
  have hmarked : r.expandWithin .unlimited true cs = .ok (r.expand true cs) := r.expandWithin_unlimited true cs
  exact ⟨hr, hcs, hstrip, r.expand true cs, hmarked, by decide +kernel, hunmarked,
    htokens _ _ hmarked hunmarked, by decide +kernel⟩

end Registry
end LambdaStepper
