import LambdaStepper.Proofs.Syntax.Cover
import LambdaStepper.Proofs.Syntax.Reading

/-! # Faults of parsing

A fault of parsing stands at a token (`ParseFault.StandsAmong`): the unexpected token is one of those that were
parsed, and the token in the place of a parameter stands right behind a binder and is no name.  It is no origin mark,
as these stand right behind opening parentheses, where the parser wants them (`marksGuarded_of_tracked`).  So the
fault stands among the tokens that are shown, too (`ParseFault.StandsAmong.shown`). -/

namespace LambdaStepper.Syntax

open Registry

/-- Whether origin marks stand right behind opening parentheses only.  The flag tells that one stands before. -/
def marksGuarded : (opened : Bool) → List Lexeme → Bool
  | _, [] => true
  | opened, l :: ls => (opened || !l.isMark) && marksGuarded (l = .opening) ls

/-- Where among tokens a fault of parsing stands. -/
def ParseFault.StandsAmong (tokens : List Token) : ParseFault → Prop
  | .unexpected token _ => token ∈ tokens ∧ token.lexeme.isMark = false
  | .badParameter none => ∃ before position, tokens = before ++ [⟨.binder, position⟩]
  | .badParameter (some token) => ∃ before position after, tokens = before ++ ⟨.binder, position⟩ :: token :: after ∧
      token.lexeme.isMark = false ∧ ∀ x, token.lexeme ≠ .name x
  | .unfinished _ | .tooDeep => True

variable {opened : Bool} {ls ms : List Lexeme} {tokens : List Token} {fault : ParseFault}

/-! ### Marks -/

theorem isMark_eq_false_iff {l : Lexeme} : l.isMark = false ↔ ∀ label, l ≠ .tag label := by
  cases l with
  | tag label => exact ⟨nofun, fun h => absurd rfl (h label)⟩
  | binder | opening | closing | point | name => exact ⟨fun _ _ => nofun, fun _ => rfl⟩

theorem marksGuarded_mono (h : marksGuarded false ls = true) (opened : Bool) : marksGuarded opened ls = true := by
  cases ls with
  | nil => rfl
  | cons l ls =>
      rw [marksGuarded, Bool.false_or, Bool.and_eq_true] at h
      rw [marksGuarded, h.1, h.2, Bool.or_true, Bool.and_true]

theorem marksGuarded_of_head (h : marksGuarded opened ls = true) (hhead : ∀ label ms, ls ≠ .tag label :: ms) :
    marksGuarded false ls = true := by
  cases ls with
  | nil => rfl
  | cons l ls =>
      have hl : l.isMark = false := isMark_eq_false_iff.mpr fun label heq => hhead label ls (by rw [heq])
      rw [marksGuarded, Bool.and_eq_true] at h
      rw [marksGuarded, hl, h.2]
      rfl

theorem marksGuarded_append (hls : ∀ l ∈ ls, l.isMark = false) (h : marksGuarded false ms = true) (opened : Bool) :
    marksGuarded opened (ls ++ ms) = true := by
  induction ls generalizing opened with
  | nil => exact marksGuarded_mono h opened
  | cons l ls ih =>
      obtain ⟨hl, hls⟩ := List.forall_mem_cons.mp hls
      rw [List.cons_append, marksGuarded, hl, ih hls, Bool.not_false, Bool.or_true, Bool.and_true]

theorem isMark_eq_false_of_mem_lexemes {t : Term} {context : PrintContext} {l : Lexeme}
    (h : l ∈ t.lexemes context) : l.isMark = false := by
  have hbracket {t : Term} {ls : List Lexeme} (hls : ∀ l ∈ ls, l.isMark = false) (context : PrintContext) :
      ∀ l ∈ t.bracketed context ls, l.isMark = false := by
    unfold Term.bracketed
    split
    · simpa [or_imp, forall_and, Lexeme.isMark] using hls
    · exact hls
  induction t generalizing context l with
  | var _ x =>
      obtain rfl := List.mem_singleton.mp h
      rfl
  | lam _ x body ih =>
      refine hbracket ?_ context l h
      simpa [Lexeme.isMark] using fun l hl => ih hl
  | app _ func arg ih ih' =>
      exact hbracket (List.forall_mem_append.mpr ⟨fun _ => ih, fun _ => ih'⟩) context l h

/-- In an expanded text, marks stand right behind opening parentheses. -/
theorem marksGuarded_of_tracked (h : Tracked ls) : marksGuarded false ls = true := by
  induction h with
  | nil => rfl
  | plain l hl _ _ ih =>
      rw [marksGuarded, isMark_eq_false_iff.mpr hl, marksGuarded_mono ih]
      rfl
  | origin label _ _ ih => simpa [marksGuarded, Lexeme.isMark] using ih
  | numeral label _ _ ih =>
      have hlexemes : ∀ l ∈ (Numeral.term (Text.digitsValue label)).lexemes .top ++ [.closing], l.isMark = false :=
        List.forall_mem_append.mpr ⟨fun _ => isMark_eq_false_of_mem_lexemes, List.forall_mem_singleton.mpr rfl⟩
      have hrest := marksGuarded_append hlexemes ih false
      simpa [numeralLexemes, marksGuarded, Lexeme.isMark] using hrest

/-! ### Parsing -/

theorem ParseFault.StandsAmong.append (h : fault.StandsAmong tokens) (before : List Token) :
    fault.StandsAmong (before ++ tokens) := by
  match fault, h with
  | .unexpected token _, h => exact ⟨List.mem_append_right before h.1, h.2⟩
  | .badParameter none, ⟨before', position, heq⟩ => exact ⟨before ++ before', position, by rw [heq, List.append_assoc]⟩
  | .badParameter (some token), ⟨before', position, after, heq, hfound⟩ =>
      exact ⟨before ++ before', position, after, by rw [heq, List.append_assoc], hfound⟩
  | .unfinished _, _ | .tooDeep, _ => trivial

theorem eq_tooDeep_of_enter {limits : Limits} {frame : Frame} {stack : List Frame}
    (h : enter limits frame stack = .error fault) : fault = .tooDeep := by
  unfold enter at h
  split at h
  · cases h
  · exact (Except.error.inj h).symm

/-- The parser finds fault with the tokens that it is given, and never with an origin mark. -/
theorem standsAmong_of_parseFrom {limits : Limits} {stack : List Frame} {left : Option Term}
    (h : parseFrom limits stack left tokens = .error fault)
    (hguarded : marksGuarded false (tokens.map Token.lexeme) = true) : fault.StandsAmong tokens := by
  fun_induction parseFrom limits stack left tokens with
  | case2 => cases h
  | case1 | case3 | case9 =>
      obtain rfl := Except.error.inj h
      trivial
  | case7 _ _ _ _ _ _ _ _ _ henter | case12 _ _ _ _ _ _ _ _ henter | case14 _ _ _ _ _ _ _ henter =>
      obtain rfl := Except.error.inj h
      rw [eq_tooDeep_of_enter henter]
      trivial
  | case4 stack left token rest x hx ih =>
      exact (ih h (by simpa [marksGuarded, hx, Lexeme.isMark] using hguarded)).append [token]
  | case6 stack left token hl x p q rest stack' henter ih =>
      exact (ih h (by simpa [marksGuarded, hl, Lexeme.isMark] using hguarded)).append
        [token, ⟨.name x, p⟩, ⟨.point, q⟩]
  | case11 stack left token hl label p rest stack' henter ih =>
      exact (ih h (by simpa [marksGuarded, hl, Lexeme.isMark] using hguarded)).append [token, ⟨.tag label, p⟩]
  | case13 stack left token hl rest hmark stack' henter ih =>
      have hrest : marksGuarded true (rest.map Token.lexeme) = true := by
        simpa [marksGuarded, hl, Lexeme.isMark] using hguarded
      refine (ih h (marksGuarded_of_head hrest fun label ms heq => ?_)).append [token]
      obtain ⟨⟨_, p⟩, rest', rfl, rfl, -⟩ := List.map_eq_cons_iff.mp heq
      exact hmark label p rest' rfl
  | case16 stack token rest hl u mark left' stack' v hfinish ih =>
      exact (ih h (by simpa [marksGuarded, hl, Lexeme.isMark] using hguarded)).append [token]
  | case5 stack left token hl =>
      obtain rfl := Except.error.inj h
      exact ⟨[], token.position, by rw [← hl]; rfl⟩
  | case8 stack left token hl x p other rest hpoint =>
      obtain rfl := Except.error.inj h
      have hother : other.lexeme.isMark = false ∧
          marksGuarded (other.lexeme = .opening) (rest.map Token.lexeme) = true := by
        simpa [marksGuarded, hl, Lexeme.isMark] using hguarded
      exact ⟨by simp, hother.1⟩
  | case10 stack left token hl found rest hname hother hlast =>
      obtain rfl := Except.error.inj h
      have hfound : found.lexeme.isMark = false ∧
          marksGuarded (found.lexeme = .opening) (rest.map Token.lexeme) = true := by
        simpa [marksGuarded, hl, Lexeme.isMark] using hguarded
      refine ⟨[], token.position, rest, by rw [← hl]; rfl, hfound.1, fun x hx => ?_⟩
      have heq : found = ⟨.name x, found.position⟩ := by rw [← hx]
      cases rest with
      | nil => exact hlast x _ heq rfl
      | cons other rest => exact hother x _ other rest heq rfl
  | case15 stack token rest hl | case17 stack token rest hl | case18 stack token rest hl | case19 stack token rest hl
  | case20 stack token rest hl =>
      obtain rfl := Except.error.inj h
      exact ⟨List.mem_cons_self, by rw [hl]; rfl⟩
  | case21 stack left token rest label hl => simp [marksGuarded, hl, Lexeme.isMark] at hguarded

/-! ### What is shown -/

/-- A fault with the positions that are shown. -/
def ParseFault.shown (cs : List Char) : ParseFault → ParseFault
  | .unexpected token expected => .unexpected ⟨token.lexeme, shownPosition cs token.position⟩ expected
  | .badParameter found => .badParameter (found.map fun token => ⟨token.lexeme, shownPosition cs token.position⟩)
  | .unfinished expected => .unfinished expected
  | .tooDeep => .tooDeep

/-- A fault in a text that is shown, at the positions that are shown; `text` is the text before expansion. -/
def ParseFault.inShown (text : String) (shown : List Char) : ParseFault → SyntaxFault
  | .unfinished expected => .unfinished (String.ofList shown) expected
  | .unexpected token expected =>
    .badToken (String.ofList shown) token.lexeme.shown token.position token.lexeme.text.length expected
  | .badParameter none => .badParameter (String.ofList shown) "end of input" shown.length
  | .badParameter (some token) => .badParameter (String.ofList shown) token.lexeme.text token.position
  | .tooDeep => .tooDeep text

theorem inText_eq_inShown (text : String) (cs : List Char) (fault : ParseFault) :
    fault.inText text cs = (fault.shown cs).inShown text (stripMarks cs) := by
  rcases fault with _ | _ | (_ | _) | _ <;> rfl

theorem shownTokens_append (cs : List Char) (tokens later : List Token) :
    shownTokens cs (tokens ++ later) = shownTokens cs tokens ++ shownTokens cs later := by
  simp [shownTokens]

theorem shownTokens_cons (cs : List Char) {token : Token} (htoken : token.lexeme.isMark = false)
    (tokens : List Token) :
    shownTokens cs (token :: tokens) = ⟨token.lexeme, shownPosition cs token.position⟩ :: shownTokens cs tokens := by
  simp [shownTokens, htoken]

/-- A fault stands among the tokens that are shown. -/
theorem ParseFault.StandsAmong.shown (h : fault.StandsAmong tokens) (cs : List Char) :
    (fault.shown cs).StandsAmong (shownTokens cs tokens) := by
  match fault, h with
  | .unexpected token _, ⟨hmem, hmark⟩ =>
      refine ⟨List.mem_map.mpr ⟨token, List.mem_filter.mpr ⟨hmem, ?_⟩, rfl⟩, hmark⟩
      rw [hmark]
      rfl
  | .badParameter none, ⟨before, position, heq⟩ =>
      refine ⟨shownTokens cs before, shownPosition cs position, ?_⟩
      rw [heq, shownTokens_append]
      rfl
  | .badParameter (some token), ⟨before, position, after, heq, hmark, hname⟩ =>
      refine ⟨shownTokens cs before, shownPosition cs position, shownTokens cs after, ?_, hmark, hname⟩
      rw [heq, shownTokens_append, shownTokens_cons cs rfl, shownTokens_cons cs hmark]
  | .unfinished _, _ | .tooDeep, _ => trivial

end LambdaStepper.Syntax
