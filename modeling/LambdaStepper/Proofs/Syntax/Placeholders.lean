import LambdaStepper.Proofs.Registry.Meaning

/-! # Placeholders

A text with a placeholder for every reference is read as the text with other texts in their place, if those
can be read, but for the trees that stand in the place of the placeholders (`rel_read?_fill`).

A placeholder is a variable in parentheses that is marked with the reference.  The lexer goes through both
texts side by side, for in both a parenthesis stands in front of what differs and another one behind it
(`fillsText_fill`), and so does the parser, which passes over a term in parentheses whatever it is
(`Fills.alike_parseFrom`). -/

namespace LambdaStepper

/-- The term with trees in the place of its tagged variables, whose tags the trees take over. -/
def Term.plug? (tree? : String → Option Term) : Term → Option Term
  | .var m x =>
    match m.tag with
    | none => some (.var m x)
    | some tag => (tree? tag).map (·.setTag (some tag))
  | .lam m x body => (body.plug? tree?).map (.lam m x)
  | .app m func arg => (func.plug? tree?).bind fun func => (arg.plug? tree?).map (.app m func)

namespace Syntax

/-- The term as which a text is read whose references are expanded. -/
def read? (cs : List Char) : Option Term :=
  (tokenize cs).toOption.bind fun tokens => (parseTokens .unlimited tokens).toOption

theorem toOption_eq_some_iff {ε α : Type} {result : Except ε α} {a : α} :
    result.toOption = some a ↔ result = .ok a := by
  cases result <;> simp [Except.toOption]

theorem read?_eq_some_iff {cs : List Char} {t : Term} :
    read? cs = some t ↔
      ∃ tokens, tokenize cs = .ok tokens ∧ ReadsMarked .sequence (tokens.map Token.lexeme) t := by
  unfold read?
  constructor
  · intro h
    obtain ⟨tokens, htokens, hparse⟩ := Option.bind_eq_some_iff.mp h
    refine ⟨tokens, toOption_eq_some_iff.mp htokens, ?_⟩
    exact parseTokens_eq_ok_iff.mp (toOption_eq_some_iff.mp hparse)
  · rintro ⟨tokens, htokens, hread⟩
    rw [htokens, Except.toOption, Option.bind_some, parseTokens_of_readsMarked hread]
    rfl

/-- Two results that are related, or faults on both sides. -/
inductive Alike {ε ε' α β : Type} (R : α → β → Prop) : Except ε α → Except ε' β → Prop where
  | ok {a : α} {b : β} (h : R a b) : Alike R (.ok a) (.ok b)
  | error (e : ε) (e' : ε') : Alike R (.error e) (.error e')

theorem Alike.map {ε ε' α β γ δ : Type} {R : α → β → Prop} {S : γ → δ → Prop} {a : Except ε α}
    {b : Except ε' β} (h : Alike R a b) {f : α → γ} {g : β → δ} (hfg : ∀ a b, R a b → S (f a) (g b)) :
    Alike S (a.map f) (b.map g) := by
  cases h with
  | ok h => exact .ok (hfg _ _ h)
  | error e e' => exact .error e e'

variable {tree? : String → Option Term}

/-- Whether a term is another one with trees in the place of its tagged variables. -/
def Plugs (tree? : String → Option Term) (t u : Term) : Prop :=
  u.plug? tree? = some t

theorem eq_bind_of_rel {t? u? : Option Term} (h : Option.Rel (Plugs tree?) t? u?) :
    t? = u?.bind (Term.plug? tree?) := by
  cases h with
  | none => rfl
  | some h => exact h.symm

theorem exists_iff_of_rel {α β : Type} {R : α → β → Prop} {a? : Option α} {b? : Option β}
    (h : Option.Rel R a? b?) : (∃ a, a? = some a) ↔ ∃ b, b? = some b := by
  cases h with
  | none => simp
  | some h => simp

/-- Tokens of a text, and those of the text with placeholders. -/
inductive Fills (tree? : String → Option Term) : List Token → List Token → Prop where
  | nil : Fills tree? [] []
  | plain {ts us : List Token} (l : Lexeme) (hl : l.isMark = false) (p q : Nat) (h : Fills tree? ts us) :
      Fills tree? (⟨l, p⟩ :: ts) (⟨l, q⟩ :: us)
  | reference {ts us : List Token} {tag : String} (htag : tag.isEmpty = false) {inner : List Token} {t : Term}
      (hinner : ReadsMarked .sequence (inner.map Token.lexeme) t)
      (htree : (tree? tag).map (·.setTag (some tag)) = some (t.setTag (some tag))) (p p' p'' q q' q'' o : Nat)
      (h : Fills tree? ts us) :
      Fills tree? (⟨.opening, p⟩ :: ⟨.tag tag, p'⟩ :: (inner ++ ⟨.closing, p''⟩ :: ts))
        (⟨.opening, q⟩ :: ⟨.tag tag, q'⟩ :: ⟨.name "x", o⟩ :: ⟨.closing, q''⟩ :: us)

/-! ### The parser -/

/-- Whether two frames differ in terms to the left only, of which one fills the other. -/
inductive FramePlugs (tree? : String → Option Term) : Frame → Frame → Prop where
  | group {left left' : Option Term} (h : Option.Rel (Plugs tree?) left left') :
      FramePlugs tree? (.group none left) (.group none left')
  | body (x : String) {left left' : Option Term} (h : Option.Rel (Plugs tree?) left left') :
      FramePlugs tree? (.body x left) (.body x left')

theorem Plugs.applyTo {t t' : Term} (h : Plugs tree? t t') {left left' : Option Term}
    (hleft : Option.Rel (Plugs tree?) left left') : Plugs tree? (applyTo left t) (Syntax.applyTo left' t') := by
  cases hleft with
  | none => exact h
  | some hleft =>
      unfold Plugs at h hleft ⊢
      simp only [Syntax.applyTo, Term.plug?, h, hleft, Option.bind_some, Option.map_some]

theorem Plugs.lam (x : String) {t t' : Term} (h : Plugs tree? t t') :
    Plugs tree? (.lam {} x t) (.lam {} x t') := by
  unfold Plugs at h ⊢
  rw [Term.plug?, h, Option.map_some]

theorem Plugs.finishBodies {stack stack' : List Frame}
    (hstack : List.Forall₂ (FramePlugs tree?) stack stack') {t t' : Term} (h : Plugs tree? t t') :
    List.Forall₂ (FramePlugs tree?) (finishBodies stack t).1 (Syntax.finishBodies stack' t').1 ∧
      Plugs tree? (Syntax.finishBodies stack t).2 (Syntax.finishBodies stack' t').2 := by
  induction hstack generalizing t t' with
  | nil => exact ⟨.nil, h⟩
  | cons hframe hstack ih =>
      cases hframe with
      | group hleft => exact ⟨.cons (.group hleft) hstack, h⟩
      | body x hleft => exact ih ((h.lam x).applyTo hleft)

variable {stack stack' : List Frame} {left left' : Option Term}

theorem parseFrom_opening_of_forall {rest : List Token}
    (h : ∀ label q ts, rest ≠ ⟨.tag label, q⟩ :: ts) (p : Nat) :
    parseFrom .unlimited stack left (⟨.opening, p⟩ :: rest)
      = parseFrom .unlimited (.group none left :: stack) none rest := by
  rw [parseFrom.eq_def]
  rcases rest with - | ⟨⟨lexeme, q⟩, rest⟩
  · rfl
  · cases lexeme with
    | tag label => exact absurd rfl (h label q rest)
    | binder | opening | closing | point | name => rfl

theorem exists_error_of_binder {rest : List Token}
    (h : ∀ x q o ts, rest ≠ ⟨.name x, q⟩ :: ⟨.point, o⟩ :: ts) (p : Nat) :
    ∃ fault, parseFrom .unlimited stack left (⟨.binder, p⟩ :: rest) = .error fault := by
  rw [parseFrom.eq_def]
  rcases rest with - | ⟨⟨lexeme, q⟩, - | ⟨⟨lexeme', o⟩, rest⟩⟩
  · exact ⟨_, rfl⟩
  · cases lexeme <;> exact ⟨_, rfl⟩
  · cases lexeme with
    | name x =>
        cases lexeme' with
        | point => exact absurd rfl (h x q o rest)
        | binder | opening | closing | name | tag => exact ⟨_, rfl⟩
    | binder | opening | closing | point | tag => exact ⟨_, rfl⟩

theorem exists_error_of_point (p : Nat) (rest : List Token) :
    ∃ fault, parseFrom .unlimited stack left (⟨.point, p⟩ :: rest) = .error fault := by
  rw [parseFrom.eq_def]
  cases left with
  | none => exact ⟨_, rfl⟩
  | some t =>
      dsimp only
      split <;> exact ⟨_, rfl⟩

theorem Alike.toOption {ε ε' α β : Type} {R : α → β → Prop} {a : Except ε α} {b : Except ε' β}
    (h : Alike R a b) : Option.Rel R a.toOption b.toOption := by
  cases h with
  | ok h => exact .some h
  | error => exact .none

theorem Alike.of_errors {ε ε' α β : Type} {R : α → β → Prop} {a : Except ε α} {b : Except ε' β}
    (ha : ∃ e, a = .error e) (hb : ∃ e, b = .error e) : Alike R a b := by
  obtain ⟨e, rfl⟩ := ha
  obtain ⟨e', rfl⟩ := hb
  exact .error e e'

theorem Fills.ne_tag {ts us : List Token} (h : Fills tree? ts us) :
    (∀ label q vs, ts ≠ ⟨.tag label, q⟩ :: vs) ∧ ∀ label q vs, us ≠ ⟨.tag label, q⟩ :: vs := by
  cases h with
  | nil => exact ⟨fun _ _ _ => nofun, fun _ _ _ => nofun⟩
  | plain l hl => constructor <;> (rintro label q vs heq; cases heq; cases hl)
  | reference => exact ⟨fun _ _ _ => nofun, fun _ _ _ => nofun⟩

theorem Fills.parameter {ts us : List Token} (h : Fills tree? ts us) :
    (∃ x p p' q q' ts' us', ts = ⟨.name x, p⟩ :: ⟨.point, p'⟩ :: ts' ∧
        us = ⟨.name x, q⟩ :: ⟨.point, q'⟩ :: us' ∧ Fills tree? ts' us') ∨
      (∀ x q o vs, ts ≠ ⟨.name x, q⟩ :: ⟨.point, o⟩ :: vs) ∧
        ∀ x q o vs, us ≠ ⟨.name x, q⟩ :: ⟨.point, o⟩ :: vs := by
  have hneither {ts us : List Token} (hts : ∀ x q vs, ts ≠ ⟨.name x, q⟩ :: vs)
      (hus : ∀ x q vs, us ≠ ⟨.name x, q⟩ :: vs) :
      (∀ x q o vs, ts ≠ ⟨.name x, q⟩ :: ⟨.point, o⟩ :: vs) ∧
        ∀ x q o vs, us ≠ ⟨.name x, q⟩ :: ⟨.point, o⟩ :: vs :=
    ⟨fun x q o vs => hts x q _, fun x q o vs => hus x q _⟩
  cases h with
  | nil => exact .inr (hneither (fun _ _ _ => nofun) fun _ _ _ => nofun)
  | reference => exact .inr (hneither (fun _ _ _ => nofun) fun _ _ _ => nofun)
  | plain l hl p q h =>
      cases l with
      | name x =>
          cases h with
          | nil => exact .inr ⟨fun _ _ _ _ => nofun, fun _ _ _ _ => nofun⟩
          | reference => exact .inr ⟨fun _ _ _ _ => nofun, fun _ _ _ _ => nofun⟩
          | plain l hl p' q' h =>
              cases l with
              | point => exact .inl ⟨x, p, p', q, q', _, _, rfl, rfl, h⟩
              | binder | opening | closing | name | tag =>
                  exact .inr ⟨fun _ _ _ _ => nofun, fun _ _ _ _ => nofun⟩
      | binder | opening | closing | point | tag =>
          exact .inr (hneither (fun _ _ _ => nofun) fun _ _ _ => nofun)

theorem exists_error_of_finishBodies {t u : Term} {frames : List Frame}
    (hframes : finishBodies stack t = (frames, u))
    (h : ∀ tag left' stack', frames ≠ .group tag left' :: stack') (p : Nat) (rest : List Token) :
    ∃ fault, parseFrom .unlimited stack (some t) (⟨.closing, p⟩ :: rest) = .error fault := by
  rw [parseFrom.eq_def]
  simp only [hframes]
  rcases frames with - | ⟨⟨tag, left'⟩ | ⟨x, left'⟩, stack'⟩
  · exact ⟨_, rfl⟩
  · exact absurd rfl (h tag left' stack')
  · exact ⟨_, rfl⟩

/-- A closing parenthesis ends the same group on both sides. -/
theorem alike_closing {ts us : List Token}
    (hrest : ∀ {stack stack' left left'}, List.Forall₂ (FramePlugs tree?) stack stack' →
      Option.Rel (Plugs tree?) left left' →
        Alike (Plugs tree?) (parseFrom .unlimited stack left ts) (parseFrom .unlimited stack' left' us))
    (hstack : List.Forall₂ (FramePlugs tree?) stack stack') (hleft : Option.Rel (Plugs tree?) left left')
    (p q : Nat) :
    Alike (Plugs tree?) (parseFrom .unlimited stack left (⟨.closing, p⟩ :: ts))
      (parseFrom .unlimited stack' left' (⟨.closing, q⟩ :: us)) := by
  cases hleft with
  | none =>
      rw [parseFrom.eq_def, parseFrom.eq_def .unlimited stack']
      exact .error _ _
  | @some t t' h =>
      obtain ⟨hframes, hterm⟩ := Plugs.finishBodies hstack h
      cases hfinish : finishBodies stack t with
      | mk frames u =>
      cases hfinish' : finishBodies stack' t' with
      | mk frames' u' =>
      rw [hfinish, hfinish'] at hframes hterm
      cases hframes with
      | nil =>
          exact .of_errors (exists_error_of_finishBodies hfinish (by simp) p ts)
            (exists_error_of_finishBodies hfinish' (by simp) q us)
      | cons hframe hframes =>
          cases hframe with
          | body =>
              exact .of_errors (exists_error_of_finishBodies hfinish (by simp) p ts)
                (exists_error_of_finishBodies hfinish' (by simp) q us)
          | group hleft =>
              rw [parseFrom_closing hfinish, parseFrom_closing hfinish']
              exact hrest hframes (.some (hterm.applyTo hleft))

/-- The parser passes over a reference on both sides. -/
theorem parseFrom_reference {tag : String} {inner : List Token} {t : Term}
    (hinner : ReadsMarked .sequence (inner.map Token.lexeme) t) (p p' p'' : Nat) (rest : List Token) :
    parseFrom .unlimited stack left (⟨.opening, p⟩ :: ⟨.tag tag, p'⟩ :: (inner ++ ⟨.closing, p''⟩ :: rest))
      = parseFrom .unlimited stack (some (applyTo left (tagged (some tag) t))) rest := by
  have hgroup := readAs_of_readsMarked (.group (some tag) hinner)
    (⟨.opening, p⟩ :: ⟨.tag tag, p'⟩ :: (inner ++ [⟨.closing, p''⟩])) rest (by simp [markLexemes]) stack left
  simpa using hgroup

/-- The parser goes through tokens and through those with placeholders side by side. -/
theorem Fills.alike_parseFrom {stack stack' : List Frame} {left left' : Option Term} {ts us : List Token}
    (h : Fills tree? ts us) (hstack : List.Forall₂ (FramePlugs tree?) stack stack')
    (hleft : Option.Rel (Plugs tree?) left left') :
    Alike (Plugs tree?) (parseFrom .unlimited stack left ts) (parseFrom .unlimited stack' left' us) := by
  match h with
  | .nil =>
      cases hleft with
      | none =>
          rw [parseFrom.eq_def, parseFrom.eq_def .unlimited stack']
          exact .error _ _
      | @some t t' hterm =>
          rw [parseFrom.eq_def, parseFrom.eq_def .unlimited stack']
          obtain ⟨hframes, hterm⟩ := Plugs.finishBodies hstack hterm
          dsimp only
          cases hfinish : finishBodies stack t with
          | mk frames u =>
          cases hfinish' : finishBodies stack' t' with
          | mk frames' u' =>
          rw [hfinish, hfinish'] at hframes hterm
          cases hframes with
          | nil => exact .ok hterm
          | cons => exact .error _ _
  | .plain l hl p q h =>
      cases l with
      | name x =>
          rw [parseFrom_name, parseFrom_name]
          have hvar : Plugs tree? (.var {} x) (.var {} x) := rfl
          exact h.alike_parseFrom hstack (.some (hvar.applyTo hleft))
      | binder =>
          obtain ⟨x, p, p', q, q', ts, us, rfl, rfl, hbody⟩ | ⟨hts, hus⟩ := h.parameter
          · rw [parseFrom_abstraction, parseFrom_abstraction]
            exact hbody.alike_parseFrom (.cons (.body x hleft) hstack) .none
          · exact .of_errors (exists_error_of_binder hts p) (exists_error_of_binder hus q)
      | opening =>
          rw [parseFrom_opening_of_forall h.ne_tag.1, parseFrom_opening_of_forall h.ne_tag.2]
          exact h.alike_parseFrom (.cons (.group hleft) hstack) .none
      | closing => exact alike_closing (fun hstack hleft => h.alike_parseFrom hstack hleft) hstack hleft p q
      | point => exact .of_errors (exists_error_of_point p _) (exists_error_of_point q _)
      | tag label => cases hl
  | @Fills.reference _ _ _ tag htag _ t hinner htree p p' p'' q q' q'' o h =>
      have hname : ReadsMarked .sequence ([⟨.name "x", o⟩].map Token.lexeme) (.var {} "x") :=
        .atoms (.single (.name "x"))
      have hterm : Plugs tree? (tagged (some tag) t) (tagged (some tag) (.var {} "x")) := by
        unfold Plugs
        simp only [tagged, htag]
        exact htree
      have hplaceholder : ∀ vs, parseFrom .unlimited stack' left' (⟨.opening, q⟩ :: ⟨.tag tag, q'⟩ ::
          ([⟨.name "x", o⟩] ++ ⟨.closing, q''⟩ :: vs))
            = parseFrom .unlimited stack' (some (applyTo left' (tagged (some tag) (.var {} "x")))) vs :=
        parseFrom_reference hname q q' q''
      rw [parseFrom_reference hinner]
      exact hplaceholder _ ▸ h.alike_parseFrom hstack (.some (hterm.applyTo hleft))
termination_by us.length

/-! ### The lexer -/

/-- Whether the tokens of a text fill those of another one, or neither of the texts has tokens. -/
def FillsText (tree? : String → Option Term) (cs ds : List Char) : Prop :=
  ∀ owed p q, '(' ∉ (unifyFrom 0 cs).take owed →
    Alike (Fills tree?) (tokensFrom owed p (unifyFrom 0 cs)) (tokensFrom owed q (unifyFrom 0 ds))

theorem FillsText.plain {c : Char} (hc : IsPublic c) {cs ds : List Char}
    (hword : (unifyFrom 0 cs).takeWhile isWordChar = (unifyFrom 0 ds).takeWhile isWordChar)
    (h : FillsText tree? cs ds) : FillsText tree? (c :: cs) (c :: ds) := by
  intro owed p q howed
  rw [unifyFrom_cons hc.1] at *
  rw [unifyFrom_cons hc.1]
  have hunified := (isUnified_unified hc.1).1
  generalize (if isBinder c then 'λ' else c) = c' at howed hunified ⊢
  cases owed with
  | succ owed =>
      rw [List.take_succ_cons, List.mem_cons, not_or] at howed
      exact h owed (p + 1) (q + 1) howed.2
  | zero =>
      rw [tokensFrom, tokensFrom, ← firstLexeme?_congr hunified hword]
      cases hfirst : firstLexeme? (c' :: unifyFrom 0 cs) with
      | none =>
          dsimp only
          split
          · exact h 0 (p + 1) (q + 1) List.not_mem_nil
          · exact .error p q
      | some found =>
          obtain ⟨l, width⟩ := found
          obtain ⟨hl, hinside⟩ := opening_notMem_of_firstLexeme? hunified hfirst
          exact (h (width - 1) (p + 1) (q + 1) hinside).map fun _ _ h => .plain l hl p q h

/-- Whether what stands in the place of a reference can be read, and as the tree that is to be put in the place
of its placeholder. -/
structure Stands (tree? : String → Option Term) (content : List Char → List Char) (label : List Char) : Prop where
  markClose_notMem : markClose ∉ '_' :: label
  content_sealed : Sealed (content label)
  read : ∃ t, read? (content label) = some t ∧
    (tree? (String.ofList ('_' :: label))).map (·.setTag (some (String.ofList ('_' :: label))))
      = some (t.setTag (some (String.ofList ('_' :: label))))

theorem FillsText.reference {content : List Char → List Char} {label : List Char}
    (hlabel : Stands tree? content label) {cs ds : List Char} (h : FillsText tree? cs ds) :
    FillsText tree? (Registry.wrap true ('_' :: label) (content label) ++ cs)
      (Registry.wrap true ('_' :: label) ['x'] ++ ds) := by
  intro owed p q howed
  obtain ⟨hclose, hsealed, t, hread, htree⟩ := hlabel
  cases owed with
  | succ owed => exact absurd List.mem_cons_self howed
  | zero =>
      obtain ⟨tokens, htokens, hread⟩ := read?_eq_some_iff.mp hread
      obtain ⟨inner, p', p'', hinner, hfilled⟩ := tokensFrom_wrap hclose hsealed htokens p cs
      have hx : Sealed ['x'] := .plain 'x' (by decide) .nil
      have hxtokens : tokenize ['x'] = .ok [⟨.name "x", 0⟩] := by decide
      obtain ⟨inner', q', q'', hinner', hplaceholder⟩ := tokensFrom_wrap hclose hx hxtokens q ds
      obtain ⟨⟨_, o⟩, rfl, rfl⟩ := List.map_eq_singleton_iff.mp hinner'
      have htag : (String.ofList ('_' :: label)).isEmpty = false := by
        simp
      rw [← hinner] at hread
      rw [hfilled, hplaceholder]
      exact (h 0 p' q' List.not_mem_nil).map fun _ _ h => .reference htag hread htree _ _ _ _ _ _ _ h

section Fill

variable {ss : List Segment} {content : List Char → List Char}

theorem takeWhile_fill (hpublic : ∀ c, .plain c ∈ ss → IsPublic c) (content content' : List Char → List Char) :
    (unifyFrom 0 (ss.flatMap (fill content))).takeWhile isWordChar
      = (unifyFrom 0 (ss.flatMap (fill content'))).takeWhile isWordChar := by
  induction ss with
  | nil => rfl
  | cons s ss ih =>
      have ih := ih fun c hc => hpublic c (List.mem_cons_of_mem _ hc)
      cases s with
      | plain c =>
          have hc := hpublic c List.mem_cons_self
          rw [List.flatMap_cons, List.flatMap_cons, fill, fill, List.singleton_append, List.singleton_append,
            unifyFrom_cons hc.1, unifyFrom_cons hc.1, List.takeWhile_cons, List.takeWhile_cons, ih]
      | reference label => rfl

theorem fillsText_fill (hpublic : ∀ c, .plain c ∈ ss → IsPublic c)
    (hss : ∀ label, .reference label ∈ ss → Stands tree? content label) :
    FillsText tree? (ss.flatMap (fill content)) (ss.flatMap (fill fun _ => ['x'])) := by
  induction ss with
  | nil =>
      intro owed p q _
      cases owed <;> exact .ok .nil
  | cons s ss ih =>
      have hpublic' : ∀ c, .plain c ∈ ss → IsPublic c := fun c hc => hpublic c (List.mem_cons_of_mem _ hc)
      have ih := ih hpublic' fun label hlabel => hss label (List.mem_cons_of_mem _ hlabel)
      rw [List.flatMap_cons, List.flatMap_cons]
      cases s with
      | plain c => exact ih.plain (hpublic c List.mem_cons_self) (takeWhile_fill hpublic' _ _)
      | reference label => exact ih.reference (hss label List.mem_cons_self)

/-- Placeholders may stand in the place of texts that can be read. -/
theorem rel_read?_fill (hpublic : ∀ c, .plain c ∈ ss → IsPublic c)
    (hss : ∀ label, .reference label ∈ ss → Stands tree? content label) :
    Option.Rel (Plugs tree?) (read? (ss.flatMap (fill content))) (read? (ss.flatMap (fill fun _ => ['x']))) := by
  have htokens := fillsText_fill hpublic hss 0 0 0 List.not_mem_nil
  unfold read?
  rw [tokenize_eq, tokenize_eq]
  generalize tokensFrom 0 0 (unifyFrom 0 (ss.flatMap (fill content))) = result,
    tokensFrom 0 0 (unifyFrom 0 (ss.flatMap (fill fun _ => ['x']))) = result' at htokens
  cases htokens with
  | error => exact .none
  | ok hfills => exact (hfills.alike_parseFrom .nil .none).toOption

end Fill

end Syntax
end LambdaStepper
