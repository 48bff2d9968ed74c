import LambdaStepper.Syntax.Grammar

/-! # Reading

The parser reads a list of tokens as a term exactly if the grammar means that term by it
(`parseTokens_eq_ok_iff`).  `ReadsMarked` is the reading of the grammar with the origin marks that
expansion puts behind opening parentheses; without them it is `Reads`.

*Completeness.*  Inside a longer list the parser goes past an atom and applies what is to the left to it;
past a sequence it may leave abstractions open, whose bodies end with whatever the sequence ends with.
`ReadAs` says this part by part, and follows the rules of `ReadsMarked`.

*Soundness.*  The frames of the stack and the term to the left stand for the lexemes read so far
(`Opened`), and every token keeps it that way (`readsMarked_of_parseFrom`).  No limit makes the parser read
something else, so limits only refuse. -/

namespace LambdaStepper.Syntax

/-- The lexemes of the origin mark of a group, if it has one. -/
def markLexemes : Option String → List Lexeme
  | none => []
  | some label => [.tag label]

/-- The term as which a list of lexemes is read, where an opening parenthesis may be followed by an origin
mark for the term inside. -/
inductive ReadsMarked : Part → List Lexeme → Term → Prop where
  | name (x : String) : ReadsMarked .atom [.name x] (.var {} x)
  | group (mark : Option String) {ls : List Lexeme} {t : Term} (h : ReadsMarked .sequence ls t) :
      ReadsMarked .atom (.opening :: (markLexemes mark ++ ls) ++ [.closing]) (tagged mark t)
  | single {ls : List Lexeme} {t : Term} (h : ReadsMarked .atom ls t) : ReadsMarked .atoms ls t
  | apply {ls ms : List Lexeme} {t u : Term} (h : ReadsMarked .atoms ls t)
      (h' : ReadsMarked .atom ms u) : ReadsMarked .atoms (ls ++ ms) (.app {} t u)
  | atoms {ls : List Lexeme} {t : Term} (h : ReadsMarked .atoms ls t) : ReadsMarked .sequence ls t
  | abstraction (x : String) {ls : List Lexeme} {t : Term} (h : ReadsMarked .sequence ls t) :
      ReadsMarked .sequence (.binder :: .name x :: .point :: ls) (.lam {} x t)
  | applyLast (x : String) {ls ms : List Lexeme} {t u : Term} (h : ReadsMarked .atoms ls t)
      (h' : ReadsMarked .sequence ms u) :
      ReadsMarked .sequence (ls ++ .binder :: .name x :: .point :: ms) (.app {} t (.lam {} x u))

theorem Reads.marked {part : Part} {ls : List Lexeme} {t : Term} (h : Reads part ls t) :
    ReadsMarked part ls t := by
  induction h with
  | name x => exact .name x
  | group _ ih => exact .group none ih
  | single _ ih => exact .single ih
  | apply _ _ ih ih' => exact .apply ih ih'
  | atoms _ ih => exact .atoms ih
  | abstraction x _ ih => exact .abstraction x ih
  | applyLast x _ _ ih ih' => exact .applyLast x ih ih'

theorem ReadsMarked.unmarked {part : Part} {ls : List Lexeme} {t : Term} (h : ReadsMarked part ls t)
    (hls : ∀ label, .tag label ∉ ls) : Reads part ls t := by
  induction h with
  | name x => exact .name x
  | group mark _ ih =>
      cases mark with
      | none => exact .group (ih (by simpa [markLexemes] using hls))
      | some label => exact absurd (by simp [markLexemes]) (hls label)
  | single _ ih => exact .single (ih hls)
  | apply _ _ ih ih' =>
      simp only [List.mem_append, not_or] at hls
      exact .apply (ih fun label => (hls label).1) (ih' fun label => (hls label).2)
  | atoms _ ih => exact .atoms (ih hls)
  | abstraction x _ ih => exact .abstraction x (ih (by simpa using hls))
  | applyLast x _ _ ih ih' =>
      simp only [List.mem_append, List.mem_cons, reduceCtorEq, false_or, not_or] at hls
      exact .applyLast x (ih fun label => (hls label).1) (ih' fun label => (hls label).2)

theorem ReadsMarked.exists_cons {part : Part} {ls : List Lexeme} {t : Term}
    (h : ReadsMarked part ls t) : ∃ l ms, ls = l :: ms ∧ ∀ label, l ≠ .tag label := by
  induction h with
  | name x => exact ⟨_, _, rfl, fun _ => nofun⟩
  | group => exact ⟨_, _, rfl, fun _ => nofun⟩
  | single _ ih => exact ih
  | atoms _ ih => exact ih
  | abstraction => exact ⟨_, _, rfl, fun _ => nofun⟩
  | apply _ _ ih _ | applyLast x _ _ ih _ =>
      obtain ⟨l, ms, rfl, hl⟩ := ih
      exact ⟨l, _, rfl, hl⟩

variable {limits : Limits} {stack : List Frame} {left : Option Term}

/-! ### Single tokens -/

theorem parseFrom_name (x : String) (position : Nat) (rest : List Token) :
    parseFrom .unlimited stack left (⟨.name x, position⟩ :: rest)
      = parseFrom .unlimited stack (some (applyTo left (.var {} x))) rest := by
  rw [parseFrom.eq_def]

theorem parseFrom_abstraction (x : String) (p q o : Nat) (rest : List Token) :
    parseFrom .unlimited stack left (⟨.binder, p⟩ :: ⟨.name x, q⟩ :: ⟨.point, o⟩ :: rest)
      = parseFrom .unlimited (.body x left :: stack) none rest := by
  rw [parseFrom.eq_def]
  rfl

theorem parseFrom_opening {mark : Option String} {marks inner : List Token}
    (hmarks : marks.map Token.lexeme = markLexemes mark) {l : Lexeme} {ms : List Lexeme}
    (hinner : inner.map Token.lexeme = l :: ms) (hl : ∀ label, l ≠ .tag label) (position : Nat)
    (rest : List Token) :
    parseFrom .unlimited stack left (⟨.opening, position⟩ :: (marks ++ (inner ++ rest)))
      = parseFrom .unlimited (.group mark left :: stack) none (inner ++ rest) := by
  rw [parseFrom.eq_def]
  cases mark with
  | some label =>
      obtain ⟨⟨_, q⟩, rfl, rfl⟩ := List.map_eq_singleton_iff.mp hmarks
      rfl
  | none =>
      obtain rfl := List.map_eq_nil_iff.mp hmarks
      obtain ⟨⟨lexeme, q⟩, inner, rfl, rfl, -⟩ := List.map_eq_cons_iff.mp hinner
      cases lexeme with
      | tag label => exact absurd rfl (hl label)
      | binder | opening | closing | point | name => rfl

theorem parseFrom_closing {stack' : List Frame} {tag : Option String} {left' : Option Term}
    {t u : Term} (h : finishBodies stack t = (.group tag left' :: stack', u)) (position : Nat)
    (rest : List Token) :
    parseFrom .unlimited stack (some t) (⟨.closing, position⟩ :: rest)
      = parseFrom .unlimited stack' (some (applyTo left' (tagged tag u))) rest := by
  rw [parseFrom.eq_def]
  simp only [h]

theorem parseFrom_nil {t u : Term} (h : finishBodies stack t = ([], u)) :
    parseFrom .unlimited stack (some t) [] = .ok u := by
  rw [parseFrom.eq_def]
  simp only [h]

/-! ### Parts of a sequence -/

/-- What the parser makes of the tokens of a part, whatever surrounds them. -/
def ReadAs (part : Part) (ls : List Lexeme) (t : Term) : Prop :=
  ∀ tokens rest, tokens.map Token.lexeme = ls →
    match part with
    | .atom => ∀ stack left, parseFrom .unlimited stack left (tokens ++ rest)
        = parseFrom .unlimited stack (some (applyTo left t)) rest
    | .atoms => ∀ stack, parseFrom .unlimited stack none (tokens ++ rest)
        = parseFrom .unlimited stack (some t) rest
    | .sequence => ∀ stack, ∃ stack' t', parseFrom .unlimited stack none (tokens ++ rest)
        = parseFrom .unlimited stack' (some t') rest ∧ finishBodies stack' t' = finishBodies stack t

theorem reads_sequence {part : Part} {ls : List Lexeme} {t : Term} (h : Reads part ls t) :
    Reads .sequence ls t := by
  cases part with
  | atom => exact .atoms (.single h)
  | atoms => exact .atoms h
  | sequence => exact h

theorem exists_of_map_abstraction {tokens : List Token} {x : String} {ls : List Lexeme}
    (h : tokens.map Token.lexeme = .binder :: .name x :: .point :: ls) :
    ∃ p q o body, tokens = ⟨.binder, p⟩ :: ⟨.name x, q⟩ :: ⟨.point, o⟩ :: body
      ∧ body.map Token.lexeme = ls := by
  match tokens, h with
  | ⟨_, p⟩ :: ⟨_, q⟩ :: ⟨_, o⟩ :: body, h =>
      simp only [List.map_cons, List.cons.injEq] at h
      obtain ⟨rfl, rfl, rfl, hls⟩ := h
      exact ⟨p, q, o, body, rfl, hls⟩

/-- The tokens of a part in parentheses are those of the part, and of an origin mark before it, between
two others. -/
theorem exists_of_map_group {tokens : List Token} {mark ls : List Lexeme}
    (h : tokens.map Token.lexeme = .opening :: (mark ++ ls) ++ [.closing]) :
    ∃ p q marks inner, tokens = ⟨.opening, p⟩ :: (marks ++ inner) ++ [⟨.closing, q⟩]
      ∧ marks.map Token.lexeme = mark ∧ inner.map Token.lexeme = ls := by
  obtain ⟨front, last, rfl, hfront, hlast⟩ := List.map_eq_append_iff.mp h
  obtain ⟨⟨_, q⟩, rfl, rfl⟩ := List.map_eq_singleton_iff.mp hlast
  obtain ⟨⟨_, p⟩, front, rfl, rfl, hrest⟩ := List.map_eq_cons_iff.mp hfront
  obtain ⟨marks, inner, rfl, hmarks, hinner⟩ := List.map_eq_append_iff.mp hrest
  exact ⟨p, q, marks, inner, rfl, hmarks, hinner⟩

theorem readAs_of_readsMarked {part : Part} {ls : List Lexeme} {t : Term}
    (h : ReadsMarked part ls t) : ReadAs part ls t := by
  induction h with
  | name x =>
      intro tokens rest htokens stack left
      obtain ⟨⟨_, p⟩, rfl, rfl⟩ := List.map_eq_singleton_iff.mp htokens
      exact parseFrom_name x p rest
  | group mark h ih =>
      intro tokens rest htokens stack left
      obtain ⟨p, q, marks, inner, rfl, hmarks, hinner⟩ := exists_of_map_group htokens
      obtain ⟨stack', t', hparse, hfinish⟩ :=
        ih inner (⟨.closing, q⟩ :: rest) hinner (.group mark left :: stack)
      obtain ⟨l, ms, rfl, hl⟩ := h.exists_cons
      have hopen : parseFrom .unlimited stack left
            (⟨.opening, p⟩ :: (marks ++ (inner ++ ⟨.closing, q⟩ :: rest)))
          = parseFrom .unlimited (.group mark left :: stack) none (inner ++ ⟨.closing, q⟩ :: rest) :=
        parseFrom_opening hmarks hinner hl p _
      simp only [List.cons_append, List.append_assoc, List.nil_append]
      exact (hopen.trans hparse).trans (parseFrom_closing hfinish q rest)
  | single _ ih =>
      intro tokens rest htokens stack
      exact ih tokens rest htokens stack none
  | apply _ _ ih ih' =>
      intro tokens rest htokens stack
      obtain ⟨tokens, tokens', rfl, hls, hms⟩ := List.map_eq_append_iff.mp htokens
      rw [List.append_assoc, ih tokens (tokens' ++ rest) hls stack]
      exact ih' tokens' rest hms stack _
  | atoms _ ih =>
      intro tokens rest htokens stack
      exact ⟨stack, _, ih tokens rest htokens stack, rfl⟩
  | abstraction x _ ih =>
      intro tokens rest htokens stack
      obtain ⟨p, q, o, tokens, rfl, hls⟩ := exists_of_map_abstraction htokens
      obtain ⟨stack', t', hparse, hfinish⟩ := ih tokens rest hls (.body x none :: stack)
      refine ⟨stack', t', ?_, hfinish⟩
      exact (parseFrom_abstraction x p q o (tokens ++ rest)).trans hparse
  | applyLast x _ _ ih ih' =>
      intro tokens rest htokens stack
      obtain ⟨front, last, rfl, hls, hlast⟩ := List.map_eq_append_iff.mp htokens
      obtain ⟨p, q, o, last, rfl, hms⟩ := exists_of_map_abstraction hlast
      obtain ⟨stack', t', hparse, hfinish⟩ := ih' last rest hms (.body x (some _) :: stack)
      refine ⟨stack', t', ?_, hfinish⟩
      rw [List.append_assoc, ih front _ hls stack]
      exact (parseFrom_abstraction x p q o (last ++ rest)).trans hparse

theorem parseTokens_of_readsMarked {tokens : List Token} {t : Term}
    (h : ReadsMarked .sequence (tokens.map Token.lexeme) t) :
    parseTokens .unlimited tokens = .ok t := by
  obtain ⟨stack', t', hparse, hfinish⟩ := readAs_of_readsMarked h tokens [] rfl []
  rw [List.append_nil] at hparse
  exact hparse.trans (parseFrom_nil hfinish)

theorem parseTokens_of_reads {tokens : List Token} {t : Term}
    (h : Reads .sequence (tokens.map Token.lexeme) t) : parseTokens .unlimited tokens = .ok t :=
  parseTokens_of_readsMarked h.marked

/-! ### What was read -/

/-- The lexemes as which the term to the left was read. -/
def ReadsLeft : Option Term → List Lexeme → Prop
  | none, ls => ls = []
  | some t, ls => ReadsMarked .atoms ls t

/-- The lexemes that were read up to the innermost frame of a stack. -/
inductive Opened : List Frame → List Lexeme → Prop where
  | nil : Opened [] []
  | group {stack : List Frame} {left : Option Term} {ls ms : List Lexeme} (mark : Option String)
      (h : Opened stack ls) (hleft : ReadsLeft left ms) :
      Opened (.group mark left :: stack) (ls ++ ms ++ .opening :: markLexemes mark)
  | body {stack : List Frame} {left : Option Term} {ls ms : List Lexeme} (x : String)
      (h : Opened stack ls) (hleft : ReadsLeft left ms) :
      Opened (.body x left :: stack) (ls ++ ms ++ [.binder, .name x, .point])

theorem readsLeft_applyTo {ls ms : List Lexeme} {t : Term} (hleft : ReadsLeft left ls)
    (h : ReadsMarked .atom ms t) : ReadsLeft (some (applyTo left t)) (ls ++ ms) := by
  cases left with
  | none =>
      obtain rfl : ls = [] := hleft
      exact .single h
  | some u => exact .apply hleft h

theorem readsMarked_applyTo_lam {ls ms : List Lexeme} {x : String} {t : Term}
    (hleft : ReadsLeft left ls) (h : ReadsMarked .sequence ms t) :
    ReadsMarked .sequence (ls ++ .binder :: .name x :: .point :: ms)
      (applyTo left (.lam {} x t)) := by
  cases left with
  | none =>
      obtain rfl : ls = [] := hleft
      exact .abstraction x h
  | some u => exact .applyLast x hleft h

theorem exists_of_finishBodies {ls ms : List Lexeme} {t : Term} (hstack : Opened stack ls)
    (h : ReadsMarked .sequence ms t) :
    ∃ ls' ms', Opened (finishBodies stack t).1 ls' ∧ ReadsMarked .sequence ms' (finishBodies stack t).2
      ∧ ls ++ ms = ls' ++ ms' := by
  induction hstack generalizing ms t with
  | nil => exact ⟨[], ms, .nil, h, rfl⟩
  | group mark hstack hleft => exact ⟨_, ms, .group mark hstack hleft, h, rfl⟩
  | body x hstack hleft ih =>
      obtain ⟨ls', ms', hls, hms, heq⟩ := ih (readsMarked_applyTo_lam (x := x) hleft h)
      refine ⟨ls', ms', hls, hms, ?_⟩
      rw [← heq]
      simp

theorem eq_of_enter {frame : Frame} {stack' : List Frame}
    (h : enter limits frame stack = .ok stack') : stack' = frame :: stack := by
  unfold enter at h
  split at h
  · exact (Except.ok.inj h).symm
  · cases h

/-- Every token that is read keeps what the stack stands for. -/
theorem readsMarked_of_parseFrom {tokens : List Token} {t : Term} {ls ms : List Lexeme}
    (h : parseFrom limits stack left tokens = .ok t) (hstack : Opened stack ls)
    (hleft : ReadsLeft left ms) :
    ReadsMarked .sequence (ls ++ ms ++ tokens.map Token.lexeme) t := by
  fun_induction parseFrom limits stack left tokens generalizing ls ms with
  | case2 stack u v hfinish =>
      obtain ⟨ls', ms', hls, hms, heq⟩ := exists_of_finishBodies hstack (.atoms hleft)
      rw [hfinish] at hls hms
      cases hls with
      | nil =>
          obtain rfl := Except.ok.inj h
          rw [List.map_nil, List.append_nil, heq]
          exact hms
  | case4 stack left token rest x hx ih =>
      have := ih h hstack (readsLeft_applyTo hleft (.name x))
      simpa [hx] using this
  | case6 stack left token hl x p q rest stack' henter ih =>
      obtain rfl := eq_of_enter henter
      have := ih h (.body x hstack hleft) rfl
      simpa [hl] using this
  | case11 stack left token hl label p rest stack' henter ih =>
      obtain rfl := eq_of_enter henter
      have := ih h (.group (some label) hstack hleft) rfl
      simpa [hl, markLexemes] using this
  | case13 stack left token hl rest hmark stack' henter ih =>
      obtain rfl := eq_of_enter henter
      have := ih h (.group none hstack hleft) rfl
      simpa [hl, markLexemes] using this
  | case16 stack token rest hl u mark left' stack' v hfinish ih =>
      obtain ⟨ls', ms', hls, hms, heq⟩ := exists_of_finishBodies hstack (.atoms hleft)
      rw [hfinish] at hls hms
      cases hls with
      | group _ hstack' hleft' =>
          have := ih h hstack' (readsLeft_applyTo hleft' (.group mark hms))
          rw [heq]
          simpa [hl] using this
  | case1 | case3 | case5 | case7 | case8 | case9 | case10 | case12 | case14 | case15 | case17
  | case18 | case19 | case20 | case21 => cases h

/-- **The parser reads tokens as a term exactly if the grammar means that term by them.** -/
theorem parseTokens_eq_ok_iff {tokens : List Token} {t : Term} :
    parseTokens .unlimited tokens = .ok t ↔ ReadsMarked .sequence (tokens.map Token.lexeme) t :=
  ⟨fun h => readsMarked_of_parseFrom h .nil rfl, parseTokens_of_readsMarked⟩

/-- A list of lexemes is read as one term at most. -/
theorem ReadsMarked.unique {ls : List Lexeme} {t u : Term} (h : ReadsMarked .sequence ls t)
    (h' : ReadsMarked .sequence ls u) : t = u := by
  have hls : (ls.map fun l => Token.mk l 0).map Token.lexeme = ls := by
    rw [List.map_map]
    exact List.map_id ls
  rw [← hls] at h h'
  exact Except.ok.inj ((parseTokens_of_readsMarked h).symm.trans (parseTokens_of_readsMarked h'))

end LambdaStepper.Syntax
