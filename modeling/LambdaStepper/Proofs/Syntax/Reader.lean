import LambdaStepper.Proofs.Syntax.Nesting
import LambdaStepper.Proofs.Syntax.Recognition

/-! # Reading character by character

A reader of characters needs to know, besides its progress, only whether it stands in a word (`Reader`).
A text is one that can be lexed and parsed exactly if the reader comes to the end of a term with it
(`readable_iff`).

A reader goes through a text in pieces, and may pass over a reference as over a name.  So does it pass over
what stands in the place of the reference, a readable text in parentheses (`feed_group`), and without knowing
that the text is readable, if it only closes as many parentheses as it opens (`eq_of_feed_group`). -/

namespace LambdaStepper.Syntax

/-- The lexeme that a character is by itself. -/
def sign? (c : Char) : Option Lexeme :=
  if isBinder c then some .binder
  else if c = '(' then some .opening
  else if c = ')' then some .closing
  else if c = '.' then some .point
  else none

/-- A reader of characters. -/
structure Reader where
  progress : Progress
  /-- Whether it stands in a word, which may go on. -/
  inWord : Bool
  deriving DecidableEq, Repr

namespace Reader

/-- Goes on by one character. -/
def feedChar (r : Reader) (c : Char) : Option Reader :=
  if r.progress.phase = .mark then
    some ⟨if c = markClose then ⟨r.progress.depth, .start⟩ else r.progress, false⟩
  else if c = markOpen then
    if r.progress.phase = .opened then some ⟨⟨r.progress.depth, .mark⟩, false⟩ else none
  else
    match sign? c with
    | some l => (r.progress.step l).map (⟨·, false⟩)
    | none =>
      if r.inWord && isWordChar c then some r
      else if startsName c then (r.progress.step (.name "")).map (⟨·, true⟩)
      else if Text.isBlank c then some ⟨r.progress, false⟩
      else none

/-- Goes on by one segment; a reference is a term. -/
def feedSegment (r : Reader) : Segment → Option Reader
  | .plain c => r.feedChar c
  | .reference _ =>
    if r.progress.phase.isOpen then some ⟨⟨r.progress.depth, .left⟩, false⟩ else none

/-- Goes on by a list of segments. -/
def feed (r : Reader) (ss : List Segment) : Option Reader :=
  ss.foldlM feedSegment r

@[simp] theorem feed_nil (r : Reader) : r.feed [] = some r :=
  rfl

@[simp] theorem feed_cons (r : Reader) (s : Segment) (ss : List Segment) :
    r.feed (s :: ss) = (r.feedSegment s).bind (feed · ss) :=
  rfl

theorem feed_append (r : Reader) (ss ts : List Segment) :
    r.feed (ss ++ ts) = (r.feed ss).bind (feed · ts) :=
  List.foldlM_append

@[simp] theorem feedSegment_plain (r : Reader) (c : Char) : r.feedSegment (.plain c) = r.feedChar c :=
  rfl

end Reader

/-- Whether segments are read from the beginning to the end of a term. -/
def Readable (ss : List Segment) : Prop :=
  (Reader.feed ⟨.initial, false⟩ ss).map Reader.progress = some .final

instance (ss : List Segment) : Decidable (Readable ss) :=
  inferInstanceAs (Decidable (_ = _))

/-! ### Marked texts -/

/-- A text of characters outside of origin marks, and of origin marks behind opening parentheses. -/
inductive Marked : List Char → Prop where
  | nil : Marked []
  | plain {cs : List Char} (c : Char) (hc : IsPublic c) (h : Marked cs) : Marked (c :: cs)
  | opening {cs : List Char} (tag : List Char) (htag : ∀ c ∈ tag, c ∉ [markClose, '(', ')'])
      (h : Marked cs) : Marked ('(' :: writeMark tag ++ cs)

theorem marked_append {w cs : List Char} (hw : ∀ c ∈ w, IsPublic c) (h : Marked cs) : Marked (w ++ cs) := by
  induction w with
  | nil => exact h
  | cons c w ih =>
      obtain ⟨hc, hw⟩ := List.forall_mem_cons.mp hw
      exact .plain c hc (ih hw)

theorem marked_of_expanded {cs : List Char} (h : Registry.Expanded IsPublic cs) : Marked cs := by
  induction h with
  | nil => exact .nil
  | plain c hc _ ih => exact .plain c hc ih
  | origin label hlabel _ ih =>
      refine .opening _ (List.forall_mem_cons.mpr ⟨by decide, fun c hc hmem => ?_⟩) ih
      have hword : ∀ d ∈ [markClose, '(', ')'], isWordChar d = false := by decide
      exact hlabel.ne_of_mem hc (hword c hmem) rfl
  | @numeral cs label hlabel _ ih =>
      rw [Numeral.block_append]
      refine .opening _ (List.forall_mem_cons.mpr ⟨by decide, fun c hc hmem => ?_⟩) ?_
      · have hdigit : ∀ d ∈ [markClose, '(', ')'], Text.isDecimalDigit d = false := by decide
        exact hlabel.ne_of_mem hc (hdigit c hmem) rfl
      · exact marked_append (fun _ => isPublic_of_mem_syntaxText) (.plain ')' (by decide) ih)

/-! ### The lexer -/

/-- What a reader of lexemes makes of the rest of a text. -/
def Progress.runFrom (owed position : Nat) (cs : List Char) (p : Progress) : Option Progress :=
  (tokensFrom owed position cs).toOption.bind fun tokens => p.run (tokens.map Token.lexeme)

namespace Progress

theorem runFrom_lexeme {c : Char} {cs : List Char} {l : Lexeme} {width : Nat}
    (h : firstLexeme? (c :: cs) = some (l, width)) (position : Nat) (p : Progress) :
    runFrom 0 position (c :: cs) p = (p.step l).bind (runFrom (width - 1) (position + 1) cs) := by
  have hrest : runFrom (width - 1) (position + 1) cs = fun q =>
      (tokensFrom (width - 1) (position + 1) cs).toOption.bind fun tokens =>
        q.run (tokens.map Token.lexeme) := rfl
  rw [hrest]
  simp only [runFrom, tokensFrom, h]
  cases tokensFrom (width - 1) (position + 1) cs with
  | error => cases p.step l <;> rfl
  | ok tokens => rfl

theorem runFrom_of_firstLexeme?_eq_none {c : Char} {cs : List Char} (h : firstLexeme? (c :: cs) = none)
    (position : Nat) (p : Progress) :
    runFrom 0 position (c :: cs) p
      = if Text.isBlank c then runFrom 0 (position + 1) cs p else none := by
  simp only [runFrom, tokensFrom, h]
  split <;> rfl

theorem runFrom_succ (owed position : Nat) (c : Char) (cs : List Char) (p : Progress) :
    runFrom (owed + 1) position (c :: cs) p = runFrom owed (position + 1) cs p :=
  rfl

theorem runFrom_opening {tag : List Char} (htag : markClose ∉ tag) (position : Nat) (cs : List Char)
    (p : Progress) :
    runFrom 0 position ('(' :: writeMark tag ++ cs) p
      = if p.phase.isOpen then runFrom 0 (position + tag.length + 3) cs ⟨p.depth + 1, .start⟩
        else none := by
  have hsteps : ∀ ls, run p (.opening :: .tag (String.ofList tag) :: ls)
      = if p.phase.isOpen then run ⟨p.depth + 1, .start⟩ ls else none := by
    intro ls
    rw [run_cons, step]
    split <;> rfl
  rw [runFrom, tokensFrom_opening htag]
  cases htokens : tokensFrom 0 (position + tag.length + 3) cs with
  | error => simp [runFrom, htokens, Except.map, Except.toOption]
  | ok tokens =>
      simp only [runFrom, htokens, Except.map, Except.toOption, Option.bind_some, List.map_cons, hsteps]

theorem phase_ne_mark_of_isOpen {p : Progress} (h : p.phase.isOpen = true) : p.phase ≠ .mark := by
  intro hmark
  rw [hmark] at h
  cases h

theorem phase_ne_mark_of_step {p q : Progress} {l : Lexeme} (h : p.step l = some q) : q.phase ≠ .mark := by
  cases l <;> simp only [step] at h <;> grind

end Progress

theorem firstLexeme?_of_sign? {c : Char} {l : Lexeme} (h : sign? c = some l) (cs : List Char) :
    firstLexeme? ((if isBinder c then 'λ' else c) :: cs) = some (l, 1) := by
  unfold sign? at h
  split at h
  · next hbinder =>
    rw [if_pos hbinder, ← Option.some.inj h]
    rfl
  next hbinder =>
  rw [if_neg hbinder]
  split at h
  · next heq =>
    rw [heq, ← Option.some.inj h]
    rfl
  split at h
  · next heq =>
    rw [heq, ← Option.some.inj h]
    rfl
  split at h
  · next heq =>
    rw [heq, ← Option.some.inj h]
    rfl
  · cases h

theorem isBinder_of_sign?_eq_none {c : Char} (h : sign? c = none) : isBinder c = false := by
  unfold sign? at h
  split at h
  · cases h
  · next hbinder => exact Bool.eq_false_iff.mpr hbinder

theorem firstLexeme?_of_sign?_eq_none {c : Char} (h : sign? c = none) (hc : c ≠ markOpen) (cs : List Char) :
    firstLexeme? (c :: cs) = if startsName c then
      some (.name (String.ofList (c :: cs.takeWhile isWordChar)), (cs.takeWhile isWordChar).length + 1)
    else none := by
  have hbinder := isBinder_of_sign?_eq_none h
  have hlambda : c ≠ 'λ' := fun heq => by
    rw [heq] at hbinder
    cases hbinder
  simp only [sign?, hbinder, Bool.false_eq_true, if_false] at h
  split at h
  · cases h
  split at h
  · cases h
  split at h
  · cases h
  simp_all [firstLexeme?]

theorem isWordChar_of_sign? {c : Char} {l : Lexeme} (h : sign? c = some l) :
    isWordChar (if isBinder c then 'λ' else c) = false := by
  unfold sign? at h
  split at h
  · next hbinder => rw [if_pos hbinder]; rfl
  next hbinder =>
  rw [if_neg hbinder]
  split at h
  · next heq => rw [heq]; rfl
  split at h
  · next heq => rw [heq]; rfl
  split at h
  · next heq => rw [heq]; rfl
  · cases h

namespace Reader

theorem feedChar_of_sign? {c : Char} {l : Lexeme} (h : sign? c = some l) (hc : c ≠ markOpen)
    {p : Progress} (hp : p.phase ≠ .mark) (inWord : Bool) :
    feedChar ⟨p, inWord⟩ c = (p.step l).map (⟨·, false⟩) := by
  simp only [feedChar, if_neg hp, if_neg hc, h]

theorem feedChar_of_sign?_eq_none {c : Char} (h : sign? c = none) (hc : c ≠ markOpen)
    {p : Progress} (hp : p.phase ≠ .mark) (inWord : Bool) :
    feedChar ⟨p, inWord⟩ c =
      if inWord && isWordChar c then some ⟨p, true⟩
      else if startsName c then (p.step (.name "")).map (⟨·, true⟩)
      else if Text.isBlank c then some ⟨p, false⟩
      else none := by
  simp only [feedChar, if_neg hp, if_neg hc, h]
  cases inWord <;> rfl

theorem feedChar_cases {p : Progress} (hp : p.phase ≠ .mark) {c : Char} (hc : c ≠ markOpen)
    {inWord : Bool} {r : Reader} (h : feedChar ⟨p, inWord⟩ c = some r) :
    (∃ l q, sign? c = some l ∧ p.step l = some q ∧ r = ⟨q, false⟩) ∨
      (sign? c = none ∧ inWord = true ∧ isWordChar c = true ∧ r = ⟨p, true⟩) ∨
      (sign? c = none ∧ startsName c = true ∧ ∃ q, p.step (.name "") = some q ∧ r = ⟨q, true⟩) ∨
      (sign? c = none ∧ Text.isBlank c = true ∧ r = ⟨p, false⟩) := by
  cases hsign : sign? c with
  | some l =>
      rw [feedChar_of_sign? hsign hc hp] at h
      obtain ⟨q, hq, rfl⟩ := Option.map_eq_some_iff.mp h
      exact .inl ⟨l, q, rfl, hq, rfl⟩
  | none =>
      rw [feedChar_of_sign?_eq_none hsign hc hp] at h
      split at h
      · next hgoes =>
        obtain ⟨hword, hc⟩ := Bool.and_eq_true_iff.mp hgoes
        exact .inr (.inl ⟨rfl, hword, hc, (Option.some.inj h).symm⟩)
      split at h
      · next hstart =>
        obtain ⟨q, hq, rfl⟩ := Option.map_eq_some_iff.mp h
        exact .inr (.inr (.inl ⟨rfl, hstart, q, hq, rfl⟩))
      split at h
      · next hblank => exact .inr (.inr (.inr ⟨rfl, hblank, (Option.some.inj h).symm⟩))
      · cases h

theorem inWord_of_feedChar {r r' : Reader} {c : Char} (h : r.feedChar c = some r')
    (hword : r'.inWord = true) : isWordChar c = true := by
  obtain ⟨p, inWord⟩ := r
  by_cases hp : p.phase = .mark
  · rw [feedChar, if_pos hp] at h
    rw [← Option.some.inj h] at hword
    cases hword
  by_cases hc : c = markOpen
  · rw [feedChar, if_neg hp, if_pos hc] at h
    split at h
    · rw [← Option.some.inj h] at hword
      cases hword
    · cases h
  obtain ⟨l, q, -, -, rfl⟩ | ⟨-, -, hc, -⟩ | ⟨-, hstart, -⟩ | ⟨-, -, rfl⟩ := feedChar_cases hp hc h
  · cases hword
  · exact hc
  · exact isWordChar_of_startsName hstart
  · cases hword

theorem feedChar_of_isWordChar_eq_false {c : Char} (h : isWordChar c = false) {p : Progress}
    (hp : p.phase ≠ .mark) : feedChar ⟨p, true⟩ c = feedChar ⟨p, false⟩ c := by
  simp [feedChar, hp, h]

theorem feed_mark {tag : List Char} (htag : markClose ∉ tag) (depth : Nat) (ss : List Segment) :
    feed ⟨⟨depth, .mark⟩, false⟩ ((tag ++ [markClose]).map .plain ++ ss)
      = feed ⟨⟨depth, .start⟩, false⟩ ss := by
  induction tag with
  | nil => simp [feedChar]
  | cons c tag ih =>
      obtain ⟨hc, htag⟩ := not_or.mp (mt List.mem_cons.mpr htag)
      simpa [feedChar, Ne.symm hc] using ih htag

theorem feed_opening {tag : List Char} (htag : markClose ∉ tag) {p : Progress} (hp : p.phase ≠ .mark)
    (inWord : Bool) (ss : List Segment) :
    feed ⟨p, inWord⟩ (('(' :: writeMark tag).map .plain ++ ss)
      = if p.phase.isOpen then feed ⟨⟨p.depth + 1, .start⟩, false⟩ ss else none := by
  have hparen : sign? '(' = some .opening := rfl
  have hmark : feedChar ⟨⟨p.depth + 1, .opened⟩, false⟩ markOpen
      = some ⟨⟨p.depth + 1, .mark⟩, false⟩ := rfl
  rw [List.map_cons, List.cons_append, feed_cons, feedSegment_plain,
    feedChar_of_sign? hparen (by decide) hp, Progress.step]
  split
  · rw [writeMark, List.cons_append, List.map_cons, List.cons_append]
    simp only [Option.map_some, Option.bind_some, feed_cons, feedSegment_plain, hmark]
    exact feed_mark htag _ _
  · rfl

/-- A reader of characters makes of a text what a reader of lexemes makes of its lexemes. -/
theorem feed_map_plain {cs : List Char} (h : Marked cs) {p : Progress} (hp : p.phase ≠ .mark)
    (position : Nat) :
    (feed ⟨p, false⟩ (cs.map .plain)).map Reader.progress = p.runFrom 0 position (unifyFrom 0 cs) ∧
      (feed ⟨p, true⟩ (cs.map .plain)).map Reader.progress
        = p.runFrom ((unifyFrom 0 cs).takeWhile isWordChar).length position (unifyFrom 0 cs) := by
  induction h generalizing p position with
  | nil => exact ⟨rfl, rfl⟩
  | @plain cs c hc _ ih =>
      rw [unifyFrom, if_neg hc.1, List.map_cons, feed_cons, feed_cons, feedSegment_plain, feedSegment_plain]
      cases hsign : sign? c with
      | some l =>
          rw [feedChar_of_sign? hsign hc.1 hp, feedChar_of_sign? hsign hc.1 hp,
            List.takeWhile_cons_of_neg (by simp [isWordChar_of_sign? hsign]), List.length_nil, and_self,
            Progress.runFrom_lexeme (firstLexeme?_of_sign? hsign _)]
          cases hstep : p.step l with
          | none => rfl
          | some q => exact (ih (Progress.phase_ne_mark_of_step hstep) (position + 1)).1
      | none =>
          have hfirst := firstLexeme?_of_sign?_eq_none hsign hc.1 (unifyFrom 0 cs)
          rw [if_neg (by simp [isBinder_of_sign?_eq_none hsign])]
          have hfresh : ((feedChar ⟨p, false⟩ c).bind (feed · (cs.map .plain))).map Reader.progress
              = p.runFrom 0 position (c :: unifyFrom 0 cs) := by
            rw [feedChar_of_sign?_eq_none hsign hc.1 hp, Bool.false_and, if_neg Bool.false_ne_true]
            split
            · next hstart =>
              rw [if_pos hstart] at hfirst
              rw [Progress.runFrom_lexeme hfirst]
              change _ = (p.step (.name "")).bind _
              cases hstep : p.step (.name "") with
              | none => rfl
              | some q => exact (ih (Progress.phase_ne_mark_of_step hstep) (position + 1)).2
            · next hstart =>
              rw [if_neg hstart] at hfirst
              rw [Progress.runFrom_of_firstLexeme?_eq_none hfirst]
              split
              · exact (ih hp (position + 1)).1
              · rfl
          refine ⟨hfresh, ?_⟩
          -- a word that was begun goes on with a character of a word and ends before any other
          cases hword : isWordChar c with
          | false =>
              rw [feedChar_of_isWordChar_eq_false hword hp, hfresh,
                List.takeWhile_cons_of_neg (by simp [hword]), List.length_nil]
          | true =>
              rw [List.takeWhile_cons_of_pos hword, List.length_cons, Progress.runFrom_succ,
                feedChar_of_sign?_eq_none hsign hc.1 hp, hword]
              exact (ih hp (position + 1)).2
  | @opening cs tag htag _ ih =>
      have hclose : markClose ∉ tag := fun hmem => htag _ hmem List.mem_cons_self
      have hword : (('(' :: writeMark tag ++ unifyFrom 0 cs).takeWhile isWordChar).length = 0 := rfl
      rw [unifyFrom_opening hclose, hword, List.map_append, feed_opening hclose hp, feed_opening hclose hp,
        Progress.runFrom_opening hclose, and_self]
      have hstart : Phase.start ≠ .mark := by decide
      split
      · exact (ih hstart _).1
      · rfl

end Reader

/-- **A text is readable exactly if it can be lexed and parsed.** -/
theorem readable_iff {cs : List Char} (h : Marked cs) :
    Readable (cs.map .plain) ↔
      ∃ tokens t, tokenize cs = .ok tokens ∧ ReadsMarked .sequence (tokens.map Token.lexeme) t := by
  have hfeed := (Reader.feed_map_plain h (show Progress.initial.phase ≠ .mark by decide) 0).1
  unfold Readable
  rw [hfeed, Progress.runFrom, tokenize, unifyBinders]
  cases tokensFrom 0 0 (unifyFrom 0 cs) with
  | error => simp [Except.toOption]
  | ok tokens => simp [Except.toOption, Progress.run_eq_final_iff]

/-! ### Texts in parentheses -/

/-- A reader inside of more parentheses. -/
def Progress.deeper (k : Nat) (p : Progress) : Progress :=
  ⟨p.depth + k, p.phase⟩

/-- A reader inside of more parentheses. -/
def Reader.deeper (k : Nat) (r : Reader) : Reader :=
  ⟨r.progress.deeper k, r.inWord⟩

theorem balance_of_sign? {c : Char} {l : Lexeme} (h : sign? c = some l) :
    balance [c] = if l = .opening then 1 else if l = .closing then -1 else 0 := by
  unfold sign? at h
  split at h
  · next hbinder =>
    rw [← Option.some.inj h]
    refine balance_eq_zero (List.forall_mem_singleton.mpr fun hmem => ?_)
    have hparens : ∀ d ∈ ['(', ')'], isBinder d = false := by decide
    exact ne_of_class hbinder (hparens c hmem) rfl
  split at h
  · next heq => rw [heq, ← Option.some.inj h]; rfl
  split at h
  · next heq => rw [heq, ← Option.some.inj h]; rfl
  split at h
  · next heq => rw [heq, ← Option.some.inj h]; rfl
  · cases h

theorem balance_of_sign?_eq_none {c : Char} (h : sign? c = none) : balance [c] = 0 := by
  refine balance_eq_zero (List.forall_mem_singleton.mpr fun hmem => ?_)
  have hparens : ∀ d ∈ ['(', ')'], (sign? d).isSome = true := by decide
  have hsome := hparens c hmem
  rw [h] at hsome
  cases hsome

namespace Progress

theorem step_deeper {p q : Progress} {l : Lexeme} (h : p.step l = some q) (k : Nat) :
    (p.deeper k).step l = some (q.deeper k) := by
  cases l <;> simp only [step, deeper] at h ⊢ <;> grind

theorem depth_of_step {p q : Progress} {l : Lexeme} (h : p.step l = some q) :
    (q.depth : Int) = p.depth + (if l = .opening then 1 else if l = .closing then -1 else 0) := by
  cases l <;> simp only [step] at h <;> grind

end Progress

namespace Reader

theorem feedSegment_deeper {r r' : Reader} {s : Segment} (h : r.feedSegment s = some r') (k : Nat) :
    (r.deeper k).feedSegment s = some (r'.deeper k) := by
  obtain ⟨p, inWord⟩ := r
  have hstep : ∀ {l : Lexeme} {inWord' : Bool}, (p.step l).map (⟨·, inWord'⟩) = some r' →
      ((p.deeper k).step l).map (⟨·, inWord'⟩) = some (r'.deeper k) := by
    intro l inWord' h
    obtain ⟨q, hq, rfl⟩ := Option.map_eq_some_iff.mp h
    rw [Progress.step_deeper hq]
    rfl
  cases s with
  | reference label => grind [feedSegment, deeper, Progress.deeper]
  | plain c =>
      rw [feedSegment_plain] at h ⊢
      by_cases hmark : p.phase = .mark
      · grind [feedChar, deeper, Progress.deeper]
      by_cases hc : c = markOpen
      · grind [feedChar, deeper, Progress.deeper]
      have hmark' : (p.deeper k).phase ≠ .mark := hmark
      cases hsign : sign? c with
      | some l =>
          rw [feedChar_of_sign? hsign hc hmark] at h
          rw [deeper, feedChar_of_sign? hsign hc hmark']
          exact hstep h
      | none =>
          rw [feedChar_of_sign?_eq_none hsign hc hmark] at h
          rw [deeper, feedChar_of_sign?_eq_none hsign hc hmark']
          split at h
          · next hgoes =>
            rw [if_pos hgoes, ← Option.some.inj h]
            rfl
          next hgoes =>
          rw [if_neg hgoes]
          split at h
          · next hstart =>
            rw [if_pos hstart]
            exact hstep h
          next hstart =>
          rw [if_neg hstart]
          split at h
          · next hblank =>
            rw [if_pos hblank, ← Option.some.inj h]
            rfl
          · cases h

theorem feed_deeper {r r' : Reader} {ss : List Segment} (h : r.feed ss = some r') (k : Nat) :
    (r.deeper k).feed ss = some (r'.deeper k) := by
  induction ss generalizing r with
  | nil => rw [← Option.some.inj h, feed_nil]
  | cons s ss ih =>
      obtain ⟨q, hq, h⟩ := Option.bind_eq_some_iff.mp h
      rw [feed_cons, feedSegment_deeper hq, Option.bind_some, ih h]

/-- A readable text in parentheses is a term. -/
theorem feed_group {ss : List Segment} (h : Readable ss) {tag : List Char} (htag : markClose ∉ tag)
    {p : Progress} (hp : p.phase.isOpen = true) (inWord : Bool) :
    feed ⟨p, inWord⟩ (('(' :: writeMark tag).map .plain ++ (ss ++ [.plain ')']))
      = some ⟨⟨p.depth, .left⟩, false⟩ := by
  have hmark := Progress.phase_ne_mark_of_isOpen hp
  obtain ⟨⟨_, inWord'⟩, hfeed, rfl⟩ := Option.map_eq_some_iff.mp h
  have hinner := feed_deeper hfeed (p.depth + 1)
  simp only [Reader.deeper, Progress.deeper, Progress.initial, Progress.final, Nat.zero_add] at hinner
  rw [feed_opening htag hmark, if_pos hp, feed_append, hinner]
  have hleft : Phase.left ≠ .mark := by decide
  have hclosing : feedChar ⟨⟨p.depth + 1, .left⟩, inWord'⟩ ')' = some ⟨⟨p.depth, .left⟩, false⟩ := by
    rw [feedChar_of_sign? (show sign? ')' = some .closing from rfl) (by decide) hleft,
      Progress.step_left_closing]
    rfl
  simp [hclosing]

theorem depth_of_feedChar {p : Progress} (hp : p.phase ≠ .mark) {inWord : Bool} {c : Char}
    (hc : IsPublic c) {r : Reader} (h : feedChar ⟨p, inWord⟩ c = some r) :
    r.progress.phase ≠ .mark ∧ (r.progress.depth : Int) = p.depth + balance [c] := by
  obtain ⟨l, q, hsign, hq, rfl⟩ | ⟨hsign, -, -, rfl⟩ | ⟨hsign, -, q, hq, rfl⟩ | ⟨hsign, -, rfl⟩ :=
    feedChar_cases hp hc.1 h
  · rw [balance_of_sign? hsign]
    exact ⟨Progress.phase_ne_mark_of_step hq, Progress.depth_of_step hq⟩
  · rw [balance_of_sign?_eq_none hsign, Int.add_zero]
    exact ⟨hp, rfl⟩
  · rw [balance_of_sign?_eq_none hsign]
    exact ⟨Progress.phase_ne_mark_of_step hq, Progress.depth_of_step hq⟩
  · rw [balance_of_sign?_eq_none hsign, Int.add_zero]
    exact ⟨hp, rfl⟩

theorem depthAfter_of_feed {cs : List Char} (hcs : Marked cs) {p : Progress} (hp : p.phase ≠ .mark)
    {inWord : Bool} {r : Reader} (h : feed ⟨p, inWord⟩ (cs.map .plain) = some r) :
    r.progress.phase ≠ .mark ∧ depthAfter p.depth cs = some r.progress.depth := by
  induction hcs generalizing p inWord with
  | nil =>
      obtain rfl := Option.some.inj h
      exact ⟨hp, rfl⟩
  | plain c hc _ ih =>
      rw [List.map_cons, feed_cons] at h
      obtain ⟨⟨q, inWord'⟩, hq, h⟩ := Option.bind_eq_some_iff.mp h
      obtain ⟨hmark, hdepth⟩ := depth_of_feedChar hp hc hq
      rw [depthAfter_cons, depthBehind_eq_some_iff.mpr hdepth, Option.bind_some]
      exact ih hmark h
  | opening tag htag _ ih =>
      have hclose : markClose ∉ tag := fun hmem => htag _ hmem List.mem_cons_self
      have hstart : Phase.start ≠ .mark := by decide
      rw [List.map_append, feed_opening hclose hp] at h
      split at h
      · rw [depthAfter_append, depthAfter_opening htag, Option.bind_some]
        exact ih hstart h
      · cases h

/-- A text in parentheses that a reader goes through is a term for it, if the text closes as many parentheses
as it opens. -/
theorem eq_of_feed_group {cs : List Char} (hcs : Marked cs) (hbalance : balance cs = 0) {tag : List Char}
    (htag : markClose ∉ tag) {p : Progress} (hp : p.phase ≠ .mark) {inWord : Bool} {r : Reader}
    (h : feed ⟨p, inWord⟩ (('(' :: writeMark tag).map .plain ++ (cs.map .plain ++ [.plain ')'])) = some r) :
    p.phase.isOpen = true ∧ r = ⟨⟨p.depth, .left⟩, false⟩ := by
  have hstart : Phase.start ≠ .mark := by decide
  rw [feed_opening htag hp] at h
  split at h
  · next hopen =>
    refine ⟨hopen, ?_⟩
    rw [feed_append] at h
    obtain ⟨⟨q, inWord'⟩, hq, h⟩ := Option.bind_eq_some_iff.mp h
    obtain ⟨hmark, hafter⟩ := depthAfter_of_feed hcs hstart hq
    have hdepth : q.depth = p.depth + 1 := by
      have hdepth := balance_of_depthAfter hafter
      rw [hbalance, Int.add_zero] at hdepth
      exact_mod_cast hdepth
    obtain ⟨r', hr, heq⟩ := Option.bind_eq_some_iff.mp h
    obtain rfl := Option.some.inj heq
    rw [feedSegment_plain, feedChar_of_sign? (show sign? ')' = some .closing from rfl) (by decide) hmark,
      Progress.step] at hr
    split at hr
    · rw [← Option.some.inj hr, hdepth, Nat.add_sub_cancel]
    · cases hr
  · cases h

end Reader

theorem Readable.nested {cs : List Char} (hcs : Marked cs) (h : Readable (cs.map .plain)) : Nested cs := by
  obtain ⟨q, hq, hfinal⟩ := Option.map_eq_some_iff.mp h
  have hstart : Phase.start ≠ .mark := by decide
  obtain ⟨-, hafter⟩ := Reader.depthAfter_of_feed (p := .initial) hcs hstart hq
  rwa [hfinal] at hafter

end LambdaStepper.Syntax
