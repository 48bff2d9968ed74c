import LambdaStepper.Proofs.Registry.Expanded

/-! # Tokens of expanded texts

The lexemes of an expanded text are `Tracked`: origin marks stand behind opening parentheses, and the one of
a numeral in front of all the lexemes of the numeral (`tracked_of_tokenize`).  Words consist of plain
characters, and so no lexeme begins in one part of the text and ends in another. -/

namespace LambdaStepper

open Registry

namespace Syntax

/-! ### Binders made one -/

theorem unifyFrom_length_append (w rest : List Char) :
    unifyFrom w.length (w ++ rest) = w ++ unifyFrom 0 rest := by
  induction w with
  | nil => rfl
  | cons c w ih => simp [unifyFrom, ih]

theorem unifyFrom_opening {tag : List Char} (h : markClose ∉ tag) (rest : List Char) :
    unifyFrom 0 ('(' :: writeMark tag ++ rest) = '(' :: writeMark tag ++ unifyFrom 0 rest := by
  have hclose : closeMark? (tag ++ markClose :: rest) = some (tag, rest) := closeMark?_append tag rest h
  have hmark := unifyFrom_length_append (tag ++ [markClose]) rest
  simp only [List.length_append, List.length_singleton, List.append_assoc, List.singleton_append] at hmark
  simp [writeMark, unifyFrom, hclose, hmark, show isBinder '(' = false by decide,
    show '(' ≠ markOpen by decide]

theorem isUnified_of_mem_syntaxText {n : Nat} {c : Char} (h : c ∈ Numeral.syntaxText n) :
    IsUnified c := by
  have hall : ∀ c ∈ Numeral.alphabet, IsUnified c := by decide
  exact hall c (Numeral.syntaxText_subset_alphabet n h)

theorem unifyFrom_block {label : List Char} (h : Numeral.IsLabel label) (rest : List Char) :
    unifyFrom 0 (Numeral.block label ++ rest) = Numeral.block label ++ unifyFrom 0 rest := by
  have hclosing : unifyFrom 0 (')' :: rest) = ')' :: unifyFrom 0 rest := rfl
  rw [Numeral.block_append, unifyFrom_opening h.markClose_notMem,
    unifyFrom_append fun _ => isUnified_of_mem_syntaxText, hclosing, ← Numeral.block_append]

theorem isUnified_unified {c : Char} (hc : c ≠ markOpen) :
    IsUnified (if isBinder c then 'λ' else c) := by
  split
  · decide
  · next hbinder => exact ⟨hc, fun h => absurd h hbinder⟩

theorem expanded_unifyFrom {cs : List Char} (h : Expanded IsPublic cs) :
    Expanded IsUnified (unifyFrom 0 cs) := by
  induction h with
  | nil => exact .nil
  | plain c hc _ ih =>
      rw [unifyFrom, if_neg hc.1]
      exact .plain _ (isUnified_unified hc.1) ih
  | origin label hlabel _ ih =>
      rw [unifyFrom_opening hlabel.markClose_notMem]
      exact .origin label hlabel ih
  | numeral label hlabel _ ih =>
      rw [unifyFrom_block hlabel]
      exact .numeral label hlabel ih

/-! ### Tokens -/

/-- A name that the lexer can have read: an identifier in which no binder is spelled. -/
structure IsReadable (x : String) : Prop where
  identifier : isIdentifier x.toList = true
  no_binder : 'L' ∉ x.toList

/-- The lexemes of a numeral in the place of a reference. -/
def numeralLexemes (label : List Char) : List Lexeme :=
  .opening :: .tag (String.ofList ('_' :: label)) ::
    ((Numeral.term (Text.digitsValue label)).lexemes .top ++ [.closing])

/-- The lexemes of expanded texts: origin marks stand behind opening parentheses only, and those of numerals
in front of the numeral. -/
inductive Tracked : List Lexeme → Prop where
  | nil : Tracked []
  | plain {ls : List Lexeme} (l : Lexeme) (hl : ∀ label, l ≠ .tag label)
      (hx : ∀ x, l = .name x → IsReadable x) (h : Tracked ls) : Tracked (l :: ls)
  | origin {ls : List Lexeme} (label : String) (hlabel : Numeral.isTag (some label) = false)
      (h : Tracked ls) : Tracked (.opening :: .tag label :: ls)
  | numeral {ls : List Lexeme} (label : List Char) (hlabel : Numeral.IsLabel label) (h : Tracked ls) :
      Tracked (numeralLexemes label ++ ls)

theorem tokensFrom_opening {tag : List Char} (h : markClose ∉ tag) (rest : List Char) (position : Nat) :
    tokensFrom 0 position ('(' :: writeMark tag ++ rest)
      = (tokensFrom 0 (position + tag.length + 3) rest).map
          (⟨.opening, position⟩ :: ⟨.tag (String.ofList tag), position + 1⟩ :: ·) := by
  have hclose : closeMark? (tag ++ markClose :: rest) = some (tag, rest) := closeMark?_append tag rest h
  have hfirst : firstLexeme? (markOpen :: (tag ++ markClose :: rest))
      = some (.tag (String.ofList tag), tag.length + 2) := by
    simp [firstLexeme?, hclose]
  have hskip := tokensFrom_append (tag ++ [markClose]) rest (position + 1 + 1)
  simp only [List.length_append, List.length_singleton, List.append_assoc, List.singleton_append]
    at hskip
  have hopen : firstLexeme? ('(' :: markOpen :: (tag ++ markClose :: rest)) = some (.opening, 1) := rfl
  rw [show '(' :: writeMark tag ++ rest = '(' :: markOpen :: (tag ++ markClose :: rest) by
    simp [writeMark], tokensFrom, hopen]
  simp only [Nat.sub_self]
  rw [tokensFrom, hfirst]
  simp only [show tag.length + 2 - 1 = tag.length + 1 from rfl, hskip]
  rw [show position + 1 + 1 + (tag.length + 1) = position + tag.length + 3 by omega]
  cases tokensFrom 0 (position + tag.length + 3) rest <;> rfl

theorem exists_tokenize_syntaxText (n : Nat) :
    ∃ tokens, tokenize (Numeral.syntaxText n) = .ok tokens ∧
      ReadsMarked .sequence (tokens.map Token.lexeme) (Numeral.term n).bare := by
  have hnames : ∀ x, .name x ∈ (Numeral.term n).lexemes .top → 'L' ∉ x.toList := by
    have hall : ∀ x ∈ ["f", "x"], 'L' ∉ x.toList := by decide
    exact fun x hx => hall x (Term.allNames_numeral_subset n (Term.mem_allNames_of_mem_lexemes hx))
  obtain ⟨tokens, htokens, hls⟩ := tokenize_of_spelled (Numeral.spelled_syntaxText n) hnames
  refine ⟨tokens, htokens, ?_⟩
  rw [hls]
  exact (Term.reads_lexemes (Numeral.term n) .top).marked

theorem tokensFrom_block {label : List Char} (h : Numeral.IsLabel label) (rest : List Char)
    (position : Nat) :
    ∃ tokens, tokens.map Token.lexeme = numeralLexemes label ∧
      tokensFrom 0 position (Numeral.block label ++ rest)
        = (tokensFrom 0 (position + (Numeral.block label).length) rest).map (tokens ++ ·) := by
  let text := Numeral.syntaxText (Text.digitsValue label)
  have htext : Spelled text ((Numeral.term (Text.digitsValue label)).lexemes .top) :=
    Numeral.spelled_syntaxText (Text.digitsValue label)
  have hend : endsName (')' :: rest) = true := rfl
  let inner := position + ('_' :: label).length + 3
  obtain ⟨tokens, hlexemes, htokens⟩ := tokensFrom_append_of_spelled htext hend inner
  refine ⟨⟨.opening, position⟩ :: ⟨.tag (String.ofList ('_' :: label)), position + 1⟩ ::
    (tokens ++ [⟨.closing, inner + text.length⟩]), ?_, ?_⟩
  · simp [numeralLexemes, hlexemes]
  · have hlength : position + (Numeral.block label).length = inner + text.length + 1 := by
      simp only [Numeral.block, wrap, if_pos, writeMark, List.length_cons, List.length_append,
        List.length_nil, inner, text]
      omega
    have hclosing : tokensFrom 0 (inner + text.length) (')' :: rest)
        = (tokensFrom 0 (inner + text.length + 1) rest).map (⟨.closing, inner + text.length⟩ :: ·) :=
      rfl
    rw [Numeral.block_append, tokensFrom_opening h.markClose_notMem, htokens, hclosing, hlength]
    cases tokensFrom 0 (inner + text.length + 1) rest with
    | error p => rfl
    | ok ts => simp [Except.map]

theorem firstLexeme?_eq_some {c : Char} (hc : c ≠ markOpen) {cs : List Char} {l : Lexeme} {width : Nat}
    (h : firstLexeme? (c :: cs) = some (l, width)) :
    (signOf? l = some c ∧ width = 1) ∨
      (startsName c = true ∧ l = .name (String.ofList (c :: cs.takeWhile isWordChar)) ∧
        width = (cs.takeWhile isWordChar).length + 1) := by
  rw [firstLexeme?, if_neg hc] at h
  split at h
  · next heq =>
    obtain ⟨rfl, rfl⟩ := Prod.mk.inj (Option.some.inj h)
    exact .inl ⟨congrArg some heq.symm, rfl⟩
  split at h
  · next heq =>
    obtain ⟨rfl, rfl⟩ := Prod.mk.inj (Option.some.inj h)
    exact .inl ⟨congrArg some heq.symm, rfl⟩
  split at h
  · next heq =>
    obtain ⟨rfl, rfl⟩ := Prod.mk.inj (Option.some.inj h)
    exact .inl ⟨congrArg some heq.symm, rfl⟩
  split at h
  · next heq =>
    obtain ⟨rfl, rfl⟩ := Prod.mk.inj (Option.some.inj h)
    exact .inl ⟨congrArg some heq.symm, rfl⟩
  split at h
  · next hstart =>
    obtain ⟨rfl, rfl⟩ := Prod.mk.inj (Option.some.inj h)
    exact .inr ⟨hstart, rfl, rfl⟩
  · cases h

theorem forall_mem_takeWhile_of_expanded {P : Char → Prop} {cs : List Char} (h : Expanded P cs) :
    ∀ c ∈ cs.takeWhile isWordChar, P c := by
  have hopening : isWordChar '(' = false := by decide
  induction h with
  | nil => exact fun c hc => absurd hc List.not_mem_nil
  | plain c hc _ ih =>
      rw [List.takeWhile_cons]
      split
      · exact List.forall_mem_cons.mpr ⟨hc, ih⟩
      · exact fun d hd => absurd hd List.not_mem_nil
  | origin | numeral =>
      intro c hc
      simp [Numeral.block, wrap, hopening] at hc

theorem isReadable_word {c : Char} {cs : List Char} (hstart : startsName c = true) (hc : IsUnified c)
    (h : Expanded IsUnified cs) : IsReadable (String.ofList (c :: cs.takeWhile isWordChar)) := by
  constructor
  · rw [String.toList_ofList, isIdentifier, hstart, List.all_takeWhile, Bool.and_self]
  · rw [String.toList_ofList]
    intro hL
    have hunified : IsUnified 'L' :=
      List.forall_mem_cons.mpr ⟨hc, forall_mem_takeWhile_of_expanded h⟩ 'L' hL
    exact absurd (hunified.2 (by decide)) (by decide)

theorem exists_of_map_ok {tokens : List Token} {f : List Token → List Token} {e : Except Nat (List Token)}
    (h : e.map f = .ok tokens) : ∃ rest, e = .ok rest ∧ tokens = f rest := by
  cases e with
  | error p => cases h
  | ok rest => exact ⟨rest, rfl, (Except.ok.inj h).symm⟩

/-- What the lexer makes of a character outside of origin marks: it belongs to a word that has begun or is
blank, or it is a sign, or it begins a word. -/
theorem tokensFrom_cons_cases {c : Char} {cs : List Char} {owed position : Nat} {tokens : List Token}
    (hc : c ≠ markOpen) (howed : ∀ d ∈ (c :: cs).take owed, isWordChar d = true)
    (h : tokensFrom owed position (c :: cs) = .ok tokens) :
    ∃ owed', (∀ d ∈ cs.take owed', isWordChar d = true) ∧
      (tokensFrom owed' (position + 1) cs = .ok tokens ∧ c ∉ ['(', ')'] ∨
        ∃ l rest, tokens = ⟨l, position⟩ :: rest ∧ tokensFrom owed' (position + 1) cs = .ok rest ∧
          (signOf? l = some c ∨
            startsName c = true ∧ l = .name (String.ofList (c :: cs.takeWhile isWordChar)))) := by
  cases owed with
  | succ owed =>
      rw [List.take_succ_cons] at howed
      obtain ⟨hword, howed⟩ := List.forall_mem_cons.mp howed
      have hparens : ∀ d ∈ ['(', ')'], isWordChar d = false := by decide
      exact ⟨owed, howed, .inl ⟨h, fun hmem => ne_of_class hword (hparens c hmem) rfl⟩⟩
  | zero =>
      have hnone : ∀ d ∈ cs.take 0, isWordChar d = true := fun _ => nofun
      rw [tokensFrom] at h
      split at h
      · next l width hfirst =>
        obtain ⟨rest, hrest, rfl⟩ := exists_of_map_ok h
        rcases firstLexeme?_eq_some hc hfirst with ⟨hsign, rfl⟩ | ⟨hstart, rfl, rfl⟩
        · exact ⟨0, hnone, .inr ⟨l, rest, rfl, hrest, .inl hsign⟩⟩
        · refine ⟨(cs.takeWhile isWordChar).length, ?_, .inr ⟨_, rest, rfl, hrest, .inr ⟨hstart, rfl⟩⟩⟩
          rw [← List.prefix_iff_eq_take.mp (List.takeWhile_prefix _)]
          exact fun d hd => List.mem_takeWhile_imp hd
      · split at h
        · next hblank =>
          have hparens : ∀ d ∈ ['(', ')'], Text.isBlank d = false := by decide
          exact ⟨0, hnone, .inl ⟨h, fun hmem => ne_of_class hblank (hparens c hmem) rfl⟩⟩
        · cases h

/-- The lexer keeps origin marks and numerals together. -/
theorem tracked_of_tokensFrom {cs : List Char} {tokens : List Token} (h : Expanded IsUnified cs)
    {owed position : Nat} (howed : ∀ d ∈ cs.take owed, isWordChar d = true)
    (htokens : tokensFrom owed position cs = .ok tokens) : Tracked (tokens.map Token.lexeme) := by
  have hnone : ∀ cs : List Char, ∀ d ∈ cs.take 0, isWordChar d = true := fun _ _ => nofun
  -- no word goes on with a parenthesis
  have hopening : ∀ {cs : List Char} {owed : Nat},
      (∀ d ∈ ('(' :: cs).take (owed + 1), isWordChar d = true) → False := fun howed => by
    cases howed '(' List.mem_cons_self
  induction h generalizing owed position tokens with
  | nil =>
      cases owed <;> obtain rfl : [] = tokens := Except.ok.inj htokens
      all_goals exact .nil
  | @plain cs c hc hcs ih =>
      obtain ⟨owed', howed', ⟨hrest, -⟩ | ⟨l, rest, rfl, hrest, hl⟩⟩ := tokensFrom_cons_cases hc.1 howed htokens
      · exact ih howed' hrest
      · refine .plain l ?_ ?_ (ih howed' hrest)
        · rintro label rfl
          rcases hl with hsign | ⟨-, hname⟩
          · cases hsign
          · cases hname
        · rintro x rfl
          rcases hl with hsign | ⟨hstart, hname⟩
          · cases hsign
          · rw [Lexeme.name.inj hname]
            exact isReadable_word hstart hc hcs
  | origin label hlabel _ ih =>
      cases owed with
      | succ owed => exact (hopening howed).elim
      | zero =>
          rw [tokensFrom_opening hlabel.markClose_notMem] at htokens
          obtain ⟨rest, hrest, rfl⟩ := exists_of_map_ok htokens
          exact .origin _ hlabel.isTag_eq_false (ih (hnone _) hrest)
  | numeral label hlabel _ ih =>
      cases owed with
      | succ owed => exact (hopening howed).elim
      | zero =>
          obtain ⟨block, hblock, heq⟩ := tokensFrom_block hlabel _ position
          rw [heq] at htokens
          obtain ⟨rest, hrest, rfl⟩ := exists_of_map_ok htokens
          rw [List.map_append, hblock]
          exact .numeral label hlabel (ih (hnone _) hrest)

/-- The lexemes of an expanded text. -/
theorem tracked_of_tokenize {cs : List Char} {tokens : List Token} (h : Expanded IsPublic cs)
    (htokens : tokenize cs = .ok tokens) : Tracked (tokens.map Token.lexeme) := by
  unfold tokenize at htokens
  dsimp only at htokens
  split at htokens
  · next tokens' htokens' =>
    rw [← Except.ok.inj htokens]
    have hnone : ∀ d ∈ (unifyBinders cs).take 0, isWordChar d = true := fun _ => nofun
    exact tracked_of_tokensFrom (expanded_unifyFrom h) hnone htokens'
  · cases htokens

end Syntax
end LambdaStepper
