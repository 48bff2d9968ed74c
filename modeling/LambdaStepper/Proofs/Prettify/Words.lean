import LambdaStepper.Proofs.Syntax.RoundTrip

/-! # Reading words

A readable form holds names that are no identifiers: canonical names, which begin with `@`, and references,
which may hold an `L`.  So it is not read as what is typed in, but word by word: a word is whatever stands
between blanks, parentheses, points and binders (`words`), and the parser makes a term of words as it does
of names (`readWords?`). -/

namespace LambdaStepper.Syntax

/-- The lexemes that a character between words spells, none for a blank; characters of words spell nothing
by themselves. -/
def betweenWords? : Char → Option (List Lexeme)
  | ' ' => some []
  | 'λ' => some [.binder]
  | '(' => some [.opening]
  | ')' => some [.closing]
  | '.' => some [.point]
  | _ => none

/-- The lexeme of a word, if there is one. -/
def wordLexemes (word : List Char) : List Lexeme :=
  if word.isEmpty then [] else [.name (String.ofList word)]

/-- The lexemes of a text, with `word` what was read of the word that goes on in it. -/
def wordsFrom (word : List Char) : List Char → List Lexeme
  | [] => wordLexemes word
  | c :: cs =>
    match betweenWords? c with
    | some ls => wordLexemes word ++ ls ++ wordsFrom [] cs
    | none => wordsFrom (word ++ [c]) cs

/-- The lexemes of a text whose names are words. -/
def words (cs : List Char) : List Lexeme :=
  wordsFrom [] cs

/-- The term as which a text is read whose names are words. -/
def readWords? (cs : List Char) : Option Term :=
  (parseTokens .unlimited ((words cs).map fun l => ⟨l, 0⟩)).toOption

/-- A text that is one word. -/
structure IsWord (word : List Char) : Prop where
  ne_nil : word ≠ []
  all : ∀ c ∈ word, betweenWords? c = none

/-- Whether a word ends before the given text. -/
def endsWord : List Char → Bool
  | [] => true
  | c :: _ => (betweenWords? c).isSome

/-- The lexemes that a text stands for in front of any text that does not go on with a word. -/
def SpellsWords (cs : List Char) (ls : List Lexeme) : Prop :=
  ∀ rest, endsWord rest = true → words (cs ++ rest) = ls ++ words rest

theorem betweenWords?_of_isWordChar {c : Char} (h : isWordChar c = true) : betweenWords? c = none := by
  unfold betweenWords?
  split <;> first | rfl | exact absurd h (by decide)

theorem betweenWords?_of_isDecimalDigit {c : Char} (h : Text.isDecimalDigit c = true) :
    betweenWords? c = none := by
  unfold betweenWords?
  split <;> first | rfl | exact absurd h (by decide)

theorem isWord_of_isIdentifier {x : List Char} (h : isIdentifier x = true) : IsWord x := by
  refine ⟨?_, fun c hc => betweenWords?_of_isWordChar (chars_of_isIdentifier h c hc)⟩
  rintro rfl
  cases h

/-! ### The lexemes of a text -/

theorem wordsFrom_append {w : List Char} (hw : ∀ c ∈ w, betweenWords? c = none) (word rest : List Char) :
    wordsFrom word (w ++ rest) = wordsFrom (word ++ w) rest := by
  induction w generalizing word with
  | nil => rw [List.nil_append, List.append_nil]
  | cons c w ih =>
    obtain ⟨hc, hw⟩ := List.forall_mem_cons.mp hw
    rw [List.cons_append, wordsFrom, hc]
    dsimp only
    rw [ih hw, List.append_assoc]
    rfl

theorem wordsFrom_of_endsWord {rest : List Char} (h : endsWord rest = true) (word : List Char) :
    wordsFrom word rest = wordLexemes word ++ words rest := by
  cases rest with
  | nil => simp [words, wordsFrom, wordLexemes]
  | cons c rest =>
    obtain ⟨ls, hc⟩ := Option.isSome_iff_exists.mp h
    simp [words, wordsFrom, hc, wordLexemes]

theorem words_cons {c : Char} {ls : List Lexeme} (h : betweenWords? c = some ls) (rest : List Char) :
    words (c :: rest) = ls ++ words rest := by
  simp [words, wordsFrom, h, wordLexemes]

theorem IsWord.spellsWords {w : List Char} (h : IsWord w) : SpellsWords w [.name (String.ofList w)] := by
  intro rest hrest
  have hne : w.isEmpty = false := by simpa using h.ne_nil
  rw [words, wordsFrom_append h.all, List.nil_append, wordsFrom_of_endsWord hrest, wordLexemes, hne]
  rfl

theorem SpellsWords.group {cs : List Char} {ls : List Lexeme} (h : SpellsWords cs ls) :
    SpellsWords ('(' :: cs ++ [')']) (.opening :: ls ++ [.closing]) := by
  intro rest hrest
  have hinner := h (')' :: rest) rfl
  have hopen : words ('(' :: (cs ++ ')' :: rest)) = [.opening] ++ words (cs ++ ')' :: rest) :=
    words_cons rfl _
  have hclose : words (')' :: rest) = [.closing] ++ words rest := words_cons rfl _
  rw [hinner, hclose] at hopen
  simpa using hopen

/-- A text of words is read as the term that the grammar means by its lexemes. -/
theorem readWords?_of_reads {cs : List Char} {ls : List Lexeme} {t : Term} (h : SpellsWords cs ls)
    (ht : Reads .sequence ls t) : readWords? cs = some t := by
  have hwords : words cs = ls := by
    have hend := h [] rfl
    rwa [List.append_nil, words, words, wordsFrom, wordLexemes, List.isEmpty_nil, if_pos rfl,
      List.append_nil] at hend
  have hmap : ((words cs).map fun l => (⟨l, 0⟩ : Token)).map Token.lexeme = ls := by
    rw [hwords, List.map_map]
    exact List.map_id ls
  unfold readWords?
  rw [parseTokens_of_reads (hmap ▸ ht)]
  rfl

end LambdaStepper.Syntax
