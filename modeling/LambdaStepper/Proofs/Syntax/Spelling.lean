import LambdaStepper.Registry.Expansion
import LambdaStepper.Syntax.Token
import Mathlib.Data.List.TakeWhile

/-! # Spelling

`Spelled cs ls` says that a text consists of the lexemes `ls`, with blanks between them, so that no name
runs into what follows it.  On such a text everything that happens before parsing is settled:

* its tokens are the lexemes, if all binders are spelled `λ` (`tokenize_of_spelled`);
* it is not blank, unless there are no lexemes (`trim_ne_nil_of_spelled`). -/

namespace LambdaStepper.Syntax

/-- Whether a text is an identifier: a letter or underscore, then characters of a word. -/
def isIdentifier : List Char → Bool
  | [] => false
  | c :: cs => startsName c && cs.all isWordChar

/-- Whether a name ends before the given text: neither a word nor a numeral goes on there. -/
def endsName : List Char → Bool
  | [] => true
  | c :: _ => !isWordChar c && !Text.isDecimalDigit c

/-- The character that spells a lexeme other than a name or an origin mark. -/
def signOf? : Lexeme → Option Char
  | .binder => some 'λ'
  | .opening => some '('
  | .closing => some ')'
  | .point => some '.'
  | .name _ => none
  | .tag _ => none

/-- The lexemes a text consists of. -/
inductive Spelled : List Char → List Lexeme → Prop where
  | nil : Spelled [] []
  | blank {cs : List Char} {ls : List Lexeme} (c : Char) (hc : Text.isBlank c = true)
      (h : Spelled cs ls) : Spelled (c :: cs) ls
  | sign {cs : List Char} {ls : List Lexeme} (c : Char) (l : Lexeme) (hl : signOf? l = some c)
      (h : Spelled cs ls) : Spelled (c :: cs) (l :: ls)
  | name {cs : List Char} {ls : List Lexeme} (x : String) (hx : isIdentifier x.toList = true)
      (hcs : endsName cs = true) (h : Spelled cs ls) :
      Spelled (x.toList ++ cs) (.name x :: ls)

/-- The lexemes that a text stands for in front of any text that does not go on with a name. -/
def Spells (cs : List Char) (ls : List Lexeme) : Prop :=
  ∀ rest ms, endsName rest = true → Spelled rest ms → Spelled (cs ++ rest) (ls ++ ms)

/-! ### Characters -/

theorem ne_of_class {p : Char → Bool} {c d : Char} (hc : p c = true) (hd : p d = false) : c ≠ d := by
  rintro rfl
  rw [hc] at hd
  cases hd

theorem toNat_of_isWordChar {c : Char} (h : isWordChar c = true) :
    39 ≤ c.toNat ∧ c.toNat ≤ 122 := by
  simp only [isWordChar, isLetter, Bool.or_eq_true, Bool.and_eq_true, decide_eq_true_eq,
    Char.le_def, UInt32.le_iff_toNat_le] at h
  unfold Char.toNat
  rcases h with (((h | h) | h) | rfl) | rfl
  · change 65 ≤ c.val.toNat ∧ c.val.toNat ≤ 90 at h
    omega
  · change 97 ≤ c.val.toNat ∧ c.val.toNat ≤ 122 at h
    omega
  · change 48 ≤ c.val.toNat ∧ c.val.toNat ≤ 57 at h
    omega
  · decide
  · decide

theorem isWordChar_of_isDigit {c : Char} (h : c.isDigit = true) : isWordChar c = true := by
  have h' : '0' ≤ c ∧ c ≤ '9' := by
    simpa [Char.isDigit, Char.le_def] using h
  simp [isWordChar, h'.1, h'.2]

theorem isDigit_of_mem_toString {n : Nat} {c : Char} (h : c ∈ (toString n).toList) :
    c.isDigit = true := by
  have h' : c ∈ Nat.toDigits 10 n := by simpa [toString, Nat.repr] using h
  exact Nat.isDigit_of_mem_toDigits (by decide) (by decide) h'

theorem isWordChar_of_startsName {c : Char} (h : startsName c = true) : isWordChar c = true := by
  unfold startsName at h
  unfold isWordChar
  rw [Bool.or_eq_true] at h
  rcases h with h | h <;> simp [h]

theorem isWordChar_eq_false_of_isBlank {c : Char} (h : Text.isBlank c = true) :
    isWordChar c = false := by
  rw [Bool.eq_false_iff]
  intro hw
  have hrange := toNat_of_isWordChar hw
  simp only [Text.isBlank, Text.inRanges, Text.blankRanges, List.any_cons, List.any_nil,
    Bool.or_eq_true, Bool.and_eq_true, decide_eq_true_eq, Bool.false_eq_true, or_false] at h
  omega

theorem startsName_eq_false_of_isBlank {c : Char} (h : Text.isBlank c = true) :
    startsName c = false := by
  rw [Bool.eq_false_iff]
  intro hs
  have := isWordChar_eq_false_of_isBlank h
  rw [isWordChar_of_startsName hs] at this
  cases this

theorem exists_of_isIdentifier {x : List Char} (h : isIdentifier x = true) :
    ∃ c w, x = c :: w ∧ startsName c = true ∧ w.all isWordChar = true := by
  cases x with
  | nil => cases h
  | cons c w =>
      rw [isIdentifier, Bool.and_eq_true] at h
      exact ⟨c, w, rfl, h⟩

theorem eq_of_signOf? {l : Lexeme} {c : Char} (h : signOf? l = some c) :
    c = 'λ' ∨ c = '(' ∨ c = ')' ∨ c = '.' := by
  cases l with
  | name | tag => cases h
  | binder | opening | closing | point =>
      obtain rfl := Option.some.inj h
      decide

theorem eq_lambda_of_isBinder {c : Char} (h : isBinder c = true) (hL : c ≠ 'L') (hs : c ≠ '\\') :
    c = 'λ' := by
  simpa [isBinder, hL, hs] using h

theorem firstLexeme?_of_isBlank {c : Char} (h : Text.isBlank c = true) (cs : List Char) :
    firstLexeme? (c :: cs) = none := by
  have hne (d : Char) (hd : Text.isBlank d = false) : c ≠ d := ne_of_class h hd
  simp [firstLexeme?, hne markOpen (by decide), hne 'λ' (by decide), hne '(' (by decide),
    hne ')' (by decide), hne '.' (by decide), startsName_eq_false_of_isBlank h]

theorem firstLexeme?_of_signOf? {l : Lexeme} {c : Char} (h : signOf? l = some c) (cs : List Char) :
    firstLexeme? (c :: cs) = some (l, 1) := by
  cases l with
  | name | tag => cases h
  | binder | opening | closing | point =>
      obtain rfl := Option.some.inj h
      rfl

theorem firstLexeme?_of_startsName {c : Char} (hc : startsName c = true) (cs : List Char) :
    firstLexeme? (c :: cs) = some (.name (String.ofList (c :: cs.takeWhile isWordChar)),
      (cs.takeWhile isWordChar).length + 1) := by
  have hne (d : Char) (hd : startsName d = false) : c ≠ d := ne_of_class hc hd
  simp [firstLexeme?, hne markOpen (by decide), hne 'λ' (by decide), hne '(' (by decide), hne ')' (by decide),
    hne '.' (by decide), hc]

theorem takeWhile_isWordChar {w rest : List Char} (hw : w.all isWordChar = true)
    (hrest : endsName rest = true) : (w ++ rest).takeWhile isWordChar = w := by
  have hnil : rest.takeWhile isWordChar = [] := by
    cases rest with
    | nil => rfl
    | cons d rest =>
        simp only [endsName, Bool.and_eq_true, Bool.not_eq_true'] at hrest
        simp [hrest.1]
  rw [List.takeWhile_append_of_pos (List.all_eq_true.mp hw), hnil, List.append_nil]

theorem firstLexeme?_of_isIdentifier {x rest : List Char} (hx : isIdentifier x = true)
    (hrest : endsName rest = true) :
    firstLexeme? (x ++ rest) = some (.name (String.ofList x), x.length) := by
  obtain ⟨c, w, rfl, hc, hw⟩ := exists_of_isIdentifier hx
  rw [List.cons_append, firstLexeme?_of_startsName hc, takeWhile_isWordChar hw hrest, List.length_cons]

/-! ### Blank texts -/

theorem isBlank_of_trim_eq_nil {cs : List Char} (h : Text.trim cs = []) :
    ∀ c ∈ cs, Text.isBlank c = true := by
  unfold Text.trim at h
  rw [List.reverse_eq_nil_iff, List.dropWhile_eq_nil_iff] at h
  have hall : ∀ c ∈ cs.dropWhile Text.isBlank, Text.isBlank c = true := by
    intro c hc
    exact h c (List.mem_reverse.mpr hc)
  intro c hc
  rw [← List.takeWhile_append_dropWhile (p := Text.isBlank) (l := cs)] at hc
  rcases List.mem_append.mp hc with hc | hc
  · exact List.mem_takeWhile_imp hc
  · exact hall c hc

theorem trim_ne_nil_of_spelled {cs : List Char} {ls : List Lexeme} (h : Spelled cs ls)
    (hne : ls ≠ []) : Text.trim cs ≠ [] := by
  intro htrim
  have hall := isBlank_of_trim_eq_nil htrim
  clear htrim
  induction h with
  | nil => exact hne rfl
  | blank c _ _ ih => exact ih hne fun d hd => hall d (List.mem_cons_of_mem c hd)
  | sign c l hl _ _ =>
      have hc := hall c List.mem_cons_self
      rcases eq_of_signOf? hl with rfl | rfl | rfl | rfl <;> cases hc
  | name x hx _ _ _ =>
      obtain ⟨c, w, hxs, hc, -⟩ := exists_of_isIdentifier hx
      have hblank := hall c (by simp [hxs])
      rw [startsName_eq_false_of_isBlank hblank] at hc
      cases hc

/-! ### Tokens -/

theorem tokensFrom_append (w rest : List Char) (position : Nat) :
    tokensFrom w.length position (w ++ rest) = tokensFrom 0 (position + w.length) rest := by
  induction w generalizing position with
  | nil => rfl
  | cons c w ih =>
      rw [List.cons_append, List.length_cons, tokensFrom, ih, Nat.add_assoc, Nat.add_comm 1]

theorem tokensFrom_blank {c : Char} (hc : Text.isBlank c = true) (rest : List Char) (position : Nat) :
    tokensFrom 0 position (c :: rest) = tokensFrom 0 (position + 1) rest := by
  rw [tokensFrom, firstLexeme?_of_isBlank hc]
  simp only [hc, if_true]

theorem tokensFrom_sign {l : Lexeme} {c : Char} (hl : signOf? l = some c) (rest : List Char)
    (position : Nat) :
    tokensFrom 0 position (c :: rest)
      = (tokensFrom 0 (position + 1) rest).map (⟨l, position⟩ :: ·) := by
  rw [tokensFrom, firstLexeme?_of_signOf? hl]

theorem tokensFrom_name {x : String} {rest : List Char} (hx : isIdentifier x.toList = true)
    (hrest : endsName rest = true) (position : Nat) :
    tokensFrom 0 position (x.toList ++ rest)
      = (tokensFrom 0 (position + x.toList.length) rest).map (⟨.name x, position⟩ :: ·) := by
  have hfirst := firstLexeme?_of_isIdentifier hx hrest
  rw [String.ofList_toList] at hfirst
  obtain ⟨c, w, hxs, -⟩ := exists_of_isIdentifier hx
  rw [hxs, List.cons_append] at hfirst ⊢
  rw [tokensFrom, hfirst]
  simp only [List.length_cons, Nat.add_sub_cancel, tokensFrom_append]
  rw [show position + (w.length + 1) = position + 1 + w.length by omega]

theorem endsName_append {cs rest : List Char} (hcs : endsName cs = true) (hrest : endsName rest = true) :
    endsName (cs ++ rest) = true := by
  cases cs with
  | nil => exact hrest
  | cons c cs => exact hcs

theorem map_map_append (e : Except Nat (List Token)) (token : Token) (tokens : List Token) :
    (e.map (tokens ++ ·)).map (token :: ·) = e.map (token :: tokens ++ ·) := by
  cases e <;> rfl

/-- The tokens of a text that starts with lexemes are these lexemes and the tokens of the rest. -/
theorem tokensFrom_append_of_spelled {cs rest : List Char} {ls : List Lexeme} (h : Spelled cs ls)
    (hrest : endsName rest = true) (position : Nat) :
    ∃ tokens, tokens.map Token.lexeme = ls ∧
      tokensFrom 0 position (cs ++ rest)
        = (tokensFrom 0 (position + cs.length) rest).map (tokens ++ ·) := by
  induction h generalizing position with
  | nil =>
      refine ⟨[], rfl, ?_⟩
      simp only [List.nil_append, List.length_nil, Nat.add_zero]
      cases tokensFrom 0 position rest <;> rfl
  | @blank cs _ c hc _ ih =>
      obtain ⟨tokens, hls, htokens⟩ := ih (position + 1)
      refine ⟨tokens, hls, ?_⟩
      rw [List.cons_append, tokensFrom_blank hc, htokens, List.length_cons]
      rw [show position + 1 + cs.length = position + (cs.length + 1) by omega]
  | @sign cs _ c l hl _ ih =>
      obtain ⟨tokens, hls, htokens⟩ := ih (position + 1)
      refine ⟨⟨l, position⟩ :: tokens, by rw [List.map_cons, hls], ?_⟩
      rw [List.cons_append, tokensFrom_sign hl, htokens, map_map_append, List.length_cons]
      rw [show position + 1 + cs.length = position + (cs.length + 1) by omega]
  | @name cs ls x hx hcs _ ih =>
      obtain ⟨tokens, hls, htokens⟩ := ih (position + x.toList.length)
      refine ⟨⟨.name x, position⟩ :: tokens, by rw [List.map_cons, hls], ?_⟩
      rw [List.append_assoc, tokensFrom_name hx (endsName_append hcs hrest), htokens, map_map_append,
        List.length_append, Nat.add_assoc]

theorem tokensFrom_of_spelled {cs : List Char} {ls : List Lexeme} (h : Spelled cs ls)
    (position : Nat) :
    ∃ tokens, tokensFrom 0 position cs = .ok tokens ∧ tokens.map Token.lexeme = ls := by
  have hend : endsName [] = true := rfl
  obtain ⟨tokens, hls, htokens⟩ := tokensFrom_append_of_spelled h hend position
  rw [List.append_nil] at htokens
  exact ⟨tokens, by rw [htokens]; simp [tokensFrom, Except.map], hls⟩

/-- What holds of the characters of a text is decided along the text, not over all characters. -/
instance (priority := 2000) decidableForallMem (P : Char → Prop) [DecidablePred P] (cs : List Char) :
    Decidable (∀ c ∈ cs, P c) :=
  List.decidableBAll P cs

/-- A character that stays as it is when binders are made one. -/
def IsUnified (c : Char) : Prop :=
  c ≠ markOpen ∧ (isBinder c = true → c = 'λ')

instance (c : Char) : Decidable (IsUnified c) :=
  inferInstanceAs (Decidable (_ ∧ _))

theorem unifyFrom_append {w : List Char} (h : ∀ c ∈ w, IsUnified c) (rest : List Char) :
    unifyFrom 0 (w ++ rest) = w ++ unifyFrom 0 rest := by
  induction w with
  | nil => rfl
  | cons c w ih =>
      obtain ⟨hopen, hbinder⟩ := h c List.mem_cons_self
      have hc : (if isBinder c then 'λ' else c) = c := by
        by_cases hb : isBinder c = true
        · rw [if_pos hb, hbinder hb]
        · rw [if_neg hb]
      rw [List.cons_append, unifyFrom, if_neg hopen, hc, ih fun d hd => h d (List.mem_cons_of_mem c hd),
        List.cons_append]

theorem unifyFrom_eq_self {cs : List Char} (h : ∀ c ∈ cs, IsUnified c) : unifyFrom 0 cs = cs := by
  have happend := unifyFrom_append h []
  rwa [List.append_nil, unifyFrom, List.append_nil] at happend

theorem chars_of_isIdentifier {x : List Char} (h : isIdentifier x = true) :
    ∀ c ∈ x, isWordChar c = true := by
  obtain ⟨c, w, rfl, hc, hw⟩ := exists_of_isIdentifier h
  exact List.forall_mem_cons.mpr ⟨isWordChar_of_startsName hc, List.all_eq_true.mp hw⟩

theorem isUnified_of_isBlank {c : Char} (hc : Text.isBlank c = true) : IsUnified c := by
  have hne (d : Char) (hd : Text.isBlank d = false) : c ≠ d := ne_of_class hc hd
  refine ⟨hne markOpen (by decide), ?_⟩
  exact fun hb => eq_lambda_of_isBinder hb (hne 'L' (by decide)) (hne '\\' (by decide))

theorem isUnified_of_signOf? {l : Lexeme} {c : Char} (hl : signOf? l = some c) : IsUnified c := by
  rcases eq_of_signOf? hl with rfl | rfl | rfl | rfl <;> decide

theorem isUnified_of_mem_identifier {x : List Char} (hx : isIdentifier x = true) (hL : 'L' ∉ x) :
    ∀ c ∈ x, IsUnified c := by
  intro c hc
  have hne (d : Char) (hd : isWordChar d = false) : c ≠ d :=
    ne_of_class (chars_of_isIdentifier hx c hc) hd
  refine ⟨hne markOpen (by decide), ?_⟩
  intro hb
  refine eq_lambda_of_isBinder hb ?_ (hne '\\' (by decide))
  rintro rfl
  exact hL hc

theorem unifyBinders_of_spelled {cs : List Char} {ls : List Lexeme} (h : Spelled cs ls)
    (hL : ∀ x, .name x ∈ ls → 'L' ∉ x.toList) : unifyBinders cs = cs := by
  apply unifyFrom_eq_self
  induction h with
  | nil => exact fun c hc => absurd hc List.not_mem_nil
  | blank c hc _ ih => exact List.forall_mem_cons.mpr ⟨isUnified_of_isBlank hc, ih hL⟩
  | sign c l hl _ ih =>
      exact List.forall_mem_cons.mpr
        ⟨isUnified_of_signOf? hl, ih fun x hx => hL x (List.mem_cons_of_mem l hx)⟩
  | name x hx _ _ ih =>
      exact List.forall_mem_append.mpr ⟨isUnified_of_mem_identifier hx (hL x List.mem_cons_self),
        ih fun y hy => hL y (List.mem_cons_of_mem _ hy)⟩

/-- The tokens of a text are the lexemes it consists of. -/
theorem tokenize_of_spelled {cs : List Char} {ls : List Lexeme} (h : Spelled cs ls)
    (hL : ∀ x, .name x ∈ ls → 'L' ∉ x.toList) :
    ∃ tokens, tokenize cs = .ok tokens ∧ tokens.map Token.lexeme = ls := by
  obtain ⟨tokens, htokens, hls⟩ := tokensFrom_of_spelled h 0
  refine ⟨tokens, ?_, hls⟩
  unfold tokenize
  simp only [unifyBinders_of_spelled h hL, htokens]

end LambdaStepper.Syntax
