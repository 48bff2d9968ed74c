import LambdaStepper.Proofs.Syntax.ShownTokens
import LambdaStepper.Proofs.Text.Cutting
import Mathlib.Data.List.Sort

/-! # Tokens cover a text

The tokens of a text are slices of it, in order and apart, with nothing but blanks between them, and no name ends
where it could go on (`Covers`).  The lexer goes on from one such cover to the next, over a blank or a token at a
time, up to the end of the text or to a character that neither starts a token nor is blank (`covers_of_tokensFrom`).

There is one cover of a text up to such a place: two tokens that stand at the same place are the same, and whatever
token of a cover stands first reaches over none of the other (`Covers.mem_of_covers`). -/

namespace LambdaStepper.Syntax

/-- Where a token ends. -/
def Token.stop (token : Token) : Nat :=
  token.position + token.lexeme.text.length

/-- Whether a lexeme starts with the given character; an origin mark does not count. -/
def startsLexeme (c : Char) : Bool :=
  c = 'λ' || c = '(' || c = ')' || c = '.' || startsName c

/-- A sign, or a name that does not go on behind its end, at its position in a text. -/
structure StandsIn (cs : List Char) (token : Token) : Prop where
  slice : Text.slice cs token.position token.stop = token.lexeme.text.toList
  spelled : (∃ c, signOf? token.lexeme = some c) ∨ ∃ x, token.lexeme = .name x ∧ isIdentifier x.toList = true
  maximal : ∀ x, token.lexeme = .name x → ∀ c, cs[token.stop]? = some c → isWordChar c = false

/-- Tokens that make up a text before the given position, together with blanks. -/
structure Covers (cs : List Char) (tokens : List Token) (stop : Nat) : Prop where
  increasing : tokens.Pairwise fun token later => token.position < later.position
  apart : tokens.Pairwise fun token later => token.stop ≤ later.position
  stands : ∀ token ∈ tokens, StandsIn cs token
  within : ∀ token ∈ tokens, token.stop ≤ stop
  blank : ∀ i < stop, ∀ c, cs[i]? = some c →
    (∀ token ∈ tokens, ¬ (token.position ≤ i ∧ i < token.stop)) → Text.isBlank c = true

/-- A character that is neither part of a token nor blank stands at a position. -/
def StrayAt (cs : List Char) (position : Nat) : Prop :=
  ∃ c, cs[position]? = some c ∧ startsLexeme c = false ∧ Text.isBlank c = false

variable {cs : List Char} {token later : Token} {tokens : List Token} {position : Nat}

/-! ### Slices -/

theorem slice_token (cs : List Char) (token : Token) :
    Text.slice cs token.position token.stop = (cs.drop token.position).take token.lexeme.text.length := by
  rw [Text.slice_natCast, Token.stop, Nat.add_sub_cancel_left]

/-! ### One token -/

theorem text_of_signOf? {l : Lexeme} {c : Char} (h : signOf? l = some c) : l.text.toList = [c] := by
  cases l with
  | name | tag => cases h
  | binder | opening | closing | point =>
      obtain rfl := Option.some.inj h
      decide

theorem isBlank_eq_false_of_startsLexeme {c : Char} (h : startsLexeme c = true) : Text.isBlank c = false := by
  rw [Bool.eq_false_iff]
  intro hblank
  have hne (d : Char) (hd : Text.isBlank d = false) : c ≠ d := ne_of_class hblank hd
  simp [startsLexeme, hne 'λ' (by decide), hne '(' (by decide), hne ')' (by decide), hne '.' (by decide),
    startsName_eq_false_of_isBlank hblank] at h

theorem StandsIn.firstLexeme?_eq (h : StandsIn cs token) :
    firstLexeme? (cs.drop token.position) = some (token.lexeme, token.lexeme.text.length) := by
  have hrest : cs.drop token.position = token.lexeme.text.toList ++ cs.drop token.stop := by
    rw [← h.slice, slice_token, Token.stop, ← List.drop_drop, List.take_append_drop]
  rw [hrest]
  rcases h.spelled with ⟨c, hc⟩ | ⟨x, hx, hid⟩
  · rw [← String.length_toList, text_of_signOf? hc]
    exact firstLexeme?_of_signOf? hc _
  · obtain ⟨c, w, hxs, hc, hw⟩ := exists_of_isIdentifier hid
    have hend : (cs.drop token.stop).takeWhile isWordChar = [] := by
      rw [List.takeWhile_eq_nil_iff]
      intro hpos
      have hnext : cs[token.stop]? = some (cs.drop token.stop)[0] := by simp
      simpa using h.maximal x hx _ hnext
    have htake : (w ++ cs.drop token.stop).takeWhile isWordChar = w := by
      rw [List.takeWhile_append_of_pos (List.all_eq_true.mp hw), hend, List.append_nil]
    have hlength : x.length = w.length + 1 := by
      rw [← String.length_toList, hxs, List.length_cons]
    rw [hx, Lexeme.text, hxs, List.cons_append, firstLexeme?_of_startsName hc, htake, ← hxs, String.ofList_toList,
      hlength]

theorem standsIn_of_append {l : Lexeme} {after : List Char} (hrest : cs.drop position = l.text.toList ++ after)
    (hspelled : (∃ c, signOf? l = some c) ∨ ∃ x, l = .name x ∧ isIdentifier x.toList = true)
    (hend : ∀ x, l = .name x → ∀ c, after.head? = some c → isWordChar c = false) : StandsIn cs ⟨l, position⟩ := by
  refine ⟨?_, hspelled, fun x hx c hc => hend x hx c ?_⟩
  · rw [slice_token, hrest, ← String.length_toList, List.take_left]
  · rw [Token.stop, ← List.getElem?_drop, hrest, ← String.length_toList, List.getElem?_append_right le_rfl,
      Nat.sub_self] at hc
    rwa [List.head?_eq_getElem?]

/-- The lexeme that a text starts with stands there, unless it is an origin mark. -/
theorem standsIn_of_firstLexeme? (hmark : markOpen ∉ cs) {l : Lexeme} {width : Nat}
    (h : firstLexeme? (cs.drop position) = some (l, width)) :
    StandsIn cs ⟨l, position⟩ ∧ width = l.text.length := by
  cases hrest : cs.drop position with
  | nil => rw [hrest] at h; cases h
  | cons c rest =>
      have hc : c ≠ markOpen := by
        rintro rfl
        exact hmark (List.mem_of_mem_drop (hrest ▸ List.mem_cons_self))
      rw [hrest] at h
      rcases firstLexeme?_eq_some hc h with ⟨hsign, rfl⟩ | ⟨hstart, rfl, rfl⟩
      · have htext := text_of_signOf? hsign
        refine ⟨standsIn_of_append (hrest.trans (by rw [htext]; rfl)) (.inl ⟨c, hsign⟩) ?_, ?_⟩
        · rintro x rfl
          cases hsign
        · rw [← String.length_toList, htext, List.length_singleton]
      · -- the name takes all characters of a word
        have hword : c :: rest = (c :: rest.takeWhile isWordChar) ++ rest.dropWhile isWordChar := by
          rw [List.cons_append, List.takeWhile_append_dropWhile]
        have hid : isIdentifier (c :: rest.takeWhile isWordChar) = true := by
          rw [isIdentifier, hstart, List.all_takeWhile, Bool.and_self]
        have hend := List.head?_dropWhile_not isWordChar rest
        rw [← String.toList_ofList (l := c :: rest.takeWhile isWordChar)] at hword hid
        refine ⟨standsIn_of_append (hrest.trans hword) (.inr ⟨_, rfl, hid⟩) fun _ _ d hd => ?_, ?_⟩
        · rwa [hd] at hend
        · rw [Lexeme.text, String.length_ofList, List.length_cons]

theorem StandsIn.eq_of_position (h : StandsIn cs token) (h' : StandsIn cs later)
    (hposition : token.position = later.position) : token = later := by
  have hfirst := h.firstLexeme?_eq
  rw [hposition, h'.firstLexeme?_eq] at hfirst
  obtain ⟨l, p⟩ := token
  obtain ⟨m, q⟩ := later
  obtain rfl : p = q := hposition
  obtain rfl : m = l := (Prod.mk.inj (Option.some.inj hfirst)).1
  rfl

theorem StandsIn.exists_text (h : StandsIn cs token) :
    ∃ c rest, token.lexeme.text.toList = c :: rest ∧ startsLexeme c = true := by
  rcases h.spelled with ⟨c, hc⟩ | ⟨x, hx, hid⟩
  · refine ⟨c, [], text_of_signOf? hc, ?_⟩
    rcases eq_of_signOf? hc with rfl | rfl | rfl | rfl <;> rfl
  · obtain ⟨c, w, hxs, hc, -⟩ := exists_of_isIdentifier hid
    exact ⟨c, w, by rw [hx, Lexeme.text, hxs], by simp [startsLexeme, hc]⟩

theorem StandsIn.position_lt_stop (h : StandsIn cs token) : token.position < token.stop := by
  obtain ⟨c, rest, htext, -⟩ := h.exists_text
  rw [Token.stop, ← String.length_toList, htext, List.length_cons]
  omega

theorem StandsIn.stop_le (h : StandsIn cs token) : token.stop ≤ cs.length := by
  have hlength := congrArg List.length h.slice
  rw [slice_token, List.length_take, List.length_drop, String.length_toList] at hlength
  have hpos := h.position_lt_stop
  unfold Token.stop at hpos ⊢
  omega

theorem StandsIn.exists_startsLexeme (h : StandsIn cs token) :
    ∃ c, cs[token.position]? = some c ∧ startsLexeme c = true := by
  obtain ⟨c, rest, htext, hc⟩ := h.exists_text
  have hslice := h.slice
  rw [slice_token, ← String.length_toList, htext, List.length_cons] at hslice
  refine ⟨c, ?_, hc⟩
  rw [← Nat.add_zero token.position, ← List.getElem?_drop, ← List.getElem?_take_of_lt (Nat.succ_pos _), hslice]
  rfl

/-! ### Going on -/

theorem covers_nil (cs : List Char) : Covers cs [] 0 :=
  ⟨.nil, .nil, List.forall_mem_nil _, List.forall_mem_nil _, fun _ hi => absurd hi (Nat.not_lt_zero _)⟩

theorem Covers.blank_step (h : Covers cs tokens position) {c : Char} (hc : cs[position]? = some c)
    (hblank : Text.isBlank c = true) : Covers cs tokens (position + 1) := by
  refine ⟨h.increasing, h.apart, h.stands, fun token htoken => ?_, fun i hi d hd hout => ?_⟩
  · exact (h.within token htoken).trans (Nat.le_succ _)
  · rcases Nat.lt_succ_iff_lt_or_eq.mp hi with hi | rfl
    · exact h.blank i hi d hd hout
    · rw [hc] at hd
      rwa [← Option.some.inj hd]

theorem Covers.token_step (h : Covers cs tokens token.position) (htoken : StandsIn cs token) :
    Covers cs (tokens ++ [token]) token.stop := by
  have hstop := htoken.position_lt_stop
  refine ⟨?_, ?_, ?_, ?_, fun i hi c hc hout => ?_⟩
  · refine List.pairwise_append.mpr ⟨h.increasing, List.pairwise_singleton _ _, fun earlier hearlier _ hlast => ?_⟩
    rw [List.mem_singleton.mp hlast]
    exact (h.stands earlier hearlier).position_lt_stop.trans_le (h.within earlier hearlier)
  · refine List.pairwise_append.mpr ⟨h.apart, List.pairwise_singleton _ _, fun earlier hearlier _ hlast => ?_⟩
    rw [List.mem_singleton.mp hlast]
    exact h.within earlier hearlier
  · exact List.forall_mem_append.mpr ⟨h.stands, List.forall_mem_singleton.mpr htoken⟩
  · refine List.forall_mem_append.mpr ⟨fun earlier hearlier => ?_, List.forall_mem_singleton.mpr le_rfl⟩
    exact (h.within earlier hearlier).trans hstop.le
  · rw [List.forall_mem_append, List.forall_mem_singleton] at hout
    have hbefore : i < token.position := by
      by_contra hge
      exact hout.2 ⟨Nat.le_of_not_lt hge, hi⟩
    exact h.blank i hbefore c hc hout.1

theorem tokensFrom_eq_drop (owed position : Nat) (cs : List Char) :
    tokensFrom owed position cs = tokensFrom 0 (position + owed) (cs.drop owed) := by
  induction cs generalizing owed position with
  | nil => cases owed <;> rfl
  | cons c cs ih =>
      cases owed with
      | zero => rfl
      | succ owed => rw [tokensFrom, ih, List.drop_succ_cons, Nat.add_assoc, Nat.add_comm 1]

theorem startsLexeme_eq_false {c : Char} {rest : List Char} (h : firstLexeme? (c :: rest) = none) (hc : c ≠ markOpen) :
    startsLexeme c = false := by
  rw [firstLexeme?, if_neg hc] at h
  simp only [startsLexeme]
  split_ifs at h with hlambda hopening hclosing hpoint hname
  simp [hlambda, hopening, hclosing, hpoint, hname]

/-- What the lexer makes of a text from a position on: it stops at the end or at a stray character, and goes on
behind a blank or a token. -/
theorem tokensFrom_drop_cases (hmark : markOpen ∉ cs) (position : Nat) :
    (cs.length ≤ position ∧ tokensFrom 0 position (cs.drop position) = .ok []) ∨
    (StrayAt cs position ∧ tokensFrom 0 position (cs.drop position) = .error position) ∨
    (∃ c, cs[position]? = some c ∧ Text.isBlank c = true ∧
      tokensFrom 0 position (cs.drop position) = tokensFrom 0 (position + 1) (cs.drop (position + 1))) ∨
    ∃ token, token.position = position ∧ StandsIn cs token ∧
      tokensFrom 0 position (cs.drop position)
        = (tokensFrom 0 token.stop (cs.drop token.stop)).map (token :: ·) := by
  cases hrest : cs.drop position with
  | nil => exact .inl ⟨List.drop_eq_nil_iff.mp hrest, rfl⟩
  | cons c rest =>
      have hget : cs[position]? = some c := by
        rw [← Nat.add_zero position, ← List.getElem?_drop, hrest]
        rfl
      have hc : c ≠ markOpen := by
        rintro rfl
        exact hmark (List.mem_of_getElem? hget)
      have hdrop (n : Nat) : rest.drop n = cs.drop (position + (n + 1)) := by
        rw [← List.drop_drop, hrest, List.drop_succ_cons]
      rw [tokensFrom]
      cases hfirst : firstLexeme? (c :: rest) with
      | none =>
          dsimp only
          split
          · next hblank => exact .inr (.inr (.inl ⟨c, hget, hblank, by rw [← hdrop 0, List.drop_zero]⟩))
          · next hblank =>
            exact .inr (.inl ⟨⟨c, hget, startsLexeme_eq_false hfirst hc, by simpa using hblank⟩, rfl⟩)
      | some found =>
          obtain ⟨l, width⟩ := found
          rw [← hrest] at hfirst
          obtain ⟨hstands, rfl⟩ := standsIn_of_firstLexeme? hmark hfirst
          have hstop : position + (l.text.length - 1 + 1) = Token.stop ⟨l, position⟩ := by
            have hpos := hstands.position_lt_stop
            unfold Token.stop at hpos ⊢
            dsimp only at hpos ⊢
            omega
          refine .inr (.inr (.inr ⟨_, rfl, hstands, ?_⟩))
          dsimp only
          rw [tokensFrom_eq_drop, hdrop, hstop, ← hstop, Nat.add_assoc, Nat.add_comm 1]

/-- A cover goes on to the end of the text, or to a stray character. -/
theorem covers_of_tokensFrom (hmark : markOpen ∉ cs) (h : Covers cs tokens position)
    (hposition : position ≤ cs.length) :
    match tokensFrom 0 position (cs.drop position) with
    | .ok rest => Covers cs (tokens ++ rest) cs.length
    | .error stop => StrayAt cs stop ∧ ∃ rest, Covers cs (tokens ++ rest) stop := by
  induction hleft : cs.length - position using Nat.strong_induction_on generalizing tokens position with
  | _ left ih =>
    rcases tokensFrom_drop_cases hmark position with
      ⟨hend, heq⟩ | ⟨hstray, heq⟩ | ⟨c, hc, hblank, heq⟩ | ⟨token, rfl, htoken, heq⟩
    · obtain rfl := hposition.antisymm hend
      rw [heq]
      simpa using h
    · rw [heq]
      exact ⟨hstray, [], by rwa [List.append_nil]⟩
    · have hlt : position < cs.length := (List.getElem?_eq_some_iff.mp hc).1
      rw [heq]
      exact ih _ (by omega) (h.blank_step hc hblank) hlt rfl
    · have hlt := htoken.position_lt_stop
      have hle := htoken.stop_le
      have hrest := ih _ (by omega) (h.token_step htoken) hle rfl
      rw [heq]
      cases hresult : tokensFrom 0 token.stop (cs.drop token.stop) with
      | ok rest =>
          rw [hresult] at hrest
          simpa [Except.map] using hrest
      | error stop =>
          rw [hresult] at hrest
          obtain ⟨hstray, rest, hrest⟩ := hrest
          exact ⟨hstray, token :: rest, by simpa using hrest⟩

/-! ### One cover -/

theorem Covers.exists_mem (h : Covers cs tokens position) {i : Nat} (hi : i < position) {c : Char}
    (hc : cs[i]? = some c) (hblank : Text.isBlank c = false) :
    ∃ token ∈ tokens, token.position ≤ i ∧ i < token.stop := by
  by_contra hnone
  rw [h.blank i hi c hc fun token htoken hin => hnone ⟨token, htoken, hin⟩] at hblank
  cases hblank

theorem Covers.eq_of_overlap (h : Covers cs tokens position) (htoken : token ∈ tokens) (hlater : later ∈ tokens)
    {i : Nat} (hi : token.position ≤ i ∧ i < token.stop) (hi' : later.position ≤ i ∧ i < later.stop) :
    token = later := by
  by_contra hne
  have hsymm : Std.Symm fun t u : Token => t.stop ≤ u.position ∨ u.stop ≤ t.position := ⟨fun _ _ => Or.symm⟩
  have happart : tokens.Pairwise fun t u => t.stop ≤ u.position ∨ u.stop ≤ t.position :=
    h.apart.imp fun hle => .inl hle
  rcases happart.forall htoken hlater hne with hle | hle <;> omega

section Unique

variable {tokens' : List Token} {position' : Nat}

theorem Covers.stop_le_of_covers (h : Covers cs tokens position) (h' : Covers cs tokens' position') {i : Nat}
    (hi : i ≤ position)
    (hends : ∀ token ∈ tokens, token.position < i → token.stop ≤ i ∧ token ∈ tokens') (htoken : token ∈ tokens')
    (hlt : token.position < i) : token.stop ≤ i := by
  obtain ⟨c, hc, hstarts⟩ := (h'.stands token htoken).exists_startsLexeme
  -- what covers the start of the token is in both covers
  obtain ⟨found, hfound, hle, hstop⟩ :=
    h.exists_mem (hlt.trans_le hi) hc (isBlank_eq_false_of_startsLexeme hstarts)
  obtain ⟨hends, hmem⟩ := hends found hfound (hle.trans_lt hlt)
  have hself := (h'.stands token htoken).position_lt_stop
  rwa [← h'.eq_of_overlap hmem htoken ⟨hle, hstop⟩ ⟨le_rfl, hself⟩]

/-- Covers have their tokens in common, as far as both reach. -/
theorem Covers.mem_of_covers (h : Covers cs tokens position) (h' : Covers cs tokens' position')
    (htoken : token ∈ tokens) (hlt : token.position < position') : token ∈ tokens' := by
  induction hstart : token.position using Nat.strong_induction_on generalizing token with
  | _ start ih =>
    subst hstart
    have hstands := h.stands token htoken
    have hself := hstands.position_lt_stop
    obtain ⟨c, hc, hstarts⟩ := hstands.exists_startsLexeme
    obtain ⟨found, hfound, hle, hstop⟩ :=
      h'.exists_mem hlt hc (isBlank_eq_false_of_startsLexeme hstarts)
    have heq : found.position = token.position := by
      refine hle.antisymm (Nat.le_of_not_lt fun hbefore => ?_)
      refine absurd (h.stop_le_of_covers h' (hself.le.trans (h.within token htoken)) ?_ hfound hbefore)
        (Nat.not_le_of_lt hstop)
      intro earlier hearlier hlt'
      refine ⟨?_, ih _ hlt' hearlier (hlt'.trans hlt) rfl⟩
      by_contra hover
      rw [h.eq_of_overlap hearlier htoken ⟨hlt'.le, Nat.lt_of_not_le hover⟩ ⟨le_rfl, hself⟩] at hlt'
      exact lt_irrefl _ hlt'
    rwa [← (h'.stands found hfound).eq_of_position hstands heq]

/-- No cover goes on over a stray character behind another one. -/
theorem Covers.le_of_strayAt (h : Covers cs tokens position) (hstray : StrayAt cs position)
    (h' : Covers cs tokens' position') : position' ≤ position := by
  by_contra hlt
  obtain ⟨c, hc, hstarts, hblank⟩ := hstray
  obtain ⟨found, hfound, hle, hstop⟩ := h'.exists_mem (Nat.lt_of_not_le hlt) hc hblank
  rcases hle.lt_or_eq with hbefore | rfl
  · refine absurd (h.stop_le_of_covers h' le_rfl ?_ hfound hbefore) (Nat.not_le_of_lt hstop)
    intro token htoken hlt'
    exact ⟨h.within token htoken, h.mem_of_covers h' htoken (hlt'.trans (Nat.lt_of_not_le hlt))⟩
  · obtain ⟨d, hd, hstarts'⟩ := (h'.stands found hfound).exists_startsLexeme
    rw [hc] at hd
    rw [Option.some.inj hd, hstarts'] at hstarts
    cases hstarts

theorem Covers.unique (h : Covers cs tokens position) (h' : Covers cs tokens' position) : tokens = tokens' := by
  have : Std.Irrefl fun token later : Token => token.position < later.position := ⟨fun _ => lt_irrefl _⟩
  refine h.increasing.eq_of_mem_iff h'.increasing fun token => ⟨fun htoken => ?_, fun htoken => ?_⟩
  · exact h.mem_of_covers h' htoken ((h.stands token htoken).position_lt_stop.trans_le (h.within token htoken))
  · exact h'.mem_of_covers h htoken ((h'.stands token htoken).position_lt_stop.trans_le (h'.within token htoken))

end Unique

/-! ### The lexer -/

theorem StrayAt.lt_length (h : StrayAt cs position) : position < cs.length := by
  obtain ⟨c, hc, -⟩ := h
  exact (List.getElem?_eq_some_iff.mp hc).1

/-- The lexer finds the tokens that cover a text, or the character that no cover goes on over. -/
theorem tokensFrom_eq_iff (hmark : markOpen ∉ cs) :
    (∀ tokens, tokensFrom 0 0 cs = .ok tokens ↔ Covers cs tokens cs.length) ∧
      ∀ stop, tokensFrom 0 0 cs = .error stop ↔ StrayAt cs stop ∧ ∃ tokens, Covers cs tokens stop := by
  have hcovers := covers_of_tokensFrom hmark (covers_nil cs) (Nat.zero_le _)
  rw [List.drop_zero] at hcovers
  cases hresult : tokensFrom 0 0 cs with
  | ok found =>
      rw [hresult] at hcovers
      refine ⟨fun tokens => ⟨?_, fun h => congrArg _ (hcovers.unique h)⟩, fun stop => ⟨nofun, ?_⟩⟩
      · rintro ⟨⟩
        exact hcovers
      · rintro ⟨hstray, tokens, h⟩
        exact absurd (h.le_of_strayAt hstray hcovers) (Nat.not_le_of_lt hstray.lt_length)
  | error found =>
      rw [hresult] at hcovers
      obtain ⟨hfound, rest, hrest⟩ := hcovers
      refine ⟨fun tokens => ⟨nofun, fun h => ?_⟩, fun stop => ⟨?_, ?_⟩⟩
      · exact absurd (hrest.le_of_strayAt hfound h) (Nat.not_le_of_lt hfound.lt_length)
      · rintro ⟨⟩
        exact ⟨hfound, rest, hrest⟩
      · rintro ⟨hstray, tokens, h⟩
        exact congrArg _ ((h.le_of_strayAt hstray hrest).antisymm (hrest.le_of_strayAt hfound h))

theorem unifyBinders_eq_map (hcs : ∀ c ∈ cs, IsPublic c) :
    unifyBinders cs = cs.map fun c => if isBinder c then 'λ' else c := by
  unfold unifyBinders
  induction cs with
  | nil => rfl
  | cons c cs ih =>
      obtain ⟨hc, hrest⟩ := List.forall_mem_cons.mp hcs
      rw [unifyFrom_cons hc.1, ih hrest, List.map_cons]

theorem markOpen_notMem_unifyBinders (hcs : ∀ c ∈ cs, IsPublic c) : markOpen ∉ unifyBinders cs := by
  rw [unifyBinders_eq_map hcs]
  intro hmem
  obtain ⟨c, hc, heq⟩ := List.mem_map.mp hmem
  exact (isUnified_unified (hcs c hc).1).1 heq

theorem shownPosition_eq_self (hmark : markOpen ∉ cs) (hposition : position ≤ cs.length) :
    shownPosition cs position = position := by
  have htake : markOpen ∉ cs.take position := fun hmem => hmark (List.mem_of_mem_take hmem)
  rw [shownPosition, stripMarks_eq_self htake, List.length_take, Nat.min_eq_left hposition]

theorem tokenize_eq_error_iff (hcs : ∀ c ∈ cs, IsPublic c) {fault : SyntaxFault} :
    tokenize cs = .error fault ↔ ∃ position c,
      fault = .badCharacter (String.ofList (unifyBinders cs)) c position ∧ (unifyBinders cs)[position]? = some c ∧
        tokensFrom 0 0 (unifyBinders cs) = .error position := by
  have hmark := markOpen_notMem_unifyBinders hcs
  have hstop {position : Nat} (hresult : tokensFrom 0 0 (unifyBinders cs) = .error position) :
      position < (unifyBinders cs).length :=
    (((tokensFrom_eq_iff hmark).2 position).mp hresult).1.lt_length
  rw [tokenize]
  cases hresult : tokensFrom 0 0 (unifyBinders cs) with
  | ok tokens => simp
  | error position =>
      have hlt := hstop hresult
      dsimp only
      rw [stripMarks_eq_self hmark, shownPosition_eq_self hmark hlt.le]
      constructor
      · rintro ⟨⟩
        refine ⟨position, _, rfl, ?_, rfl⟩
        rw [List.getD_eq_getElem?_getD, List.getElem?_eq_getElem hlt, Option.getD_some]
      · rintro ⟨_, c, rfl, hc, ⟨⟩⟩
        rw [List.getD_eq_getElem?_getD, hc, Option.getD_some]

/-- **The lexer loses nothing.**  A text without private characters, its binders made one, has the given tokens exactly
if they are all there is in it but for blanks: they are slices of it, in order and apart, and no name ends where it
could go on.  It has a fault exactly if tokens and blanks lead up to a character that neither starts a token nor is
blank, and the fault is reported as one of parsing. -/
theorem tokenize_covers (hcs : ∀ c ∈ cs, IsPublic c) :
    let unified := cs.map fun c => if isBinder c then 'λ' else c
    (∀ tokens, tokenize cs = .ok tokens ↔ Covers unified tokens unified.length) ∧
      (∀ fault, tokenize cs = .error fault ↔ ∃ position c tokens,
        fault = .badCharacter (String.ofList unified) c position ∧ unified[position]? = some c ∧
          startsLexeme c = false ∧ Text.isBlank c = false ∧ Covers unified tokens position) ∧
      ∀ fault, tokenize cs = .error fault → ∃ report, fault.failure = .report report ∧ report.kind = .parse := by
  intro unified
  have hunified : unifyBinders cs = unified := unifyBinders_eq_map hcs
  obtain ⟨hok, herror⟩ := tokensFrom_eq_iff (markOpen_notMem_unifyBinders hcs)
  simp only [tokenize_eq_error_iff hcs, herror, ← hunified]
  refine ⟨fun tokens => tokenize_eq_ok_iff.trans (hok tokens), fun fault => ⟨?_, ?_⟩, ?_⟩
  · rintro ⟨position, c, rfl, hc, ⟨d, hd, hstarts, hblank⟩, tokens, hcovers⟩
    obtain rfl : c = d := Option.some.inj (hc.symm.trans hd)
    exact ⟨position, c, tokens, rfl, hc, hstarts, hblank, hcovers⟩
  · rintro ⟨position, c, tokens, rfl, hc, hstarts, hblank, hcovers⟩
    exact ⟨position, c, rfl, hc, ⟨c, hc, hstarts, hblank⟩, tokens, hcovers⟩
  · rintro _ ⟨position, c, rfl, -⟩
    exact ⟨_, rfl, rfl⟩

/-- A digit may stand in a name, but not in front of it. -/
theorem tokenize_covers_digit :
    (∀ c ∈ "Lx1.x1(y)".toList, IsPublic c) ∧ (∀ c ∈ "\\x 1y".toList, IsPublic c) ∧
      Covers "λx1.x1(y)".toList [⟨.binder, 0⟩, ⟨.name "x1", 1⟩, ⟨.point, 3⟩, ⟨.name "x1", 4⟩, ⟨.opening, 6⟩,
        ⟨.name "y", 7⟩, ⟨.closing, 8⟩] 9 ∧
      ∃ tokens, Covers "λx 1y".toList tokens 3 := by
  have hcs : ∀ c ∈ "Lx1.x1(y)".toList, IsPublic c := by decide
  have hcs' : ∀ c ∈ "\\x 1y".toList, IsPublic c := by decide
  have htokens : tokenize "Lx1.x1(y)".toList = .ok [⟨.binder, 0⟩, ⟨.name "x1", 1⟩, ⟨.point, 3⟩, ⟨.name "x1", 4⟩,
      ⟨.opening, 6⟩, ⟨.name "y", 7⟩, ⟨.closing, 8⟩] := by decide
  have hfault : tokenize "\\x 1y".toList = .error (.badCharacter "λx 1y" '1' 3) := by decide
  obtain ⟨hok, -⟩ := tokenize_covers hcs
  obtain ⟨-, herror, -⟩ := tokenize_covers hcs'
  obtain ⟨_, _, tokens, heq, -, -, -, hcovers⟩ := (herror _).mp hfault
  obtain ⟨-, -, rfl⟩ := SyntaxFault.badCharacter.inj heq
  exact ⟨hcs, hcs', (hok _).mp htokens, tokens, hcovers⟩

end LambdaStepper.Syntax
