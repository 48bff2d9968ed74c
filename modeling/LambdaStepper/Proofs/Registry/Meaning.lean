import LambdaStepper.Proofs.Registry.History
import LambdaStepper.Proofs.Registry.Scan
import LambdaStepper.Proofs.Syntax.ShownTerms
import LambdaStepper.Proofs.Syntax.ShownTokens

/-! # A name means its definition

A reference to an entry stands for the term of its definition, with the name of the entry as the tag of the
root (`parse_tag`).  The first pass puts the definition in the place of the reference, in parentheses, and
the other passes expand it there (`expandPasses_tag`), so the definition is expanded by one pass less than
by itself.  That makes no difference unless the definition needs all the passes there are, which a chain of
definitions may do (`not_parse_tag_chain`). -/

namespace LambdaStepper

open Syntax

namespace Syntax

/-! ### The tokens of a text in parentheses -/

theorem closeMark?_append_right {cs tag rest : List Char} (h : closeMark? cs = some (tag, rest))
    (more : List Char) : closeMark? (cs ++ more) = some (tag, rest ++ more) := by
  induction cs generalizing tag with
  | nil => cases h
  | cons c cs ih =>
      rw [closeMark?] at h
      rw [List.cons_append, closeMark?]
      split at h
      · next hc =>
        obtain ⟨rfl, rfl⟩ := Prod.mk.inj (Option.some.inj h)
        rw [if_pos hc]
      · next hc =>
        obtain ⟨⟨t, r⟩, htr, heq⟩ := Option.map_eq_some_iff.mp h
        obtain ⟨rfl, rfl⟩ := Prod.mk.inj heq
        rw [if_neg hc, ih htr]
        rfl

theorem firstLexeme?_append_closing {c : Char} {cs : List Char} {l : Lexeme} {width : Nat}
    (h : firstLexeme? (c :: cs) = some (l, width)) (rest : List Char) :
    firstLexeme? (c :: (cs ++ ')' :: rest)) = some (l, width) ∧ width - 1 ≤ cs.length := by
  by_cases hc : c = markOpen
  · rw [firstLexeme?, if_pos hc] at h ⊢
    obtain ⟨⟨tag, after⟩, hclose, heq⟩ := Option.map_eq_some_iff.mp h
    obtain ⟨rfl, rfl⟩ := Prod.mk.inj heq
    rw [closeMark?_append_right hclose]
    refine ⟨rfl, ?_⟩
    rw [eq_of_closeMark? hclose, List.length_append, List.length_cons]
    omega
  · rcases firstLexeme?_eq_some hc h with ⟨hsign, rfl⟩ | ⟨hstart, rfl, rfl⟩
    · exact ⟨firstLexeme?_of_signOf? hsign _, Nat.zero_le _⟩
    · refine ⟨?_, (List.takeWhile_prefix isWordChar).length_le⟩
      rw [← h]
      unfold firstLexeme?
      simp only [takeWhile_append_cons (show isWordChar ')' = false from rfl), if_neg hc]

/-- The lexemes of a text are the same in front of a closing parenthesis, and wherever it stands. -/
theorem tokensFrom_append_closing {cs : List Char} {owed position : Nat} {tokens : List Token}
    (howed : owed ≤ cs.length) (h : tokensFrom owed position cs = .ok tokens) (position' : Nat)
    (rest : List Char) :
    ∃ tokens', tokens'.map Token.lexeme = tokens.map Token.lexeme ∧
      tokensFrom owed position' (cs ++ ')' :: rest)
        = (tokensFrom 0 (position' + cs.length) (')' :: rest)).map (tokens' ++ ·) := by
  induction cs generalizing owed position position' tokens with
  | nil =>
      obtain rfl := Nat.le_zero.mp howed
      obtain rfl : [] = tokens := Except.ok.inj h
      refine ⟨[], rfl, ?_⟩
      simp only [List.nil_append, List.length_nil, Nat.add_zero]
      cases tokensFrom 0 position' (')' :: rest) <;> rfl
  | cons c cs ih =>
      rw [show position' + (c :: cs).length = position' + 1 + cs.length by simp; omega]
      cases owed with
      | succ owed => exact ih (Nat.le_of_succ_le_succ howed) h (position' + 1)
      | zero =>
          rw [tokensFrom] at h
          rw [List.cons_append, tokensFrom]
          cases hfirst : firstLexeme? (c :: cs) with
          | some found =>
              obtain ⟨l, width⟩ := found
              obtain ⟨hfirst', hwidth⟩ := firstLexeme?_append_closing hfirst rest
              simp only [hfirst] at h
              obtain ⟨ts, hts, rfl⟩ := exists_of_map_ok h
              obtain ⟨ts', hls, heq⟩ := ih hwidth hts (position' + 1)
              refine ⟨⟨l, position'⟩ :: ts', by rw [List.map_cons, List.map_cons, hls], ?_⟩
              simp only [hfirst', heq, map_map_append]
          | none =>
              simp only [hfirst] at h
              split at h
              · next hblank =>
                rw [firstLexeme?_of_isBlank hblank]
                simp only [hblank, if_true]
                exact ih (Nat.zero_le _) h (position' + 1)
              · cases h

theorem tokensFrom_wrap {tag cs : List Char} (htag : markClose ∉ tag) (hcs : Sealed cs) {tokens : List Token}
    (htokens : tokenize cs = .ok tokens) (position : Nat) (rest : List Char) :
    ∃ inner q q', inner.map Token.lexeme = tokens.map Token.lexeme ∧
      tokensFrom 0 position (unifyFrom 0 (Registry.wrap true tag cs ++ rest))
        = (tokensFrom 0 q (unifyFrom 0 rest)).map fun ts =>
            ⟨.opening, position⟩ :: ⟨.tag (String.ofList tag), position + 1⟩ ::
              (inner ++ ⟨.closing, q'⟩ :: ts) := by
  let start := position + tag.length + 3
  let stop := start + (unifyFrom 0 cs).length
  obtain ⟨inner, hinner, heq⟩ := tokensFrom_append_closing (Nat.zero_le _) (tokenize_eq_ok_iff.mp htokens)
    start (unifyFrom 0 rest)
  have hshape : Registry.wrap true tag cs ++ rest = '(' :: writeMark tag ++ (cs ++ ')' :: rest) := by
    simp [Registry.wrap]
  have hclosing : unifyFrom 0 (')' :: rest) = ')' :: unifyFrom 0 rest := rfl
  have hparen : tokensFrom 0 stop (')' :: unifyFrom 0 rest)
      = (tokensFrom 0 (stop + 1) (unifyFrom 0 rest)).map (⟨.closing, stop⟩ :: ·) := rfl
  refine ⟨inner, stop + 1, stop, hinner, ?_⟩
  rw [hshape, unifyFrom_opening htag, hcs.unifyFrom_append, hclosing, tokensFrom_opening htag, heq, hparen]
  cases tokensFrom 0 (stop + 1) (unifyFrom 0 rest) <;> rfl

theorem tokenize_wrap {label cs : List Char} (hlabel : Registry.IsNameLabel label)
    (hcs : Registry.Expanded IsPublic cs) {tokens : List Token} (h : tokenize cs = .ok tokens) :
    ∃ tokens', tokenize (Registry.wrap true ('_' :: label) cs) = .ok tokens' ∧
      tokens'.map Token.lexeme = .opening :: .tag (String.ofList ('_' :: label)) ::
        (tokens.map Token.lexeme ++ [.closing]) := by
  obtain ⟨inner, q, q', hinner, heq⟩ :=
    tokensFrom_wrap hlabel.markClose_notMem (sealed_of_expanded hcs) h 0 []
  rw [List.append_nil] at heq
  exact ⟨_, tokenize_eq_ok_iff.mpr heq, by simp [hinner]⟩

end Syntax

/-! ### References -/

namespace Registry

theorem IsNameLabel.referenceLabel? {names : List String} {label : List Char} (h : IsNameLabel label)
    (hmem : String.ofList label ∈ names) : Syntax.referenceLabel? names label = some label.length := by
  obtain ⟨c, w, rfl, hc, hw⟩ := h
  have hnumeral : numeralLabel? (c :: w) = none := by
    rw [numeralLabel?, isDecimalDigit_eq_false_of_isLetter hc]
    rfl
  have hname : nameLabel? (c :: w) = some (c :: w).length := by
    rw [nameLabel?, if_pos hc, List.takeWhile_eq_self_iff.mpr (List.all_eq_true.mp hw)]
    rfl
  simp only [Syntax.referenceLabel?, hnumeral, hname, Option.filter_some, List.take_length,
    decide_eq_true hmem, if_true]

theorem expandOnce_reference {r : Registry} {entry : NamedTerm} (hlabel : IsNameLabel entry.name.toList)
    (hlookup : r.lookup entry.name = some entry) :
    r.expandOnce true ('_' :: entry.name.toList)
      = wrap true ('_' :: entry.name.toList) entry.definition.toList := by
  have hentry : r.lookup (String.ofList entry.name.toList) = some entry := by
    rwa [String.ofList_toList]
  have hmem : String.ofList entry.name.toList ∈ r.names := by
    rw [String.ofList_toList]
    exact List.mem_map_of_mem (eq_of_lookup hlookup).1
  have hfound : Syntax.referenceLabel? r.names (entry.name.toList ++ []) = some entry.name.toList.length := by
    rw [List.append_nil]
    exact hlabel.referenceLabel? hmem
  have hscan : segments (Syntax.referenceLabel? r.names) ('_' :: (entry.name.toList ++ []))
      = [.reference entry.name.toList] := segmentsFrom_label rfl hfound
  rw [List.append_nil] at hscan
  rw [expandOnce_eq, hscan, List.flatMap_singleton, fill, r.content_of_lookup hlabel hentry]

/-- The definition of an entry is expanded in the place of a reference, by one pass less. -/
theorem expandPasses_tag {r : Registry} {entry : NamedTerm} (hlabel : IsNameLabel entry.name.toList)
    (hlookup : r.lookup entry.name = some entry) (passes : Nat) :
    r.expandPasses true (passes + 1) entry.tag.toList
      = wrap true ('_' :: entry.name.toList) (r.expandPasses true passes entry.definition.toList) := by
  have htag : entry.tag.toList = '_' :: entry.name.toList := by
    simp [NamedTerm.tag, String.toList_append]
  rw [← r.expandPasses_wrap hlabel.inert, expandPasses_eq_iterate, expandPasses_eq_iterate,
    Function.iterate_succ_apply, htag, expandOnce_reference hlabel hlookup]

theorem expanded_of_public {r : Registry} (hr : r.MarkFree) {cs : List Char} (hcs : ∀ c ∈ cs, IsPublic c)
    (passes : Nat) : Expanded IsPublic (r.expandPasses true passes cs) := by
  have hplain := expanded_append hcs .nil
  rw [List.append_nil] at hplain
  exact expanded_expandPasses hr hplain passes

theorem exists_of_parse {limits : Limits} {r : Registry} {text : String} {t : Term}
    (h : r.parse limits text = .ok t) :
    Text.trim text.toList ≠ [] ∧ ∃ tokens, tokenize (r.expand true text.toList) = .ok tokens ∧
      ReadsMarked .sequence (tokens.map Token.lexeme) t := by
  unfold Registry.parse at h
  split at h
  · cases h
  next hblank =>
  split at h
  · cases h
  next expanded hexpanded =>
  split at h
  · cases h
  next tokens htokens =>
  split at h
  · next u hparse =>
    obtain rfl := Except.ok.inj h
    refine ⟨fun htrim => hblank (by rw [htrim]; rfl), tokens, ?_, ?_⟩
    · rw [expand, ← eq_expandPasses_of_within hexpanded]
      exact htokens
    · have hread : ReadsMarked .sequence ([] ++ [] ++ tokens.map Token.lexeme) u :=
        readsMarked_of_parseFrom hparse .nil rfl
      exact hread
  · cases h

theorem parse_of_readsMarked {r : Registry} {text : String} {tokens : List Token} {t : Term}
    (htrim : Text.trim text.toList ≠ []) (htokens : tokenize (r.expand true text.toList) = .ok tokens)
    (hread : ReadsMarked .sequence (tokens.map Token.lexeme) t) : r.parse .unlimited text = .ok t := by
  unfold Registry.parse
  rw [if_neg (by simpa using htrim)]
  simp only [expandWithin_unlimited, htokens, parseTokens_of_readsMarked hread]

/-- Whether a number of passes leaves nothing in a text to expand. -/
def Settles (r : Registry) (passes : Nat) (cs : List Char) : Prop :=
  r.expandOnce true (r.expandPasses true passes cs) = r.expandPasses true passes cs

instance (r : Registry) (passes : Nat) (cs : List Char) : Decidable (r.Settles passes cs) :=
  inferInstanceAs (Decidable (_ = _))

theorem Settles.expandPasses_succ {r : Registry} {passes : Nat} {cs : List Char} (h : r.Settles passes cs) :
    r.expandPasses true (passes + 1) cs = r.expandPasses true passes cs := by
  unfold Settles at h
  rw [expandPasses_eq_iterate] at h
  rw [expandPasses_eq_iterate, expandPasses_eq_iterate, Function.iterate_succ_apply', h]

/-- The name of an entry is read as what is read in the expansion of its definition by one pass less, and it is
the tag of that. -/
theorem parse_tag_of_reads {r : Registry} (hr : r.MarkFree) {entry : NamedTerm}
    (hlabel : IsNameLabel entry.name.toList) (hlookup : r.lookup entry.name = some entry) {tokens : List Token}
    (htokens : tokenize (r.expandPasses true (maxPasses - 1) entry.definition.toList) = .ok tokens) {t : Term}
    (hread : ReadsMarked .sequence (tokens.map Token.lexeme) t) :
    r.parse .unlimited entry.tag = .ok (t.setTag (some entry.tag)) := by
  have htag : entry.tag = String.ofList ('_' :: entry.name.toList) := by
    rw [← String.toList_inj]
    simp [NamedTerm.tag, String.toList_append]
  -- the definition stands in the place of the name, and is expanded there
  have hexpand : r.expand true entry.tag.toList
      = wrap true ('_' :: entry.name.toList)
          (r.expandPasses true (maxPasses - 1) entry.definition.toList) := by
    unfold expand
    rw [show maxPasses = maxPasses - 1 + 1 from rfl, expandPasses_tag hlabel hlookup]
    rfl
  have hexpanded := expanded_of_public hr (hr entry (eq_of_lookup hlookup).1) (maxPasses - 1)
  obtain ⟨tokens', htokens', hlexemes⟩ := tokenize_wrap hlabel hexpanded htokens
  have hgroup := ReadsMarked.atoms (.single (.group (some entry.tag) hread))
  have htagged : tagged (some entry.tag) t = t.setTag (some entry.tag) := by
    rw [htag, Term.tagged_reference]
  refine parse_of_readsMarked ?_ (by rw [hexpand]; exact htokens') ?_
  · intro htrim
    have hblank := isBlank_of_trim_eq_nil htrim '_' (by rw [htag]; simp)
    cases hblank
  · rw [hlexemes, ← htagged, ← htag]
    simpa [markLexemes] using hgroup

/-- **A name means its definition.**  Take a registry that definitions made of the initial one, none of them
holding private characters, and an entry whose definition can be parsed and needs one pass less than there
are.  The name of the entry is read as the term of its definition, and is the tag of that term. -/
theorem parse_tag {r : Registry} (hreached : r.Reached) (hr : r.MarkFree) {entry : NamedTerm}
    (hentry : entry ∈ r.entries) (hfeed : '\n' ∉ entry.name.toList)
    (hsettles : r.Settles (maxPasses - 1) entry.definition.toList) {t : Term}
    (ht : r.parse .unlimited entry.definition = .ok t) :
    r.parse .unlimited entry.tag = .ok (t.setTag (some entry.tag)) := by
  have hlabel := isNameLabel_of_isEntryName (hreached.isEntryName entry hentry) hfeed
  obtain ⟨-, tokens, htokens, hread⟩ := exists_of_parse ht
  refine parse_tag_of_reads hr hlabel (hreached.lookup hentry) ?_ hread
  rw [← hsettles.expandPasses_succ]
  exact htokens

/-! ### Chains of definitions -/

theorem reached_chained {n : Nat} (h : n ≤ maxPasses) : (chained n).Reached := by
  induction n with
  | zero => exact .initial
  | succ n ih => exact (ih (Nat.le_of_succ_le h)).define (define_link n h)

/-- The longest chain for which there are passes enough. -/
theorem parse_tag_chain :
    (chained 9).Reached ∧ (chained 9).MarkFree ∧ link 8 ∈ (chained 9).entries ∧
      (chained 9).parse .unlimited "_B7" = .ok (.lam ⟨some "_B7", false⟩ "x" (.var {} "x")) ∧
      (chained 9).parse .unlimited "_B8" = .ok (.lam ⟨some "_B8", false⟩ "x" (.var {} "x")) := by
  have hreached : (chained 9).Reached := reached_chained (by decide)
  have hr : (chained 9).MarkFree := by decide +kernel
  have hentry : link 8 ∈ (chained 9).entries := by decide +kernel
  have hsettles : (chained 9).Settles (maxPasses - 1) (link 8).definition.toList := by decide +kernel
  have hparse : (chained 9).parse .unlimited (link 8).definition
      = .ok (.lam ⟨some "_B7", false⟩ "x" (.var {} "x")) := by rfl
  exact ⟨hreached, hr, hentry, hparse, parse_tag hreached hr hentry (by decide) hsettles hparse⟩

/-- One entry more, and the definition of the last one needs all the passes.  It is the identity, but the name
of the entry is read as a variable. -/
theorem not_parse_tag_chain :
    (chained maxPasses).Reached ∧ (chained maxPasses).MarkFree ∧
      link 9 ∈ (chained maxPasses).entries ∧
      (chained maxPasses).parse .unlimited (link 9).definition
        = .ok (.lam ⟨some "_B8", false⟩ "x" (.var {} "x")) ∧
      (chained maxPasses).parse .unlimited (link 9).tag = .ok (.var ⟨some "_B9", false⟩ "_ID") :=
  ⟨reached_chained le_rfl, by decide +kernel, by decide +kernel, by rfl, by rfl⟩

end Registry
end LambdaStepper
