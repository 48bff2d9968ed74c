import LambdaStepper.Proofs.Reduction.Tags
import LambdaStepper.Proofs.Registry.Blocks
import LambdaStepper.Proofs.Registry.Nesting

/-! # Reading blocks

The lexemes of a text with blocks are a tree again (`Grouped`, `grouped_of_tokenize`): behind an opening
parenthesis with an origin mark come the lexemes of what is in the block, which close the parentheses that they
open, and the parenthesis that closes the block.  So what is read between these two parentheses is what the
content of the block is read as by itself, and what its tag states may be known from there
(`Grouped.tagsHold`). -/

namespace LambdaStepper

open Registry

namespace Syntax

/-! ### Signs -/

/-- The signs among lexemes, as they are spelled. -/
def signs (ls : List Lexeme) : List Char :=
  ls.filterMap signOf?

theorem signs_cons (l : Lexeme) (ls : List Lexeme) : signs (l :: ls) = (signOf? l).toList ++ signs ls := by
  cases l <;> rfl

@[simp] theorem signs_append (ls ms : List Lexeme) : signs (ls ++ ms) = signs ls ++ signs ms :=
  List.filterMap_append

theorem reach_of_depthAfter {ls : List Lexeme} {depth depth' : Nat}
    (h : depthAfter depth (signs ls) = some depth') (rest : List Lexeme) :
    reach depth (ls ++ rest) = ls.length + reach depth' rest := by
  induction ls generalizing depth with
  | nil =>
      obtain rfl := Option.some.inj h
      simp
  | cons l ls ih =>
      have hstep : ∀ {behind}, reach depth (l :: (ls ++ rest)) = reach behind (ls ++ rest) + 1 →
          depthAfter behind (signs ls) = some depth' →
          reach depth (l :: ls ++ rest) = (l :: ls).length + reach depth' rest := by
        intro behind hreach hbehind
        rw [List.cons_append, hreach, ih hbehind, List.length_cons]
        omega
      cases l with
      | opening => exact hstep rfl h
      | closing =>
          cases depth with
          | zero => cases h
          | succ depth => exact hstep rfl h
      | binder | point | name | tag => exact hstep rfl h

theorem closes_of_nested {ls : List Lexeme} (h : Nested (signs ls)) : Closes ls :=
  fun depth rest => reach_of_depthAfter (h.depthAfter depth) rest

/-! ### Lexemes -/

/-- The lexemes of a text with blocks.  `P` holds of every reference that is the mark of a block, and the lexemes
of what is in it. -/
inductive Grouped (P : List Char → List Lexeme → Prop) : List Lexeme → Prop where
  | nil : Grouped P []
  | plain {ls : List Lexeme} (l : Lexeme) (hl : ∀ label, l ≠ .tag label) (h : Grouped P ls) : Grouped P (l :: ls)
  | group {ls : List Lexeme} (label : List Char) (inner : List Lexeme) (hP : P label inner)
      (hcloses : Closes inner) (hinner : Grouped P inner) (h : Grouped P ls) :
      Grouped P (.opening :: .tag (String.ofList ('_' :: label)) :: (inner ++ .closing :: ls))

theorem firstLexeme?_eq_none_congr {c : Char} (hc : c ≠ markOpen) {cs : List Char}
    (h : firstLexeme? (c :: cs) = none) (ds : List Char) : firstLexeme? (c :: ds) = none := by
  rw [firstLexeme?, if_neg hc] at h ⊢
  grind

theorem isWordChar_of_mem_take_zero (cs : List Char) : ∀ d ∈ cs.take 0, isWordChar d = true := by
  simp

theorem Sealed.exists_tokensFrom {cs : List Char} (h : Sealed cs) {owed position : Nat} {tokens : List Token}
    {rest : List Char} (howed : ∀ d ∈ (unifyFrom 0 cs).take owed, isWordChar d = true)
    (htokens : tokensFrom owed position (unifyFrom 0 cs ++ ')' :: rest) = .ok tokens) (position' : Nat) :
    ∃ tokens', tokensFrom owed position' (unifyFrom 0 cs) = .ok tokens' := by
  induction h generalizing owed position tokens position' with
  | nil => cases owed <;> exact ⟨[], rfl⟩
  | @plain cs c hc _ ih =>
      have hunified := (isUnified_unified hc.1).1
      rw [unifyFrom_cons hc.1] at howed htokens ⊢
      generalize (if isBinder c then 'λ' else c) = d at hunified howed htokens ⊢
      cases owed with
      | succ owed =>
          rw [List.take_succ_cons] at howed
          exact ih (List.forall_mem_cons.mp howed).2 htokens _
      | zero =>
          rw [List.cons_append, tokensFrom] at htokens
          rw [tokensFrom]
          cases hfirst : firstLexeme? (d :: unifyFrom 0 cs) with
          | some found =>
              obtain ⟨l, width⟩ := found
              rw [(firstLexeme?_append_closing hfirst rest).1] at htokens
              obtain ⟨more, hmore, -⟩ := exists_of_map_ok htokens
              have hword : ∀ e ∈ (unifyFrom 0 cs).take (width - 1), isWordChar e = true := by
                rcases firstLexeme?_eq_some hunified hfirst with ⟨-, rfl⟩ | ⟨-, -, rfl⟩
                · exact isWordChar_of_mem_take_zero _
                · rw [Nat.add_sub_cancel, ← List.prefix_iff_eq_take.mp (List.takeWhile_prefix _)]
                  exact fun e he => List.mem_takeWhile_imp he
              obtain ⟨tokens', htokens'⟩ := ih hword hmore (position' + 1)
              exact ⟨⟨l, position'⟩ :: tokens', by simp only [htokens', Except.map]⟩
          | none =>
              rw [firstLexeme?_eq_none_congr hunified hfirst] at htokens
              dsimp only at htokens ⊢
              split at htokens
              · next hblank =>
                rw [if_pos hblank]
                exact ih (isWordChar_of_mem_take_zero _) htokens _
              · cases htokens
  | opening label hclose _ _ ih =>
      rw [unifyFrom_opening hclose] at howed htokens ⊢
      cases owed with
      | succ owed => cases howed '(' List.mem_cons_self
      | zero =>
          rw [List.append_assoc, tokensFrom_opening hclose] at htokens
          obtain ⟨more, hmore, -⟩ := exists_of_map_ok htokens
          obtain ⟨tokens', htokens'⟩ := ih (isWordChar_of_mem_take_zero _) hmore (position' + _ + 3)
          rw [tokensFrom_opening hclose, htokens']
          exact ⟨_, rfl⟩

/-- The tokens of a text in parentheses with an origin mark are those of the text by itself, between others. -/
theorem Sealed.exists_tokenize {label content : List Char} (h : Sealed content)
    (hclose : markClose ∉ '_' :: label) {cs : List Char} {position : Nat} {tokens : List Token}
    (htokens : tokensFrom 0 position (unifyFrom 0 (wrap true ('_' :: label) content ++ cs)) = .ok tokens) :
    ∃ inner rest q, tokenize content = .ok inner ∧ tokensFrom 0 q (unifyFrom 0 cs) = .ok rest ∧
      tokens.map Token.lexeme = .opening :: .tag (String.ofList ('_' :: label)) ::
        (inner.map Token.lexeme ++ .closing :: rest.map Token.lexeme) := by
  have hshape : wrap true ('_' :: label) content ++ cs
      = '(' :: writeMark ('_' :: label) ++ (content ++ ')' :: cs) := by
    simp [wrap]
  have hunify : unifyFrom 0 (wrap true ('_' :: label) content ++ cs)
      = '(' :: writeMark ('_' :: label) ++ (unifyFrom 0 content ++ ')' :: unifyFrom 0 cs) := by
    rw [hshape, unifyFrom_opening hclose, h.unifyFrom_append]
    rfl
  have hinside := htokens
  rw [hunify, tokensFrom_opening hclose] at hinside
  obtain ⟨more, hmore, -⟩ := exists_of_map_ok hinside
  obtain ⟨inner, hinner⟩ := h.exists_tokensFrom (isWordChar_of_mem_take_zero _) hmore 0
  have htokenize := tokenize_eq_ok_iff.mpr hinner
  obtain ⟨inner', q, q', hlexemes, heq⟩ := tokensFrom_wrap hclose h htokenize position cs
  rw [heq] at htokens
  obtain ⟨rest, hrest, rfl⟩ := exists_of_map_ok htokens
  exact ⟨inner, rest, q, htokenize, hrest, by simp [hlexemes]⟩

/-- Whether lexemes are those of what may be in a block with the given mark. -/
def Lexed (r : Registry) (P : List Char → List Char → Prop) (label : List Char) (inner : List Lexeme) : Prop :=
  r.IsLabel label ∧ ∃ content tokens, P label content ∧ tokenize content = .ok tokens ∧
    tokens.map Token.lexeme = inner

theorem grouped_of_tokensFrom {r : Registry} {P : List Char → List Char → Prop} {cs : List Char}
    (h : Blocks r P cs)
    (hP : ∀ {label content}, r.IsLabel label → P label content → Sealed content ∧ Nested content)
    {owed position : Nat} {tokens : List Token} (howed : ∀ d ∈ (unifyFrom 0 cs).take owed, isWordChar d = true)
    (htokens : tokensFrom owed position (unifyFrom 0 cs) = .ok tokens) :
    Grouped (Lexed r P) (tokens.map Token.lexeme) ∧
      ∀ depth, depthAfter depth (signs (tokens.map Token.lexeme)) = depthAfter depth cs := by
  induction h generalizing owed position tokens with
  | nil =>
      cases owed <;> obtain rfl : [] = tokens := Except.ok.inj htokens
      all_goals exact ⟨.nil, fun _ => rfl⟩
  | @plain cs c hc _ ih =>
      have hparens : ∀ depth, depthBehind depth (if isBinder c then 'λ' else c) = depthBehind depth c := by
        intro depth
        split
        · next hbinder =>
          have hne (d : Char) (hd : isBinder d = false) : c ≠ d := ne_of_class hbinder hd
          simp [depthBehind, hne '(' (by decide), hne ')' (by decide)]
        · rfl
      have hunified := (isUnified_unified hc.1).1
      rw [unifyFrom_cons hc.1] at howed htokens
      generalize (if isBinder c then 'λ' else c) = d at hparens hunified howed htokens
      obtain ⟨owed', howed', ⟨hrest, hplain⟩ | ⟨l, rest, rfl, hrest, hl⟩⟩ :=
        tokensFrom_cons_cases hunified howed htokens
      · obtain ⟨hgrouped, hdepth⟩ := ih howed' hrest
        refine ⟨hgrouped, fun depth => ?_⟩
        rw [hdepth, depthAfter_cons, ← hparens, depthBehind_of_notMem hplain, Option.bind_some]
      · obtain ⟨hgrouped, hdepth⟩ := ih howed' hrest
        have hl' : ∀ label, l ≠ .tag label := by
          rintro label rfl
          rcases hl with hsign | ⟨-, hname⟩
          · cases hsign
          · cases hname
        refine ⟨.plain l hl' hgrouped, fun depth => ?_⟩
        rw [depthAfter_cons, ← hparens]
        rcases hl with hsign | ⟨hstart, rfl⟩
        · rw [List.map_cons, signs, List.filterMap_cons_some hsign, depthAfter_cons]
          exact Option.bind_congr fun behind _ => hdepth behind
        · have hnames : ∀ e ∈ ['(', ')'], startsName e = false := by decide
          have hplain : d ∉ ['(', ')'] := fun hmem => ne_of_class hstart (hnames d hmem) rfl
          rw [depthBehind_of_notMem hplain, Option.bind_some]
          exact hdepth depth
  | @block cs label content hlabel hPcontent _ _ ihcontent ih =>
      obtain ⟨hsealed, hnested⟩ := hP hlabel hPcontent
      have hclose := hlabel.markClose_notMem
      cases owed with
      | succ owed =>
          have hshape : wrap true ('_' :: label) content ++ cs
              = '(' :: writeMark ('_' :: label) ++ (content ++ ')' :: cs) := by
            simp [wrap]
          rw [hshape, unifyFrom_opening hclose] at howed
          cases howed '(' List.mem_cons_self
      | zero =>
          obtain ⟨inner, rest, q, hinner, hrest, heq⟩ := hsealed.exists_tokenize hclose htokens
          obtain ⟨hinside, hdepth⟩ := ihcontent (isWordChar_of_mem_take_zero _) (tokenize_eq_ok_iff.mp hinner)
          obtain ⟨hbehind, hdepth'⟩ := ih (isWordChar_of_mem_take_zero _) hrest
          have hsigns : Nested (signs (inner.map Token.lexeme)) := (hdepth 0).trans hnested
          rw [heq]
          refine ⟨.group label _ ⟨hlabel, content, inner, hPcontent, hinner, rfl⟩ (closes_of_nested hsigns)
            hinside hbehind, fun depth => ?_⟩
          have hgroup : signs (.opening :: .tag (String.ofList ('_' :: label)) ::
                (inner.map Token.lexeme ++ .closing :: rest.map Token.lexeme))
              = '(' :: (signs (inner.map Token.lexeme) ++ ')' :: signs (rest.map Token.lexeme)) := by
            simp [signs_cons, signOf?]
          rw [hgroup, hsigns.depthAfter_parens, hdepth', depthAfter_append, (hnested.wrap hlabel.tag).depthAfter]
          rfl

/-- The lexemes of a text with blocks. -/
theorem grouped_of_tokenize {r : Registry} {P : List Char → List Char → Prop} {cs : List Char}
    (h : Blocks r P cs)
    (hP : ∀ {label content}, r.IsLabel label → P label content → Sealed content ∧ Nested content)
    {tokens : List Token} (htokens : tokenize cs = .ok tokens) :
    Grouped (Lexed r P) (tokens.map Token.lexeme) :=
  (grouped_of_tokensFrom h hP (isWordChar_of_mem_take_zero _) (tokenize_eq_ok_iff.mp htokens)).1

/-! ### What is read -/

namespace Grouped

variable {P : List Char → List Lexeme → Prop} {ls : List Lexeme}

theorem tail {l : Lexeme} (h : Grouped P (l :: ls)) (hl : l ≠ .opening) : Grouped P ls := by
  generalize heq : l :: ls = ms at h
  cases h with
  | nil => cases heq
  | plain _ _ h => rwa [(List.cons.inj heq).2]
  | group => exact absurd (List.cons.inj heq).1 hl

theorem not_tag {label : String} : ¬Grouped P (.tag label :: ls) := by
  intro h
  generalize heq : Lexeme.tag label :: ls = ms at h
  cases h with
  | nil => cases heq
  | plain _ hl _ => exact hl label (List.cons.inj heq).1.symm
  | group => cases (List.cons.inj heq).1

theorem opening (h : Grouped P (.opening :: ls)) :
    Grouped P ls ∨ ∃ label inner ms, ls = .tag (String.ofList ('_' :: label)) :: (inner ++ .closing :: ms) ∧
      P label inner ∧ Closes inner ∧ Grouped P inner ∧ Grouped P ms := by
  generalize heq : Lexeme.opening :: ls = ms at h
  cases h with
  | nil => cases heq
  | plain _ _ h => exact .inl (by rwa [(List.cons.inj heq).2])
  | group label inner hP hcloses hinner h =>
      exact .inr ⟨label, inner, _, (List.cons.inj heq).2, hP, hcloses, hinner, h⟩

/-- What tags state holds of what is read, if it holds of what is read from each block by itself. -/
theorem tagsHold {Q : Option String → Term → Prop} (huntagged : ∀ t, Q none t)
    (hblock : ∀ {label inner t}, P label inner → ReadsMarked .sequence inner t →
      Q (some (String.ofList ('_' :: label))) t.bare)
    {part : Part} {rest : List Lexeme} {t : Term} (h : ReadsMarked part ls t) (hl : Grouped P (ls ++ rest)) :
    t.TagsHold Q ∧ Grouped P rest := by
  induction h generalizing rest with
  | name x => exact ⟨Term.tagsHold_var.mpr (huntagged _), hl.tail (by simp)⟩
  | @group mark ls t h ih =>
      simp only [List.cons_append, List.append_assoc, List.nil_append] at hl
      rcases hl.opening with hplain | ⟨label, inner, ms, heq, hP, hcloses, hinner, hms⟩
      · -- parentheses of the text: a mark would have its own opening
        cases mark with
        | some label => exact absurd hplain not_tag
        | none =>
            obtain ⟨ht, hrest⟩ := ih hplain
            exact ⟨ht, hrest.tail (by simp)⟩
      · -- a block, which ends at the parenthesis that belongs to its opening
        obtain ⟨rfl, hrest⟩ := eq_of_mark_append h heq
        obtain ⟨rfl, rfl⟩ := hcloses.eq_of_append_closing (closes_of_readsMarked h) hrest
        rw [← List.append_nil inner] at hinner
        obtain ⟨ht, -⟩ := ih hinner
        rw [Term.tagged_reference]
        exact ⟨ht.setMark (hblock hP h), hms⟩
  | single _ ih => exact ih hl
  | apply _ _ ih ih' =>
      rw [List.append_assoc] at hl
      obtain ⟨hfunc, hl⟩ := ih hl
      obtain ⟨harg, hl⟩ := ih' hl
      exact ⟨Term.tagsHold_app.mpr ⟨huntagged _, hfunc, harg⟩, hl⟩
  | atoms _ ih => exact ih hl
  | abstraction x _ ih =>
      obtain ⟨hbody, hl⟩ := ih (((hl.tail (by simp)).tail (by simp)).tail (by simp))
      exact ⟨Term.tagsHold_lam.mpr ⟨huntagged _, hbody⟩, hl⟩
  | applyLast x _ _ ih ih' =>
      rw [List.append_assoc] at hl
      obtain ⟨hfunc, hl⟩ := ih hl
      obtain ⟨hbody, hl⟩ := ih' (((hl.tail (by simp)).tail (by simp)).tail (by simp))
      exact ⟨Term.tagsHold_app.mpr ⟨huntagged _, hfunc, Term.tagsHold_lam.mpr ⟨huntagged _, hbody⟩⟩, hl⟩

end Grouped

end Syntax
end LambdaStepper
