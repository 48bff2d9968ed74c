import LambdaStepper.Proofs.Identity.Renewal
import LambdaStepper.Proofs.Syntax.Reading

/-! # Parsing with new identities

The parser reads what the parser of terms reads, and gives every node of its result another one of the
identities that it takes.  The invariant of its run is that no identity is twice among those of the stack, of
the sequence so far and of what is given out from then on (`ReadsAs`). -/

namespace LambdaStepper

namespace Node

open Issuing
open Syntax (Token ParseFault)

/-! ### Unfinished terms -/

/-- The identities in the sequence so far. -/
def leftIds (left : Option Node) : List Int :=
  left.elim [] ids

/-- The identities in a construct that is not finished. -/
def Frame.ids : Frame → List Int
  | .group _ left => leftIds left
  | .body _ left => leftIds left

/-- The identities in the constructs that are not finished. -/
def openIds (stack : List Frame) : List Int :=
  stack.flatMap Frame.ids

theorem exists_spec_applyTo (left : Option Term) :
    ∃ count, ∀ left' n, left'.map term = left →
      (applyTo left' n).Spec count fun issued n' =>
        n'.NewIn (leftIds left' ++ (n.ids ++ issued)) ∧ n'.term = Syntax.applyTo left n.term := by
  cases left with
  | none =>
    refine ⟨0, fun left' n hleft => ?_⟩
    obtain rfl := Option.map_eq_none_iff.mp hleft
    exact .pure ⟨by simp [NewIn, leftIds, List.Subperm.refl], rfl⟩
  | some left =>
    refine ⟨1, fun left' n hleft => ?_⟩
    obtain ⟨left', rfl, rfl⟩ := Option.map_eq_some_iff.mp hleft
    exact .root fun i => ⟨NewIn.app (.refl left'.ids) (.refl n.ids) i {}, rfl⟩

theorem exists_spec_tagged (tag : Option String) :
    ∃ count, ∀ n, (tagged tag n).Spec count fun issued n' =>
      n'.NewIn (n.ids ++ issued) ∧ n'.term = Syntax.tagged tag n.term := by
  have hcopied : ∀ (i j : Int) (below : List Int), (j :: below).Subperm ((i :: below) ++ [j]) :=
    fun i j below => (List.perm_append_singleton j below).symm.subperm.cons_right i
  have hterm := term_tagged tag
  cases tag with
  | none => exact ⟨0, fun n => .pure ⟨by simp [NewIn, List.Subperm.refl], rfl⟩⟩
  | some tag =>
    simp only [tagged] at hterm ⊢
    by_cases hempty : tag.isEmpty
    · simp only [if_pos hempty] at hterm ⊢
      exact ⟨0, fun n => .pure ⟨by simp [NewIn, List.Subperm.refl], hterm n {}⟩⟩
    · simp only [if_neg hempty] at hterm ⊢
      refine ⟨1, fun n => Spec.and_of_forall ?_ (hterm n)⟩
      cases n with
      | var i m x => exact .root fun j => hcopied i j []
      | lam i m x body => exact .root fun j => hcopied i j body.ids
      | app i m func arg => exact .root fun j => hcopied i j (func.ids ++ arg.ids)

theorem exists_spec_finishBodies (stack : List Syntax.Frame) :
    ∃ count, ∀ stack' n, stack'.map Frame.term = stack →
      (finishBodies stack' n).Spec count fun issued r =>
        (openIds r.1 ++ r.2.ids).Subperm (openIds stack' ++ (n.ids ++ issued)) := by
  have hdone : ∀ (stack : List Frame) (n : Node),
      (openIds stack ++ n.ids).Subperm (openIds stack ++ (n.ids ++ [])) :=
    fun stack n => by rw [List.append_nil]
  induction stack with
  | nil =>
    refine ⟨0, fun stack' n hstack => ?_⟩
    obtain rfl := List.map_eq_nil_iff.mp hstack
    exact .pure (hdone [] n)
  | cons frame stack ih =>
    cases frame with
    | group tag left =>
      refine ⟨0, fun stack' n hstack => ?_⟩
      obtain ⟨⟨tag', left'⟩ | ⟨x, left'⟩, stack', rfl, hframe, -⟩ := List.map_eq_cons_iff.mp hstack
      · exact .pure (hdone (.group tag' left' :: stack') n)
      · cases hframe
    | body x left =>
      obtain ⟨counta, happ⟩ := exists_spec_applyTo left
      obtain ⟨count, ih⟩ := ih
      refine ⟨1 + (counta + count), fun stack' n hstack => ?_⟩
      obtain ⟨⟨tag', left'⟩ | ⟨x, left'⟩, stack', rfl, hframe, hrest⟩ := List.map_eq_cons_iff.mp hstack
      · cases hframe
      · cases hframe
        refine spec_new.bind fun issued i hi => (happ left' (.lam i {} x n) rfl).bind fun issued' n' hn' => ?_
        refine (ih stack' n' hrest).imp fun issued'' r hr => ?_
        have hleft := hn'.1
        subst hi
        rw [NewIn, List.subperm_iff_count] at hleft
        rw [List.subperm_iff_count] at hr ⊢
        intro j
        have h₁ := hleft j
        have h₂ := hr j
        simp only [ids, openIds, List.flatMap_cons, Frame.ids, List.count_append, List.count_cons,
          List.count_nil] at h₁ h₂ ⊢
        omega

/-! ### The parser -/

theorem spec_error {ε : Type} (fault : ε) (new : List Int → Node → Prop) :
    (pure (.error fault) : Issuing (Except ε Node)).Spec 0 fun issued r =>
      r.map term = .error fault ∧ ∀ n, r = .ok n → new issued n := by
  refine .pure ⟨rfl, ?_⟩
  intro n hn
  cases hn

/-- Whatever the identities in a stack and a sequence, a computation gives the same result, up to identities,
and takes the same number of them; the nodes of its result have different ones of those it takes and of those
in the stack and the sequence. -/
def ReadsAs (stack : List Syntax.Frame) (left : Option Term) (result : Except ParseFault Term)
    (c : List Frame → Option Node → Issuing (Except ParseFault Node)) : Prop :=
  ∃ count, ∀ stack' left', stack'.map Frame.term = stack → left'.map term = left →
    (c stack' left').Spec count fun issued r =>
      r.map term = result ∧ ∀ n, r = .ok n → n.NewIn (openIds stack' ++ (leftIds left' ++ issued))

section ReadsAs

variable {stack : List Syntax.Frame} {left : Option Term} {t : Term} {result : Except ParseFault Term}
  {c : List Frame → Option Node → Issuing (Except ParseFault Node)}

theorem ReadsAs.error {fault : ParseFault}
    (hc : ∀ stack' left', left'.map term = left → c stack' left' = pure (.error fault)) :
    ReadsAs stack left (.error fault) c := by
  refine ⟨0, fun stack' left' _ hleft => ?_⟩
  rw [hc stack' left' hleft]
  exact spec_error fault _

theorem enter_eq_ok {limits : Limits} {frame : Frame} {stack stack₁ : List Frame}
    (h : enter limits frame stack = .ok stack₁) : stack₁ = frame :: stack := by
  unfold enter at h
  split at h <;> cases h
  rfl

/-- Where a construct is entered, its frame takes over the sequence so far. -/
theorem ReadsAs.entered {limits : Limits} {inner : Syntax.Frame} {stack₁ : List Syntax.Frame}
    {c₁ : List Frame → Option Node → Issuing (Except ParseFault Node)}
    (henter : Syntax.enter limits inner stack = .ok stack₁) (h : ReadsAs stack₁ none result c₁)
    (frame : Option Node → Frame)
    (hframe : ∀ left', left'.map term = left → (frame left').term = inner ∧ (frame left').ids = leftIds left')
    (hc : ∀ stack' left', c stack' left' = match enter limits (frame left') stack' with
      | .ok stack => c₁ stack none
      | .error fault => return .error fault) :
    ReadsAs stack left result c := by
  obtain ⟨count, h⟩ := h
  refine ⟨count, fun stack' left' hstack hleft => ?_⟩
  obtain ⟨hterm, hids⟩ := hframe left' hleft
  have hentered := term_enter limits (frame left') stack'
  rw [hterm, hstack, henter] at hentered
  rw [hc]
  cases hnode : enter limits (frame left') stack' with
  | error fault =>
    rw [hnode] at hentered
    cases hentered
  | ok stack'₁ =>
    rw [hnode] at hentered
    refine (h stack'₁ none (Except.ok.inj hentered) rfl).imp fun issued r hr => ⟨hr.1, fun n hn => ?_⟩
    have hnew := hr.2 n hn
    rw [enter_eq_ok hnode, openIds, List.flatMap_cons, hids] at hnew
    refine hnew.trans ?_
    rw [List.subperm_iff_count]
    intro i
    simp only [openIds, leftIds, Option.elim_none, List.count_append, List.count_nil]
    omega

theorem ReadsAs.not_entered {limits : Limits} {inner : Syntax.Frame} {fault : ParseFault}
    (henter : Syntax.enter limits inner stack = .error fault) (frame : Option Node → Frame)
    (hframe : ∀ left', left'.map term = left → (frame left').term = inner)
    (hc : ∀ stack' left', enter limits (frame left') stack' = .error fault →
      c stack' left' = pure (.error fault)) :
    ReadsAs stack left (.error fault) c := by
  refine ⟨0, fun stack' left' hstack hleft => ?_⟩
  have hentered := term_enter limits (frame left') stack'
  rw [hframe left' hleft, hstack, henter] at hentered
  cases hnode : enter limits (frame left') stack' with
  | ok stack'₁ =>
    rw [hnode] at hentered
    cases hentered
  | error fault' =>
    rw [hnode] at hentered
    cases hentered
    rw [hc stack' left' hnode]
    exact spec_error fault _

/-- Where the bodies end, what follows depends on the frame below them. -/
theorem ReadsAs.finished {next : List Frame × Node → Issuing (Except ParseFault Node)} (count : Nat)
    (hc : ∀ stack' n, c stack' (some n) = finishBodies stack' n >>= next)
    (h : ∀ r, (r.1.map Frame.term, r.2.term) = Syntax.finishBodies stack t → (next r).Spec count fun issued r' =>
      r'.map term = result ∧ ∀ n, r' = .ok n → n.NewIn (openIds r.1 ++ (r.2.ids ++ issued))) :
    ReadsAs stack (some t) result c := by
  obtain ⟨countf, hfinish⟩ := exists_spec_finishBodies stack
  refine ⟨countf + count, fun stack' left' hstack hleft => ?_⟩
  obtain ⟨n, rfl, rfl⟩ := Option.map_eq_some_iff.mp hleft
  subst hstack
  have hfinished : (finishBodies stack' n).Spec countf fun issued r =>
      (openIds r.1 ++ r.2.ids).Subperm (openIds stack' ++ (n.ids ++ issued)) ∧
        (r.1.map Frame.term, r.2.term) = Syntax.finishBodies (stack'.map Frame.term) n.term :=
    (hfinish stack' n rfl).and_of_forall (term_finishBodies stack' n)
  rw [hc]
  refine hfinished.bind fun issued r hr => (h r hr.2).imp fun issued' r' hr' => ⟨hr'.1, fun n' hn' => ?_⟩
  have hnew := hr'.2 n' hn'
  rw [← List.append_assoc] at hnew
  refine hnew.trans ((hr.1.append (.refl issued')).trans ?_)
  rw [List.append_assoc, List.append_assoc]
  exact .refl _

theorem ReadsAs.finished_error {next : List Frame × Node → Issuing (Except ParseFault Node)}
    {fault : ParseFault} (hc : ∀ stack' n, c stack' (some n) = finishBodies stack' n >>= next)
    (h : ∀ r, (r.1.map Frame.term, r.2.term) = Syntax.finishBodies stack t → next r = pure (.error fault)) :
    ReadsAs stack (some t) (.error fault) c := by
  refine .finished 0 hc fun r hr => ?_
  rw [h r hr]
  exact spec_error fault _

/-- A node that is finished becomes the right end of the sequence. -/
theorem ReadsAs.applied (h : ReadsAs stack (some (Syntax.applyTo left t)) result c) :
    ∃ count, ∀ stack' left' n, stack'.map Frame.term = stack → left'.map term = left → n.term = t →
      (applyTo left' n >>= fun n' => c stack' (some n')).Spec count fun issued r =>
        r.map term = result ∧
          ∀ n', r = .ok n' → n'.NewIn (openIds stack' ++ (leftIds left' ++ (n.ids ++ issued))) := by
  obtain ⟨counta, happ⟩ := exists_spec_applyTo left
  obtain ⟨count, h⟩ := h
  refine ⟨counta + count, fun stack' left' n hstack hleft hn => ?_⟩
  subst hn
  refine (happ left' n hleft).bind fun issued n' hn' => ?_
  refine (h stack' (some n') hstack (congrArg some hn'.2)).imp fun issued' r hr => ⟨hr.1, fun n'' hn'' => ?_⟩
  have hnew := hr.2 n'' hn''
  refine hnew.trans ((List.subperm_append_left _).mpr ?_)
  have hjoined := hn'.1.append (.refl issued')
  simpa only [leftIds, Option.elim_some, List.append_assoc] using hjoined

end ReadsAs

theorem parseFrom_opening {token : Token} (hx : token.lexeme = .opening) {rest : List Token}
    (hrest : ∀ tag p ts, rest ≠ ⟨.tag tag, p⟩ :: ts) (limits : Limits) (stack : List Frame)
    (left : Option Node) :
    parseFrom limits stack left (token :: rest) = match enter limits (.group none left) stack with
      | .ok stack => parseFrom limits stack none rest
      | .error fault => return .error fault := by
  obtain ⟨_, p⟩ := token
  cases hx
  rcases rest with - | ⟨⟨lexeme, q⟩, rest⟩
  · exact parseFrom.eq_def ..
  · cases lexeme with
    | tag tag => exact absurd rfl (hrest tag q rest)
    | binder | opening | closing | point | name => exact parseFrom.eq_def ..

theorem parseFrom_closing {token : Token} (hx : token.lexeme = .closing) (limits : Limits) (stack : List Frame)
    (n : Node) (rest : List Token) :
    parseFrom limits stack (some n) (token :: rest) = (do
      match ← finishBodies stack n with
      | (.group tag left :: stack, n) =>
        let inner ← tagged tag n
        parseFrom limits stack (some (← applyTo left inner)) rest
      | _ => return .error (.unexpected token .ending)) := by
  obtain ⟨_, p⟩ := token
  cases hx
  exact parseFrom.eq_def ..

theorem parseFrom_point {token : Token} (hx : token.lexeme = .point) (limits : Limits) (stack : List Frame)
    (n : Node) (rest : List Token) :
    parseFrom limits stack (some n) (token :: rest) = (do
      match ← finishBodies stack n with
      | ([], _) => return .error (.unexpected token .ending)
      | _ => return .error (.unexpected token (.token ")"))) := by
  obtain ⟨_, p⟩ := token
  cases hx
  exact parseFrom.eq_def ..

theorem readsAs_parseFrom (limits : Limits) (stack : List Syntax.Frame) (left : Option Term)
    (tokens : List Token) :
    ReadsAs stack left (Syntax.parseFrom limits stack left tokens)
      fun stack left => parseFrom limits stack left tokens := by
  fun_induction Syntax.parseFrom limits stack left tokens with
  | case1 stack =>
    refine .error fun stack' left' hleft => ?_
    obtain rfl := Option.map_eq_none_iff.mp hleft
    rfl
  | case2 stack t t' hfinish =>
    refine .finished 0 (fun stack' n => rfl) fun r hr => ?_
    obtain ⟨stack', n⟩ := r
    rw [hfinish, Prod.mk.injEq] at hr
    obtain ⟨hstack, rfl⟩ := hr
    obtain rfl := List.map_eq_nil_iff.mp hstack
    exact .pure ⟨rfl, fun n' hn => by cases hn; simp [NewIn, openIds, List.Subperm.refl]⟩
  | case3 stack t hfinish =>
    refine .finished_error (fun stack' n => rfl) fun r hr => ?_
    obtain ⟨_ | ⟨frame, stack'⟩, n⟩ := r
    · exact (hfinish _ hr.symm).elim
    · rfl
  | case4 stack left token rest x hx ih =>
    obtain ⟨count, ih⟩ := ih.applied
    refine ⟨1 + count, fun stack' left' hstack hleft => ?_⟩
    beta_reduce
    rw [parseFrom.eq_def]
    simp only [hx]
    refine spec_new.bind fun issued i hi => ?_
    subst hi
    exact ih stack' left' (.var i {} x) hstack hleft rfl
  | case5 stack left token hx =>
    refine .error fun _ _ _ => ?_
    unfold parseFrom
    simp only [hx]
  | case6 stack left token hx x p q rest stack' henter ih =>
    refine .entered henter ih (.body x) ?_ fun stack' left' => ?_
    · rintro left' rfl
      exact ⟨rfl, rfl⟩
    · obtain ⟨_, o⟩ := token
      cases hx
      exact parseFrom.eq_def ..
  | case7 stack left token hx x p q rest fault henter =>
    refine .not_entered henter (.body x) ?_ fun stack' left' hnode => ?_
    · rintro left' rfl
      rfl
    · unfold parseFrom
      simp only [hx, hnode]
  | case8 stack left token hx x p other tail hother =>
    refine .error fun _ _ _ => ?_
    unfold parseFrom
    simp only [hx]
  | case9 stack left token hx x p =>
    refine .error fun _ _ _ => ?_
    unfold parseFrom
    simp only [hx]
  | case10 stack left token hx found tail h₁ h₂ h₃ =>
    refine .error fun _ _ _ => ?_
    unfold parseFrom
    simp only [hx]
  | case11 stack left token hx tag p rest stack' henter ih =>
    refine .entered henter ih (.group (some tag)) ?_ fun stack' left' => ?_
    · rintro left' rfl
      exact ⟨rfl, rfl⟩
    · obtain ⟨_, o⟩ := token
      cases hx
      exact parseFrom.eq_def ..
  | case12 stack left token hx tag p rest fault henter =>
    refine .not_entered henter (.group (some tag)) ?_ fun stack' left' hnode => ?_
    · rintro left' rfl
      rfl
    · unfold parseFrom
      simp only [hx, hnode]
  | case13 stack left token hx rest hrest stack' henter ih =>
    refine .entered henter ih (.group none) ?_ fun stack' left' => parseFrom_opening hx hrest limits stack' left'
    rintro left' rfl
    exact ⟨rfl, rfl⟩
  | case14 stack left token hx rest hrest fault henter =>
    refine .not_entered henter (.group none) ?_ fun stack' left' hnode => ?_
    · rintro left' rfl
      rfl
    · unfold parseFrom
      simp only [hx, hnode]
  | case15 stack token rest hx =>
    refine .error fun stack' left' hleft => ?_
    obtain rfl := Option.map_eq_none_iff.mp hleft
    unfold parseFrom
    simp only [hx]
  | case16 stack token rest hx t tag left stack₁ t' hfinish ih =>
    obtain ⟨countt, htagged⟩ := exists_spec_tagged tag
    obtain ⟨count, ih⟩ := ih.applied
    refine .finished (countt + count) (fun stack' n => parseFrom_closing hx _ _ _ _) fun r hr => ?_
    obtain ⟨stack', n⟩ := r
    rw [hfinish, Prod.mk.injEq] at hr
    obtain ⟨hstack, rfl⟩ := hr
    obtain ⟨⟨tag', left'⟩ | ⟨x, left'⟩, stack', rfl, hframe, hrest⟩ := List.map_eq_cons_iff.mp hstack
    · cases hframe
      refine (htagged n).bind fun issued inner hinner => ?_
      refine (ih stack' left' inner hrest rfl hinner.2).imp fun issued' r hr => ⟨hr.1, fun n' hn' => ?_⟩
      refine (hr.2 n' hn').trans ?_
      have htag := hinner.1
      rw [NewIn, List.subperm_iff_count] at htag
      rw [List.subperm_iff_count]
      intro i
      have := htag i
      simp only [openIds, List.flatMap_cons, Frame.ids, List.count_append] at this ⊢
      omega
    · cases hframe
  | case17 stack token rest hx t hfinish =>
    refine .finished_error (fun stack' n => parseFrom_closing hx _ _ _ _) fun r hr => ?_
    obtain ⟨_ | ⟨⟨tag, left⟩ | ⟨x, left⟩, stack'⟩, n⟩ := r
    · rfl
    · exact (hfinish _ _ _ _ hr.symm).elim
    · rfl
  | case18 stack token rest hx =>
    refine .error fun stack' left' hleft => ?_
    obtain rfl := Option.map_eq_none_iff.mp hleft
    unfold parseFrom
    simp only [hx]
  | case19 stack token rest hx t t' hfinish =>
    refine .finished_error (fun stack' n => parseFrom_point hx _ _ _ _) fun r hr => ?_
    obtain ⟨_ | ⟨frame, stack'⟩, n⟩ := r
    · rfl
    · cases hr.trans hfinish
  | case20 stack token rest hx t hfinish =>
    refine .finished_error (fun stack' n => parseFrom_point hx _ _ _ _) fun r hr => ?_
    obtain ⟨_ | ⟨frame, stack'⟩, n⟩ := r
    · exact (hfinish _ hr.symm).elim
    · rfl
  | case21 stack left token rest label hx =>
    refine .error fun _ _ _ => ?_
    unfold parseFrom
    simp only [hx]

end Node

/-- Parsing with identities is parsing, and the nodes of what is parsed have different ones of the identities
that are taken. -/
theorem Registry.exists_spec_parseNode (limits : Limits) (r : Registry) (text : String) :
    ∃ count, (r.parseNode limits text).Spec count fun issued result =>
      result.map Node.term = r.parse limits text ∧ ∀ n, result = .ok n → n.NewIn issued := by
  unfold parseNode parse
  by_cases hempty : (Text.trim text.toList).isEmpty
  · simp only [if_pos hempty]
    exact ⟨0, Node.spec_error _ _⟩
  simp only [if_neg hempty]
  cases r.expandWithin limits true text.toList with
  | error fault => exact ⟨0, Node.spec_error _ _⟩
  | ok expanded =>
    dsimp only
    cases Syntax.tokenize expanded with
    | error fault => exact ⟨0, Node.spec_error _ _⟩
    | ok tokens =>
      obtain ⟨count, h⟩ := Node.readsAs_parseFrom limits [] none tokens
      refine ⟨count + 0, (h [] none rfl rfl).bind fun issued result hresult => ?_⟩
      dsimp only
      rw [Syntax.parseTokens, ← hresult.1]
      cases result with
      | error fault => exact Node.spec_error (fault.inText text expanded) _
      | ok n =>
        refine .pure ⟨rfl, fun n' hn' => ?_⟩
        cases hn'
        rw [List.append_nil]
        exact hresult.2 n rfl

theorem Registry.term_parseNode (limits : Limits) (r : Registry) (text : String) (s : IdSupply) :
    (r.parseNode limits text s).1.map Node.term = r.parse limits text := by
  obtain ⟨_, hspec⟩ := r.exists_spec_parseNode limits text
  exact (hspec s).2.1

end LambdaStepper
