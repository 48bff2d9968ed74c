import LambdaStepper.Proofs.Registry.Scan
import LambdaStepper.Proofs.Syntax.Reader

/-! # References that are spelled out

A reference of no entry is no reference, but a name.  Two scans of a text that differ in the entries they know
therefore differ in references that one of them spells out (`spellsOut_segmentsFrom`).

To a reader that makes no difference (`Readable.spelled`, `Readable.of_spelled`), on two conditions.  What is
spelled out must be read as one name, so it may hold no `L`, which is a binder.  And no reference may stand
where a parameter is expected (`bindsReference`), which a name may be and a term in parentheses may not. -/

namespace LambdaStepper.Syntax

/-- Whether segments start with a character of a word. -/
def startsWord : List Segment → Bool
  | .plain c :: _ => isWordChar c
  | _ => false

/-- Whether a segment, if it is a reference, is read as one name. -/
def Segment.isSpellable : Segment → Bool
  | .plain _ => true
  | .reference label => label.all fun c => isWordChar c && c ≠ 'L'

/-- Segments with some references spelled out, behind a word or not. -/
inductive SpellsOut : (inWord : Bool) → List Segment → List Segment → Prop where
  | nil (inWord : Bool) : SpellsOut inWord [] []
  | plain {ss ts : List Segment} (inWord : Bool) (c : Char) (h : SpellsOut (isWordChar c) ss ts) :
      SpellsOut inWord (.plain c :: ss) (.plain c :: ts)
  | reference {ss ts : List Segment} (inWord : Bool) (label : List Char) (h : SpellsOut false ss ts) :
      SpellsOut inWord (.reference label :: ss) (.reference label :: ts)
  | spelled {ss ts : List Segment} (label : List Char) (hlabel : (Segment.reference label).isSpellable = true)
      (hend : startsWord ss = false) (h : SpellsOut false ss ts) :
      SpellsOut false (('_' :: label).map .plain ++ ss) (.reference label :: ts)

/-- Whether a reference stands where a parameter is expected: behind a binder, and blank characters. -/
def bindsReference : (behindBinder : Bool) → List Segment → Bool
  | _, [] => false
  | behindBinder, .plain c :: ss => bindsReference (isBinder c || behindBinder && Text.isBlank c) ss
  | behindBinder, .reference _ :: ss => behindBinder || bindsReference false ss

theorem bindsReference_false {behindBinder : Bool} {ss : List Segment}
    (h : bindsReference behindBinder ss = false) : bindsReference false ss = false := by
  induction ss generalizing behindBinder with
  | nil => rfl
  | cons s ss ih =>
      cases s with
      | plain c =>
          rw [bindsReference] at h ⊢
          cases hc : isBinder c with
          | true => rwa [hc, Bool.true_or] at h
          | false => exact ih h
      | reference label => exact (Bool.or_eq_false_iff.mp h).2

/-! ### Scans -/

theorem startsWord_segmentsFrom {label? : List Char → Option Nat} {cs : List Char}
    (h : continuesWord cs = false) (before : Option Char) :
    startsWord (segmentsFrom label? 0 before cs) = false := by
  cases cs with
  | nil => rfl
  | cons c cs =>
      have hc : c ≠ '_' := by
        rintro rfl
        cases h
      rw [segmentsFrom_plain fun hstart => absurd hstart hc]
      exact h

/-- A scan that finds fewer references spells the others out. -/
theorem spellsOut_segmentsFrom {fewer? label? : List Char → Option Nat}
    (hfewer : ∀ {cs n}, fewer? cs = some n → label? cs = some n) {before : Option Char} {cs : List Char}
    {ts : List Segment} (h : Scan label? before cs ts)
    (hspellable : ∀ {label rest}, .reference label ∈ ts → label? (label ++ rest) = some label.length →
      fewer? (label ++ rest) = none → (Segment.reference label).isSpellable = true) {inWord : Bool}
    (hbefore : mayFollow before = true → inWord = false) :
    SpellsOut inWord (segmentsFrom fewer? 0 before cs) ts := by
  induction h generalizing inWord with
  | nil => exact .nil inWord
  | @plain before c cs ts hc _ ih =>
      have hword : mayFollow (some c) = true → isWordChar c = false := fun hmay => by
        simpa using (Bool.and_eq_true_iff.mp hmay).1
      have hrest := ih (fun hmem => hspellable (List.mem_cons_of_mem _ hmem)) hword
      have hnone : c = '_' → mayFollow before = true → fewer? cs = none := by
        intro hstart hmay
        cases hn : fewer? cs with
        | none => rfl
        | some n =>
            rw [hfewer hn] at hc
            cases hc hstart hmay
      rw [segmentsFrom_plain hnone]
      exact .plain inWord c hrest
  | @reference before label rest ts hmay hlabel hrest _ ih =>
      obtain rfl := hbefore hmay
      have htail : SpellsOut false (segmentsFrom fewer? 0 none rest) ts :=
        ih (fun hmem => hspellable (List.mem_cons_of_mem _ hmem)) fun _ => rfl
      cases hn : fewer? (label ++ rest) with
      | some n =>
          obtain rfl := Option.some.inj ((hfewer hn).symm.trans hlabel)
          rw [segmentsFrom_reference hmay hn hrest]
          exact .reference false label htail
      | none =>
          have hword := hspellable List.mem_cons_self hlabel hn
          have hinert : inert (some '_') label = true := by
            refine inert_of_all_isWordChar (List.all_eq_true.mpr fun c hc => ?_) (by decide)
            exact (Bool.and_eq_true_iff.mp (List.all_eq_true.mp hword c hc)).1
          rw [segmentsFrom_plain fun _ _ => hn, segmentsFrom_append_of_inert hinert,
            segmentsFrom_of_continuesWord_eq_false hrest _ none]
          exact .spelled label hword (startsWord_segmentsFrom hrest none) htail

theorem segments_none (cs : List Char) : segments (fun _ => none) cs = cs.map .plain := by
  have hall : ∀ before, segmentsFrom (fun _ => none) 0 before cs = cs.map .plain := by
    induction cs with
    | nil => exact fun _ => rfl
    | cons c cs ih =>
        intro before
        rw [segmentsFrom, ih, List.map_cons, ite_self]
  exact hall none

/-! ### Readers -/

theorem sign?_eq_none_of_isWordChar {c : Char} (h : isWordChar c = true) (hL : c ≠ 'L') :
    sign? c = none := by
  have hne (d : Char) (hd : isWordChar d = false) : c ≠ d := ne_of_class h hd
  simp [sign?, isBinder, hL, hne 'λ' (by decide), hne '\\' (by decide), hne '(' (by decide),
    hne ')' (by decide), hne '.' (by decide)]

theorem isBinder_of_sign? {c : Char} (h : sign? c = some .binder) : isBinder c = true := by
  unfold sign? at h
  grind

theorem Progress.eq_binder_of_step {p q : Progress} {l : Lexeme} (h : p.step l = some q)
    (hq : q.phase = .binder) : l = .binder := by
  cases l <;> simp only [step] at h <;> grind

namespace Reader

theorem feed_spelled {label : List Char} (hlabel : (Segment.reference label).isSpellable = true)
    {p : Progress} (hp : p.phase.isOpen = true) (ss : List Segment) :
    feed ⟨p, false⟩ (('_' :: label).map .plain ++ ss) = feed ⟨⟨p.depth, .left⟩, true⟩ ss := by
  have hmark := Progress.phase_ne_mark_of_isOpen hp
  have hword : ∀ w, (Segment.reference w).isSpellable = true →
      feed ⟨⟨p.depth, .left⟩, true⟩ (w.map .plain ++ ss) = feed ⟨⟨p.depth, .left⟩, true⟩ ss := by
    intro w hw
    induction w with
    | nil => rfl
    | cons c w ih =>
        rw [Segment.isSpellable, List.all_cons, Bool.and_eq_true, Bool.and_eq_true, decide_eq_true_eq] at hw
        obtain ⟨⟨hc, hL⟩, hw⟩ := hw
        have hleft : Progress.phase ⟨p.depth, .left⟩ ≠ .mark := by simp
        have hstay := feedChar_of_sign?_eq_none (sign?_eq_none_of_isWordChar hc hL)
          (Registry.isPublic_of_isWordChar hc).1 hleft true
        rw [hc, Bool.and_self, if_pos rfl] at hstay
        rw [List.map_cons, List.cons_append, feed_cons, feedSegment_plain, hstay, Option.bind_some, ih hw]
  have hstart : feedChar ⟨p, false⟩ '_' = some ⟨⟨p.depth, .left⟩, true⟩ := by
    rw [feedChar_of_sign?_eq_none (by decide) (by decide) hmark, Bool.false_and,
      if_neg Bool.false_ne_true, if_pos (by decide), Progress.step, if_pos hp]
    rfl
  rw [List.map_cons, List.cons_append, feed_cons, feedSegment_plain, hstart, Option.bind_some,
    hword label hlabel]

theorem progress_of_startsWord_eq_false {ss : List Segment} (h : startsWord ss = false) {p : Progress}
    (hp : p.phase ≠ .mark) :
    (feed ⟨p, true⟩ ss).map progress = (feed ⟨p, false⟩ ss).map progress := by
  cases ss with
  | nil => rfl
  | cons s ss =>
      cases s with
      | plain c =>
          rw [feed_cons, feed_cons, feedSegment_plain, feedSegment_plain,
            feedChar_of_isWordChar_eq_false h hp]
      | reference label => rfl

theorem progress_of_feed {inWord : Bool} {ss ts : List Segment} (h : SpellsOut inWord ss ts) {r q : Reader}
    (hword : r.inWord = true → inWord = true) (hfeed : r.feed ts = some q) :
    (r.feed ss).map progress = some q.progress := by
  induction h generalizing r with
  | nil =>
      obtain rfl := Option.some.inj hfeed
      rfl
  | plain inWord c _ ih =>
      obtain ⟨r', hr, hfeed⟩ := Option.bind_eq_some_iff.mp hfeed
      rw [feed_cons, hr, Option.bind_some, ih (inWord_of_feedChar hr) hfeed]
  | reference inWord label _ ih =>
      obtain ⟨r', hr, hfeed⟩ := Option.bind_eq_some_iff.mp hfeed
      rw [feed_cons, hr, Option.bind_some, ih ?_ hfeed]
      grind [feedSegment]
  | @spelled ss ts label hlabel hend _ ih =>
      obtain ⟨p, inWord⟩ := r
      obtain rfl : inWord = false := Bool.eq_false_iff.mpr fun h => Bool.false_ne_true (hword h)
      obtain ⟨r', hr, hfeed⟩ := Option.bind_eq_some_iff.mp hfeed
      rw [feedSegment] at hr
      split at hr
      · next hopen =>
        obtain rfl := Option.some.inj hr
        have hleft : Phase.left ≠ .mark := by decide
        rw [feed_spelled hlabel hopen, progress_of_startsWord_eq_false hend hleft, ih id hfeed]
      · cases hr

theorem phase_of_feedChar {p : Progress} (hp : p.phase ≠ .mark) {c : Char} (hc : c ≠ markOpen)
    {inWord : Bool} (hword : p.phase = .binder → inWord = false) {r : Reader}
    (h : feedChar ⟨p, inWord⟩ c = some r) :
    r.progress.phase ≠ .mark ∧ (r.progress.phase = .binder →
      r.inWord = false ∧ (isBinder c || p.phase = .binder && Text.isBlank c) = true) := by
  obtain ⟨l, q, hsign, hq, rfl⟩ | ⟨-, rfl, -, rfl⟩ | ⟨-, -, q, hq, rfl⟩ | ⟨-, hblank, rfl⟩ :=
    feedChar_cases hp hc h
  · refine ⟨Progress.phase_ne_mark_of_step hq, fun hbinder => ⟨rfl, ?_⟩⟩
    have hl : l = .binder := Progress.eq_binder_of_step hq hbinder
    rw [hl] at hsign
    rw [isBinder_of_sign? hsign, Bool.true_or]
  · exact ⟨hp, fun hbinder => by cases hword hbinder⟩
  · refine ⟨Progress.phase_ne_mark_of_step hq, fun hbinder => ?_⟩
    cases Progress.eq_binder_of_step hq hbinder
  · refine ⟨hp, fun hbinder => ⟨rfl, ?_⟩⟩
    simp [hblank, show p.phase = .binder from hbinder]

theorem isOpen_of_feed_spelled {p : Progress} (hmark : p.phase ≠ .mark) (hbinder : p.phase ≠ .binder)
    {label : List Char} {ss : List Segment} {q : Reader}
    (h : feed ⟨p, false⟩ (('_' :: label).map .plain ++ ss) = some q) : p.phase.isOpen = true := by
  by_contra hclosed
  have hnone : feedChar ⟨p, false⟩ '_' = none := by
    rw [feedChar_of_sign?_eq_none (by decide) (by decide) hmark, Bool.false_and, if_neg Bool.false_ne_true,
      if_pos (by decide), Progress.step, if_neg hclosed, if_neg hbinder]
    rfl
  rw [List.map_cons, List.cons_append, feed_cons, feedSegment_plain, hnone] at h
  cases h

/-- Where names may stand, references may, unless they stand where a parameter is expected. -/
theorem progress_of_feed_spelled {inWord : Bool} {ss ts : List Segment} (h : SpellsOut inWord ss ts)
    {r q : Reader} (hword : r.inWord = true → inWord = true) (hpublic : ∀ c, .plain c ∈ ts → IsPublic c)
    (hmark : r.progress.phase ≠ .mark) (hbinder : r.progress.phase = .binder → r.inWord = false)
    (hbinds : bindsReference (r.progress.phase = .binder) ts = false) (hfeed : r.feed ss = some q) :
    (r.feed ts).map progress = some q.progress := by
  induction h generalizing r q with
  | nil =>
      obtain rfl := Option.some.inj hfeed
      rfl
  | @plain ss ts inWord c _ ih =>
      obtain ⟨r', hr, hfeed⟩ := Option.bind_eq_some_iff.mp hfeed
      have hc : c ≠ markOpen := (hpublic c List.mem_cons_self).1
      obtain ⟨hmark', hbinder'⟩ := phase_of_feedChar hmark hc hbinder hr
      rw [feed_cons, hr, Option.bind_some]
      refine ih (inWord_of_feedChar hr) (fun d hd => hpublic d (List.mem_cons_of_mem _ hd)) hmark'
        (fun h => (hbinder' h).1) ?_ hfeed
      rw [bindsReference] at hbinds
      by_cases hphase : r'.progress.phase = .binder
      · rw [(hbinder' hphase).2] at hbinds
        rwa [decide_eq_true hphase]
      · rw [decide_eq_false hphase]
        exact bindsReference_false hbinds
  | @reference ss ts inWord label _ ih =>
      obtain ⟨r', hr, hfeed⟩ := Option.bind_eq_some_iff.mp hfeed
      rw [feed_cons, hr, Option.bind_some]
      rw [feedSegment] at hr
      rw [bindsReference, Bool.or_eq_false_iff] at hbinds
      split at hr
      · obtain rfl := Option.some.inj hr
        have hleft : Phase.left ≠ .mark := by decide
        exact ih (r := ⟨⟨r.progress.depth, .left⟩, false⟩) id
          (fun d hd => hpublic d (List.mem_cons_of_mem _ hd)) hleft (fun _ => rfl) hbinds.2 hfeed
      · cases hr
  | @spelled ss ts label hlabel hend _ ih =>
      obtain ⟨p, inWord⟩ := r
      obtain rfl : inWord = false := Bool.eq_false_iff.mpr fun h => Bool.false_ne_true (hword h)
      rw [bindsReference, Bool.or_eq_false_iff, decide_eq_false_iff_not] at hbinds
      have hopen : p.phase.isOpen = true := isOpen_of_feed_spelled hmark hbinds.1 hfeed
      have hleft : Phase.left ≠ .mark := by decide
      rw [feed_spelled hlabel hopen] at hfeed
      have hprogress := progress_of_startsWord_eq_false hend (p := ⟨p.depth, .left⟩) hleft
      rw [hfeed] at hprogress
      obtain ⟨q', hq', heq⟩ := Option.map_eq_some_iff.mp hprogress.symm
      rw [feed_cons, feedSegment, if_pos hopen, Option.bind_some, ← heq]
      exact ih (r := ⟨⟨p.depth, .left⟩, false⟩) id
        (fun d hd => hpublic d (List.mem_cons_of_mem _ hd)) hleft (fun _ => rfl) hbinds.2 hq'

end Reader

variable {ss ts : List Segment}

/-- Names may stand in the place of references. -/
theorem Readable.spelled (h : SpellsOut false ss ts) (ht : Readable ts) : Readable ss := by
  obtain ⟨q, hq, hfinal⟩ := Option.map_eq_some_iff.mp ht
  unfold Readable
  rw [Reader.progress_of_feed h id hq, hfinal]

/-- References may stand in the place of names, unless they stand where a parameter is expected. -/
theorem Readable.of_spelled (h : SpellsOut false ss ts) (hpublic : ∀ c, .plain c ∈ ts → IsPublic c)
    (hbinds : bindsReference false ts = false) (hs : Readable ss) : Readable ts := by
  obtain ⟨q, hq, hfinal⟩ := Option.map_eq_some_iff.mp hs
  have hstart : Phase.start ≠ .mark := by decide
  have hfeed := Reader.progress_of_feed_spelled (r := ⟨.initial, false⟩) h id hpublic hstart (fun _ => rfl)
    hbinds hq
  rwa [hfinal] at hfeed

end LambdaStepper.Syntax
