import LambdaStepper.Proofs.Registry.Meaning
import LambdaStepper.Proofs.Registry.SpelledOut

/-! # Accepted definitions stay readable

A definition is parsed when it is accepted, with the entries of that moment.  Later entries change how it
expands, for a name becomes a reference once there is an entry of that name.  Three things can go wrong then
(`not_exists_parse_of_reached`): the name was a parameter, the reference goes on beyond a binder at which the
name ended, or a reference with a binder in its name is left when there are no passes left.  A definition with
which none of them does can be parsed as long as the registry lasts (`exists_parse_of_reached`).

An accepted definition is readable with its references left standing (`readable_of_expandPasses`): they stand for
texts that close as many parentheses as they open, as all accepted definitions do.  That is what is known of
it later (`Reached.upheld`).  It stays readable with the references that later entries make of its names
(`Upheld.readable`), and so do its expansions (`readable_expandPasses`). -/

namespace LambdaStepper

open Syntax

/-! ### Labels of references -/

namespace Registry

/-- Whether a label is that of a numeral, or the name of an entry. -/
def IsLabel (r : Registry) (label : List Char) : Prop :=
  Numeral.IsLabel label ∨ IsNameLabel label ∧ String.ofList label ∈ r.names

/-- The segments of a text for references to numerals and to the entries of a registry. -/
def scan (r : Registry) (cs : List Char) : List Segment :=
  segments (referenceLabel? r.names) cs

theorem scan_segments (names : List String) (cs : List Char) :
    Scan (referenceLabel? names) none cs (segments (referenceLabel? names) cs) :=
  scan_segmentsFrom (findsLabels_referenceLabel? names) none cs

variable {r : Registry} {cs label : List Char}

theorem isLabel_of_referenceLabel? {n : Nat} (h : referenceLabel? r.names cs = some n) :
    r.IsLabel (cs.take n) := by
  obtain hnumeral | ⟨-, hname, hmem⟩ := referenceLabel?_cases h
  · exact .inl (isLabel_take hnumeral)
  · exact .inr ⟨isNameLabel_take hname, hmem⟩

theorem isLabel_of_mem_segments {before : Option Char} {ss : List Segment}
    (h : Scan (referenceLabel? r.names) before cs ss) (hmem : .reference label ∈ ss) : r.IsLabel label := by
  induction h with
  | nil => cases hmem
  | plain _ _ ih =>
      rcases List.mem_cons.mp hmem with heq | hmem
      · cases heq
      · exact ih hmem
  | @reference _ label' rest _ _ hfound _ _ ih =>
      rcases List.mem_cons.mp hmem with heq | hmem
      · obtain rfl := Segment.reference.inj heq
        simpa using isLabel_of_referenceLabel? hfound
      · exact ih hmem

theorem isLabel_of_mem_scan (h : .reference label ∈ r.scan cs) : r.IsLabel label :=
  isLabel_of_mem_segments (scan_segments r.names cs) h

namespace IsLabel

theorem inert (h : r.IsLabel label) : Syntax.inert (some '_') label = true := by
  rcases h with hlabel | ⟨hlabel, -⟩
  · exact hlabel.inert
  · exact hlabel.inert

theorem tag (h : r.IsLabel label) : ∀ c ∈ '_' :: label, c ∉ [markClose, '(', ')'] := by
  have hword : ∀ d ∈ [markClose, '(', ')'], isWordChar d = false := by decide
  have hdigit : ∀ d ∈ [markClose, '(', ')'], Text.isDecimalDigit d = false := by decide
  refine List.forall_mem_cons.mpr ⟨by decide, fun c hc hmem => ?_⟩
  rcases h with hlabel | ⟨hlabel, -⟩
  · exact hlabel.ne_of_mem hc (hdigit c hmem) rfl
  · exact hlabel.ne_of_mem hc (hword c hmem) rfl

theorem markClose_notMem (h : r.IsLabel label) : markClose ∉ '_' :: label :=
  fun hmem => h.tag _ hmem List.mem_cons_self

/-- What holds of numerals and of the definitions of all entries holds of what stands in the place of a
reference. -/
theorem content_induction {P : List Char → Prop} (h : r.IsLabel label)
    (hnumeral : ∀ n, P (Numeral.syntaxText n)) (hentry : ∀ entry ∈ r.entries, P entry.definition.toList) :
    P (r.content label) := by
  obtain hlabel | ⟨hlabel, hname⟩ := h
  · rw [r.content_of_isLabel hlabel]
    exact hnumeral _
  · obtain ⟨entry, hlookup⟩ := r.exists_lookup hname
    rw [r.content_of_lookup hlabel hlookup]
    exact hentry entry (eq_of_lookup hlookup).1

theorem isPublic_content (h : r.IsLabel label) (hr : r.MarkFree) : ∀ c ∈ r.content label, IsPublic c :=
  h.content_induction (P := fun cs => ∀ c ∈ cs, IsPublic c) (fun _ _ => isPublic_of_mem_syntaxText) hr

end IsLabel

end Registry

/-! ### Texts with references -/

namespace Syntax

variable {names : List String}

theorem mem_of_plain_mem_scan {label? : List Char → Option Nat} {before : Option Char} {cs : List Char}
    {ss : List Segment} (h : Scan label? before cs ss) {c : Char} (hmem : .plain c ∈ ss) : c ∈ cs := by
  induction h with
  | nil => cases hmem
  | plain _ _ ih =>
      rcases List.mem_cons.mp hmem with heq | hmem
      · rw [Segment.plain.inj heq]
        exact List.mem_cons_self
      · exact List.mem_cons_of_mem _ (ih hmem)
  | reference _ _ _ _ ih =>
      rcases List.mem_cons.mp hmem with heq | hmem
      · cases heq
      · exact List.mem_cons_of_mem _ (List.mem_append_right _ (ih hmem))

/-- What becomes a reference with further names is a reference to one of them. -/
theorem mem_of_newLabel {names' : List String} {label rest : List Char}
    (hbefore : referenceLabel? names (label ++ rest) = none)
    (h : referenceLabel? (names ++ names') (label ++ rest) = some label.length) :
    Registry.IsNameLabel label ∧ String.ofList label ∈ names' := by
  obtain ⟨hnumeral, hunknown⟩ := referenceLabel?_eq_none hbefore
  obtain ⟨-, hfound⟩ | ⟨hlabel, -, hname, hknown⟩ := label_cases h
  · rw [hfound] at hnumeral
    cases hnumeral
  · have hnew := hunknown hname
    rw [List.take_left] at hnew
    exact ⟨hlabel, (List.mem_append.mp hknown).resolve_left hnew⟩

theorem isSpellable_of_isNameLabel {label : List Char} (h : Registry.IsNameLabel label) (hL : 'L' ∉ label) :
    (Segment.reference label).isSpellable = true := by
  refine List.all_eq_true.mpr fun c hc => ?_
  rw [List.all_eq_true.mp h.all_isWordChar c hc, Bool.true_and, decide_eq_true_eq]
  rintro rfl
  exact hL hc

/-! ### Reading what stands in the place of references -/

variable {ss : List Segment} {content : List Char → List Char}

namespace Reader

theorem feed_fillSegments {label? : List Char → Option Nat} {r q : Reader}
    (hss : ∀ label, .reference label ∈ ss →
      markClose ∉ '_' :: label ∧ Readable (segments label? (content label)))
    (h : r.feed ss = some q) : r.feed (ss.flatMap (fillSegments label? content)) = some q := by
  induction ss generalizing r with
  | nil => exact h
  | cons s ss ih =>
      obtain ⟨r', hr, h⟩ := Option.bind_eq_some_iff.mp h
      have hrest := ih (fun label hmem => hss label (List.mem_cons_of_mem _ hmem)) h
      cases s with
      | plain c =>
          rw [List.flatMap_cons, fillSegments, List.singleton_append, feed_cons, hr, Option.bind_some, hrest]
      | reference label =>
          obtain ⟨htag, hreadable⟩ := hss label List.mem_cons_self
          rw [feedSegment] at hr
          split at hr
          · next hopen =>
            rw [List.flatMap_cons, fillSegments, feed_append, feed_group hreadable htag hopen, hr,
              Option.bind_some, hrest]
          · cases hr

end Reader

theorem Readable.fillSegments {label? : List Char → Option Nat} (h : Readable ss)
    (hss : ∀ label, .reference label ∈ ss →
      markClose ∉ '_' :: label ∧ Readable (segments label? (content label))) :
    Readable (ss.flatMap (Syntax.fillSegments label? content)) := by
  obtain ⟨q, hq, hfinal⟩ := Option.map_eq_some_iff.mp h
  unfold Readable
  rw [Reader.feed_fillSegments hss hq, Option.map_some, hfinal]

/-- What stands in the place of references is passed over, if it closes the parentheses it opens. -/
theorem Reader.feed_of_fill {r q : Reader} (hpublic : ∀ c, .plain c ∈ ss → IsPublic c)
    (hss : ∀ label, .reference label ∈ ss →
      markClose ∉ '_' :: label ∧ Marked (content label) ∧ balance (content label) = 0)
    (hr : r.progress.phase ≠ .mark) (h : r.feed ((ss.flatMap (fill content)).map .plain) = some q) :
    r.feed ss = some q := by
  induction ss generalizing r with
  | nil => exact h
  | cons s ss ih =>
      have ih' := fun {r'} hr' h => @ih r' (fun c hmem => hpublic c (List.mem_cons_of_mem _ hmem))
        (fun label hmem => hss label (List.mem_cons_of_mem _ hmem)) hr' h
      cases s with
      | plain c =>
          rw [List.flatMap_cons, fill, List.singleton_append, List.map_cons] at h
          obtain ⟨r', hr', h⟩ := Option.bind_eq_some_iff.mp h
          have hmark := (depth_of_feedChar hr (hpublic c List.mem_cons_self) hr').1
          rw [feed_cons, hr', Option.bind_some, ih' hmark h]
      | reference label =>
          obtain ⟨htag, hmarked, hbalance⟩ := hss label List.mem_cons_self
          have hshape : (fill content (.reference label)).map Segment.plain
              = ('(' :: writeMark ('_' :: label)).map .plain
                ++ ((content label).map .plain ++ [.plain ')']) := by
            simp [fill, Registry.wrap]
          rw [List.flatMap_cons, List.map_append, hshape, feed_append] at h
          obtain ⟨r', hr', h⟩ := Option.bind_eq_some_iff.mp h
          obtain ⟨hopen, rfl⟩ := eq_of_feed_group hmarked hbalance htag hr hr'
          have hleft : Phase.left ≠ .mark := by decide
          rw [feed_cons, feedSegment, if_pos hopen, Option.bind_some, ih' hleft h]

/-- A multiple of a number is added to the balance of a text, if the balance of whatever stands in the place
of a reference is one. -/
theorem exists_balance_fill (b : Int)
    (hss : ∀ label, .reference label ∈ ss →
      (∀ c ∈ '_' :: label, c ∉ [markClose, '(', ')']) ∧ ∃ k : Nat, balance (content label) = k * b) :
    ∃ k : Nat, balance (ss.flatMap (fill content)) = balance (ss.flatMap Segment.text) + k * b := by
  induction ss with
  | nil => exact ⟨0, by simp⟩
  | cons s ss ih =>
      obtain ⟨k, hk⟩ := ih fun label hmem => hss label (List.mem_cons_of_mem _ hmem)
      cases s with
      | plain c =>
          refine ⟨k, ?_⟩
          rw [List.flatMap_cons, List.flatMap_cons, balance_append, balance_append, hk]
          simp only [fill, Segment.text]
          ring
      | reference label =>
          obtain ⟨htag, k', hk'⟩ := hss label List.mem_cons_self
          refine ⟨k + k', ?_⟩
          have hlabel : balance ('_' :: label) = 0 :=
            balance_eq_zero fun c hc hmem => htag c hc (List.mem_cons_of_mem _ hmem)
          have hgroup : balance (fill content (.reference label)) = k' * b := (balance_wrap htag _).trans hk'
          rw [List.flatMap_cons, List.flatMap_cons, balance_append, balance_append, hk, hgroup, Segment.text,
            hlabel]
          push_cast
          ring

end Syntax

namespace Numeral

theorem marked_syntaxText (n : Nat) : Marked (syntaxText n) := by
  have hmarked := marked_append (fun _ => isPublic_of_mem_syntaxText (n := n)) .nil
  rwa [List.append_nil] at hmarked

theorem readable_syntaxText (n : Nat) : Readable ((syntaxText n).map .plain) := by
  obtain ⟨tokens, htokens, hread⟩ := exists_tokenize_syntaxText n
  exact (readable_iff (marked_syntaxText n)).mpr ⟨tokens, (term n).bare, htokens, hread⟩

theorem balance_syntaxText (n : Nat) : balance (syntaxText n) = 0 :=
  ((readable_syntaxText n).nested (marked_syntaxText n)).balance_eq_zero

end Numeral

/-! ### Definitions -/

namespace Registry

theorem apart_of_notMem {cs : List Char} (h : '_' ∉ cs) : Apart cs := by
  refine List.Pairwise.isChain (List.pairwise_of_forall_mem_list fun _ _ d hd heq => ?_)
  rw [heq] at hd
  exact absurd hd h

theorem apart_syntaxText (n : Nat) : Apart (Numeral.syntaxText n) :=
  apart_of_notMem (Numeral.underscore_notMem_syntaxText n)

/-- A pass adds a multiple of a number to the balance of a text, where the balance of every definition is
one. -/
theorem exists_balance_expandOnce {r : Registry} (b : Int)
    (hr : ∀ entry ∈ r.entries, ∃ k : Nat, balance entry.definition.toList = k * b) (cs : List Char) :
    ∃ k : Nat, balance (r.expandOnce true cs) = balance cs + k * b := by
  obtain ⟨k, hk⟩ := exists_balance_fill b fun label hmem =>
    ⟨(isLabel_of_mem_scan hmem).tag,
      (isLabel_of_mem_scan hmem).content_induction (P := fun cs => ∃ k : Nat, balance cs = k * b)
        (fun n => ⟨0, by simp [Numeral.balance_syntaxText]⟩) hr⟩
  refine ⟨k, ?_⟩
  rw [expandOnce_eq]
  exact hk.trans (by rw [scan, text_segments])

theorem exists_balance_expandPasses {r : Registry} (b : Int)
    (hr : ∀ entry ∈ r.entries, ∃ k : Nat, balance entry.definition.toList = k * b) (cs : List Char)
    (passes : Nat) : ∃ k : Nat, balance (r.expandPasses true passes cs) = balance cs + k * b := by
  rw [expandPasses_eq_iterate]
  induction passes generalizing cs with
  | zero => exact ⟨0, by simp⟩
  | succ passes ih =>
      obtain ⟨k, hk⟩ := exists_balance_expandOnce b hr cs
      obtain ⟨k', hk'⟩ := ih (r.expandOnce true cs)
      refine ⟨k + k', ?_⟩
      rw [Function.iterate_succ_apply, hk', hk]
      push_cast
      ring

/-- Passes over a readable text leave it readable, if all definitions are. -/
theorem readable_expandPasses {r : Registry}
    (hr : ∀ entry ∈ r.entries, Apart entry.definition.toList ∧ Readable (r.scan entry.definition.toList))
    {cs : List Char} (hcs : Apart cs) (hreadable : Readable (r.scan cs)) (passes : Nat) :
    Readable (r.scan (r.expandPasses true passes cs)) := by
  induction passes generalizing cs with
  | zero => exact hreadable
  | succ passes ih =>
      rw [r.expandPasses_succ hcs, scan, segments_fill hcs]
      refine hreadable.fillSegments fun label hmem => ⟨fun hclose => ?_, ?_⟩
      · exact (isLabel_of_mem_scan hmem).markClose_notMem hclose
      · have hnumeral : ∀ n, Readable (r.scan (Numeral.syntaxText n)) := by
          intro n
          rw [scan, segments_of_notMem (Numeral.underscore_notMem_syntaxText n)]
          exact Numeral.readable_syntaxText n
        obtain ⟨hapart, hcontent⟩ : Apart (r.content label) ∧ Readable (r.scan (r.content label)) :=
          (isLabel_of_mem_scan hmem).content_induction (P := fun cs => Apart cs ∧ Readable (r.scan cs))
            (fun n => ⟨apart_syntaxText n, hnumeral n⟩) hr
        exact ih hapart hcontent

/-! ### Histories of definitions -/

/-- What is known of the definitions of a list of entries: each was accepted with the entries before it. -/
def Upheld (es : List NamedTerm) : Prop :=
  ∀ pre entry post, es = pre ++ entry :: post →
    Text.trim entry.definition.toList ≠ [] ∧ balance entry.definition.toList = 0 ∧
      Readable (segments (referenceLabel? ((pre ++ [entry]).map NamedTerm.name)) entry.definition.toList)

theorem upheld_builtinTerms : Upheld builtinTerms := by
  have hbuiltin : ∀ entry ∈ builtinTerms, Text.trim entry.definition.toList ≠ [] ∧
      balance entry.definition.toList = 0 ∧ '_' ∉ entry.definition.toList ∧
      Readable (entry.definition.toList.map .plain) := by
    decide +kernel
  intro pre entry post heq
  obtain ⟨htrim, hbalance, hplain, hreadable⟩ := hbuiltin entry (by simp [heq])
  exact ⟨htrim, hbalance, by rwa [segments_of_notMem hplain]⟩

theorem balance_expandPasses {r : Registry} (hbalance : ∀ entry ∈ r.entries, balance entry.definition.toList = 0)
    {cs : List Char} (hzero : balance cs = 0) (passes : Nat) : balance (r.expandPasses true passes cs) = 0 := by
  obtain ⟨k, hk⟩ := exists_balance_expandPasses 0
    (fun entry hentry => ⟨0, by simp [hbalance entry hentry]⟩) cs passes
  simpa [hzero] using hk

/-- A text is readable if its expansion is. -/
theorem readable_of_expandPasses {r : Registry} (hr : r.MarkFree)
    (hbalance : ∀ entry ∈ r.entries, balance entry.definition.toList = 0) {cs : List Char}
    (hpublic : ∀ c ∈ cs, IsPublic c) (hcs : Apart cs) {passes : Nat}
    (h : Readable ((r.expandPasses true (passes + 1) cs).map .plain)) : Readable (r.scan cs) := by
  obtain ⟨q, hq, hfinal⟩ := Option.map_eq_some_iff.mp h
  rw [r.expandPasses_succ hcs] at hq
  have hstart : Phase.start ≠ .mark := by decide
  have hscan := scan_segments r.names cs
  have hfeed := Reader.feed_of_fill (r := ⟨.initial, false⟩)
    (fun c hc => hpublic c (mem_of_plain_mem_scan hscan hc)) (fun label hmem => ⟨?_, ?_, ?_⟩) hstart hq
  · unfold Readable scan
    rw [hfeed, Option.map_some, hfinal]
  · exact (isLabel_of_mem_scan hmem).markClose_notMem
  · have hcontent := (isLabel_of_mem_scan hmem).isPublic_content hr
    exact marked_of_expanded (expanded_of_public hr hcontent passes)
  · have hcontent := (isLabel_of_mem_scan hmem).content_induction (P := fun cs => balance cs = 0)
      Numeral.balance_syntaxText hbalance
    exact balance_expandPasses hbalance hcontent passes

/-- The definition that joins closes as many parentheses as it opens, if its expansion does. -/
theorem balance_eq_zero_of_expandPasses {r : Registry} {entry : NamedTerm}
    (hbalance : ∀ e ∈ r.entries, balance e.definition.toList = 0) {passes : Nat}
    (h : balance ((r.append entry).expandPasses true passes entry.definition.toList) = 0) :
    balance entry.definition.toList = 0 := by
  -- the definition may stand in its own expansion, a number of times
  have hentries : ∀ e ∈ (r.append entry).entries,
      ∃ k : Nat, balance e.definition.toList = k * balance entry.definition.toList := by
    intro e he
    rw [entries_append] at he
    rcases List.mem_append.mp he with he | he
    · exact ⟨0, by simp [hbalance e he]⟩
    · exact ⟨1, by simp [List.mem_singleton.mp he]⟩
  obtain ⟨k, hk⟩ := exists_balance_expandPasses _ hentries entry.definition.toList passes
  have hproduct : ((k : Int) + 1) * balance entry.definition.toList = 0 := by
    rw [← h, hk]
    ring
  rcases Int.mul_eq_zero.mp hproduct with hzero | hzero
  · omega
  · exact hzero

theorem balance_eq_zero_of_parse {r : Registry} {entry : NamedTerm} (hr : (r.append entry).MarkFree)
    (hbalance : ∀ e ∈ r.entries, balance e.definition.toList = 0) {limits : Limits} {t : Term}
    (hparse : (r.append entry).parse limits entry.definition = .ok t) :
    Readable (((r.append entry).expand true entry.definition.toList).map .plain) ∧
      ∀ e ∈ (r.append entry).entries, balance e.definition.toList = 0 := by
  obtain ⟨-, tokens, htokens, hread⟩ := exists_of_parse hparse
  have hmarked := marked_of_expanded (expanded_of_public hr (hr entry (by simp)) maxPasses)
  have hexpansion := (readable_iff hmarked).mpr ⟨tokens, t, htokens, hread⟩
  have hzero := balance_eq_zero_of_expandPasses hbalance ((hexpansion.nested hmarked).balance_eq_zero)
  refine ⟨hexpansion, ?_⟩
  rw [entries_append]
  exact List.forall_mem_append.mpr ⟨hbalance, List.forall_mem_singleton.mpr hzero⟩

/-- The definitions that were accepted. -/
theorem Reached.upheld {r : Registry} (h : r.Reached) (hr : r.MarkFree)
    (hapart : ∀ entry ∈ r.entries, Apart entry.definition.toList) : Upheld r.entries := by
  induction h with
  | initial => simpa [Registry.initial, entries] using upheld_builtinTerms
  | @define r r' limits entry h hdefine ih =>
      obtain ⟨rfl, -, -, -, t, hparse⟩ := define_cases hdefine
      have hold : ∀ {e}, e ∈ r.entries → e ∈ (r.append entry).entries := fun he => by simp [he]
      have hupheld := ih (fun e he => hr e (hold he)) (fun e he => hapart e (hold he))
      obtain ⟨hexpansion, hbalance⟩ := balance_eq_zero_of_parse hr
        (fun e he => by
          obtain ⟨pre, post, heq⟩ := List.append_of_mem he
          exact (hupheld pre e post heq).2.1) hparse
      have hentry : entry ∈ (r.append entry).entries := by simp
      have hreadable := readable_of_expandPasses hr hbalance (hr entry hentry) (hapart entry hentry) hexpansion
      intro pre e post heq
      rw [entries_append] at heq
      rcases List.eq_nil_or_concat post with rfl | ⟨post, last, rfl⟩
      · obtain ⟨rfl, hlast⟩ := List.append_inj' heq rfl
        obtain rfl := List.singleton_injective hlast
        exact ⟨(exists_of_parse hparse).1, hbalance entry hentry, by simpa [scan, names] using hreadable⟩
      · rw [List.concat_eq_append, ← List.cons_append, ← List.append_assoc] at heq
        exact hupheld pre e post (List.append_inj' heq rfl).1

theorem referenceLabel?_mono {names names' : List String} (hnames : names ⊆ names') {cs : List Char}
    {n : Nat} (h : referenceLabel? names cs = some n) : referenceLabel? names' cs = some n := by
  obtain hnumeral | ⟨hnone, hname, hmem⟩ := referenceLabel?_cases h
  · simp only [referenceLabel?, hnumeral]
  · simp only [referenceLabel?, hnone, hname, Option.filter_some, decide_eq_true (hnames hmem), if_true]

/-- Definitions stay readable with the references that later entries make of their names. -/
theorem Upheld.readable {r : Registry} (h : Upheld r.entries) (hr : r.MarkFree)
    (hbinds : ∀ entry ∈ r.entries, bindsReference false (r.scan entry.definition.toList) = false)
    (hlater : r.entries.Pairwise fun entry later =>
      .reference later.name.toList ∈ r.scan entry.definition.toList → 'L' ∉ later.name.toList)
    {entry : NamedTerm} (hentry : entry ∈ r.entries) : Readable (r.scan entry.definition.toList) := by
  obtain ⟨pre, post, heq⟩ := List.append_of_mem hentry
  obtain ⟨-, -, hreadable⟩ := h pre entry post heq
  have hnames : r.names = (pre ++ [entry]).map NamedTerm.name ++ post.map NamedTerm.name := by
    rw [← List.map_append, names, heq]
    simp
  have hscan := scan_segments r.names entry.definition.toList
  refine hreadable.of_spelled (spellsOut_segmentsFrom (referenceLabel?_mono ?_) hscan ?_ fun _ => rfl)
    (fun c hc => hr entry hentry c (mem_of_plain_mem_scan hscan hc)) (hbinds entry hentry)
  · rw [hnames]
    exact List.subset_append_left _ _
  · intro label rest hmem hfound hbefore
    rw [hnames] at hfound
    obtain ⟨hlabel, hnew⟩ := mem_of_newLabel hbefore hfound
    obtain ⟨later, hpost, hname⟩ := List.mem_map.mp hnew
    rw [heq] at hlater
    have hL := (List.pairwise_cons.mp (List.pairwise_append.mp hlater).2.1).1 later hpost
    rw [hname, String.toList_ofList] at hL
    exact isSpellable_of_isNameLabel hlabel (hL hmem)

/-- **Accepted definitions stay readable.** -/
theorem exists_parse_of_reached {r : Registry} (hreached : r.Reached) (hr : r.MarkFree)
    (hapart : ∀ entry ∈ r.entries, Apart entry.definition.toList)
    (hbinds : ∀ entry ∈ r.entries, bindsReference false (r.scan entry.definition.toList) = false)
    (hlater : r.entries.Pairwise fun entry later =>
      .reference later.name.toList ∈ r.scan entry.definition.toList → 'L' ∉ later.name.toList)
    {entry : NamedTerm} (hentry : entry ∈ r.entries)
    (hleft : ∀ s ∈ r.scan (r.expand true entry.definition.toList), s.isSpellable = true) :
    ∃ t, r.parse .unlimited entry.definition = .ok t := by
  have hupheld := hreached.upheld hr hapart
  have hreadable : ∀ e ∈ r.entries, Readable (r.scan e.definition.toList) := fun e he =>
    hupheld.readable hr hbinds hlater he
  obtain ⟨pre, post, heq⟩ := List.append_of_mem hentry
  obtain ⟨htrim, -, -⟩ := hupheld pre entry post heq
  have hexpansion := readable_expandPasses (fun e he => ⟨hapart e he, hreadable e he⟩) (hapart entry hentry)
    (hreadable entry hentry) maxPasses
  -- what no pass is left for are names
  have hspelled : SpellsOut false (segments (fun _ => none) (r.expand true entry.definition.toList))
      (r.scan (r.expand true entry.definition.toList)) :=
    spellsOut_segmentsFrom (fun h => by cases h) (scan_segments r.names _)
      (fun hmem _ _ => hleft _ hmem) fun _ => rfl
  have hplain := hexpansion.spelled hspelled
  rw [segments_none] at hplain
  have hmarked := marked_of_expanded (expanded_of_public hr (hr entry hentry) maxPasses)
  obtain ⟨tokens, t, htokens, hread⟩ := (readable_iff hmarked).mp hplain
  exact ⟨t, parse_of_readsMarked htrim htokens hread⟩

/-- Three definitions, the first of which refers to an entry that comes with the second. -/
def sums : Registry :=
  ⟨builtinTerms, [⟨"SUM", "λm.λn._ADD m n", none⟩, ⟨"ADD", "_PLUS", none⟩, ⟨"SIX", "_SUM _2 _4", none⟩]⟩

theorem reached_sums : sums.Reached := by
  have hsum : initial.define .unlimited ⟨"SUM", "λm.λn._ADD m n", none⟩
      = .ok ⟨builtinTerms, sums.custom.take 1⟩ :=
    define_eq_ok (by rfl) (by decide) (by cbv) (by rfl)
  have hadd : define .unlimited ⟨builtinTerms, sums.custom.take 1⟩ ⟨"ADD", "_PLUS", none⟩
      = .ok ⟨builtinTerms, sums.custom.take 2⟩ :=
    define_eq_ok (by rfl) (by decide) (by cbv) (by rfl)
  have hsix : define .unlimited ⟨builtinTerms, sums.custom.take 2⟩ ⟨"SIX", "_SUM _2 _4", none⟩ = .ok sums :=
    define_eq_ok (by rfl) (by decide) (by cbv) (by rfl)
  exact .define (.define (.define .initial hsum) hadd) hsix

theorem exists_parse_of_reached_sums :
    sums.Reached ∧ ∃ t, sums.parse .unlimited "λm.λn._ADD m n" = .ok t := by
  have hr : sums.MarkFree := by decide +kernel
  have hentry : ⟨"SUM", "λm.λn._ADD m n", none⟩ ∈ sums.entries := by decide +kernel
  have hapart : ∀ entry ∈ sums.entries, Apart entry.definition.toList := by decide +kernel
  have hbinds : ∀ entry ∈ sums.entries, bindsReference false (sums.scan entry.definition.toList) = false := by
    decide +kernel
  have hlater : sums.entries.Pairwise fun entry later =>
      .reference later.name.toList ∈ sums.scan entry.definition.toList → 'L' ∉ later.name.toList := by
    decide +kernel
  have hleft : ∀ s ∈ sums.scan (sums.expand true "λm.λn._ADD m n".toList), s.isSpellable = true := by
    decide +kernel
  exact ⟨reached_sums, exists_parse_of_reached reached_sums hr hapart hbinds hlater hentry hleft⟩

/-- The parameter of the first definition is the name of the second. -/
def rebound : Registry :=
  ⟨builtinTerms, [⟨"A", "λ_B.x", none⟩, ⟨"B", "λx.x", none⟩]⟩

/-- The name of the second definition goes on beyond a binder of the first. -/
def respelled : Registry :=
  ⟨builtinTerms, [⟨"A", "_FLx.x", none⟩, ⟨"FLx", "λx.x", none⟩]⟩

/-- The entries of a chain that begins with a reference which has a binder in its name. -/
def falseLink : Nat → NamedTerm
  | 0 => ⟨"B0", "_FALSE", none⟩
  | n + 1 => link (n + 1)

/-- The first definition refers to the end of a chain. -/
def exhausted (n : Nat) : Registry :=
  ⟨builtinTerms, ⟨"A", "_B9", none⟩ :: (List.range n).map falseLink⟩

theorem reached_rebound : rebound.Reached := by
  have hfirst : initial.define .unlimited ⟨"A", "λ_B.x", none⟩
      = .ok ⟨builtinTerms, rebound.custom.take 1⟩ :=
    define_eq_ok (by rfl) (by decide) (by cbv) (by rfl)
  have hsecond : define .unlimited ⟨builtinTerms, rebound.custom.take 1⟩ ⟨"B", "λx.x", none⟩ = .ok rebound :=
    define_eq_ok (by rfl) (by decide) (by cbv) (by rfl)
  exact .define (.define .initial hfirst) hsecond

theorem reached_respelled : respelled.Reached := by
  have hfirst : initial.define .unlimited ⟨"A", "_FLx.x", none⟩
      = .ok ⟨builtinTerms, respelled.custom.take 1⟩ :=
    define_eq_ok (by rfl) (by decide) (by cbv) (by rfl)
  have hsecond : define .unlimited ⟨builtinTerms, respelled.custom.take 1⟩ ⟨"FLx", "λx.x", none⟩
      = .ok respelled :=
    define_eq_ok (by rfl) (by decide) (by cbv) (by rfl)
  exact .define (.define .initial hfirst) hsecond

theorem define_exhausted (n : Nat) (h : n < maxPasses) :
    (exhausted n).define .unlimited (falseLink n) = .ok (exhausted (n + 1)) := by
  unfold maxPasses at h
  interval_cases n <;> exact define_eq_ok (by rfl) (by decide) (by cbv) (by rfl)

theorem reached_exhausted {n : Nat} (h : n ≤ maxPasses) : (exhausted n).Reached := by
  induction n with
  | zero =>
      have hfirst : initial.define .unlimited ⟨"A", "_B9", none⟩ = .ok (exhausted 0) :=
        define_eq_ok (by rfl) (by decide) (by cbv) (by rfl)
      exact .define .initial hfirst
  | succ n ih => exact (ih (Nat.le_of_succ_le h)).define (define_exhausted n h)

/-- Definitions that were accepted cannot be parsed any more: one whose parameter has become a reference, one
in which a binder has become a part of a reference, and one in which a reference is left that has a binder in
its name. -/
theorem not_exists_parse_of_reached :
    (rebound.Reached ∧ rebound.MarkFree ∧ ⟨"A", "λ_B.x", none⟩ ∈ rebound.entries ∧
      ¬∃ t, rebound.parse .unlimited "λ_B.x" = .ok t) ∧
    (respelled.Reached ∧ respelled.MarkFree ∧ ⟨"A", "_FLx.x", none⟩ ∈ respelled.entries ∧
      ¬∃ t, respelled.parse .unlimited "_FLx.x" = .ok t) ∧
    ((exhausted maxPasses).Reached ∧ (exhausted maxPasses).MarkFree ∧
      ⟨"A", "_B9", none⟩ ∈ (exhausted maxPasses).entries ∧
      ¬∃ t, (exhausted maxPasses).parse .unlimited "_B9" = .ok t) := by
  have hfails : ∀ {r : Registry} {text : String} {fault : SyntaxFault},
      r.parse .unlimited text = .error fault → ¬∃ t, r.parse .unlimited text = .ok t := by
    rintro r text fault hfault ⟨t, ht⟩
    rw [hfault] at ht
    cases ht
  have hrebound : rebound.parse .unlimited "λ_B.x" = .error (.badParameter "λ(λx.x).x" "(" 1) := by rfl
  have hrespelled : respelled.parse .unlimited "_FLx.x"
      = .error (.badToken "(λx.x).x" "." 6 1 .ending) := by rfl
  have hexhausted : (exhausted maxPasses).parse .unlimited "_B9"
      = .error (.badToken "((((((((((_FALSE))))))))))" ")" 16 1 (.token ".")) := by rfl
  exact ⟨⟨reached_rebound, by decide +kernel, by decide, hfails hrebound⟩,
    ⟨reached_respelled, by decide +kernel, by decide, hfails hrespelled⟩,
    ⟨reached_exhausted le_rfl, by decide +kernel, by decide, hfails hexhausted⟩⟩

end Registry
end LambdaStepper
