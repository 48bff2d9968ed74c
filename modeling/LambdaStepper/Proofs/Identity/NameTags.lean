import LambdaStepper.Proofs.Identity.NumeralTags
import LambdaStepper.Proofs.Reduction.Outgrown
import LambdaStepper.Proofs.Registry.BlockTokens

/-! # Name tags tell the truth

A node whose tag is the name of an entry is what the name is parsed as, up to fresh free names, in every term that
comes from a parsed one by reductions, highlights and clones (`Node.nameTags_hold`).

When a text is parsed, a name tag comes from the block that stands in the place of a reference, and what is in
the block is what the reference by itself expands to, if the passes are enough for the text
(`tagsHold_of_parse`).  Reduction takes the tag off every node that it rebuilds.  But a substitution that goes
through a binder may rename the binder, and a tagged node below it keeps its tag when it is renamed with it.  So
what the name is parsed as is followed through these renamings (`Term.FreshlyRenamed`), which are all that may
happen to a node that keeps its tag. -/

namespace LambdaStepper

open Syntax

namespace Registry

variable {r : Registry}

/-- What a tag that is the name of an entry states of a term without marks: that it came from what the name is
parsed as, by renamings alone. -/
def NamesEntry (r : Registry) (tag : Option String) (s : Term) : Prop :=
  ∀ entry ∈ r.entries, tag = some entry.tag →
    ∃ u, r.parse .unlimited entry.tag = .ok u ∧ u.bare.FreshlyRenamed s

theorem lasting_namesEntry (r : Registry) : Term.Lasting r.NamesEntry where
  untagged _ _ _ := nofun
  rename := by
    intro tag t x n h hfresh entry hentry htag
    obtain ⟨u, hu, hrenamed⟩ := h entry hentry htag
    refine ⟨u, hu, ?_⟩
    by_cases hfree : x ∈ t.freeNames []
    · exact hrenamed.rename hfree hfresh
    · rwa [Term.rename_eq_self hfree]

/-- Whether a text is what a reference by itself unfolds to, in its parentheses. -/
def Unfolds (r : Registry) (label content : List Char) : Prop :=
  content = r.expandPasses true (maxPasses - 1) (r.content label)

theorem namesEntry_of_reads (hreached : r.Reached) (hr : r.MarkFree) {label : List Char} {inner : List Lexeme}
    {t : Term} (h : Lexed r r.Unfolds label inner) (hread : ReadsMarked .sequence inner t) :
    r.NamesEntry (some (String.ofList ('_' :: label))) t.bare := by
  intro entry hentry htag
  obtain ⟨hlabel, content, tokens, rfl, htokens, rfl⟩ := h
  have hname : label = entry.name.toList := by
    have htag := congrArg String.toList (Option.some.inj htag)
    simpa [NamedTerm.tag, String.toList_append] using htag
  subst hname
  have hfeed : '\n' ∉ entry.name.toList := by
    intro hmem
    rcases hlabel with hnumber | ⟨hname, -⟩
    · exact hnumber.ne_of_mem hmem (by decide) rfl
    · exact hname.ne_of_mem hmem (by decide) rfl
  have hlabel := isNameLabel_of_isEntryName (hreached.isEntryName entry hentry) hfeed
  have hlookup := hreached.lookup hentry
  have hcontent : r.content entry.name.toList = entry.definition.toList :=
    r.content_of_lookup hlabel (by rwa [String.ofList_toList])
  rw [hcontent] at htokens
  refine ⟨_, parse_tag_of_reads hr hlabel hlookup htokens hread, ?_⟩
  rw [Term.bare_setTag]
  exact .refl

/-- In a parsed term every name tag is true. -/
theorem tagsHold_of_parse (hreached : r.Reached) (hr : r.MarkFree) {limits : Limits} {text : String} {t : Term}
    (htext : ∀ c ∈ text.toList, IsPublic c) (hsettles : r.Settles maxPasses text.toList)
    (hparse : r.parse limits text = .ok t) : t.TagsHold r.NamesEntry := by
  obtain ⟨-, tokens, htokens, hread⟩ := exists_of_parse hparse
  have hsettles : r.Settles (maxPasses - 1 + 1) text.toList := hsettles
  have hblocks : Blocks r r.Unfolds (r.expand true text.toList) := blocks_of_settles hr htext hsettles
  have hgrouped := grouped_of_tokenize hblocks
    (fun {label content} hlabel hcontent => by
      obtain rfl : content = _ := hcontent
      have hpublic := hlabel.isPublic_content hr
      have hnested := nested_content (hreached.nested hr) hlabel
      exact ⟨sealed_of_expanded (expanded_of_public hr hpublic _),
        nested_expandPasses (hreached.nested hr) hnested _⟩)
    htokens
  rw [← List.append_nil (tokens.map Token.lexeme)] at hgrouped
  exact (hgrouped.tagsHold (lasting_namesEntry r).untagged (namesEntry_of_reads hreached hr) hread).1

/-- A chain of entries, and one that refers to the last of them. -/
def overlong : Registry :=
  (chained 9).append ⟨"C", "y _B8", none⟩

end Registry

namespace Node

open Registry

/-- **Name tags tell the truth.**  Take a registry that definitions made of the initial one, and a term that is
parsed with it from a text for which the passes are enough, neither definitions nor text holding private
characters.  Let any reductions, highlights and clones follow, whatever identities the nodes have.  The name of
an entry that is the tag of a node can be parsed, and, marks aside, the node is what it is parsed as with free names
renamed to fresh ones and nothing else done to it.  So it is alpha-equivalent to what it is parsed as, if that is
closed or both have the same free names. -/
theorem nameTags_hold {limits : Limits} {r : Registry} {text : String} {t : Term} (hreached : r.Reached)
    (hr : r.MarkFree) (htext : ∀ c ∈ text.toList, IsPublic c) (hsettles : r.Settles maxPasses text.toList)
    (hparse : r.parse limits text = .ok t) {start n : Node} (hstart : start.term = t) (hn : start.Reaches n)
    {s : Term} (hs : s ∈ n.term.nodes) {entry : NamedTerm} (hentry : entry ∈ r.entries)
    (htag : s.tag = some entry.tag) :
    ∃ u, r.parse .unlimited entry.tag = .ok u ∧ u.bare.FreshlyRenamed s.bare ∧
      ((u.isClosed = true ∨ ∀ x, x ∈ s.freeNames [] ↔ x ∈ u.freeNames []) → s.AlphaEquiv u) := by
  have htags : start.term.TagsHold r.NamesEntry := hstart ▸ tagsHold_of_parse hreached hr htext hsettles hparse
  obtain ⟨u, hu, hrenamed⟩ := hn.tagsHold (lasting_namesEntry r) htags s hs entry hentry htag
  refine ⟨u, hu, hrenamed, fun hfree => ?_⟩
  apply Term.alphaEquiv_of_bare_eq
  apply hrenamed.eq
  simpa [Term.isClosed] using hfree

/-- A definition with a free name, which a first step duplicates under a binder of that name, and a second one
takes apart in one of the two places. -/
theorem nameTags_hold_duplicated :
    let r : Registry := ⟨builtinTerms, [⟨"F", "λx.a x", none⟩]⟩
    ∃ t n s u, r.Reached ∧ r.MarkFree ∧ r.parse .unlimited "(λz.λa.z (z a)) _F" = .ok t ∧
      (ofTerm t {}).1.Reaches n ∧ s ∈ n.term.nodes ∧ s.tag = some "_F" ∧ r.parse .unlimited "_F" = .ok u ∧
      s.AlphaEquiv u := by
  intro r
  let f : Term := .lam ⟨some "_F", false⟩ "x" (.app {} (.var {} "a") (.var {} "x"))
  let t : Term := .app {} (.lam {} "z" (.lam {} "a" (.app {} (.var {} "z")
    (.app {} (.var {} "z") (.var {} "a"))))) f
  let result : Term := .lam {} "a0" (.app {} (.var {} "a") (.app {} f (.var {} "a0")))
  have hdefine : initial.define .unlimited ⟨"F", "λx.a x", none⟩ = .ok r :=
    define_eq_ok (by rfl) (by decide) (by cbv) (by rfl)
  have hreached : r.Reached := .define .initial hdefine
  have hr : r.MarkFree := by decide +kernel
  have htext : ∀ c ∈ "(λz.λa.z (z a)) _F".toList, IsPublic c := by decide
  have hsettles : r.Settles maxPasses "(λz.λa.z (z a)) _F".toList := by decide +kernel
  have hparse : r.parse .unlimited "(λz.λa.z (z a)) _F" = .ok t := by rfl
  have hname : r.parse .unlimited "_F" = .ok f := by rfl
  obtain ⟨start, hstart⟩ : ∃ start, start = (ofTerm t {}).1 := ⟨_, rfl⟩
  have hterm : start.term = t := by rw [hstart, term_ofTerm]
  have hreaches : start.Reaches (((start.reduceStep ⟨20⟩).1.1.clone ⟨40⟩).1.reduceStep ⟨60⟩).1.1 :=
    .reduceStep (.clone (.reduceStep .refl _) _) _
  have hresult : (((start.reduceStep ⟨20⟩).1.1.clone ⟨40⟩).1.reduceStep ⟨60⟩).1.1.term = result := by
    rw [term_reduceStep, term_clone, term_reduceStep, hterm]
    cbv
  generalize (((start.reduceStep ⟨20⟩).1.1.clone ⟨40⟩).1.reduceStep ⟨60⟩).1.1 = n at hreaches hresult
  have hs : f ∈ n.term.nodes := by
    rw [hresult]
    decide
  have hentry : ⟨"F", "λx.a x", none⟩ ∈ r.entries := by decide
  obtain ⟨u, hu, -, hequiv⟩ := nameTags_hold hreached hr htext hsettles hparse hterm hreaches hs hentry rfl
  obtain rfl : f = u := Except.ok.inj (hname.symm.trans hu)
  exact ⟨t, n, f, f, hreached, hr, hparse, hstart ▸ hreaches, hs, rfl, hname, hequiv (.inr fun _ => Iff.rfl)⟩

/-- The passes are not enough for the name of the last entry, so the variable `_ID` is left with the tag `_B8`,
which by itself is parsed as the identity.  And where a fresh name takes the place of one that is free in a node,
the node keeps its tag: that of `a` stands at `a0` after a step. -/
theorem not_nameTags_hold :
    (overlong.Reached ∧ overlong.MarkFree ∧ link 8 ∈ overlong.entries ∧
      ∃ t s u, overlong.parse .unlimited "_C" = .ok t ∧ s ∈ t.nodes ∧ s.tag = some (link 8).tag ∧
        overlong.parse .unlimited (link 8).tag = .ok u ∧ ¬s.AlphaEquiv u) ∧
    let r : Registry := ⟨builtinTerms, [⟨"F", "a", none⟩]⟩
    r.Reached ∧ r.MarkFree ∧ ∃ t s u, r.parse .unlimited "(λx.λa.x _F) a" = .ok t ∧
      s ∈ t.reduceStep.result.nodes ∧ s.tag = some "_F" ∧ r.parse .unlimited "_F" = .ok u ∧ ¬s.AlphaEquiv u := by
  have hchain : (chained 9).define .unlimited ⟨"C", "y _B8", none⟩ = .ok overlong :=
    define_eq_ok (by rfl) (by decide) (by cbv) (by rfl)
  have hdefine : initial.define .unlimited ⟨"F", "a", none⟩ = .ok ⟨builtinTerms, [⟨"F", "a", none⟩]⟩ :=
    define_eq_ok (by rfl) (by decide) (by cbv) (by rfl)
  refine ⟨⟨.define (reached_chained (by decide)) hchain, by decide +kernel, by decide +kernel, ?_⟩,
    .define .initial hdefine, by decide +kernel, ?_⟩
  · exact ⟨.app ⟨some "_C", false⟩ (.var {} "y") (.var ⟨some "_B8", false⟩ "_ID"),
      .var ⟨some "_B8", false⟩ "_ID", .lam ⟨some "_B8", false⟩ "x" (.var {} "x"),
      by rfl, by decide, by decide, by rfl, by decide⟩
  · let t : Term := .app {} (.lam {} "x" (.lam {} "a" (.app {} (.var {} "x") (.var ⟨some "_F", false⟩ "a"))))
      (.var {} "a")
    have hstep : t.reduceStep.result
        = .lam {} "a0" (.app {} (.var {} "a") (.var ⟨some "_F", false⟩ "a0")) := by cbv
    exact ⟨t, .var ⟨some "_F", false⟩ "a0", .var ⟨some "_F", false⟩ "a",
      by rfl, by rw [hstep]; decide, rfl, by rfl, by decide⟩

end Node
end LambdaStepper
