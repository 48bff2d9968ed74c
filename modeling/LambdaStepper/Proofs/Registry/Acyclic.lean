import Mathlib
import LambdaStepper.Proofs.Registry.History

/-! # Definitions do not go in circles

A definition refers to the entries it names (`Registry.RefersTo`).  The search for references back to a new
entry goes through a stack of names and leaves out the names it has seen.  What it finds is a path
(`reflTransGen_of_reachesFrom`), and where it finds nothing, the names it has seen are closed under
references (`exists_closed_of_reachesFrom`), so that it answers whether there is a path
(`refersToItself_iff`).

A path in the registry with one more entry goes through the new name, or it was there before
(`transGen_append`).  Since only definitions that close no circle are accepted, a registry has no circle
at any time (`reached_acyclic`), though a definition may refer to names that are not there yet. -/

namespace LambdaStepper.Registry

open Relation (ReflTransGen TransGen)

/-- Whether the definition of the entry `a` refers to the entry `b`. -/
def RefersTo (r : Registry) (a b : String) : Prop :=
  b ∈ r.names ∧ ∃ entry ∈ r.entries, entry.name = a ∧ b ∈ entry.references

variable {r : Registry}

theorem RefersTo.mem_names {a b : String} (h : r.RefersTo a b) : a ∈ r.names := by
  obtain ⟨-, entry, hentry, rfl, -⟩ := h
  exact List.mem_map_of_mem hentry

theorem refersTo_iff (hnodup : r.names.Nodup) {a b : String} :
    r.RefersTo a b ↔ b ∈ r.names ∧ b ∈ r.referencesOf a := by
  unfold RefersTo referencesOf
  apply and_congr_right
  intro _
  constructor
  · rintro ⟨entry, hentry, rfl, hb⟩
    have hlookup : r.lookup entry.name = some entry := find?_eq_some_of_nodup hnodup hentry
    rw [hlookup]
    exact hb
  · intro hb
    cases hlookup : r.lookup a with
    | none => simp [hlookup] at hb
    | some entry =>
        obtain ⟨hentry, hname⟩ := eq_of_lookup hlookup
        refine ⟨entry, hentry, hname, ?_⟩
        rw [hlookup] at hb
        exact hb

theorem mem_names_of_reflTransGen {a b : String} (h : ReflTransGen r.RefersTo a b) (hb : b ∈ r.names) :
    a ∈ r.names := by
  cases h.cases_head with
  | inl heq => exact heq ▸ hb
  | inr h =>
      obtain ⟨c, hac, -⟩ := h
      exact hac.mem_names

/-! ### The search -/

/-- What the search meets is referred to by a name of the stack, at first hand or through others. -/
theorem reflTransGen_of_reachesFrom (hnodup : r.names.Nodup) {target : String} (htarget : target ∈ r.names)
    {seen stack : List String} (h : r.reachesFrom target seen stack = true) :
    ∃ name ∈ stack, ReflTransGen r.RefersTo name target := by
  fun_induction reachesFrom r target seen stack with
  | case1 => cases h
  | case2 seen stack => exact ⟨target, List.mem_cons_self, .refl⟩
  | case3 seen name stack hname hnew ih =>
      obtain ⟨next, hnext, hpath⟩ := ih h
      rcases List.mem_append.mp hnext with hnext | hnext
      · have hmem := mem_names_of_reflTransGen hpath htarget
        exact ⟨name, List.mem_cons_self, .head ((refersTo_iff hnodup).mpr ⟨hmem, hnext⟩) hpath⟩
      · exact ⟨next, List.mem_cons_of_mem name hnext, hpath⟩
  | case4 seen name stack hname hnew ih =>
      obtain ⟨next, hnext, hpath⟩ := ih h
      exact ⟨next, List.mem_cons_of_mem name hnext, hpath⟩

/-- A search that does not meet its target ends with names among which all references stay.  The names seen
so far refer to names seen and to names of the stack only. -/
theorem exists_closed_of_reachesFrom (hnodup : r.names.Nodup) {target : String} {seen stack : List String}
    (h : r.reachesFrom target seen stack = false) (htarget : target ∉ seen)
    (hseen : ∀ a ∈ seen, ∀ b, r.RefersTo a b → b ∈ seen ∨ b ∈ stack) :
    ∃ closed : List String, target ∉ closed ∧ (∀ a ∈ closed, ∀ b, r.RefersTo a b → b ∈ closed) ∧
      (∀ a ∈ stack, a ∈ r.names → a ∈ closed) ∧ ∀ a ∈ seen, a ∈ closed := by
  fun_induction reachesFrom r target seen stack with
  | case1 seen =>
      refine ⟨seen, htarget, ?_, by simp, fun a ha => ha⟩
      intro a ha b hab
      exact (hseen a ha b hab).resolve_right List.not_mem_nil
  | case2 => cases h
  | case3 seen name stack hname hnew ih =>
      have htarget' : target ∉ name :: seen := by
        simpa using ⟨Ne.symm hname, htarget⟩
      obtain ⟨closed, hnot, hclosed, hstack, hmem⟩ := ih h htarget' (by
        intro a ha b hab
        rcases List.mem_cons.mp ha with rfl | ha
        · exact .inr (List.mem_append_left _ ((refersTo_iff hnodup).mp hab).2)
        · rcases hseen a ha b hab with hb | hb
          · exact .inl (List.mem_cons_of_mem name hb)
          · rcases List.mem_cons.mp hb with rfl | hb
            · exact .inl List.mem_cons_self
            · exact .inr (List.mem_append_right _ hb))
      refine ⟨closed, hnot, hclosed, ?_, fun a ha => hmem a (List.mem_cons_of_mem name ha)⟩
      intro a ha hnames
      rcases List.mem_cons.mp ha with rfl | ha
      · exact hmem a List.mem_cons_self
      · exact hstack a (List.mem_append_right _ ha) hnames
  | case4 seen name stack hname hold ih =>
      -- the name is left out because it was seen, or because it is no entry
      have hskip : name ∈ r.names → name ∈ seen := by
        intro hnames
        by_contra hnot
        exact hold ⟨hnames, hnot⟩
      obtain ⟨closed, hnot, hclosed, hstack, hmem⟩ := ih h htarget (by
        intro a ha b hab
        rcases hseen a ha b hab with hb | hb
        · exact .inl hb
        · rcases List.mem_cons.mp hb with rfl | hb
          · exact .inl (hskip hab.1)
          · exact .inr hb)
      refine ⟨closed, hnot, hclosed, ?_, hmem⟩
      intro a ha hnames
      rcases List.mem_cons.mp ha with rfl | ha
      · exact hmem a (hskip hnames)
      · exact hstack a ha hnames

/-- The search tells whether a definition refers back to its own name, possibly through other entries. -/
theorem refersToItself_iff (hnodup : r.names.Nodup) {name : String} (hname : name ∈ r.names) :
    r.refersToItself name = true ↔ TransGen r.RefersTo name name := by
  unfold refersToItself
  constructor
  · intro h
    obtain ⟨next, hnext, hpath⟩ := reflTransGen_of_reachesFrom hnodup hname h
    have hmem := mem_names_of_reflTransGen hpath hname
    exact .head' ((refersTo_iff hnodup).mpr ⟨hmem, hnext⟩) hpath
  · intro hcircle
    by_contra hnot
    obtain ⟨closed, htarget, hclosed, hstack, -⟩ :=
      exists_closed_of_reachesFrom hnodup (Bool.eq_false_iff.mpr hnot) List.not_mem_nil (by simp)
    -- the first reference of the circle is on the stack, and all that follow stay among the closed names
    obtain ⟨first, hfirst, hpath⟩ := TransGen.head'_iff.mp hcircle
    obtain ⟨hnames, hreference⟩ := (refersTo_iff hnodup).mp hfirst
    have hmem : first ∈ closed := hstack first hreference hnames
    have hstay : ∀ b, ReflTransGen r.RefersTo first b → b ∈ closed := by
      intro b hb
      induction hb with
      | refl => exact hmem
      | tail _ hstep ih => exact hclosed _ ih _ hstep
    exact htarget (hstay name hpath)

/-! ### One more entry -/

theorem RefersTo.of_append {entry : NamedTerm} {a b : String} (h : (r.append entry).RefersTo a b)
    (ha : a ≠ entry.name) (hb : b ≠ entry.name) : r.RefersTo a b := by
  obtain ⟨hnames, e, he, rfl, href⟩ := h
  rw [names_append, List.mem_append, List.mem_singleton] at hnames
  rw [entries_append, List.mem_append, List.mem_singleton] at he
  have hentry : e ∈ r.entries := he.resolve_right fun heq => ha (congrArg NamedTerm.name heq)
  exact ⟨hnames.resolve_right hb, e, hentry, rfl, href⟩

/-- A path in a registry with one more entry was there before, or it goes through the new name. -/
theorem transGen_append {entry : NamedTerm} {a b : String} (h : TransGen (r.append entry).RefersTo a b) :
    TransGen r.RefersTo a b ∨
      ReflTransGen (r.append entry).RefersTo a entry.name ∧
        ReflTransGen (r.append entry).RefersTo entry.name b := by
  induction h with
  | @single b hab =>
      by_cases ha : a = entry.name
      · exact .inr ⟨ha ▸ .refl, ha ▸ .single hab⟩
      · by_cases hb : b = entry.name
        · exact .inr ⟨hb ▸ .single hab, hb ▸ .refl⟩
        · exact .inl (.single (hab.of_append ha hb))
  | @tail b c hab hbc ih =>
      rcases ih with hbefore | ⟨hto, hfrom⟩
      · by_cases hb : b = entry.name
        · exact .inr ⟨hb ▸ hab.to_reflTransGen, hb ▸ .single hbc⟩
        · by_cases hc : c = entry.name
          · exact .inr ⟨hc ▸ (hab.tail hbc).to_reflTransGen, hc ▸ .refl⟩
          · exact .inl (hbefore.tail (hbc.of_append hb hc))
      · exact .inr ⟨hto, hfrom.tail hbc⟩

theorem acyclic_append {entry : NamedTerm} (hold : ∀ a, ¬ TransGen r.RefersTo a a)
    (hnew : ¬ TransGen (r.append entry).RefersTo entry.name entry.name) (a : String) :
    ¬ TransGen (r.append entry).RefersTo a a := by
  intro hcircle
  rcases transGen_append hcircle with hbefore | ⟨hto, hfrom⟩
  · exact hold a hbefore
  · -- turned round, the circle begins at the new name
    exact hnew (TransGen.trans_left (TransGen.trans_right hfrom hcircle) hto)

/-- The new entry closes a circle exactly if the search says so. -/
theorem refersToItself_append_iff {entry : NamedTerm} (hnodup : r.names.Nodup) (hnew : entry.name ∉ r.names) :
    (r.append entry).refersToItself entry.name = true ↔
      TransGen (r.append entry).RefersTo entry.name entry.name := by
  apply refersToItself_iff
  · rw [names_append, List.nodup_append_comm]
    exact List.nodup_cons.mpr ⟨hnew, hnodup⟩
  · simp

/-! ### Every registry -/

theorem not_refersTo_initial (a b : String) : ¬ initial.RefersTo a b := by
  have hnone : ∀ entry ∈ initial.entries, entry.references = [] := by decide +kernel
  rintro ⟨-, entry, hentry, -, href⟩
  rw [hnone entry hentry] at href
  cases href

theorem Reached.acyclic (h : r.Reached) (a : String) : ¬ TransGen r.RefersTo a a := by
  induction h generalizing a with
  | initial =>
      intro hcircle
      obtain ⟨b, hab, -⟩ := TransGen.head'_iff.mp hcircle
      exact not_refersTo_initial a b hab
  | define hreached hdefine ih =>
      obtain ⟨rfl, -, hnew, hcircle, -⟩ := define_cases hdefine
      refine acyclic_append ih ?_ a
      rw [← refersToItself_append_iff hreached.nodup hnew, hcircle]
      exact Bool.false_ne_true

/-- A new entry of a well-formed name is refused as recursive exactly if the search meets its name. -/
theorem validate_eq_recursive_iff {limits : Limits} {entry : NamedTerm}
    (hname : isEntryName entry.name.toList = true) (hnew : entry.name ∉ r.names) :
    r.validate limits entry = .error (.recursive entry.name) ↔
      (r.append entry).refersToItself entry.name = true := by
  have hcontains : r.contains entry.name = false := by
    rwa [Bool.eq_false_iff, ne_eq, contains_iff]
  unfold validate
  rw [hname, hcontains]
  cases hsearch : (r.append entry).refersToItself entry.name with
  | true => simp
  | false =>
      cases hparse : (r.append entry).parse limits entry.definition <;> simp

/-- **Registries stay acyclic, and only circles are refused as recursive.**  In a registry that definitions
made of the initial one no two entries have the same name, and no definition refers back to its own name,
be it through other entries.  A new entry of a well-formed name is refused as recursive exactly if it would
close such a circle. -/
theorem reached_acyclic (h : r.Reached) :
    r.names.Nodup ∧ (∀ a, ¬ TransGen r.RefersTo a a) ∧
      ∀ (limits : Limits) (entry : NamedTerm), isEntryName entry.name.toList = true → entry.name ∉ r.names →
        (r.validate limits entry = .error (.recursive entry.name) ↔
          TransGen (r.append entry).RefersTo entry.name entry.name) := by
  refine ⟨h.nodup, h.acyclic, ?_⟩
  intro limits entry hname hnew
  rw [validate_eq_recursive_iff hname hnew]
  exact refersToItself_append_iff h.nodup hnew

/-- Definitions each of which refers to a name that is not there yet. -/
def forwarded : Registry :=
  ⟨builtinTerms, [⟨"A", "_B x", none⟩, ⟨"B", "λy._C y", none⟩]⟩

theorem reached_forwarded : forwarded.Reached := by
  have ha : initial.define .unlimited ⟨"A", "_B x", none⟩ = .ok (initial.append ⟨"A", "_B x", none⟩) :=
    define_eq_ok (by rfl) (by decide) (by cbv) (by rfl)
  have hb : (initial.append ⟨"A", "_B x", none⟩).define .unlimited ⟨"B", "λy._C y", none⟩ = .ok forwarded :=
    define_eq_ok (by rfl) (by decide) (by cbv) (by rfl)
  exact (Reached.initial.define ha).define hb

/-- A definition that closes a circle through two forward references. -/
theorem reached_acyclic_forwarded :
    forwarded.Reached ∧ isEntryName "C".toList = true ∧ "C" ∉ forwarded.names ∧
      ¬ TransGen forwarded.RefersTo "A" "A" ∧
      forwarded.validate .unlimited ⟨"C", "_ID _A", none⟩ = .error (.recursive "C") ∧
      TransGen (forwarded.append ⟨"C", "_ID _A", none⟩).RefersTo "C" "C" := by
  have hname : isEntryName "C".toList = true := by decide
  have hnew : "C" ∉ forwarded.names := by decide
  obtain ⟨-, hacyclic, hrecursive⟩ := reached_acyclic reached_forwarded
  have hrefused : forwarded.validate .unlimited ⟨"C", "_ID _A", none⟩ = .error (.recursive "C") := by cbv
  exact ⟨reached_forwarded, hname, hnew, hacyclic "A", hrefused, (hrecursive .unlimited _ hname hnew).mp hrefused⟩

end LambdaStepper.Registry
