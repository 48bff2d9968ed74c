import LambdaStepper.Proofs.Registry.Expanded
import LambdaStepper.Registry.Definition
import Mathlib.Data.List.Nodup

/-! # Registries and their history

A program starts with the built-in terms and adds definitions one after the other (`Registry.Reached`).
What `define` asks of an entry when it joins is all that is known of it later (`define_cases`): names are
well-formed, and no two entries have the same one, so that the entry of a name is found by it
(`Reached.lookup`). -/

namespace LambdaStepper.Registry

open Syntax

/-- The registries that definitions make of the initial one, each inside limits of its own. -/
inductive Reached : Registry → Prop
  | initial : Reached initial
  | define {r r' : Registry} {limits : Limits} {entry : NamedTerm} (h : Reached r)
      (hdefine : r.define limits entry = .ok r') : Reached r'

/-- What a definition asks of an entry. -/
theorem define_cases {limits : Limits} {r r' : Registry} {entry : NamedTerm}
    (h : r.define limits entry = .ok r') :
    r' = r.append entry ∧ isEntryName entry.name.toList = true ∧ entry.name ∉ r.names ∧
      (r.append entry).refersToItself entry.name = false ∧
      ∃ t, (r.append entry).parse limits entry.definition = .ok t := by
  have happend := define_eq_append h
  unfold define validate at h
  cases hname : isEntryName entry.name.toList with
  | false => simp [hname, Except.map] at h
  | true =>
      cases hnew : r.contains entry.name with
      | true => simp [hname, hnew, Except.map] at h
      | false =>
          cases hcycle : (r.append entry).refersToItself entry.name with
          | true => simp [hname, hnew, hcycle, Except.map] at h
          | false =>
              cases hparse : (r.append entry).parse limits entry.definition with
              | error fault => simp [hname, hnew, hcycle, hparse, Except.map] at h
              | ok t =>
                  refine ⟨happend, rfl, ?_, rfl, t, rfl⟩
                  rw [← contains_iff, hnew]
                  exact Bool.false_ne_true

@[simp] theorem names_append (r : Registry) (entry : NamedTerm) :
    (r.append entry).names = r.names ++ [entry.name] := by
  simp [names]

theorem Reached.forall_entries {P : NamedTerm → Prop} {r : Registry} (h : r.Reached)
    (hbuiltin : ∀ entry ∈ builtinTerms, P entry)
    (hdefine : ∀ {limits : Limits} {r r' : Registry} {entry : NamedTerm},
      r.define limits entry = .ok r' → P entry) : ∀ entry ∈ r.entries, P entry := by
  induction h with
  | initial => exact fun entry hentry => hbuiltin entry (by simpa [Registry.initial, entries] using hentry)
  | define _ hnew ih =>
      rw [(define_cases hnew).1, entries_append]
      exact List.forall_mem_append.mpr ⟨ih, List.forall_mem_singleton.mpr (hdefine hnew)⟩

theorem Reached.isEntryName {r : Registry} (h : r.Reached) :
    ∀ entry ∈ r.entries, isEntryName entry.name.toList = true :=
  h.forall_entries (by decide) fun hdefine => (define_cases hdefine).2.1

theorem Reached.nodup {r : Registry} (h : r.Reached) : r.names.Nodup := by
  induction h with
  | initial => decide
  | define _ hdefine ih =>
      obtain ⟨rfl, -, hnew, -⟩ := define_cases hdefine
      rw [names_append, List.nodup_append_comm]
      exact List.nodup_cons.mpr ⟨hnew, ih⟩

theorem find?_eq_some_of_nodup {es : List NamedTerm} (hnames : (es.map NamedTerm.name).Nodup)
    {entry : NamedTerm} (h : entry ∈ es) : es.find? (fun e => e.name = entry.name) = some entry := by
  induction es with
  | nil => cases h
  | cons e es ih =>
      obtain ⟨hnot, hnames⟩ := List.nodup_cons.mp hnames
      rcases List.mem_cons.mp h with rfl | h
      · rw [List.find?_cons_of_pos (by simp)]
      · have hne : e.name ≠ entry.name := fun heq => hnot (heq ▸ List.mem_map_of_mem h)
        rw [List.find?_cons_of_neg (by simpa using hne), ih hnames h]

/-- An entry is found by its name. -/
theorem Reached.lookup {r : Registry} (h : r.Reached) {entry : NamedTerm} (hentry : entry ∈ r.entries) :
    r.lookup entry.name = some entry :=
  find?_eq_some_of_nodup h.nodup hentry

theorem isNameLabel_of_isEntryName {cs : List Char} (h : isEntryName cs = true) (hfeed : '\n' ∉ cs) :
    IsNameLabel cs := by
  cases cs with
  | nil => cases h
  | cons c cs =>
      rw [LambdaStepper.isEntryName, Bool.and_eq_true] at h
      obtain ⟨hc, hend⟩ := h
      have hdrop : cs.dropWhile isWordChar = [] := by
        unfold Numeral.atEnd at hend
        split at hend
        · assumption
        · next heq =>
          have hmem : '\n' ∈ cs.dropWhile isWordChar := heq ▸ List.mem_singleton_self _
          exact absurd (List.mem_cons_of_mem c ((List.dropWhile_suffix _).mem hmem)) hfeed
        · cases hend
      refine ⟨c, cs, rfl, hc, List.all_eq_true.mpr ?_⟩
      exact List.dropWhile_eq_nil_iff.mp hdrop

end LambdaStepper.Registry
