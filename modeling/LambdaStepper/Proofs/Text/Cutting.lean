import LambdaStepper.Text.Character
import LambdaStepper.Text.Segment
import Mathlib.Data.List.DropRight

/-! # Cutting off comments and blanks

What precedes the first mark of a text is found character by character (`beforeFirst_cons`).  As no character of the
mark is blank, it may be found before the blanks around a text are trimmed, or after (`trim_beforeFirst_trim`), and
behind a text without the mark and a blank (`beforeFirst_append`).

A slice between two positions is what is left of the text behind the first and before the second (`slice_natCast`).
The lines of a text that is put together from lines are those lines (`lines_unlines`). -/

namespace LambdaStepper.Text

/-! ### Blanks -/

section Blanks

variable {α : Type} {p : α → Bool} {xs ys : List α}

theorem rdropWhile_cons (x : α) (xs : List α) :
    (x :: xs).rdropWhile p = if xs.rdropWhile p = [] ∧ p x then [] else x :: xs.rdropWhile p := by
  unfold List.rdropWhile
  rw [List.reverse_cons, List.dropWhile_append]
  cases hxs : xs.reverse.dropWhile p with
  | nil => cases hx : p x <;> simp [hx]
  | cons y ys => simp

theorem rdropWhile_append_congr (h : xs.rdropWhile p = ys.rdropWhile p) (before : List α) :
    (before ++ xs).rdropWhile p = (before ++ ys).rdropWhile p := by
  induction before with
  | nil => exact h
  | cons x before ih => rw [List.cons_append, List.cons_append, rdropWhile_cons, rdropWhile_cons, ih]

theorem rdropWhile_dropWhile (xs : List α) : (xs.dropWhile p).rdropWhile p = (xs.rdropWhile p).dropWhile p := by
  induction xs with
  | nil => rfl
  | cons x xs ih =>
      rw [rdropWhile_cons, List.dropWhile_cons]
      cases hx : p x with
      | false => simp [rdropWhile_cons, hx]
      | true =>
          rw [if_pos rfl, ih]
          by_cases hxs : xs.rdropWhile p = []
          · simp [hxs]
          · simp [hxs, hx]

end Blanks

theorem trim_eq (cs : List Char) : trim cs = (cs.dropWhile isBlank).rdropWhile isBlank :=
  rfl

@[simp] theorem trim_cons_blank (cs : List Char) : trim (' ' :: cs) = trim cs := by
  have hblank : isBlank ' ' = true := by decide
  simp [trim_eq, hblank]

@[simp] theorem trim_trim (cs : List Char) : trim (trim cs) = trim cs := by
  rw [trim_eq (trim cs), trim_eq cs, ← rdropWhile_dropWhile, List.dropWhile_idempotent, List.rdropWhile_idempotent]

theorem trim_eq_self_iff {cs : List Char} :
    trim cs = cs ↔ cs.dropWhile isBlank = cs ∧ cs.rdropWhile isBlank = cs := by
  constructor
  · intro h
    have hfront : cs.dropWhile isBlank = cs := by
      refine (List.dropWhile_suffix _).eq_of_length_le ?_
      have hlength : (trim cs).length ≤ (cs.dropWhile isBlank).length := (List.rdropWhile_prefix _ _).length_le
      rwa [h] at hlength
    rw [trim_eq, hfront] at h
    exact ⟨hfront, h⟩
  · rintro ⟨hfront, hback⟩
    rw [trim_eq, hfront, hback]

theorem trim_infix (cs : List Char) : trim cs <:+: cs :=
  (List.rdropWhile_prefix _ _).isInfix.trans (List.dropWhile_suffix _).isInfix

theorem trim_append_rdropWhile (before cs : List Char) :
    trim (before ++ cs.rdropWhile isBlank) = trim (before ++ cs) := by
  rw [trim_eq, trim_eq, rdropWhile_dropWhile, rdropWhile_dropWhile,
    rdropWhile_append_congr (List.rdropWhile_idempotent isBlank cs)]

/-! ### Marks -/

section Marks

variable {mark : List Char}

@[simp] theorem beforeFirst_nil : beforeFirst mark [] = [] := by
  unfold beforeFirst splitFirst?
  cases mark <;> rfl

theorem beforeFirst_cons (c : Char) (cs : List Char) :
    beforeFirst mark (c :: cs) = if mark <+: c :: cs then [] else c :: beforeFirst mark cs := by
  unfold beforeFirst
  rw [splitFirst?]
  simp only [List.isPrefixOf_iff_prefix]
  split_ifs
  · rfl
  · cases splitFirst? mark cs <;> rfl

theorem beforeFirst_prefix (cs : List Char) : beforeFirst mark cs <+: cs := by
  induction cs with
  | nil => simp
  | cons c cs ih =>
      rw [beforeFirst_cons]
      split
      · exact List.nil_prefix
      · exact List.cons_prefix_cons.mpr ⟨rfl, ih⟩

theorem not_infix_beforeFirst (hmark : mark ≠ []) (cs : List Char) : ¬ mark <:+: beforeFirst mark cs := by
  induction cs with
  | nil => simpa using hmark
  | cons c cs ih =>
      rw [beforeFirst_cons]
      split
      · simpa using hmark
      · next hfirst =>
        rw [List.infix_cons_iff]
        rintro (hstarts | hinfix)
        · exact hfirst (hstarts.trans (List.cons_prefix_cons.mpr ⟨rfl, beforeFirst_prefix cs⟩))
        · exact ih hinfix

theorem prefix_append_cons_iff {b : Char} (hb : b ∉ mark) (cs after : List Char) :
    mark <+: cs ++ b :: after ↔ mark <+: cs := by
  refine ⟨fun h => ?_, fun h => h.trans (List.prefix_append _ _)⟩
  have hupto : cs ++ [b] <+: cs ++ b :: after := ⟨after, by simp⟩
  rcases List.prefix_or_prefix_of_prefix h hupto with h | h
  · rcases List.prefix_concat_iff.mp h with rfl | h
    · exact absurd (by simp) hb
    · exact h
  · exact absurd (h.subset (by simp)) hb

theorem beforeFirst_cons_of_notMem {b : Char} (hb : b ∉ mark) (hmark : mark ≠ []) (after : List Char) :
    beforeFirst mark (b :: after) = b :: beforeFirst mark after := by
  have hfirst : ¬ mark <+: b :: after := (prefix_append_cons_iff hb [] after).not.mpr (by simpa using hmark)
  rw [beforeFirst_cons, if_neg hfirst]

/-- Behind a text without the mark, and a character that the mark does not have, the mark is searched anew. -/
theorem beforeFirst_append {b : Char} (hb : b ∉ mark) (hmark : mark ≠ []) {cs : List Char} (hcs : ¬ mark <:+: cs)
    (after : List Char) : beforeFirst mark (cs ++ b :: after) = cs ++ b :: beforeFirst mark after := by
  induction cs with
  | nil => exact beforeFirst_cons_of_notMem hb hmark after
  | cons c cs ih =>
      rw [List.infix_cons_iff, not_or] at hcs
      have hfirst := (prefix_append_cons_iff hb (c :: cs) after).not.mpr hcs.1
      rw [List.cons_append] at hfirst ⊢
      rw [beforeFirst_cons, if_neg hfirst, ih hcs.2, List.cons_append]

/-- With a character more that the mark does not have, a text holds the same before the mark, or that character
too. -/
theorem beforeFirst_concat {b : Char} (hb : b ∉ mark) (hmark : mark ≠ []) (cs : List Char) :
    beforeFirst mark (cs ++ [b]) = beforeFirst mark cs ∨
      beforeFirst mark (cs ++ [b]) = beforeFirst mark cs ++ [b] := by
  induction cs with
  | nil => exact .inr (by simp [beforeFirst_cons_of_notMem hb hmark])
  | cons c cs ih =>
      have hfirst := prefix_append_cons_iff hb (c :: cs) []
      rw [List.cons_append] at hfirst ⊢
      rw [beforeFirst_cons, beforeFirst_cons]
      simp only [hfirst]
      split
      · exact .inl rfl
      · exact ih.imp (congrArg (c :: ·)) (congrArg (c :: ·))

variable (hmark : mark ≠ []) (hblank : ∀ c ∈ mark, isBlank c = false)

include hmark hblank

theorem beforeFirst_dropWhile (cs : List Char) :
    beforeFirst mark (cs.dropWhile isBlank) = (beforeFirst mark cs).dropWhile isBlank := by
  induction cs with
  | nil => simp
  | cons c cs ih =>
      rw [List.dropWhile_cons]
      cases hc : isBlank c with
      | false =>
          rw [if_neg (by simp), beforeFirst_cons]
          split
          · rfl
          · simp [hc]
      | true =>
          have hnotin : c ∉ mark := fun hmem => by simp [hblank c hmem] at hc
          rw [if_pos rfl, beforeFirst_cons_of_notMem hnotin hmark, List.dropWhile_cons, hc, if_pos rfl, ih]

/-- Blanks at the end of a text make no difference but for those that are dropped in the end. -/
theorem rdropWhile_beforeFirst_rdropWhile (cs : List Char) :
    (beforeFirst mark (cs.rdropWhile isBlank)).rdropWhile isBlank = (beforeFirst mark cs).rdropWhile isBlank := by
  induction cs using List.reverseRecOn with
  | nil => rfl
  | append_singleton cs c ih =>
      cases hc : isBlank c with
      | false => rw [List.rdropWhile_concat_neg _ _ _ (by simp [hc])]
      | true =>
          rw [List.rdropWhile_concat_pos _ _ _ hc, ih]
          have hnotin : c ∉ mark := fun hmem => by simp [hblank c hmem] at hc
          -- the mark is found in front of the blank, or the text is kept with the blank
          rcases beforeFirst_concat hnotin hmark cs with h | h
          · rw [h]
          · rw [h, List.rdropWhile_concat_pos _ _ _ hc]

/-- What a line holds before the mark does not depend on the blanks around the line. -/
theorem trim_beforeFirst_trim (cs : List Char) : trim (beforeFirst mark (trim cs)) = trim (beforeFirst mark cs) := by
  rw [trim_eq cs, rdropWhile_dropWhile, trim_eq, beforeFirst_dropWhile hmark hblank, List.dropWhile_idempotent,
    rdropWhile_dropWhile, rdropWhile_beforeFirst_rdropWhile hmark hblank, ← rdropWhile_dropWhile, ← trim_eq]

/-- Nothing but the end of what a trimmed line holds before the mark is trimmed. -/
theorem trim_beforeFirst_eq_rdropWhile (cs : List Char) :
    trim (beforeFirst mark (trim cs)) = (beforeFirst mark (trim cs)).rdropWhile isBlank := by
  have hfront : (trim cs).dropWhile isBlank = trim cs := by
    rw [trim_eq, ← rdropWhile_dropWhile, List.dropWhile_idempotent]
  rw [trim_eq (beforeFirst mark (trim cs)), ← beforeFirst_dropWhile hmark hblank, hfront]

end Marks

/-! ### Slices -/

section Slices

variable (cs : List Char)

theorem slice_natCast (start stop : Nat) : slice cs start stop = (cs.drop start).take (stop - start) := by
  have hclamp (n : Nat) : clampPosition cs.length n = min n cs.length := by
    rw [clampPosition, if_neg (by omega), Int.toNat_natCast]
  rw [slice, hclamp, hclamp, ← List.take_eq_take_min, List.drop_take]
  rcases Nat.le_total start cs.length with hstart | hstart
  · rw [Nat.min_eq_left hstart]
  · simp [List.drop_eq_nil_of_le hstart, Nat.min_eq_right hstart]

theorem slice_append_slice {start stop : Nat} (hle : start ≤ stop) :
    slice cs 0 start ++ slice cs start stop ++ slice cs stop cs.length = cs := by
  have hfront : slice cs 0 start = cs.take start := by simpa using slice_natCast cs 0 start
  have hback : slice cs stop cs.length = (cs.drop start).drop (stop - start) := by
    rw [slice_natCast, ← List.length_drop, List.take_length, List.drop_drop, Nat.add_sub_cancel' hle]
  rw [hfront, slice_natCast, hback, List.append_assoc, List.take_append_drop, List.take_append_drop]

end Slices

/-! ### Lines -/

/-- The text of the given lines. -/
def unlines (lines : List (List Char)) : List Char :=
  lines.flatMap (· ++ ['\n'])

theorem unifyLineEnds_append {line : List Char} (hline : '\r' ∉ line) (rest : List Char) :
    unifyLineEnds false (line ++ '\n' :: rest) = line ++ '\n' :: unifyLineEnds false rest := by
  induction line with
  | nil => simp [unifyLineEnds]
  | cons c line ih =>
      rw [List.mem_cons, not_or] at hline
      simp [unifyLineEnds, Ne.symm hline.1, ih hline.2]

theorem splitLines_append {line : List Char} (hline : '\n' ∉ line) (rest : List Char) :
    splitLines (line ++ '\n' :: rest) = line :: splitLines rest := by
  induction line with
  | nil => simp [splitLines]
  | cons c line ih =>
      rw [List.mem_cons, not_or] at hline
      simp [splitLines, Ne.symm hline.1, ih hline.2]

theorem splitLines_eq_singleton {line : List Char} (hne : line ≠ []) (hline : '\n' ∉ line) :
    splitLines line = [line] := by
  induction line with
  | nil => exact absurd rfl hne
  | cons c line ih =>
      rw [List.mem_cons, not_or] at hline
      cases line with
      | nil => simp [splitLines, Ne.symm hline.1]
      | cons d line => rw [splitLines, if_neg (Ne.symm hline.1), ih (List.cons_ne_nil _ _) hline.2]

/-- The lines of a text that is put together from lines are those. -/
theorem lines_unlines {ls : List (List Char)} (h : ∀ line ∈ ls, '\n' ∉ line ∧ '\r' ∉ line) :
    lines (unlines ls) = ls := by
  induction ls with
  | nil => rfl
  | cons line ls ih =>
      obtain ⟨⟨hfeed, hreturn⟩, hrest⟩ := List.forall_mem_cons.mp h
      have hunlines : unlines (line :: ls) = line ++ '\n' :: unlines ls := by simp [unlines]
      have hlines := ih hrest
      unfold lines at hlines ⊢
      rw [hunlines, unifyLineEnds_append hreturn, splitLines_append hfeed, hlines]

end LambdaStepper.Text
