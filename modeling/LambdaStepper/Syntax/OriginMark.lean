/-! # Origin marks

When a reference is expanded, the text put in its place can carry an origin mark: the tag of the
reference between two private characters.  Parsing turns the mark into the tag of a node.  An opening
character without a closing one behind it begins no mark.

`stripMarks` removes the marks of a text, and `shownPosition` counts a position without them. -/

namespace LambdaStepper.Syntax

/-- The character that opens an origin mark. -/
def markOpen : Char :=
  Char.ofNat 0xE000

/-- The character that closes an origin mark. -/
def markClose : Char :=
  Char.ofNat 0xE001

/-- The tag and what follows the mark, for a text right behind an opening character. -/
def closeMark? : List Char → Option (List Char × List Char)
  | [] => none
  | c :: cs =>
    if c = markClose then some ([], cs)
    else (closeMark? cs).map fun (tag, rest) => (c :: tag, rest)

theorem eq_of_closeMark? {cs tag rest : List Char} (h : closeMark? cs = some (tag, rest)) :
    cs = tag ++ markClose :: rest := by
  induction cs generalizing tag rest with
  | nil => simp [closeMark?] at h
  | cons c cs ih =>
    rw [closeMark?] at h
    split at h
    · next hc =>
      simp only [Option.some.injEq, Prod.mk.injEq] at h
      obtain ⟨rfl, rfl⟩ := h
      simp [hc]
    · obtain ⟨⟨t, r⟩, htr, heq⟩ := Option.map_eq_some_iff.1 h
      simp only [Prod.mk.injEq] at heq
      obtain ⟨rfl, rfl⟩ := heq
      simp [ih htr]

/-- An origin mark. -/
def writeMark (tag : List Char) : List Char :=
  markOpen :: tag ++ [markClose]

/-- A text without its origin marks.  The counter holds how many characters still belong to the mark
found last. -/
def stripFrom : (owed : Nat) → List Char → List Char
  | _, [] => []
  | owed + 1, _ :: cs => stripFrom owed cs
  | 0, c :: cs =>
    if c = markOpen then
      match closeMark? cs with
      | some (tag, _) => stripFrom (tag.length + 1) cs
      | none => c :: stripFrom 0 cs
    else c :: stripFrom 0 cs

/-- A text without its origin marks. -/
def stripMarks (cs : List Char) : List Char :=
  stripFrom 0 cs

/-- A position in a text, counted without the origin marks before it. -/
def shownPosition (cs : List Char) (position : Nat) : Nat :=
  (stripMarks (cs.take position)).length

theorem closeMark?_append (tag rest : List Char) (h : markClose ∉ tag) :
    closeMark? (tag ++ markClose :: rest) = some (tag, rest) := by
  induction tag with
  | nil => simp [closeMark?]
  | cons c tag ih =>
    simp only [List.mem_cons, not_or] at h
    simp [closeMark?, Ne.symm h.1, ih h.2]

theorem stripFrom_eq_drop (owed : Nat) {cs : List Char} (h : markOpen ∉ cs) :
    stripFrom owed cs = cs.drop owed := by
  induction cs generalizing owed with
  | nil => simp [stripFrom]
  | cons c cs ih =>
    simp only [List.mem_cons, not_or] at h
    cases owed with
    | succ owed => simp [stripFrom, ih owed h.2]
    | zero => simp [stripFrom, Ne.symm h.1, ih 0 h.2]

theorem stripMarks_eq_self {cs : List Char} (h : markOpen ∉ cs) : stripMarks cs = cs := by
  simp [stripMarks, stripFrom_eq_drop 0 h]

end LambdaStepper.Syntax
