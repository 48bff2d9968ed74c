import LambdaStepper.Proofs.Text.Cutting
import LambdaStepper.Session.Statement

/-! # The statements of a file

The statements of a file are the groups of its parts.  A part is what a line adds to a statement, so a line without
a comment and blanks that is not empty (`Statement.Part`).  The parts are grouped in order, and a part stands in the
group of the one before exactly as long as that group has more opening than closing parentheses
(`Statement.IsGrouping`).

There is one grouping of any parts, as the last part of a grouping can be taken off and put back in one way only
(`Statement.isGrouping_concat_iff`).  Taking a line to the statements read so far puts its part to the groups, and
leaves them as they are where it has none (`Statement.addLine_groups`). -/

namespace LambdaStepper

open Text

namespace Statement

/-- What a line adds to a statement: a text with no blanks around it, and the number of the line. -/
structure Part where
  text : List Char
  line : Nat
  nonempty : text ≠ []
  trimmed : Text.trim text = text

/-- What a line adds to a statement, if there is more on it than a comment and blanks. -/
def Part.ofLine? (line : List Char × Nat) : Option Part :=
  if h : cleanLine line.1 ≠ [] then some ⟨cleanLine line.1, line.2, h, Text.trim_trim _⟩ else none

/-- The parts on lines. -/
def parts (lines : List (List Char)) : List Part :=
  (lines.zipIdx 1).filterMap Part.ofLine?

/-- Whether parts have more opening than closing parentheses together. -/
def LeavesOpen (parts : List Part) : Prop :=
  (parts.flatMap Part.text).count ')' < (parts.flatMap Part.text).count '('

instance (parts : List Part) : Decidable (LeavesOpen parts) :=
  inferInstanceAs (Decidable (_ < _))

/-- The parts of one statement. -/
structure Group where
  first : Part
  rest : List Part

namespace Group

def parts (group : Group) : List Part :=
  group.first :: group.rest

/-- The parts, joined by single blanks. -/
def text (group : Group) : List Char :=
  group.first.text ++ group.rest.flatMap fun part => ' ' :: part.text

def statement (group : Group) : Statement :=
  ⟨String.ofList group.text, group.first.line⟩

def extend (group : Group) (part : Part) : Group :=
  ⟨group.first, group.rest ++ [part]⟩

/-- A parenthesis is open wherever a group goes on. -/
def OpenBetween (group : Group) : Prop :=
  ∀ before, before <+: group.parts → before ≠ [] → before ≠ group.parts → LeavesOpen before

end Group

/-- Each part stands in one group, in order, and a group goes on exactly as long as it is open. -/
structure IsGrouping (parts : List Part) (groups : List Group) : Prop where
  complete : groups.flatMap Group.parts = parts
  openBetween : ∀ group ∈ groups, group.OpenBetween
  closed : ∀ group ∈ groups.dropLast, ¬ LeavesOpen group.parts

/-- The groups with one part more. -/
def addPart (groups : List Group) (part : Part) : List Group :=
  match groups.getLast? with
  | some last =>
    if LeavesOpen last.parts then groups.dropLast ++ [last.extend part] else groups ++ [⟨part, []⟩]
  | none => [⟨part, []⟩]

/-- Whether the last group goes on. -/
def goesOn (groups : List Group) : Bool :=
  match groups.getLast? with
  | some last => decide (LeavesOpen last.parts)
  | none => false

@[simp] theorem addPart_nil (part : Part) : addPart [] part = [⟨part, []⟩] :=
  rfl

@[simp] theorem addPart_concat (groups : List Group) (last : Group) (part : Part) :
    addPart (groups ++ [last]) part =
      if LeavesOpen last.parts then groups ++ [last.extend part] else groups ++ [last] ++ [⟨part, []⟩] := by
  simp [addPart]

@[simp] theorem goesOn_concat (groups : List Group) (last : Group) :
    goesOn (groups ++ [last]) = decide (LeavesOpen last.parts) := by
  simp [goesOn]

theorem exists_of_goesOn {groups : List Group} (h : goesOn groups = true) :
    ∃ before last, groups = before ++ [last] ∧ LeavesOpen last.parts := by
  rcases List.eq_nil_or_concat groups with rfl | ⟨before, last, rfl⟩
  · cases h
  · rw [List.concat_eq_append, goesOn_concat] at h
    exact ⟨before, last, List.concat_eq_append, of_decide_eq_true h⟩

theorem addPart_of_goesOn_eq_false {groups : List Group} (h : goesOn groups = false) (part : Part) :
    addPart groups part = groups ++ [⟨part, []⟩] := by
  rcases List.eq_nil_or_concat groups with rfl | ⟨before, last, rfl⟩
  · rfl
  · rw [List.concat_eq_append, goesOn_concat] at h
    rw [List.concat_eq_append, addPart_concat, if_neg (of_decide_eq_false h)]

namespace Group

/-! ### Groups -/

@[simp] theorem parts_extend (group : Group) (part : Part) : (group.extend part).parts = group.parts ++ [part] :=
  rfl

theorem parts_ne_nil (group : Group) : group.parts ≠ [] :=
  List.cons_ne_nil _ _

@[simp] theorem text_extend (group : Group) (part : Part) :
    (group.extend part).text = group.text ++ ' ' :: part.text := by
  simp [extend, text]

theorem eq_single_or_extend (group : Group) :
    group = ⟨group.first, []⟩ ∨ ∃ before part, group = extend before part := by
  obtain ⟨first, rest⟩ := group
  rcases List.eq_nil_or_concat rest with rfl | ⟨before, part, rfl⟩
  · exact .inl rfl
  · exact .inr ⟨⟨first, before⟩, part, by rw [extend, List.concat_eq_append]⟩

theorem openBetween_single (part : Part) : OpenBetween ⟨part, []⟩ := by
  intro before hpart hne hproper
  have hlength : before.length ≤ 1 := hpart.length_le
  have hpos := List.length_pos_iff.mpr hne
  exact absurd (hpart.eq_of_length (by simp only [parts, List.length_singleton]; omega)) hproper

theorem openBetween_extend_iff (group : Group) (part : Part) :
    (group.extend part).OpenBetween ↔ group.OpenBetween ∧ LeavesOpen group.parts := by
  constructor
  · intro h
    refine ⟨fun before hpart hne _ => h before ?_ hne ?_, h group.parts ?_ group.parts_ne_nil ?_⟩
    · exact hpart.trans (List.prefix_append _ _)
    · rintro rfl
      have hlength := hpart.length_le
      rw [parts_extend, List.length_append, List.length_singleton] at hlength
      omega
    · exact List.prefix_append _ _
    · simp
  · rintro ⟨h, hopen⟩ before hpart hne hproper
    rw [parts_extend] at hpart hproper
    rcases List.prefix_concat_iff.mp hpart with heq | hbefore
    · exact absurd heq hproper
    · by_cases hwhole : before = group.parts
      · rwa [hwhole]
      · exact h before hbefore hne hwhole

end Group

/-! ### Groupings -/

theorem isGrouping_nil_iff {groups : List Group} : IsGrouping [] groups ↔ groups = [] := by
  constructor
  · intro h
    have hnone := List.flatMap_eq_nil_iff.mp h.complete
    exact List.eq_nil_iff_forall_not_mem.mpr fun group hgroup => group.parts_ne_nil (hnone group hgroup)
  · rintro rfl
    exact ⟨rfl, by simp, by simp⟩

theorem isGrouping_groups_concat_iff {parts : List Part} {groups : List Group} {last : Group} :
    IsGrouping parts (groups ++ [last]) ↔
      groups.flatMap Group.parts ++ last.parts = parts ∧ (∀ group ∈ groups, group.OpenBetween) ∧
        last.OpenBetween ∧ ∀ group ∈ groups, ¬ LeavesOpen group.parts := by
  constructor
  · rintro ⟨hcomplete, hopen, hclosed⟩
    refine ⟨by simpa using hcomplete, fun group hgroup => hopen group (by simp [hgroup]), hopen last (by simp), ?_⟩
    simpa using hclosed
  · rintro ⟨hcomplete, hopen, hlast, hclosed⟩
    refine ⟨by simpa using hcomplete, ?_, by simpa using hclosed⟩
    intro group hgroup
    rcases List.mem_append.mp hgroup with hgroup | hgroup
    · exact hopen group hgroup
    · rwa [List.mem_singleton.mp hgroup]

theorem IsGrouping.addPart {parts : List Part} {groups : List Group} (h : IsGrouping parts groups) (part : Part) :
    IsGrouping (parts ++ [part]) (addPart groups part) := by
  rcases List.eq_nil_or_concat groups with rfl | ⟨before, last, rfl⟩
  · have hempty : parts = [] := h.complete.symm
    rw [hempty, addPart_nil, ← List.nil_append [_]]
    exact isGrouping_groups_concat_iff.mpr
      ⟨rfl, List.forall_mem_nil _, Group.openBetween_single part, List.forall_mem_nil _⟩
  · rw [List.concat_eq_append] at h ⊢
    obtain ⟨hcomplete, hopen, hlast, hclosed⟩ := isGrouping_groups_concat_iff.mp h
    rw [addPart_concat]
    split
    · next hgoesOn =>
      refine isGrouping_groups_concat_iff.mpr ⟨?_, hopen, ?_, hclosed⟩
      · simp [← hcomplete]
      · exact (Group.openBetween_extend_iff last part).mpr ⟨hlast, hgoesOn⟩
    · next hends =>
      refine isGrouping_groups_concat_iff.mpr ⟨?_, h.openBetween, Group.openBetween_single part, ?_⟩
      · rw [h.complete]
        rfl
      · simpa [or_imp, forall_and] using ⟨hclosed, hends⟩

theorem IsGrouping.exists_eq_addPart {parts : List Part} {part : Part} {groups : List Group}
    (h : IsGrouping (parts ++ [part]) groups) :
    ∃ before, IsGrouping parts before ∧ groups = Statement.addPart before part := by
  rcases List.eq_nil_or_concat groups with rfl | ⟨before, last, rfl⟩
  · exact absurd h.complete (by simp)
  rw [List.concat_eq_append] at h ⊢
  obtain ⟨hcomplete, hopen, hlast, hclosed⟩ := isGrouping_groups_concat_iff.mp h
  rcases last.eq_single_or_extend with hsingle | ⟨last', part', rfl⟩
  · -- the last part is a group of its own, the groups before it are closed
    rw [hsingle] at hcomplete
    obtain ⟨hparts, hpart⟩ := List.append_inj' hcomplete rfl
    have hbefore : IsGrouping parts before :=
      ⟨hparts, hopen, fun group hgroup => hclosed group (List.dropLast_subset _ hgroup)⟩
    refine ⟨before, hbefore, ?_⟩
    rw [hsingle, List.cons.inj hpart |>.1]
    rcases List.eq_nil_or_concat before with rfl | ⟨before', last', rfl⟩
    · rfl
    · rw [List.concat_eq_append] at hclosed ⊢
      rw [addPart_concat, if_neg (hclosed last' (by simp))]
  · -- the last group went on
    rw [Group.parts_extend, ← List.append_assoc] at hcomplete
    obtain ⟨hparts, hpart⟩ := List.append_inj' hcomplete rfl
    obtain ⟨hlast', hgoesOn⟩ := (Group.openBetween_extend_iff last' part').mp hlast
    refine ⟨before ++ [last'], isGrouping_groups_concat_iff.mpr ⟨hparts, hopen, hlast', hclosed⟩, ?_⟩
    rw [addPart_concat, if_pos hgoesOn, List.cons.inj hpart |>.1]

theorem isGrouping_concat_iff {parts : List Part} {part : Part} {groups : List Group} :
    IsGrouping (parts ++ [part]) groups ↔ ∃ before, IsGrouping parts before ∧ groups = addPart before part := by
  refine ⟨IsGrouping.exists_eq_addPart, ?_⟩
  rintro ⟨before, h, rfl⟩
  exact h.addPart part

/-- There is one grouping of parts. -/
theorem isGrouping_iff {parts : List Part} {groups : List Group} :
    IsGrouping parts groups ↔ groups = parts.foldl addPart [] := by
  induction parts using List.reverseRecOn generalizing groups with
  | nil => exact isGrouping_nil_iff
  | append_singleton parts part ih =>
      rw [isGrouping_concat_iff, List.foldl_append]
      simp [ih]

/-! ### Texts -/

theorem trim_append_part (first last : Part) (between : List Char) :
    Text.trim (first.text ++ (between ++ last.text)) = first.text ++ (between ++ last.text) := by
  obtain ⟨hfront, -⟩ := trim_eq_self_iff.mp first.trimmed
  obtain ⟨-, hback⟩ := trim_eq_self_iff.mp last.trimmed
  refine trim_eq_self_iff.mpr ⟨?_, ?_⟩
  · rw [List.dropWhile_append, hfront, if_neg (by simpa using first.nonempty)]
  · rw [List.rdropWhile_eq_self_iff] at hback ⊢
    intro _
    simpa [List.getLast_append, last.nonempty] using hback last.nonempty

namespace Group

theorem text_ne_nil (group : Group) : group.text ≠ [] := by
  simp [text, group.first.nonempty]

@[simp] theorem trim_text (group : Group) : Text.trim group.text = group.text := by
  rcases group.eq_single_or_extend with hsingle | ⟨before, part, rfl⟩
  · rw [hsingle]
    simpa [text] using group.first.trimmed
  · have h := trim_append_part before.first part (before.rest.flatMap (fun part => ' ' :: part.text) ++ [' '])
    rw [text_extend, text]
    simpa using h

theorem isOpen_text (group : Group) : isOpen group.text = decide (LeavesOpen group.parts) := by
  simp [isOpen, LeavesOpen, text, parts, List.count_flatMap, Function.comp_def]

end Group

/-! ### Lines -/

theorem ofLine?_eq_none {line : List Char} (h : cleanLine line = []) (number : Nat) :
    Part.ofLine? (line, number) = none := by
  simp [Part.ofLine?, h]

theorem ofLine?_eq_some {line : List Char} (h : cleanLine line ≠ []) (number : Nat) :
    Part.ofLine? (line, number) = some ⟨cleanLine line, number, h, Text.trim_trim _⟩ := by
  simp [Part.ofLine?, h]

theorem push_group (statements : List Statement) (group : Group) :
    push statements group.text group.first.line = statements ++ [group.statement] := by
  rw [push, if_neg (by simpa using group.text_ne_nil)]
  rfl

/-- The blank in front of a line is not kept where the line has no part. -/
theorem trim_append_cleanLine (group : Group) (line : List Char) (number : Nat) :
    Text.trim (group.text ++ ' ' :: cleanLine line) =
      ((Part.ofLine? (line, number)).elim group group.extend).text := by
  by_cases hline : cleanLine line = []
  · have hblank : Text.trim (group.text ++ [' ']) = Text.trim (group.text ++ []) :=
      (Text.trim_append_rdropWhile group.text [' ']).symm
    rw [hline, hblank, List.append_nil, ofLine?_eq_none hline, Option.elim_none, Group.trim_text]
  · have htext := (group.extend ⟨cleanLine line, number, hline, Text.trim_trim _⟩).trim_text
    rw [Group.text_extend] at htext
    rw [ofLine?_eq_some hline, Option.elim_some, Group.text_extend, htext]

theorem addLine_of_leavesOpen (before : List Group) {last : Group} (hlast : LeavesOpen last.parts)
    (line : List Char) (number : Nat) :
    let groups := (Part.ofLine? (line, number)).toList.foldl addPart (before ++ [last])
    let taken := addLine true number ((before ++ [last]).map Group.statement) line
    taken.statements = groups.map Group.statement ∧ isOpen taken.text = goesOn groups := by
  intro groups taken
  let group := (Part.ofLine? (line, number)).elim last last.extend
  have hgroups : groups = before ++ [group] := by
    cases hpart : Part.ofLine? (line, number) <;> simp [groups, group, hpart, hlast]
  have hfirst : group.first = last.first := by
    simp only [group]
    cases Part.ofLine? (line, number) <;> rfl
  have htaken : taken = ⟨group.text, push (before.map Group.statement) group.text last.first.line⟩ := by
    simp only [group, ← trim_append_cleanLine]
    simp [taken, addLine, Group.statement]
  rw [htaken, hgroups, ← hfirst, push_group, goesOn_concat, Group.isOpen_text]
  simp

theorem addLine_of_goesOn_eq_false {groups : List Group} (h : goesOn groups = false) (line : List Char)
    (number : Nat) :
    let groups' := (Part.ofLine? (line, number)).toList.foldl addPart groups
    let taken := addLine false number (groups.map Group.statement) line
    taken.statements = groups'.map Group.statement ∧ isOpen taken.text = goesOn groups' := by
  intro groups' taken
  have htaken : taken = ⟨cleanLine line, push (groups.map Group.statement) (cleanLine line) number⟩ := rfl
  by_cases hline : cleanLine line = []
  · simp [groups', htaken, hline, ofLine?_eq_none hline, push, isOpen, h]
  · let group : Group := ⟨⟨cleanLine line, number, hline, Text.trim_trim _⟩, []⟩
    have hgroups' : groups' = groups ++ [group] := by
      simp [groups', ofLine?_eq_some hline, addPart_of_goesOn_eq_false h, group]
    have htext : cleanLine line = group.text := by simp [group, Group.text]
    rw [htaken, hgroups', htext, push_group _ group, goesOn_concat, Group.isOpen_text]
    simp

/-- A line takes its part to the groups, if it has one. -/
theorem addLine_groups (groups : List Group) (line : List Char) (number : Nat) :
    let groups' := (Part.ofLine? (line, number)).toList.foldl addPart groups
    let taken := addLine (goesOn groups) number (groups.map Group.statement) line
    taken.statements = groups'.map Group.statement ∧ isOpen taken.text = goesOn groups' := by
  cases hgoesOn : goesOn groups with
  | true =>
      obtain ⟨before, last, rfl, hlast⟩ := exists_of_goesOn hgoesOn
      exact addLine_of_leavesOpen before hlast line number
  | false => exact addLine_of_goesOn_eq_false hgoesOn line number

theorem addLines_groups (groups : List Group) (lines : List (List Char)) (number : Nat) :
    addLines (goesOn groups) number (groups.map Group.statement) lines =
      (((lines.zipIdx number).filterMap Part.ofLine?).foldl addPart groups).map Group.statement := by
  induction lines generalizing groups number with
  | nil => rfl
  | cons line lines ih =>
      obtain ⟨hstatements, hgoesOn⟩ := addLine_groups groups line number
      have hrest := ih ((Part.ofLine? (line, number)).toList.foldl addPart groups) (number + 1)
      rw [← hstatements, ← hgoesOn, ← List.foldl_append] at hrest
      rw [addLines, List.zipIdx_cons]
      refine hrest.trans ?_
      cases hpart : Part.ofLine? (line, number) <;> simp [hpart]

theorem readStatements_eq (cs : List Char) :
    readStatements cs = ((parts (Text.lines cs)).foldl addPart []).map Group.statement :=
  addLines_groups [] (Text.lines cs) 1

end Statement

/-- **Statements are grouped by parentheses.**  The statements of a file are the groups of its parts, of which there is
one grouping: each part stands in one group, in order, and a group goes on exactly as long as more parentheses are
open than closed in it.  A statement is its parts, joined by single blanks, with the number of the line of the first.
Only the last one can have a parenthesis left open. -/
theorem Folder.statements_grouped {folder : Folder} {path : String} {octets : List UInt8} {cs : List Char}
    (hpath : path.toList.contains (Char.ofNat 0) = false) (hfile : folder.contents? path = some octets)
    (hcs : decodeUtf8 octets = .ok cs) :
    ∃ groups, folder.statements path = .ok (groups.map Statement.Group.statement) ∧
      (∀ groups', Statement.IsGrouping (Statement.parts (Text.lines cs)) groups' ↔ groups' = groups) ∧
      ∀ statement ∈ (groups.map Statement.Group.statement).dropLast,
        Statement.isOpen statement.text.toList = false := by
  refine ⟨(Statement.parts (Text.lines cs)).foldl Statement.addPart [], ?_, fun _ => Statement.isGrouping_iff, ?_⟩
  · rw [statements, if_neg (by simpa using hpath), hfile]
    simp only [hcs, Statement.readStatements_eq]
  · intro statement hstatement
    rw [← List.map_dropLast] at hstatement
    obtain ⟨group, hgroup, rfl⟩ := List.mem_map.mp hstatement
    have hclosed := (Statement.isGrouping_iff.mpr rfl).closed group hgroup
    rw [Statement.Group.statement, String.toList_ofList, Statement.Group.isOpen_text]
    exact decide_eq_false hclosed

/-- A comment and an empty line in a statement, a parenthesis too many, and a statement that is never closed. -/
theorem Folder.statements_grouped_unclosed :
    let cs := "F := ((x ;; (\n\n  x)\n  x)\n)\n;; (\n((y\n".toList
    let octets := cs.map fun c => c.toNat.toUInt8
    let folder : Folder := [("a.lc", octets)]
    ("a.lc".toList.contains (Char.ofNat 0) = false ∧ folder.contents? "a.lc" = some octets ∧
      decodeUtf8 octets = .ok cs) ∧
    folder.statements "a.lc" = .ok [⟨"F := ((x x) x)", 1⟩, ⟨")", 5⟩, ⟨"((y", 7⟩] ∧
    ∃ groups, folder.statements "a.lc" = .ok (groups.map Statement.Group.statement) ∧
      (∀ groups', Statement.IsGrouping (Statement.parts (Text.lines cs)) groups' ↔ groups' = groups) ∧
      ∀ statement ∈ (groups.map Statement.Group.statement).dropLast,
        Statement.isOpen statement.text.toList = false := by
  intro cs octets folder
  have hpath : "a.lc".toList.contains (Char.ofNat 0) = false := by decide
  have hfile : folder.contents? "a.lc" = some octets := by rfl
  have hcs : decodeUtf8 octets = .ok cs := by rfl
  exact ⟨⟨hpath, hfile, hcs⟩, by rfl, statements_grouped hpath hfile hcs⟩

end LambdaStepper
