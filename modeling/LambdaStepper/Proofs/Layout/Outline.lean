import LambdaStepper.Layout.Circuit
import LambdaStepper.Proofs.Term.Scope

/-! # The outline of a diagram

What a Tromp diagram shows apart from tags, titles and highlights is fixed by the nameless form of the term:
`Nameless.outline` draws the courses of its strokes, and `outline_sketch` says that every drawing of a
term has that outline.

An outline keeps to its columns (`within_columns`): its hook and all its courses lie between its first and
its last column, and the courses go from left to right.  Nor does it go below its last row
(`within_rows`).  And it holds together (`exists_crossing`): between any two neighbouring columns some
course goes from the one side to the other. -/

namespace LambdaStepper.Layout

/-- A drawn subterm without the tags, titles and roles of its strokes. -/
structure Outline where
  bottom : Nat
  right : Nat
  hook : Nat × Nat
  courses : List Course
  deriving DecidableEq, Repr

/-- The outline of a drawn subterm. -/
def Sketch.outline (s : Sketch) : Outline :=
  ⟨s.bottom, s.right, s.hook, s.strokes.map Stroke.course⟩

/-- The outline of a variable whose binder has its bar in the row `top`. -/
def wireOutline (owes : Owes) (top row column : Nat) : Outline :=
  if owes = .nothing then ⟨row + 1, column + 1, (top, column), [.wire top row column]⟩
  else ⟨row, column + 1, (top, column), []⟩

end LambdaStepper.Layout

namespace LambdaStepper.Nameless

open Layout

/-- The outline of a nameless term inside binders whose bars have the given rows, the innermost first. -/
def outline (owes : Owes) (row column : Nat) (rows : List Nat) : Nameless → Outline
  | .bound i => wireOutline owes (rows.getD i 0) row column
  | .free _ => wireOutline owes 0 row column
  | .lam body =>
    let inner := body.outline owes (row + 1) column (row :: rows)
    { inner with courses := inner.courses ++ [.bar row column ((inner.right : Int) - 1)] }
  | .app func arg =>
    let left := func.outline .right row column rows
    let right := arg.outline .left row left.right rows
    let bottom := max left.bottom right.bottom
    ⟨bottom + 1, right.right, if owes = .right then right.hook else left.hook,
      left.courses ++ right.courses ++ [elbow owes bottom left.hook right.hook]⟩

end LambdaStepper.Nameless

namespace LambdaStepper.Layout

/-- A drawing of a term has the outline of the nameless form. -/
theorem outline_sketch (target : Option Nat) (position : Nat) (owes : Owes) (row column : Nat)
    (scope : List (String × Binding)) (tag : Option String) (role : Option Role) (t : Term) :
    (sketch target position owes row column scope tag role t).outline
      = (t.namelessIn (scope.map Prod.fst)).outline owes row column
          (scope.map fun entry => entry.2.row) := by
  induction t generalizing position owes row column scope tag role with
  | var m x =>
      have htop : (scope.lookup x).getD ⟨0, none⟩ =
          ((scope.map Prod.fst).idxOf? x).elim ⟨0, none⟩ fun i =>
            (scope.map Prod.snd).getD i ⟨0, none⟩ := by
        rw [lookup_eq_bind_idxOf?]
        cases (scope.map Prod.fst).idxOf? x <;> simp
      simp only [sketch, htop, Term.namelessIn]
      cases hx : (scope.map Prod.fst).idxOf? x with
      | none => by_cases ho : owes = .nothing <;>
          simp [Sketch.outline, Nameless.outline, wireOutline, ho]
      | some i =>
          obtain ⟨hi, -⟩ := List.idxOf?_eq_some_iff.mp hx
          rw [List.length_map] at hi
          by_cases ho : owes = .nothing <;>
            simp [Sketch.outline, Nameless.outline, wireOutline, ho, hi]
  | lam m x body ih =>
      have h := ih (position + 1) owes (row + 1) column
        ((x, ⟨row, inheritTag m.tag tag⟩) :: scope) (inheritTag m.tag tag) role
      simp only [List.map_cons] at h
      simp only [Term.namelessIn, Nameless.outline, ← h]
      simp [sketch, Sketch.outline]
  | app m func arg ihf iha =>
      simp only [Term.namelessIn, Nameless.outline]
      rw [← ihf (position + 1) .right row column scope (inheritTag m.tag tag)
          (if target = some position then some .primary else role),
        ← iha (position + 1 + func.size) .left row _ scope (inheritTag m.tag tag)
          (if target = some position then some .secondary else role)]
      simp [sketch, Sketch.outline]

theorem map_course_circuit (target : Option Nat) (t : Term) :
    (circuit target t).strokes.map Stroke.course = (t.nameless.outline .nothing 0 0 []).courses :=
  congrArg Outline.courses (outline_sketch target 0 .nothing 0 0 [] none none t)

/-! ### Columns and rows -/

namespace Course

/-- The first column of a course. -/
def leftmost : Course → Int
  | .bar _ first _ => first
  | .wire _ _ column => column
  | .forward _ _ left _ | .backward _ _ left _ | .joint _ _ _ left _ => left

/-- The last column of a course. -/
def rightmost : Course → Int
  | .bar _ _ last => last
  | .wire _ _ column => column
  | .forward _ _ _ right | .backward _ _ _ right | .joint _ _ _ _ right => right

/-- The rows in which a course starts, turns or ends. -/
def rows : Course → List Int
  | .bar row _ _ => [row]
  | .wire top bottom _ | .forward top bottom _ _ | .backward top bottom _ _ => [top, bottom]
  | .joint top bottom back _ _ => [top, bottom, back]

end Course

theorem mem_rows_elbow {owes : Owes} {bottom : Nat} {left right : Nat × Nat} {i : Int}
    (h : i ∈ (elbow owes bottom left right).rows) : i = left.1 ∨ i = bottom ∨ i = right.1 := by
  cases owes <;> simp only [elbow, Course.rows, List.mem_cons, List.not_mem_nil, or_false] at h <;> omega

@[simp] theorem leftmost_elbow (owes : Owes) (bottom : Nat) (left right : Nat × Nat) :
    (elbow owes bottom left right).leftmost = left.2 := by
  cases owes <;> rfl

@[simp] theorem rightmost_elbow (owes : Owes) (bottom : Nat) (left right : Nat × Nat) :
    (elbow owes bottom left right).rightmost = right.2 := by
  cases owes <;> rfl

/-- What keeps to the columns from `column` on and before `right`. -/
structure Outline.Within (o : Outline) (column : Nat) : Prop where
  hook_ge : column ≤ o.hook.2
  hook_lt : o.hook.2 < o.right
  courses : ∀ c ∈ o.courses, column ≤ c.leftmost ∧ c.leftmost ≤ c.rightmost ∧ c.rightmost < o.right

theorem Outline.Within.column_lt {o : Outline} {column : Nat} (h : o.Within column) :
    column < o.right :=
  Nat.lt_of_le_of_lt h.hook_ge h.hook_lt

theorem within_wireOutline (owes : Owes) (top row column : Nat) :
    (wireOutline owes top row column).Within column := by
  unfold wireOutline
  split <;> constructor <;> grind [Course.leftmost, Course.rightmost]

variable (owes : Owes) (row column : Nat) (rows : List Nat)

theorem within_columns (t : Nameless) : (t.outline owes row column rows).Within column := by
  induction t generalizing owes row column rows with
  | bound i => exact within_wireOutline owes _ row column
  | free x => exact within_wireOutline owes 0 row column
  | lam body ih =>
      have hinner := ih owes (row + 1) column (row :: rows)
      have hlt' := hinner.column_lt
      obtain ⟨hge, hlt, hcourses⟩ := hinner
      refine ⟨hge, hlt, ?_⟩
      intro c hc
      rcases List.mem_append.mp hc with hc | hc
      · exact hcourses c hc
      · obtain rfl := List.mem_singleton.mp hc
        simp only [Course.leftmost, Course.rightmost, Nameless.outline]
        omega
  | app func arg ihf iha =>
      have hl := ihf .right row column rows
      have hr := iha .left row (func.outline .right row column rows).right rows
      have hl' := hl.column_lt
      have hr' := hr.column_lt
      obtain ⟨hge, hlt, hcourses⟩ := hl
      obtain ⟨hge', hlt', hcourses'⟩ := hr
      simp only [Nameless.outline]
      refine ⟨?_, ?_, ?_⟩
      · dsimp only
        split <;> omega
      · dsimp only
        split <;> omega
      · intro c hc
        rcases List.mem_append.mp hc with hc | hc
        · rcases List.mem_append.mp hc with hc | hc
          · have := hcourses c hc
            dsimp only
            omega
          · have := hcourses' c hc
            dsimp only
            omega
        · obtain rfl := List.mem_singleton.mp hc
          rw [leftmost_elbow, rightmost_elbow]
          dsimp only
          omega

/-- What keeps to the rows up to `bottom`. -/
structure Outline.Above (o : Outline) (row : Nat) : Prop where
  row_le : row ≤ o.bottom
  hook : o.hook.1 ≤ o.bottom
  courses : ∀ c ∈ o.courses, ∀ i ∈ c.rows, 0 ≤ i ∧ i ≤ o.bottom

theorem above_wireOutline (owes : Owes) {top row : Nat} (h : top ≤ row) (column : Nat) :
    (wireOutline owes top row column).Above row := by
  unfold wireOutline
  split <;> constructor <;> simp [Course.rows] <;> omega

/-- With the bars of the binders above it, an outline has no row below its last one. -/
theorem within_rows (t : Nameless) (h : ∀ top ∈ rows, top ≤ row) :
    (t.outline owes row column rows).Above row := by
  induction t generalizing owes row column rows with
  | bound i =>
      apply above_wireOutline
      rw [List.getD_eq_getElem?_getD]
      cases hi : rows[i]? with
      | none => exact Nat.zero_le row
      | some top => exact h top (List.mem_of_getElem? hi)
  | free x => exact above_wireOutline owes (Nat.zero_le row) column
  | lam body ih =>
      have habove : ∀ top ∈ row :: rows, top ≤ row + 1 := by
        intro top htop
        rcases List.mem_cons.mp htop with rfl | htop
        · exact Nat.le_succ top
        · exact Nat.le_succ_of_le (h top htop)
      obtain ⟨hrow, hhook, hcourses⟩ := ih owes (row + 1) column (row :: rows) habove
      refine ⟨Nat.le_of_succ_le hrow, hhook, ?_⟩
      intro c hc
      rcases List.mem_append.mp hc with hc | hc
      · exact hcourses c hc
      · obtain rfl := List.mem_singleton.mp hc
        simp only [Course.rows, List.mem_singleton, Nameless.outline]
        omega
  | app func arg ihf iha =>
      obtain ⟨hrow, hhook, hcourses⟩ := ihf .right row column rows h
      obtain ⟨hrow', hhook', hcourses'⟩ := iha .left row (func.outline .right row column rows).right rows h
      simp only [Nameless.outline]
      refine ⟨?_, ?_, ?_⟩
      · dsimp only
        omega
      · dsimp only
        split <;> omega
      · intro c hc i hi
        rcases List.mem_append.mp hc with hc | hc
        · rcases List.mem_append.mp hc with hc | hc
          · have := hcourses c hc i hi
            dsimp only
            omega
          · have := hcourses' c hc i hi
            dsimp only
            omega
        · obtain rfl := List.mem_singleton.mp hc
          have hi' := mem_rows_elbow hi
          dsimp only
          omega

/-- Some course goes across every border between two columns of an outline. -/
theorem exists_crossing (t : Nameless) {border : Nat} (hleft : column < border)
    (hright : border < (t.outline owes row column rows).right) :
    ∃ c ∈ (t.outline owes row column rows).courses, c.leftmost < border ∧ border ≤ c.rightmost := by
  induction t generalizing owes row column rows with
  | bound | free =>
      -- a variable has one column only
      simp only [Nameless.outline, wireOutline] at hright
      split at hright <;> (dsimp only at hright; omega)
  | lam body ih =>
      -- the bar reaches over all columns
      refine ⟨_, List.mem_append_right _ (List.mem_singleton_self _), ?_⟩
      simp only [Nameless.outline] at hright
      simp only [Course.leftmost, Course.rightmost]
      omega
  | app func arg ihf iha =>
      have hl := within_columns .right row column rows func
      have hr := within_columns .left row (func.outline .right row column rows).right rows arg
      simp only [Nameless.outline] at hright ⊢
      rcases Nat.lt_trichotomy border (func.outline .right row column rows).right with h | h | h
      · obtain ⟨c, hc, hcross⟩ := ihf .right row column rows hleft h
        exact ⟨c, List.mem_append_left _ (List.mem_append_left _ hc), hcross⟩
      · refine ⟨_, List.mem_append_right _ (List.mem_singleton_self _), ?_⟩
        rw [leftmost_elbow, rightmost_elbow]
        have := hl.hook_lt
        have := hr.hook_ge
        omega
      · obtain ⟨c, hc, hcross⟩ := iha .left row _ rows h hright
        exact ⟨c, List.mem_append_left _ (List.mem_append_right _ hc), hcross⟩

end LambdaStepper.Layout
