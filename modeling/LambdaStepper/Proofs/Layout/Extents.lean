import LambdaStepper.Proofs.Layout.Untangled
import Mathlib.Order.Bounds.Basic

/-! # The extents of a diagram

The grid of a diagram is as large as it has to be (`Circuit.Extents`, `circuitDrawing_extents`): it holds every
point of every stroke, it has one column for each variable of the term, and it ends with the last row that
a stroke touches.  Nor is anything missing from it: there is a bar for each abstraction, an elbow for each
application and a wire for each variable.  The scale of a diagram has no part in this: it only multiplies
the size of the grid where that is told in pixels (`circuitPixels`).

Which points a course goes through is said by its columns and rows (`mem_points`, `exists_mem_points`), so the
bounds come from those of the outline.  A drawing that owes nothing uses its last row
(`exists_row_outline`); one that owes a wire need not, which is why that is proved for whole terms only. -/

namespace LambdaStepper

/-- The number of nodes of a kind. -/
def Term.count (kind : NodeKind) (t : Term) : Nat :=
  t.nodes.countP fun s => s.kind = kind

namespace Term

variable (kind : NodeKind) (m : Mark) (x : String)

theorem count_var : (var m x).count kind = if NodeKind.variable = kind then 1 else 0 := by
  cases kind <;> rfl

theorem count_lam (body : Term) :
    (lam m x body).count kind = body.count kind + if NodeKind.abstraction = kind then 1 else 0 := by
  rw [count, nodes, List.countP_cons]
  cases kind <;> rfl

theorem count_app (func arg : Term) :
    (app m func arg).count kind
      = func.count kind + arg.count kind + if NodeKind.application = kind then 1 else 0 := by
  rw [count, nodes, List.countP_cons, List.countP_append]
  cases kind <;> rfl

theorem width_namelessIn (t : Term) (scope : List String) :
    (t.namelessIn scope).width = t.count .variable := by
  induction t generalizing scope with
  | var m x =>
      rw [namelessIn, count_var]
      cases scope.idxOf? x <;> rfl
  | lam m x body ih => rw [namelessIn, Nameless.width, ih, count_lam, if_neg (by decide), Nat.add_zero]
  | app m func arg ihf iha =>
      rw [namelessIn, Nameless.width, ihf, iha, count_app, if_neg (by decide), Nat.add_zero]

end Term
end LambdaStepper

namespace LambdaStepper.Layout

/-! ### Strokes of a kind -/

@[simp] theorem isBar_elbow (owes : Owes) (bottom : Nat) (left right : Nat × Nat) :
    (elbow owes bottom left right).isBar = false := by
  cases owes <;> rfl

@[simp] theorem isElbow_elbow (owes : Owes) (bottom : Nat) (left right : Nat × Nat) :
    (elbow owes bottom left right).isElbow = true := by
  cases owes <;> rfl

variable (target : Option Nat) (position : Nat) (owes : Owes) (row column : Nat)
  (scope : List (String × Binding)) (tag : Option String) (role : Option Role) (t : Term)

theorem countP_isBar_sketch :
    (sketch target position owes row column scope tag role t).strokes.countP (·.course.isBar)
      = t.count .abstraction := by
  induction t generalizing position owes row column scope tag role with
  | var m x =>
      rw [Term.count_var, sketch]
      split <;> rfl
  | lam m x body ih =>
      simp only [sketch, List.countP_append, ih, Term.count_lam]
      rfl
  | app m func arg ihf iha =>
      simp only [sketch, List.countP_append, ihf, iha, Term.count_app, List.countP_singleton, isBar_elbow]
      rfl

theorem countP_isElbow_sketch :
    (sketch target position owes row column scope tag role t).strokes.countP (·.course.isElbow)
      = t.count .application := by
  induction t generalizing position owes row column scope tag role with
  | var m x =>
      rw [Term.count_var, sketch]
      split <;> rfl
  | lam m x body ih =>
      simp only [sketch, List.countP_append, ih, Term.count_lam]
      rfl
  | app m func arg ihf iha =>
      simp only [sketch, List.countP_append, ihf, iha, Term.count_app, List.countP_singleton, isElbow_elbow]

/-! ### Points of a course -/

/-- A course goes through its rows, from the first column to the last, and a bar a third of a cell beyond. -/
theorem mem_points {c : Course} (hc : c.Proper) {p : Point} (hp : p ∈ c.points .exact) :
    (c.leftmost + 1 / 6 ≤ p.1 ∧ p.1 ≤ c.rightmost + 5 / 6) ∧ ∃ i ∈ c.rows, p.2 = i + 1 / 2 := by
  have hordered : (c.leftmost : Rat) ≤ c.rightmost := by exact_mod_cast hc.ordered
  cases c with
  | bar row first last =>
      rw [Course.points_bar .exact (show first ≤ last from hc.ordered), start_exact, stop_exact] at hp
      simp only [Course.leftmost, Course.rightmost] at hordered
      simp only [List.mem_cons, List.not_mem_nil, or_false] at hp
      simp only [Course.leftmost, Course.rightmost, Course.rows, List.mem_singleton, exists_eq_left]
      rcases hp with rfl | rfl
      · exact ⟨⟨le_refl _, by linarith⟩, rfl⟩
      · exact ⟨⟨by linarith, le_refl _⟩, rfl⟩
  | _ =>
      simp only [Course.points, Metric.middle_exact, List.mem_cons, List.not_mem_nil, or_false] at hp
      simp only [Course.leftmost, Course.rightmost] at hordered
      simp only [Course.leftmost, Course.rightmost, Course.rows, List.mem_cons, List.not_mem_nil, or_false]
      rcases hp with rfl | rfl | rfl | rfl <;> exact ⟨⟨by linarith, by linarith⟩, by simp⟩

/-- Each row of a course has one of its points. -/
theorem exists_mem_points {c : Course} (hc : c.Proper) {i : Int} (hi : i ∈ c.rows) :
    ∃ p ∈ c.points .exact, p.2 = i + 1 / 2 := by
  cases c with
  | bar row first last =>
      obtain rfl := List.mem_singleton.mp hi
      rw [Course.points_bar .exact (show first ≤ last from hc.ordered)]
      exact ⟨_, List.mem_cons_self, rfl⟩
  | _ =>
      simp only [Course.rows, List.mem_cons, List.not_mem_nil, or_false] at hi
      rcases hi with rfl | rfl | rfl <;> simp [Course.points]

/-! ### The last row -/

theorem mem_rows {c : Course} {i : Int} (hi : i ∈ c.rows) : i ∈ c.run? ∨ ∃ l ∈ c.legs, i ≤ l.bottom := by
  cases c <;> simp only [Course.rows, List.mem_cons, List.not_mem_nil, or_false] at hi <;>
    rcases hi with rfl | rfl | rfl <;> simp [Course.run?, Course.legs, Leg.bottom]

theorem Outline.Tidy.row_lt {o : Outline} {row : Nat} (h : o.Tidy row) {c : Course} (hc : c ∈ o.courses)
    {i : Int} (hi : i ∈ c.rows) : i < o.bottom := by
  rcases mem_rows hi with hrun | ⟨l, hl, hle⟩
  · exact (h.runs c hc i hrun).2
  · exact hle.trans_lt (h.legs c hc l hl)

/-- A drawing that owes nothing uses its last row. -/
theorem exists_row_outline (row column : Nat) (rows : List Nat) (t : Nameless) :
    ∃ c ∈ (t.outline .nothing row column rows).courses, ∃ i ∈ c.rows,
      i + 1 = ((t.outline .nothing row column rows).bottom : Int) := by
  induction t generalizing row column rows with
  | bound | free =>
      refine ⟨_, List.mem_singleton_self _, (row : Int), ?_, rfl⟩
      simp [Course.rows]
  | lam body ih =>
      -- the bar is above the body, which ends where the abstraction ends
      obtain ⟨c, hc, hrow⟩ := ih (row + 1) column (row :: rows)
      exact ⟨c, List.mem_append_left _ hc, hrow⟩
  | app func arg _ _ =>
      -- the elbow runs below both parts
      simp only [outline_app, Outline.joined]
      refine ⟨_, List.mem_append_right _ (List.mem_singleton_self _), _, ?_, (Nat.cast_succ _).symm⟩
      simp [elbow, Course.rows]

/-! ### Extents -/

/-- How far the points of the strokes of a diagram are down. -/
def Circuit.ordinates (d : Circuit) : Set Rat :=
  { y | ∃ s ∈ d.strokes, ∃ p ∈ s.points, p.2 = y }

/-- A diagram of a term that has as many strokes as the term has nodes to be drawn, on a grid of their size. -/
structure Circuit.Extents (d : Circuit) (t : Term) : Prop where
  points : ∀ s ∈ d.strokes, ∀ p ∈ s.points, (0 ≤ p.1 ∧ p.1 ≤ d.width) ∧ 0 ≤ p.2 ∧ p.2 ≤ d.height
  width : d.width = t.count .variable
  bars : d.strokes.countP (·.course.isBar) = t.count .abstraction
  elbows : d.strokes.countP (·.course.isElbow) = t.count .application
  wires : d.verticals.length = t.count .variable
  /-- Wires have a positive length. -/
  lengths : ∀ s ∈ d.verticals, upperEnd s < lowerEnd s
  /-- The grid ends with the last row that is touched, in which points lie in the middle of their cells. -/
  height : ∃ last : Nat, d.height = last + 1 ∧ IsGreatest d.ordinates (last + 1 / 2)

section Closed

variable {target : Option Nat} {t : Term} (ht : t.isClosed = true)
include ht

theorem length_verticals_circuit : (circuit target t).verticals.length = t.nameless.width := by
  have habove : ∀ top ∈ ([] : List Bar).map Bar.row, top < 0 := rows_lt_nil 0
  have hlength := (perm_legs .nothing 0 habove (drawable_nameless ht)).length_eq
  rw [owedStart, if_pos rfl, List.append_nil, legStarts, List.length_map, wireStarts, List.length_map,
    List.length_zipIdx, Nameless.length_hangers] at hlength
  rw [verticals_circuit ht, List.length_map]
  exact hlength

theorem height_circuit :
    ((circuit target t).height : Int) = (t.nameless.outline .nothing 0 0 []).bottom := by
  have hbottom : (circuit target t).height = max 1 (t.nameless.outline .nothing 0 0 []).bottom :=
    congrArg (fun o => max 1 o.bottom) (outline_sketch target 0 .nothing 0 0 [] none none t)
  have := (tidy_nameless ht).hook_lt
  omega

theorem mem_points_circuit {s : Stroke} (hs : s ∈ (circuit target t).strokes) {p : Point} (hp : p ∈ s.points) :
    (0 ≤ p.1 ∧ p.1 ≤ (circuit target t).width) ∧
      ∃ row : Nat, row < (circuit target t).height ∧ p.2 = row + 1 / 2 := by
  have hcourse : s.course ∈ (t.nameless.outline .nothing 0 0 []).courses := by
    rw [← map_course_circuit target]
    exact List.mem_map_of_mem hs
  obtain ⟨⟨hleft, hright⟩, i, hi, hrow⟩ := mem_points (proper_circuit ht s hs) hp
  obtain ⟨hfirst, -, hlast⟩ := (within_columns .nothing 0 0 [] t.nameless).courses _ hcourse
  have hnonneg := ((within_rows .nothing 0 0 [] t.nameless (List.forall_mem_nil _)).courses _ hcourse i hi).1
  have hlt := (tidy_nameless ht).row_lt hcourse hi
  rw [Nameless.right_outline, Nat.zero_add, ← width_circuit target] at hlast
  rw [← height_circuit ht] at hlt
  obtain ⟨row, rfl⟩ := Int.eq_ofNat_of_zero_le hnonneg
  have hfirst' : (0 : Rat) ≤ s.course.leftmost := by exact_mod_cast hfirst
  have hlast' : (s.course.rightmost : Rat) + 1 ≤ (circuit target t).width := by exact_mod_cast hlast
  exact ⟨⟨by linarith, by linarith⟩, row, by exact_mod_cast hlt, by exact_mod_cast hrow⟩

theorem exists_mem_ordinates_circuit :
    ∃ last : Nat, (circuit target t).height = last + 1 ∧
      ((last : Rat) + 1 / 2) ∈ (circuit target t).ordinates := by
  obtain ⟨c, hc, i, hi, hlast⟩ := exists_row_outline 0 0 [] t.nameless
  rw [← map_course_circuit target] at hc
  obtain ⟨s, hs, rfl⟩ := List.mem_map.mp hc
  obtain ⟨p, hp, hrow⟩ := exists_mem_points (proper_circuit ht s hs) hi
  rw [← @height_circuit target t ht] at hlast
  obtain ⟨last, hheight⟩ : ∃ last, (circuit target t).height = last + 1 :=
    Nat.exists_eq_succ_of_ne_zero (Nat.one_le_iff_ne_zero.mp (le_max_left 1 _))
  obtain rfl : i = last := by omega
  exact ⟨last, hheight, s, hs, p, hp, by exact_mod_cast hrow⟩

theorem extents_circuit : (circuit target t).Extents t where
  points s hs p hp := by
    obtain ⟨hcolumns, row, hlt, hrow⟩ := mem_points_circuit ht hs hp
    have hlt' : (row : Rat) + 1 ≤ (circuit target t).height := by exact_mod_cast hlt
    have hnonneg : (0 : Rat) ≤ row := row.cast_nonneg
    rw [hrow]
    exact ⟨hcolumns, by linarith, by linarith⟩
  width := by rw [width_circuit, Term.nameless, Term.width_namelessIn]
  bars := countP_isBar_sketch target 0 .nothing 0 0 [] none none t
  elbows := countP_isElbow_sketch target 0 .nothing 0 0 [] none none t
  wires := by rw [length_verticals_circuit ht, Term.nameless, Term.width_namelessIn]
  lengths s hs := by
    rw [verticals_circuit ht] at hs
    obtain ⟨l, hl, rfl⟩ := List.mem_map.mp hs
    obtain ⟨c, hc, hl⟩ := List.mem_flatMap.mp hl
    have hlt : (l.top : Rat) < l.bottom := by exact_mod_cast ((tidy_nameless ht).proper c hc).legs l hl
    rw [upperEnd_segment, lowerEnd_segment]
    linarith
  height := by
    obtain ⟨last, hheight, hmem⟩ := @exists_mem_ordinates_circuit target t ht
    refine ⟨last, hheight, hmem, ?_⟩
    rintro y ⟨s, hs, p, hp, rfl⟩
    obtain ⟨-, row, hlt, hrow⟩ := mem_points_circuit ht hs hp
    have hle : (row : Rat) ≤ last := by exact_mod_cast (by omega : row ≤ last)
    rw [hrow]
    linarith

end Closed

/-- **Diagrams fit their grid and miss nothing**: the diagram of a closed term keeps to its grid, which has a column
for each variable and ends with the last row in use, and it has a bar for each abstraction, an elbow for each
application and for each variable a wire of a positive length. -/
theorem circuitDrawing_extents (target : Option Nat) (t : Term) (ht : t.isClosed = true) :
    ∃ d : Circuit, circuitDrawing .unlimited target (.ofTerm t) = .drawn d ∧ d.Extents t :=
  ⟨_, circuitDrawing_of_closed target ht, extents_circuit ht⟩

/-- An application in function position and one in argument position, whose parts end in different rows, and an
abstraction whose variable does not occur. -/
theorem circuitDrawing_extents_nested :
    let t : Term := .lam {} "f" (.app {} (.app {} (.var {} "f") (.lam {} "x" (.lam {} "y" (.var {} "x"))))
      (.app ⟨some "_T", true⟩ (.lam {} "x" (.var {} "x")) (.var {} "f")))
    t.isClosed = true ∧
      ∃ d : Circuit, circuitDrawing .unlimited (some 7) (.ofTerm t) = .drawn d ∧ d.Extents t := by
  intro t
  have ht : t.isClosed = true := by decide
  exact ⟨ht, circuitDrawing_extents (some 7) t ht⟩

end LambdaStepper.Layout
