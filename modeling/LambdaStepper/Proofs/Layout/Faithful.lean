import LambdaStepper.Proofs.Layout.Points
import Mathlib.Data.List.GetD
import Mathlib.Data.List.Nodup

/-! # Tromp diagrams are faithful

Two closed terms with the same diagram are alpha-equivalent (`circuitDrawing_faithful`).

The term is read back from the courses of the strokes (`outline_injective`).  The last course tells the
root: an elbow stands for an application, a bar for an abstraction, and a variable leaves a wire or, where
its wire is owed to an application, nothing at all.  What is owed is known from the elbow that pays it: each
elbow tells where the wires of both its parts start.  And the courses before an elbow fall into those of the
function and those of the argument, for the function ends at the first border between two columns that no
course crosses.

The courses of the strokes are told by their kinds and points (`courses_eq_of_points_eq`): by the exact
points always, and by the points as they are written on grids of up to 2 ^ 50 columns and rows. -/

namespace LambdaStepper.Layout

/-! ### From the outline back to the term -/

/-- An elbow tells the hooks of both parts, given the one that it does not pay itself. -/
theorem hooks_eq_of_elbow_eq {owes : Owes} {bottom bottom' : Nat} {left right left' right' : Nat × Nat}
    (helbow : elbow owes bottom left right = elbow owes bottom' left' right')
    (howed : owes ≠ .nothing →
      (if owes = .right then right else left) = if owes = .right then right' else left') :
    left = left' ∧ right = right' := by
  obtain ⟨top, leg⟩ := left
  obtain ⟨top', leg'⟩ := left'
  cases owes with
  | nothing => simp_all [elbow, Prod.ext_iff]
  | left => simp_all [elbow, Prod.ext_iff]
  | right => simp_all [elbow, Prod.ext_iff]

/-- Whether a course ends before a column. -/
def Course.endsBefore (border : Nat) (c : Course) : Bool :=
  c.rightmost < (border : Int)

section Split

variable {row column : Nat} {rows : List Nat} {func arg func' arg' : Nameless}

/-- The courses of a function and its argument, drawn side by side. -/
def partCourses (row column : Nat) (rows : List Nat) (func arg : Nameless) : List Course :=
  (func.outline .right row column rows).courses
    ++ (arg.outline .left row (func.outline .right row column rows).right rows).courses

theorem not_crossing_of_mem_partCourses {c : Course} (hc : c ∈ partCourses row column rows func arg) :
    c.rightmost < (func.outline .right row column rows).right
      ∨ (func.outline .right row column rows).right ≤ c.leftmost := by
  rcases List.mem_append.mp hc with hc | hc
  · exact .inl ((within_columns .right row column rows func).courses c hc).2.2
  · exact .inr ((within_columns .left row _ rows arg).courses c hc).1

/-- With the same courses, one function does not end before the other. -/
theorem right_le_of_partCourses_eq
    (h : partCourses row column rows func arg = partCourses row column rows func' arg') :
    (func'.outline .right row column rows).right ≤ (func.outline .right row column rows).right := by
  by_contra hlt
  obtain ⟨c, hc, hleft, hright⟩ := exists_crossing .right row column rows func'
    (within_columns .right row column rows func).column_lt (not_le.mp hlt)
  have hmem : c ∈ partCourses row column rows func arg := h ▸ List.mem_append_left _ hc
  rcases not_crossing_of_mem_partCourses hmem with hc | hc <;> omega

/-- The courses of the function among those of both parts are the ones that end before the border. -/
theorem filter_partCourses :
    (partCourses row column rows func arg).filter
        (Course.endsBefore (func.outline .right row column rows).right)
      = (func.outline .right row column rows).courses := by
  have hfunc := (within_columns .right row column rows func).courses
  have harg := (within_columns .left row (func.outline .right row column rows).right rows arg).courses
  rw [partCourses, List.filter_append, List.filter_eq_self.mpr, List.filter_eq_nil_iff.mpr,
    List.append_nil]
  · intro c hc
    obtain ⟨h, h', -⟩ := harg c hc
    simp only [Course.endsBefore, decide_eq_true_eq]
    omega
  · intro c hc
    exact decide_eq_true (hfunc c hc).2.2

theorem split_partCourses
    (h : partCourses row column rows func arg = partCourses row column rows func' arg') :
    (func.outline .right row column rows).right = (func'.outline .right row column rows).right
      ∧ (func.outline .right row column rows).courses = (func'.outline .right row column rows).courses
      ∧ (arg.outline .left row (func.outline .right row column rows).right rows).courses
        = (arg'.outline .left row (func'.outline .right row column rows).right rows).courses := by
  have hborder : (func.outline .right row column rows).right
      = (func'.outline .right row column rows).right :=
    Nat.le_antisymm (right_le_of_partCourses_eq h.symm) (right_le_of_partCourses_eq h)
  have hfunc : (func.outline .right row column rows).courses
      = (func'.outline .right row column rows).courses := by
    calc (func.outline .right row column rows).courses
        = (partCourses row column rows func arg).filter
            (Course.endsBefore (func.outline .right row column rows).right) :=
          filter_partCourses.symm
      _ = (partCourses row column rows func' arg').filter
            (Course.endsBefore (func'.outline .right row column rows).right) := by rw [h, hborder]
      _ = (func'.outline .right row column rows).courses := filter_partCourses
  refine ⟨hborder, hfunc, ?_⟩
  unfold partCourses at h
  rw [hfunc] at h
  exact List.append_cancel_left h

end Split

/-- A nameless term to be drawn: every index refers to one of `depth` binders around it, and no name is
free. -/
structure Drawable (depth : Nat) (t : Nameless) : Prop where
  indices : t.Scoped depth
  closed : t.freeNames = []

theorem Drawable.body {depth : Nat} {body : Nameless} (h : Drawable depth (.lam body)) :
    Drawable (depth + 1) body :=
  ⟨h.indices, h.closed⟩

theorem Drawable.func {depth : Nat} {func arg : Nameless} (h : Drawable depth (.app func arg)) :
    Drawable depth func :=
  ⟨h.indices.1, (List.append_eq_nil_iff.mp h.closed).1⟩

theorem Drawable.arg {depth : Nat} {func arg : Nameless} (h : Drawable depth (.app func arg)) :
    Drawable depth arg :=
  ⟨h.indices.2, (List.append_eq_nil_iff.mp h.closed).2⟩

theorem top_eq_of_wireOutline_eq {owes : Owes} {top top' row column : Nat}
    (h : (wireOutline owes top row column).courses = (wireOutline owes top' row column).courses)
    (howed : owes ≠ .nothing →
      (wireOutline owes top row column).hook = (wireOutline owes top' row column).hook) :
    top = top' := by
  by_cases ho : owes = .nothing
  · simpa [wireOutline, ho] using h
  · simpa [wireOutline, ho] using howed ho

/-- The kind of the root that a list of courses ends with. -/
def rootOf (courses : List Course) : NodeKind :=
  match courses.getLast? with
  | none | some (.wire ..) => .variable
  | some (.bar ..) => .abstraction
  | some (.forward ..) | some (.backward ..) | some (.joint ..) => .application

/-- The kind of the root of a nameless term. -/
def rootKind : Nameless → NodeKind
  | .bound _ | .free _ => .variable
  | .lam _ => .abstraction
  | .app _ _ => .application

theorem rootOf_courses (t : Nameless) (owes : Owes) (row column : Nat) (rows : List Nat) :
    rootOf (t.outline owes row column rows).courses = rootKind t := by
  cases t with
  | bound | free =>
      simp only [Nameless.outline, wireOutline]
      split <;> rfl
  | lam body => simp [Nameless.outline, rootOf, rootKind]
  | app func arg =>
      cases owes <;> simp [Nameless.outline, rootOf, rootKind, elbow]

/-- The outline of a term whose binders have their bars in different rows above it tells the term, given
the wire that it owes. -/
theorem outline_injective {t u : Nameless} {owes : Owes} {row column : Nat} {rows : List Nat}
    (hrows : rows.Nodup) (habove : ∀ top ∈ rows, top < row)
    (ht : Drawable rows.length t) (hu : Drawable rows.length u)
    (hcourses : (t.outline owes row column rows).courses = (u.outline owes row column rows).courses)
    (howed : owes ≠ .nothing →
      (t.outline owes row column rows).hook = (u.outline owes row column rows).hook) :
    t = u := by
  have hroot : rootKind t = rootKind u := by
    rw [← rootOf_courses t owes row column rows, ← rootOf_courses u owes row column rows, hcourses]
  induction t generalizing u owes row column rows with
  | bound i =>
      cases u with
      | bound j =>
          have htop := top_eq_of_wireOutline_eq hcourses howed
          have hi : i < rows.length := ht.indices
          have hj : j < rows.length := hu.indices
          rw [List.getD_eq_getElem _ _ hi, List.getD_eq_getElem _ _ hj] at htop
          rw [(List.Nodup.getElem_inj_iff hrows).mp htop]
      | free => cases hu.closed
      | lam | app => cases hroot
  | free => cases ht.closed
  | lam body ih =>
      cases u with
      | lam body' =>
          have hinner := (List.append_inj' hcourses rfl).1
          have hnodup : (row :: rows).Nodup :=
            List.nodup_cons.mpr ⟨fun h => Nat.lt_irrefl row (habove row h), hrows⟩
          have habove' : ∀ top ∈ row :: rows, top < row + 1 := by
            intro top htop
            rcases List.mem_cons.mp htop with rfl | htop
            · exact Nat.lt_succ_self top
            · exact Nat.lt_succ_of_lt (habove top htop)
          rw [ih hnodup habove' ht.body hu.body hinner howed]
          rw [← rootOf_courses body owes (row + 1) column (row :: rows), hinner, rootOf_courses]
      | bound | free | app => cases hroot
  | app func arg ihf iha =>
      cases u with
      | app func' arg' =>
          obtain ⟨hparts, helbow⟩ := List.append_inj' hcourses rfl
          obtain ⟨hborder, hfunc, harg⟩ := split_partCourses hparts
          obtain ⟨hleft, hright⟩ := hooks_eq_of_elbow_eq (List.singleton_inj.mp helbow) howed
          rw [← hborder] at harg hright
          rw [ihf hrows habove ht.func hu.func hfunc fun _ => hleft,
            iha hrows habove ht.arg hu.arg harg fun _ => hright]
          · rw [← rootOf_courses arg .left row _ rows, harg, rootOf_courses]
          · rw [← rootOf_courses func .right row column rows, hfunc, rootOf_courses]
      | bound | free | lam => cases hroot

/-! ### Diagrams of closed terms -/

theorem drawable_nameless {t : Term} (h : t.isClosed = true) : Drawable 0 t.nameless := by
  refine ⟨t.scoped_namelessIn [], ?_⟩
  rw [Term.freeNames_nameless]
  exact List.isEmpty_iff.mp h

theorem circuitDrawing_of_closed (target : Option Nat) {t : Term} (h : t.isClosed = true) :
    circuitDrawing .unlimited target (.ofTerm t) = .drawn (circuit target t) := by
  have hfree : t.freeNames [] = [] := List.isEmpty_iff.mp h
  simp [circuitDrawing, Draft.draw, Draft.firstFault?_ofTerm, hfree]

theorem fits_circuit {target : Option Nat} {t : Term} {bound : Nat}
    (hwidth : (circuit target t).width ≤ bound) (hheight : (circuit target t).height ≤ bound) :
    ∀ c ∈ (circuit target t).strokes.map Stroke.course, c.Fits bound := by
  have houtline : (sketch target 0 .nothing 0 0 [] none none t).outline
      = t.nameless.outline .nothing 0 0 [] := outline_sketch target 0 .nothing 0 0 [] none none t
  have hright : (t.nameless.outline .nothing 0 0 []).right ≤ bound := by
    rw [← congrArg Outline.right houtline]
    exact (Nat.le_max_right 1 _).trans hwidth
  have hbottom : (t.nameless.outline .nothing 0 0 []).bottom ≤ bound := by
    rw [← congrArg Outline.bottom houtline]
    exact (Nat.le_max_right 1 _).trans hheight
  intro c hc
  rw [map_course_circuit] at hc
  obtain ⟨hfirst, hordered, hlast⟩ := (within_columns .nothing 0 0 [] t.nameless).courses c hc
  have hrows := (within_rows .nothing 0 0 [] t.nameless nofun).courses c hc
  refine ⟨?_, ?_, ?_, hordered⟩
  · intro i hi
    have := hrows i hi
    constructor <;> omega
  · constructor <;> omega
  · constructor <;> omega

theorem courses_eq_iff_alphaEquiv (target target' : Option Nat) {t u : Term}
    (ht : t.isClosed = true) (hu : u.isClosed = true) :
    (circuit target t).strokes.map Stroke.course = (circuit target' u).strokes.map Stroke.course
      ↔ t.AlphaEquiv u := by
  rw [map_course_circuit, map_course_circuit]
  constructor
  · intro h
    exact outline_injective .nil nofun (drawable_nameless ht) (drawable_nameless hu) h fun howed =>
      absurd rfl howed
  · intro h
    rw [h]

theorem points_eq_iff_alphaEquiv {m : Metric} {bound : Nat} (hm : m.Separates bound)
    {target target' : Option Nat} {t u : Term} (ht : t.isClosed = true) (hu : u.isClosed = true)
    (hwidth : (circuit target t).width ≤ bound) (hheight : (circuit target t).height ≤ bound)
    (hwidth' : (circuit target' u).width ≤ bound) (hheight' : (circuit target' u).height ≤ bound) :
    (circuit target t).strokes.map (fun s => (s.course.word, s.course.points m))
        = (circuit target' u).strokes.map (fun s => (s.course.word, s.course.points m))
      ↔ t.AlphaEquiv u := by
  rw [← courses_eq_iff_alphaEquiv target target' ht hu]
  have hmap : ∀ strokes : List Stroke, strokes.map (fun s => (s.course.word, s.course.points m))
      = (strokes.map Stroke.course).map fun c => (c.word, c.points m) := by
    intro strokes
    rw [List.map_map]
    rfl
  rw [hmap, hmap]
  constructor
  · exact courses_eq_of_points_eq hm (fits_circuit hwidth hheight) (fits_circuit hwidth' hheight')
  · intro h
    rw [h]

/-- **Tromp diagrams are faithful**: closed terms are drawn by strokes of the same kinds and points exactly
if they are alpha-equivalent.  This holds of the exact points, and of the points as they are written on
grids that are not larger than binary64 can tell. -/
theorem circuitDrawing_faithful (target target' : Option Nat) (t u : Term)
    (ht : t.isClosed = true) (hu : u.isClosed = true) :
    ∃ c d : Circuit, circuitDrawing .unlimited target (.ofTerm t) = .drawn c ∧
      circuitDrawing .unlimited target' (.ofTerm u) = .drawn d ∧
      (c.strokes.map (fun s => (s.course.word, s.points))
          = d.strokes.map (fun s => (s.course.word, s.points)) ↔ t.AlphaEquiv u) ∧
      (c.width ≤ 2 ^ 50 → c.height ≤ 2 ^ 50 → d.width ≤ 2 ^ 50 → d.height ≤ 2 ^ 50 →
        (c.strokes.map (fun s => (s.course.word, s.writtenPoints))
          = d.strokes.map (fun s => (s.course.word, s.writtenPoints)) ↔ t.AlphaEquiv u)) := by
  refine ⟨_, _, circuitDrawing_of_closed target ht, circuitDrawing_of_closed target' hu, ?_, ?_⟩
  · generalize hc : circuit target t = c
    generalize hd : circuit target' u = d
    have hexact := separates_exact (c.width + c.height + d.width + d.height)
    subst hc hd
    exact points_eq_iff_alphaEquiv hexact ht hu (by omega) (by omega) (by omega) (by omega)
  · intro hwidth hheight hwidth' hheight'
    exact points_eq_iff_alphaEquiv separates_binary64 ht hu hwidth hheight hwidth' hheight'

/-- Applications on both sides, tags, a highlighted redex, and a binder that shadows another. -/
theorem circuitDrawing_faithful_shadowed :
    let t : Term := .app ⟨some "_T", true⟩
      (.lam {} "x" (.app {} (.lam {} "x" (.var {} "x")) (.var {} "x"))) (.lam {} "y" (.var {} "y"))
    let u : Term := .app {}
      (.lam ⟨some "_U", false⟩ "a" (.app {} (.lam {} "b" (.var {} "b")) (.var {} "a")))
      (.lam {} "a" (.var {} "a"))
    t.isClosed = true ∧ u.isClosed = true ∧
      ∃ c d : Circuit, circuitDrawing .unlimited (some 0) (.ofTerm t) = .drawn c ∧
        circuitDrawing .unlimited none (.ofTerm u) = .drawn d ∧
        c.strokes.map (fun s => (s.course.word, s.points))
          = d.strokes.map (fun s => (s.course.word, s.points)) := by
  intro t u
  have ht : t.isClosed = true := by decide
  have hu : u.isClosed = true := by decide
  have hequiv : t.AlphaEquiv u := by decide
  obtain ⟨c, d, hc, hd, hexact, -⟩ := circuitDrawing_faithful (some 0) none t u ht hu
  exact ⟨ht, hu, c, d, hc, hd, hexact.mpr hequiv⟩

end LambdaStepper.Layout
